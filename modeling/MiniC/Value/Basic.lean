import MiniC.Library.Basic
import MiniC.Number.Basic
import MiniC.Tree.Basic

/-!
# Values

What a cell of the store holds and what evaluating a tree gives. Numbers are the rule. A structure
variable is the table of the addresses of its fields; functions and structures are values too, and a
jump is the value of the statement that asks for it.
-/

namespace MiniC

/-- A request to leave a loop or a switch, or to go on with the next turn of a loop. -/
inductive Jump where
  | leave
  | again
  deriving DecidableEq, Repr

def Jump.word : Jump → String
  | leave => "BREAK"
  | again => "CONTINUE"

inductive Value where
  | scalar (s : Scalar)
  | number (n : Number)
  /-- A number that a library declares as a constant. -/
  | constant (n : Number)
  /-- A structure variable. -/
  | record (fields : Table Scalar)
  | function (type : Tree) (name : String) (params : List Tree) (body : Tree)
  | structDef (name : String) (fields : Table VarType)
  | builtin (f : Builtin)
  | jump (j : Jump)
  /-- The store itself, as it is handed to the library functions that change it. -/
  | memory

namespace Value

def nothing : Value := scalar .nothing

/-- The number, constant or not. -/
def number? : Value → Option Number
  | number n => some n
  | constant n => some n
  | _ => none

/-- The number, which has to be there. -/
def asNumber (v : Value) : Except Fault Number :=
  v.number?.elim (.error .noSuchPart) .ok

/-- What a value carries inside: the value of a number, the word of a jump. -/
def content : Value → Except Fault Scalar
  | number n => .ok n.value.toScalar
  | constant n => .ok n.value.toScalar
  | jump j => .ok (.text j.word)
  | _ => .error .noSuchPart

def isNothing : Value → Bool
  | scalar .nothing => true
  | _ => false

/-- Numbers and plain values count as true unless they are zero or empty, a structure variable
unless it has no fields, and everything else always. -/
def truth : Value → Bool
  | scalar s => s.truth
  | number n => n.truth
  | constant n => n.truth
  | record fields => !fields.isEmpty
  | _ => true

/-- The plain value that a number is made from; other values have none. -/
def plain : Value → Except Fault Scalar
  | scalar s => .ok s
  | number n => .ok n.value.toScalar
  | constant n => .ok n.value.toScalar
  | _ => .error .wrongKind

/-- The double that a value stands for. A text stands for none. -/
def toReal : Value → Except Fault Float
  | scalar (.text _) => .error .wrongKind
  | scalar s => s.toReal
  | _ => .error .wrongKind

def entry (v : Value) (name : String) : Except Fault Scalar :=
  match v with
  | record fields => (fields.get? name).elim (.error .noSuchKey) .ok
  | _ => .error .wrongKind

end Value

end MiniC
