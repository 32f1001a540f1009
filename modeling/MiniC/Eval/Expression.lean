import MiniC.Eval.Place
import MiniC.Value.Arithmetic

/-!
# Evaluating expressions

The rules for the nodes of expressions. Each takes the evaluation of the parts of a node as an
argument, so that a rule says how the values of the parts give the value of the whole. Operands are
evaluated from left to right. A rule can be followed by every kind of computation that is able to do
what a run does, for instance by one that also keeps a record.
-/

namespace MiniC.Eval

/-- The evaluation of trees by computations of a kind. -/
abbrev Evaluator (M : Type → Type) := Tree → M Value

def literal (t : Token) : Run Value := do
  match t.kind with
  | .integerConst => return .number (← Run.makeNumber .int t.value)
  | .charConst => return .number (← Run.makeNumber .char t.value)
  | .realConst => return .number (← Run.makeNumber .double t.value)
  | _ => throw .unknownConstant

/-- A number of a type that is made from a value. There is none of a structure type. -/
def convert (t : VarType) (v : Value) : Run Value := do
  match t with
  | .number t => return .number (← Run.numberOf t v)
  | .struct _ => throw .noSuchPart

/-- The operators that combine the values of both their operands. Formatting may show the store. -/
def operator? : Kind → Option (Store → Value → Value → Except Fault Value)
  | .plus => some fun _ => Value.add
  | .minus => some fun _ => Value.sub
  | .asterisk => some fun _ => Value.mul
  | .divOp => some fun _ => Value.div
  | .modOp => some Value.mod
  | .ltOp => some fun _ => Value.compare .lt
  | .gtOp => some fun _ => Value.compare .gt
  | .leOp => some fun _ => Value.compare .le
  | .geOp => some fun _ => Value.compare .ge
  | .eqOp => some fun _ => Value.compare .eq
  | .neOp => some fun _ => Value.compare .ne
  | .ampersand => some fun _ => Value.bits and
  | .orOp => some fun _ => Value.union
  | .xorOp => some fun _ => Value.bits xor
  | _ => none

/-- An arrow between two operands, which reads the entry of a structure variable but has no value.
-/
def arrow (left right : Tree) : Run Value := do
  let a ← entryOf (← Run.readName (← nameOf left)) right
  let _ ← Run.readAt a
  return .nothing

def combine (f : Store → Value → Value → Except Fault Value) (a b : Value) : Run Value := do
  Run.ofExcept (f (← Run.getStore) a b)

section

variable {M : Type → Type} [Monad M] [MonadLiftT Run M]

/-- An operator between two operands. The logical operators give the value of the operand that
decides. The shifts have no value. -/
@[specialize]
def binary (eval : Evaluator M) (left : Tree) (op : Token) (right : Tree) : M Value := do
  match op.kind with
  | .logAndOp =>
    let v ← eval left
    if v.truth then eval right else return v
  | .logOrOp =>
    let v ← eval left
    if v.truth then return v else eval right
  | .arrow => arrow left right
  | k =>
    match operator? k with
    | some f =>
      let a ← eval left
      let b ← eval right
      combine f a b
    | none => return .nothing

/-- Replaces the value at a place by one of the same type, and gives the old and the new value. -/
@[specialize]
def update (a : Scalar) (f : Value → M Value) : M (Value × Value) := do
  let old ← Run.readAt a
  let v ← f old
  Run.writeAt a v
  return (old, v)

end

def step (f : Value → Value → Except Fault Value) (target : Tree) : Run (Value × Value) := do
  let a ← place target
  update a fun old => do
    let n ← Run.ofExcept old.asNumber
    let one ← Run.makeNumber .int (.int 1)
    convert (.number n.ctype) (← Run.ofExcept (f old (.number one)))

def referTo (operand : Tree) : Run Value := do
  match ← Run.lookup (← nameOf operand) with
  | .at a => return .number (← Run.makeNumber .int a)
  | .constant n => return .number (← Run.makeNumber .int n.value.toScalar)

def dereference (v : Value) : Run Value := do
  Run.readAt (← Run.ofExcept v.content)

def negate (v : Value) : Run Value := do
  let n ← Run.ofExcept v.asNumber
  return .number (← Run.ofExcept n.logNeg)

@[specialize]
def before {M : Type → Type} [Monad M] [MonadLiftT Run M] (eval : Evaluator M) (op : Kind)
    (operand : Tree) : M Value := do
  match op with
  | .ampersand => referTo operand
  | .asterisk =>
    let v ← eval operand
    dereference v
  | .incOp => return (← step Value.add operand).2
  | .decOp => return (← step Value.sub operand).2
  | .minus =>
    let minusOne ← Run.makeNumber .int (.int (-1))
    let v ← eval operand
    Run.ofExcept (Value.mul (.number minusOne) v)
  | .plus => eval operand
  | .logNeg =>
    let v ← eval operand
    negate v
  | _ => Run.fail .unknownPrefixOperator

/-- An operator behind its operand, which gives the old value. -/
def behind (op : Kind) (operand : Tree) : Run Value := do
  match op with
  | .incOp => return (← step Value.add operand).1
  | .decOp => return (← step Value.sub operand).1
  | _ => throw .unknownPostfixOperator

/-- The operator that an assignment applies to the old and the given value. -/
def assignment? : Kind → Option (Value → Value → Except Fault Value)
  | .assign => some fun _ v => .ok v
  | .addAssign => some Value.add
  | .subAssign => some Value.sub
  | .mulAssign => some Value.mul
  | .divAssign => some Value.div
  | _ => none

/-- The value that an assignment gives to a place, of the type of the old one. -/
def assigned (op : Kind) (old given : Value) : Run Value := do
  match assignment? op with
  | some f =>
    let n ← Run.ofExcept old.asNumber
    convert (.number n.ctype) (← Run.ofExcept (f old given))
  | none => throw (.unknownAssignment op)

section

variable {M : Type → Type} [Monad M] [MonadLiftT Run M]

/-- A conversion. Only arithmetic types can be converted to, and only in front. -/
@[specialize]
def cast (eval : Evaluator M) (target operand : Tree) (inFront : Bool) : M Value := do
  match target, inFront with
  | .typeName t _, true => convert t (← eval operand)
  | _, _ => Run.fail .noSuchPart

/-- An assignment. The old value is read before the right side is evaluated. -/
@[specialize]
def assign (eval : Evaluator M) (target : Tree) (op : Token) (value : Tree) : M Value := do
  let a ← place target
  let r ← update a fun old => do assigned op.kind old (← eval value)
  return r.2

/-- Expressions one after the other; the last one gives the value. -/
@[specialize]
def sequence (eval : Evaluator M) (v : Value) : List Tree → M Value
  | [] => return v
  | t :: ts => do sequence eval (← eval t) ts

end

end MiniC.Eval
