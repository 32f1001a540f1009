import MiniC.Store.Address
import MiniC.Text.Padded
import MiniC.Value.Basic

/-!
# The store

Names are bound in scopes, to an address or to a constant. There is one global scope, and a stack of
frames, one for each function that is running; a frame is a chain of nested scopes. Cells hold the
values and are found by address. Addresses are handed out in ascending order from a fixed start, and
a cell stays when the scope that names it is left.
-/

namespace MiniC

inductive Binding where
  | at (address : Scalar)
  | constant (n : Number)
  deriving DecidableEq

structure Scope where
  name : String
  entries : Table Binding
  deriving DecidableEq

structure Frame where
  name : String
  /-- The nested scopes, innermost first. -/
  scopes : List Scope
  deriving DecidableEq

/-- A cell, with the address as it was first written. -/
structure Cell where
  label : Scalar
  value : Value

structure Store where
  globals : Scope
  frames : List Frame
  cells : AddressMap Cell
  next : Scalar
  /-- The blocks that were allocated on demand and not yet released. -/
  dynamic : AddressMap Scalar

namespace Store

def startAddress : Int := 1000000

def empty : Store where
  globals := ⟨"global_scope", []⟩
  frames := []
  cells := ∅
  next := .int startAddress
  dynamic := ∅

/-! ## Scopes and frames -/

/-- The innermost scope; a frame may have lost all its scopes. -/
def currentScope? (s : Store) : Option Scope :=
  match s.frames with
  | [] => some s.globals
  | f :: _ => f.scopes.head?

def bind (s : Store) (name : String) (b : Binding) : Except Fault Store :=
  match s.frames with
  | [] => .ok { s with globals := { s.globals with entries := s.globals.entries.put name b } }
  | f :: fs =>
    match f.scopes with
    | [] => .error .wrongKind
    | c :: cs =>
      let c := { c with entries := c.entries.put name b }
      .ok { s with frames := { f with scopes := c :: cs } :: fs }

/-- The innermost scope of the current frame, or else the global scope, that binds a name. While no
function is running the global scope is taken without asking. -/
def scopeOf (s : Store) (name : String) : Except Fault Scope :=
  match s.frames with
  | [] => .ok s.globals
  | f :: _ =>
    match f.scopes.find? (·.entries.has name) with
    | some c => .ok c
    | none => if s.globals.entries.has name then .ok s.globals else .error (.unbound name)

def lookup (s : Store) (name : String) : Except Fault Binding := do
  let c ← s.scopeOf name
  (c.entries.get? name).elim (.error .noSuchKey) .ok

/-- Whether a name is itself one of the scopes of the current frame, which no name is. -/
def frameContains (s : Store) (_ : String) : Except Fault Bool :=
  if s.frames.isEmpty then .error .wrongKind else .ok false

def pushFrame (s : Store) (name : String) : Store :=
  { s with frames := ⟨name, [⟨name ++ ".scope_00", []⟩]⟩ :: s.frames }

def popFrame (s : Store) : Except Fault Store :=
  match s.frames with
  | [] => .error .noSuchIndex
  | _ :: fs => .ok { s with frames := fs }

/-- The name of a scope inside another one: the last two digits are counted up. -/
def innerName (name : String) : String :=
  let cs := name.toList
  let front := cs.take (cs.length - 2)
  let count := Text.digitsValue (cs.drop (cs.length - 2))
  String.ofList front ++ Text.twoDigits (count + 1)

def pushScope (s : Store) : Except Fault Store :=
  match s.frames with
  | f :: fs =>
    match f.scopes with
    | c :: cs =>
      .ok { s with frames := { f with scopes := ⟨innerName c.name, []⟩ :: c :: cs } :: fs }
    | [] => .error .noSuchPart
  | [] => .error .noSuchPart

def popScope (s : Store) : Except Fault Store :=
  match s.frames with
  | f :: fs =>
    match f.scopes with
    | _ :: cs => .ok { s with frames := { f with scopes := cs } :: fs }
    | [] => .error .noSuchPart
  | [] => .error .noSuchPart

/-! ## Cells -/

def read? (s : Store) (a : Scalar) : Option Value :=
  (s.cells[Address.ofScalar a]?).map (·.value)

def write (s : Store) (a : Scalar) (v : Value) : Store :=
  let key := Address.ofScalar a
  let label := (s.cells[key]?.map (·.label)).getD a
  { s with cells := s.cells.insert key ⟨label, v⟩ }

theorem read?_write_self (s : Store) (a : Scalar) (v : Value) : (s.write a v).read? a = some v := by
  simp [read?, write]

theorem read?_write_of_ne (s : Store) {a b : Scalar} (v : Value)
    (h : Address.ofScalar a ≠ Address.ofScalar b) : (s.write a v).read? b = s.read? b := by
  have hc : Address.compare (Address.ofScalar a) (Address.ofScalar b) ≠ .eq :=
    fun he => h (Std.LawfulEqCmp.eq_of_compare he)
  simp [read?, write, Std.ExtTreeMap.getElem?_insert, hc]

end Store

end MiniC
