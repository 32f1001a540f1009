import MiniC.Machine.Memory

/-!
# Places

The address that the target of an assignment stands for: a variable has its own, a dereferenced
variable holds it, and a field has an entry in the table of its structure variable.
-/

namespace MiniC.Eval

def nameOf (t : Tree) : Run String :=
  match t.name? with
  | some name => return name
  | none => throw .noSuchPart

def typeOf (t : Tree) : Run VarType :=
  match t.type? with
  | some type => return type
  | none => throw .noSuchPart

def addressOf (name : String) : Run Scalar := do
  match ← Run.lookup name with
  | .at a => return a
  | .constant _ => throw .wrongKind

def pointedBy (t : Tree) : Run Scalar := do
  Run.ofExcept (← Run.readName (← nameOf t)).content

def entryOf (v : Value) (member : Tree) : Run Scalar := do
  Run.ofExcept (v.entry (← nameOf member))

/-- The address of a field. An arrow goes through the address that the base holds. -/
def fieldAddress (op : Kind) (base member : Tree) : Run Scalar := do
  if op = .arrow then
    entryOf (← Run.readAt (← pointedBy base)) member
  else
    entryOf (← Run.readName (← nameOf base)) member

def fieldValue (op : Kind) (base member : Tree) : Run Value := do
  Run.readAt (← fieldAddress op base member)

/-- The address that the target of an assignment stands for. -/
def place : Tree → Run Scalar
  | .var token _ => addressOf token.value.render
  | .unary _ operand _ _ => pointedBy operand
  | .cast _ operand _ _ => pointedBy operand
  | .field op base member _ => fieldAddress op base member
  | .binary left _ right _ => do entryOf (← Run.readName (← nameOf left)) right
  | _ => throw .notAssignable

end MiniC.Eval
