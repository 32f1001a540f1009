import MiniC.Analysis.Finding
import MiniC.Number.Basic

/-!
# Types of expressions

The type of an expression from the types of its parts, or why there is none. Something of which no
type is known has neither a base type nor can it be a pointer, so that asking for either fails.
-/

namespace MiniC

/-- Why a program is rejected: an error of the program, or trees that do not fit together. -/
inductive Rejection where
  | error (e : SemanticError)
  | fault (f : Fault)
  deriving DecidableEq

namespace Typing

def int : Typing := type (.number .int)

/-- Whether two types are the same. Structure types are so only if they come from one place in the
program. -/
def same : Typing → Typing → Bool
  | nothing, nothing => true
  | type (.number a), type (.number b) => a.same b
  | type (.struct a), type (.struct b) => a.mark == b.mark
  | _, _ => false

def isPointer : Typing → Except Rejection Bool
  | type (.number t) => .ok t.pointer
  | type (.struct t) => .ok t.pointer
  | _ => .error (.fault .noSuchPart)

/-- Whether the base type is `int`, also that of a pointer. -/
def isInt : Typing → Except Rejection Bool
  | type (.number t) => .ok (t.base = some .int)
  | _ => .error (.fault .noSuchPart)

def dereference : Typing → Except Rejection Typing
  | type (.number t) => .ok (type (.number t.dereference))
  | _ => .error (.fault .noSuchPart)

def combine : Typing → Typing → Except Rejection Typing
  | type (.number a), type (.number b) =>
    match a.combine b with
    | .ok t => .ok (type (.number t))
    | .error f => .error (.fault f)
  | type _, type _ => .error (.fault .outsideDomain)
  | _, _ => .error (.fault .noSuchPart)

def parameterType : Typing → Except Rejection Typing
  | parameter _ t => .ok (type t)
  | _ => .error (.fault .noSuchPart)

end Typing

namespace Analysis

def isPlace : Tree → Except Rejection Bool
  | .var .. => .ok true
  | .unary op (.var ..) _ _ => .ok (op.kind = .asterisk)
  | .cast .. => .error (.fault .noSuchPart)
  | .field .. => .ok true
  | _ => .ok false

def isBitwise : Kind → Bool
  | .ampersand | .orOp | .xorOp => true
  | _ => false

def takesPointer : Kind → Bool
  | .plus | .minus | .neOp => true
  | _ => false

def binaryType (op : Kind) (line : Nat) (left right : Typing) : Except Rejection Typing := do
  if isBitwise op then
    unless ← left.isInt do throw (.error (.bitwiseOperands left right op line))
    unless ← right.isInt do throw (.error (.bitwiseOperands left right op line))
  if ← left.isPointer then
    if ← right.isPointer then throw (.error (.twoPointers left right op line))
    unless ← right.isInt do throw (.error (.pointerOperands left right op line))
    unless takesPointer op do throw (.error (.pointerOperands left right op line))
    return left
  else if ← right.isPointer then
    unless ← left.isInt do throw (.error (.pointerOperands left right op line))
    unless takesPointer op do throw (.error (.pointerOperands left right op line))
    return right
  else left.combine right

def isStep : Kind → Bool
  | .incOp | .decOp => true
  | _ => false

def unaryType (op : Kind) (line : Nat) (operand : Tree) (t : Typing) : Except Rejection Typing := do
  if isStep op then
    unless ← isPlace operand do throw (.error (.steppedNoPlace operand.className op line))
  if op = .asterisk then
    if ← t.isPointer then t.dereference
    else if ← t.isInt then t.dereference
    else throw (.error (.dereferenced t line))
  else
    if ← t.isPointer then
      unless isStep op || op = .ampersand do throw (.error (.pointerOperand t op line))
    return if op = .ampersand then .int else t

def castType : Tree → Except Rejection Typing
  | .typeName t _ => .ok (.type t)
  | _ => .error (.fault .noSuchPart)

/-- Whether a value of a type may be assigned to a pointer: an integer, also after adding or
subtracting, or a pointer of the same type. -/
def pointerTakes (op : Kind) (left right : Typing) : Except Rejection Bool := do
  match op with
  | .addAssign => right.isInt
  | .subAssign => right.isInt
  | .assign =>
    if ← right.isPointer then
      if left.same right then return true
    right.isInt
  | _ => return false

/-- The type of an assignment, which is that of its right side, and perhaps a warning. -/
def assignType (op : Kind) (line : Nat) (target : Tree) (left right : Typing) :
    Except Rejection (Typing × Option Warning) := do
  unless ← isPlace target do throw (.error (.assignedNoPlace target.className op line))
  if ← left.isPointer then
    unless ← pointerTakes op left right do throw (.error (.pointerAssignment left right op line))
    return (right, none)
  else if left.same right then return (right, none)
  else return (right, some (.assignment left right line))

def literalType (t : Token) : Except Rejection Typing :=
  match t.kind with
  | .integerConst => .ok (.type (.number .int))
  | .charConst => .ok (.type (.number .char))
  | .realConst => .ok (.type (.number .float))
  | k => .error (.error (.unknownLiteral k))

def namedType (t : VarType) (line : Nat) : Except Rejection Typing :=
  match t with
  | .number c =>
    if (if c.pointer then c.dereference else c).isArithmetic then .ok (.type t)
    else .error (.error (.invalidType t line))
  | .struct s =>
    if s.pointer then .error (.fault .noSuchPart) else .error (.error (.invalidType t line))

end Analysis

end MiniC
