import MiniC.Scalar.Arithmetic

/-!
# Arithmetic of numbers

Both operands are brought to their combined type, and the result is a number of that type. Integer
division rounds down, and the remainder has the sign of the divisor. Only addition knows pointers:
the right operand is scaled by the size of what the left one points to. Comparisons give an `int`
that is zero or one.
-/

namespace MiniC.Number

def operands (t : CType) (a b : Number) : Except Fault (Num × Num) := do
  return (← t.convert a.value.toScalar, ← t.convert b.value.toScalar)

def lift (f : Num → Num → Except Fault Num) (a b : Number) : Except Fault Number := do
  let t ← a.ctype.combine b.ctype
  let (x, y) ← operands t a b
  ofScalar t (← f x y).toScalar

def add (a b : Number) : Except Fault Number :=
  if a.ctype.pointer then do
    let size ← a.ctype.dereference.size
    ofScalar a.ctype (← a.value.add (← b.value.mul (.int size))).toScalar
  else lift Num.add a b

/-- Pointers cannot be subtracted from. -/
def sub (a b : Number) : Except Fault Number :=
  if a.ctype.pointer then .error .wrongKind else lift Num.sub a b

def mul (a b : Number) : Except Fault Number :=
  lift Num.mul a b

/-- The quotient: of integers rounded down, of doubles to the nearest double. -/
def quotient (x y : Num) : Except Fault Num :=
  match x, y with
  | .int m, .int n => if n = 0 then .error .divisionByZero else .ok (.int (Int.fdiv m n))
  | x, y => x.divide y

def div (a b : Number) : Except Fault Number :=
  lift quotient a b

def mod (a b : Number) : Except Fault Number := do
  let t ← a.ctype.combine b.ctype
  if t.isReal then .error (.remainderOfReals a.ctype b.ctype)
  else
    let (x, y) ← operands t a b
    ofScalar t (← x.modulo y).toScalar

def compare (c : Comparison) (a b : Number) : Except Fault Number := do
  let t ← a.ctype.combine b.ctype
  let (x, y) ← operands t a b
  ofInt (if c.holds (x.order? y) then 1 else 0)

/-- A bitwise operation; there is none on doubles. -/
def bits (f : Bool → Bool → Bool) (a b : Number) : Except Fault Number :=
  lift (fun x y =>
    match x, y with
    | .int m, .int n => .ok (.int (bitwise f m n))
    | _, _ => .error .wrongKind) a b

/-- An operator that would replace its left operand. The number that it gives is no plain value, so
it cannot be converted to the type of the operand. -/
def inPlace (f : Number → Number → Except Fault Number) (a b : Number) : Except Fault Number := do
  let _ ← f a b
  throw .wrongKind

/-- One if the number counts as true, and zero if it does not. -/
def logNeg (a : Number) : Except Fault Number :=
  ofInt (if a.truth then 1 else 0)

end MiniC.Number
