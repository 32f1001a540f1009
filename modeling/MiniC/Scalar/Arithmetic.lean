import MiniC.Number.Basic

/-!
# Operators on plain values

Truth values, integers and doubles can be mixed; the result is a double if one operand is, and for a
division always. Texts can be joined, repeated and compared. All other combinations are refused,
except that any two values can be tested for equality.
-/

namespace MiniC

/-- Bitwise operators on integers, which are taken as sequences of bits that go on without end: with
zeros for the natural numbers and with ones for the negative ones. -/
def bitwise (f : Bool → Bool → Bool) (a b : Int) : Int :=
  let flipA := decide (a < 0)
  let flipB := decide (b < 0)
  let bits (flip : Bool) (n : Int) : Nat := if flip then (-n - 1).toNat else n.toNat
  let r := Nat.bitwise (fun x y => f (x != flipA) (y != flipB) != f flipA flipB)
    (bits flipA a) (bits flipB b)
  if f flipA flipB then -(r : Int) - 1 else r

namespace Num

def asReals (a b : Num) : Except Fault (Float × Float) := do
  return (← a.toScalar.toReal, ← b.toScalar.toReal)

def add (a b : Num) : Except Fault Num :=
  match a, b with
  | int m, int n => .ok (int (m + n))
  | a, b => do let (x, y) ← asReals a b; return real (x + y)

def sub (a b : Num) : Except Fault Num :=
  match a, b with
  | int m, int n => .ok (int (m - n))
  | a, b => do let (x, y) ← asReals a b; return real (x - y)

def mul (a b : Num) : Except Fault Num :=
  match a, b with
  | int m, int n => .ok (int (m * n))
  | a, b => do let (x, y) ← asReals a b; return real (x * y)

def divide (a b : Num) : Except Fault Num :=
  match a, b with
  | int m, int n =>
    if n = 0 then .error .divisionByZero
    else
      let x := Decimal.ofRatio ((m < 0) != (n < 0)) m.natAbs n.natAbs
      match Decimal.shape x with
      | .finite _ => .ok (real x)
      | _ => .error .overflow
  | a, b => do
    let (x, y) ← asReals a b
    if y == 0 then .error .divisionByZero else return real (x / y)

/-- The remainder, which has the sign of the divisor. -/
def modulo (a b : Num) : Except Fault Num :=
  match a, b with
  | int m, int n => if n = 0 then .error .divisionByZero else .ok (int (Int.fmod m n))
  | a, b => do
    let (x, y) ← asReals a b
    if y == 0 then .error .divisionByZero else return real (Decimal.floorMod x y)

/-- The order of two numbers, taken exactly. There is none if one of them is not a number. -/
def order? (a b : Num) : Option Ordering :=
  let exact (v : Num) : Option (Int × Nat ⊕ Bool) :=
    match v with
    | int n => some (.inl (n, 1))
    | real x =>
      match Decimal.shape x with
      | .nan => none
      | .infinite negative => some (.inr negative)
      | .finite p =>
        let (num, den) := Decimal.dyadic p.mantissa p.exponent
        some (.inl (Decimal.signed p.negative num, den))
  match exact a, exact b with
  | some (.inl (m, d)), some (.inl (n, e)) => some (compare (m * e) (n * d))
  | some (.inr negative), some (.inl _) => some (if negative then .lt else .gt)
  | some (.inl _), some (.inr negative) => some (if negative then .gt else .lt)
  | some (.inr s), some (.inr t) => some (compare (!s) (!t))
  | _, _ => none

end Num

inductive Comparison where
  | lt | gt | le | ge | eq | ne
  deriving DecidableEq

namespace Comparison

/-- Whether a comparison holds of two values in an order; without an order only `ne` does. -/
def holds (c : Comparison) (o : Option Ordering) : Bool :=
  match c with
  | lt => o == some .lt
  | gt => o == some .gt
  | le => o == some .lt || o == some .eq
  | ge => o == some .gt || o == some .eq
  | eq => o == some .eq
  | ne => o != some .eq

end Comparison

namespace Scalar

def num? : Scalar → Option Num
  | bool b => some (.int (if b then 1 else 0))
  | int n => some (.int n)
  | real x => some (.real x)
  | _ => none

def arith (f : Num → Num → Except Fault Num) (a b : Scalar) : Except Fault Scalar :=
  match a.num?, b.num? with
  | some x, some y => Num.toScalar <$> f x y
  | _, _ => .error .wrongKind

def add (a b : Scalar) : Except Fault Scalar :=
  match a, b with
  | text s, text t => .ok (text (s ++ t))
  | a, b => arith Num.add a b

def sub (a b : Scalar) : Except Fault Scalar :=
  arith Num.sub a b

/-- A text repeated; not at all if the count is negative. -/
def repeatText (s : String) (n : Int) : Scalar :=
  text (String.join (List.replicate n.toNat s))

def mul (a b : Scalar) : Except Fault Scalar :=
  match a, b with
  | text s, b => b.asInt?.elim (.error .wrongKind) fun n => .ok (repeatText s n)
  | a, text s => a.asInt?.elim (.error .wrongKind) fun n => .ok (repeatText s n)
  | a, b => arith Num.mul a b

def divide (a b : Scalar) : Except Fault Scalar :=
  arith Num.divide a b

def modulo (a b : Scalar) : Except Fault Scalar :=
  arith Num.modulo a b

/-- A bitwise operator: a truth value if both operands are. -/
def bits (f : Bool → Bool → Bool) (a b : Scalar) : Except Fault Scalar :=
  match a, b with
  | bool x, bool y => .ok (bool (f x y))
  | a, b =>
    match a.asInt?, b.asInt? with
    | some m, some n => .ok (int (bitwise f m n))
    | _, _ => .error .wrongKind

/-- Numbers are compared by value and texts character by character. Other values are only tested for
being the same. -/
def compare (c : Comparison) (a b : Scalar) : Except Fault Scalar :=
  match a, b with
  | text s, text t => .ok (bool (c.holds (some (Ord.compare s t))))
  | a, b =>
    match a.num?, b.num? with
    | some x, some y => .ok (bool (c.holds (x.order? y)))
    | _, _ =>
      match c with
      | .eq => .ok (bool (a == b))
      | .ne => .ok (bool (a != b))
      | _ => .error .wrongKind

end Scalar

end MiniC
