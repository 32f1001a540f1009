/-!
# Doubles and exact fractions

A finite double is a signed natural number times a power of two. The passage to that form loses
nothing, and the passage back rounds a fraction to the nearest double, a half going to the even
neighbour. Every conversion between numbers and text goes through these two functions.
-/

namespace MiniC.Decimal

/-- A finite double: `mantissa * 2 ^ exponent`, negated if `negative`. -/
structure Parts where
  negative : Bool
  mantissa : Nat
  exponent : Int
  deriving DecidableEq, Repr

inductive Shape where
  | nan
  | infinite (negative : Bool)
  | finite (parts : Parts)
  deriving DecidableEq, Repr

def shape (x : Float) : Shape :=
  let bits := x.toBits.toNat
  let negative := decide (Nat.pow 2 63 ≤ bits)
  let biased : Nat := bits / Nat.pow 2 52 % 2048
  let fraction := bits % Nat.pow 2 52
  if biased = 2047 then if fraction = 0 then .infinite negative else .nan
  else if biased = 0 then .finite ⟨negative, fraction, -1074⟩
  else .finite ⟨negative, fraction + Nat.pow 2 52, (biased : Int) - 1075⟩

/-- The natural number nearest to `num / den`, a half going to the even neighbour. -/
def roundDiv (num den : Nat) : Nat :=
  let q := num / den
  let r := num % den
  if 2 * r < den then q
  else if den < 2 * r then q + 1
  else q + q % 2

/-- Numerator and denominator of `n * 2 ^ e`. -/
def dyadic (n : Nat) (e : Int) : Nat × Nat :=
  (n * Nat.pow 2 e.toNat, Nat.pow 2 (-e).toNat)

/-- Numerator and denominator of `num / den * 10 ^ e`. -/
def scaleTen (num den : Nat) (e : Int) : Nat × Nat :=
  (num * Nat.pow 10 e.toNat, den * Nat.pow 10 (-e).toNat)

def signed (negative : Bool) (n : Nat) : Int :=
  if negative then -(n : Int) else n

def infinity (negative : Bool) : Float :=
  Float.ofBits (if negative then 0xFFF0000000000000 else 0x7FF0000000000000)

def nan : Float := Float.ofBits 0x7FF8000000000000

def zero (negative : Bool) : Float :=
  Float.ofBits (if negative then 0x8000000000000000 else 0)

/-- The bits, without the sign, of the double nearest to `num / den`. They reach `beyond` if the
fraction is beyond the largest double. -/
def ratioBits (num den : Nat) : Nat :=
  if num = 0 then 0
  else
    let low : Int := num.log2 - den.log2 - 53
    let fit := dyadic den (53 + low)
    let e := max (-1074) (if fit.1 ≤ num * fit.2 then low + 1 else low)
    let unit := dyadic den e
    (e + 1074).toNat * Nat.pow 2 52 + roundDiv (num * unit.2) unit.1

def beyond : Nat := 2047 * Nat.pow 2 52

/-- The double nearest to `num / den`, an infinity if the fraction is beyond the largest double. -/
def ofRatio (negative : Bool) (num den : Nat) : Float :=
  let bits := ratioBits num den
  if beyond ≤ bits then infinity negative
  else Float.ofBits (UInt64.ofNat (if negative then bits + Nat.pow 2 63 else bits))

def ofInt? (n : Int) : Option Float :=
  if beyond ≤ ratioBits n.natAbs 1 then none else some (ofRatio (n < 0) n.natAbs 1)

def Parts.truncate (p : Parts) : Int :=
  let (num, den) := dyadic p.mantissa p.exponent
  signed p.negative (num / den)

def Parts.round (p : Parts) : Int :=
  let (num, den) := dyadic p.mantissa p.exponent
  signed p.negative (roundDiv num den)

def Parts.floor (p : Parts) : Int :=
  let (num, den) := dyadic p.mantissa p.exponent
  Int.fdiv (signed p.negative num) den

def Parts.ceil (p : Parts) : Int :=
  let (num, den) := dyadic p.mantissa p.exponent
  Int.neg (Int.fdiv (signed (!p.negative) num) den)

def Parts.isWhole (p : Parts) : Bool :=
  let (num, den) := dyadic p.mantissa p.exponent
  num % den == 0

/-- The remainder of a division whose quotient is rounded towards zero. It is exact, and has the
sign of the dividend. -/
def Parts.remainder (x y : Parts) : Float :=
  let e := min x.exponent y.exponent
  let r := x.mantissa * Nat.pow 2 (x.exponent - e).toNat %
    (y.mantissa * Nat.pow 2 (y.exponent - e).toNat)
  let (num, den) := dyadic r e
  ofRatio x.negative num den

/-- The remainder of a division whose quotient is rounded down: it has the sign of the divisor, a
zero included. The divisor is not zero. -/
def floorMod (x y : Float) : Float :=
  match shape x, shape y with
  | .finite p, .finite q =>
    let r := p.remainder q
    if r == 0 then zero q.negative
    else if p.negative != q.negative then r + y
    else r
  | .finite p, .infinite negative =>
    if p.mantissa = 0 then zero negative
    else if p.negative != negative then y
    else x
  | _, _ => nan

end MiniC.Decimal
