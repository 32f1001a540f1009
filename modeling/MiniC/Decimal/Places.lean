import MiniC.Decimal.Shortest

/-!
# Decimals with a given number of places

The three layouts of a printed real: a fixed number of places behind the point, one digit before the
point and an exponent, and the shorter of the two with a given number of significant digits. The
value is rounded from the exact double, a half going to the even neighbour.
-/

namespace MiniC.Decimal

/-- Puts the point before the last `places` digits; `forced` keeps it with no places behind it. -/
def insertPoint (digits : List Char) (places : Nat) (forced : Bool) : List Char :=
  let padded := List.replicate (places + 1 - digits.length) '0' ++ digits
  let whole := padded.take (padded.length - places)
  if places = 0 then if forced then whole ++ ['.'] else whole
  else whole ++ '.' :: padded.drop (padded.length - places)

def fixed (p : Parts) (places : Nat) (forced : Bool) : List Char :=
  let (num, den) := dyadic p.mantissa p.exponent
  insertPoint (Nat.toDigits 10 (roundDiv (num * Nat.pow 10 places) den)) places forced

/-- A number of significant digits, at least one, and the exponent of the first. -/
def significant (p : Parts) (count : Nat) : List Char × Int :=
  if p.mantissa = 0 then (List.replicate count '0', 0)
  else
    let (num, den) := dyadic p.mantissa p.exponent
    let point := pointOf num den
    let (n, d) := scaleTen num den (count - point)
    let ds := Nat.toDigits 10 (roundDiv n d)
    if count < ds.length then (ds.take count, point) else (ds, point - 1)

/-- One digit before the point, a number of places behind it, and an exponent. -/
def scientific (p : Parts) (places : Nat) (forced : Bool) (mark : Char) : List Char :=
  let (ds, e) := significant p (places + 1)
  insertPoint ds places forced ++ exponentPart mark e

/-- A number of significant digits, with an exponent below -4 or from that number on; trailing zeros
of the fraction are dropped unless `forced`. -/
def general (p : Parts) (count : Nat) (forced : Bool) (mark : Char) : List Char :=
  let (ds, e) := significant p count
  if -4 ≤ e ∧ e < count then
    let places := (count - 1 - e).toNat
    let kept := if forced then ds else dropZeros ds
    let places := places - (ds.length - kept.length)
    let digits := if kept.length < e.toNat + 1 ∧ 0 ≤ e then
        kept ++ List.replicate (e.toNat + 1 - kept.length) '0' else kept
    insertPoint (if digits.isEmpty then ['0'] else digits) places forced
  else
    let kept := if forced then ds else dropZeros ds
    insertPoint kept (kept.length - 1) forced ++ exponentPart mark e

end MiniC.Decimal
