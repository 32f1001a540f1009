import MiniC.Decimal.Double

/-!
# Shortest decimals

A double is written with the fewest decimal digits that read back as the same double; of two such
decimals of one length the nearer is taken. The search is exact: for each length the two neighbours
of the double on the grid of decimals of that length are compared with the ends of the interval of
reals that round to it.
-/

namespace MiniC.Decimal

/-- A decimal: the digits, the first of which is not zero, with the point before the first one moved
`point` places to the right. -/
structure Digits where
  digits : List Char
  point : Int
  deriving DecidableEq, Repr

/-- The least `k` with `num / den < 10 ^ k`, searched upwards from a first guess. -/
def pointFrom (num den : Nat) : Nat → Int → Int
  | 0, k => k
  | fuel + 1, k =>
    let bound := scaleTen 1 1 k
    if num * bound.2 < bound.1 * den then k else pointFrom num den fuel (k + 1)

/-- The number of digits before the decimal point of a positive fraction; not positive if the first
digit stands behind it. -/
def pointOf (num den : Nat) : Int :=
  pointFrom num den 4 (Int.fdiv (((num.log2 : Int) - den.log2 - 1) * 30103) 100000)

/-- Of the neighbours of `num / den` in the integers, the nearest one between `low / den` and
`high / den`; the ends count if `closed`. -/
def nearestWithin (closed : Bool) (low num high den : Nat) : Option Nat :=
  let f := num / den
  let inside (c : Nat) : Bool :=
    if closed then low ≤ c * den && c * den ≤ high else low < c * den && c * den < high
  let nearer := roundDiv num den
  if inside nearer then some nearer
  else if inside f then some f
  else if inside (f + 1) then some (f + 1)
  else none

/-- Tries the lengths from `length` on, with `fuel` lengths left. -/
def shortestFrom (closed : Bool) (low num high den : Nat) (point : Int) : Nat → Nat → Nat × Int
  | 0, length => ((scaleTen num den (length - point)).1, point - length)
  | fuel + 1, length =>
    let e : Int := length - point
    let d := (scaleTen num den e).2
    match nearestWithin closed (scaleTen low den e).1 (scaleTen num den e).1
        (scaleTen high den e).1 d with
    | some c => (c, -e)
    | none => shortestFrom closed low num high den point fuel (length + 1)

def dropZeros (digits : List Char) : List Char :=
  (digits.reverse.dropWhile (· == '0')).reverse

def shortest (p : Parts) : Digits :=
  let below := if p.mantissa = Nat.pow 2 52 ∧ -1074 < p.exponent then 1 else 2
  let (num, den) := dyadic (4 * p.mantissa) (p.exponent - 2)
  let low := (dyadic (4 * p.mantissa - below) (p.exponent - 2)).1
  let high := (dyadic (4 * p.mantissa + 2) (p.exponent - 2)).1
  let point := pointOf num den
  let (c, e) := shortestFrom (p.mantissa % 2 == 0) low num high den point 18 1
  let ds := Nat.toDigits 10 c
  ⟨dropZeros ds, ds.length + e⟩

/-- The exponent part: a mark, a sign and at least two digits. -/
def exponentPart (mark : Char) (e : Int) : List Char :=
  let ds := Nat.toDigits 10 e.natAbs
  mark :: (if e < 0 then '-' else '+') :: (if ds.length < 2 then '0' :: ds else ds)

/-- Positional when the point stands at most three places before the first digit and at most sixteen
behind it, always with a digit on both sides of the point; with an exponent otherwise. -/
def Digits.render (d : Digits) : List Char :=
  let n := d.digits.length
  if -4 < d.point ∧ d.point ≤ 16 then
    if d.point ≤ 0 then ['0', '.'] ++ List.replicate (-d.point).toNat '0' ++ d.digits
    else
      let k := d.point.toNat
      if n ≤ k then d.digits ++ List.replicate (k - n) '0' ++ ['.', '0']
      else d.digits.take k ++ '.' :: d.digits.drop k
  else
    match d.digits with
    | [] => []
    | first :: [] => first :: exponentPart 'e' (d.point - 1)
    | first :: rest => first :: '.' :: rest ++ exponentPart 'e' (d.point - 1)

def sign (negative : Bool) : List Char :=
  if negative then ['-'] else []

def render (x : Float) : String :=
  String.ofList <|
    match shape x with
    | .nan => ['n', 'a', 'n']
    | .infinite negative => sign negative ++ ['i', 'n', 'f']
    | .finite p =>
      sign p.negative ++ (if p.mantissa = 0 then ['0', '.', '0'] else (shortest p).render)

end MiniC.Decimal
