import MiniC.Text.Blank
import MiniC.Text.Digit
import MiniC.Decimal.Double

/-!
# Reading numerals

Integers and reals are read from text that may have blanks around it. Digits may be those of any
script, and single underscores may stand between two digits. A real may have a fraction, an
exponent, or be one of the words for infinity and for what is not a number.
-/

namespace MiniC.Text

/-- Blanks that may surround a numeral: all but the information separators. -/
def isMargin (c : Char) : Bool :=
  isBlank c && !(28 ≤ c.toNat && c.toNat ≤ 31)

def trimMargin (cs : List Char) : List Char :=
  ((cs.dropWhile isMargin).reverse.dropWhile isMargin).reverse

/-- Decimal digits of any script become those of ASCII. -/
def plainDigit (c : Char) : Char :=
  match decimalValue? c with
  | some d => Char.ofNat (48 + d)
  | none => c

def isPlainDigit (c : Char) : Bool :=
  '0' ≤ c && c ≤ '9'

/-- Removes the underscores, each of which has to stand between two digits. -/
def dropUnderscores : List Char → Option (List Char)
  | [] => some []
  | d :: '_' :: e :: cs =>
    if isPlainDigit d && isPlainDigit e then (dropUnderscores (e :: cs)).map (d :: ·) else none
  | c :: cs => if c == '_' then none else (dropUnderscores cs).map (c :: ·)

def digitsValue (cs : List Char) : Nat :=
  cs.foldl (fun n c => 10 * n + (c.toNat - 48)) 0

def splitSign : List Char → Bool × List Char
  | '-' :: cs => (true, cs)
  | '+' :: cs => (false, cs)
  | cs => (false, cs)

/-- The form in which numerals are read: trimmed, with plain digits and without underscores. -/
def normalNumeral (cs : List Char) : Option (List Char) :=
  dropUnderscores ((trimMargin cs).map plainDigit)

def maxDigits : Nat := 4300

def readInt (cs : List Char) : Option Int := do
  let (negative, ds) := splitSign (← normalNumeral cs)
  if ds.isEmpty || !ds.all isPlainDigit || maxDigits < ds.length then none
  else some (Decimal.signed negative (digitsValue ds))

/-- Reads an exponent: the mark, an optional sign and at least one digit, or nothing at all. -/
def readExponent : List Char → Option Int
  | [] => some 0
  | mark :: cs =>
    let (negative, ds) := splitSign cs
    if (mark == 'e' || mark == 'E') && !ds.isEmpty && ds.all isPlainDigit then
      some (Decimal.signed negative (digitsValue ds))
    else none

/-- The double nearest to `digits * 10 ^ e`. Powers that can only give zero or infinity are not
computed. -/
def scaled (negative : Bool) (digits : List Char) (e : Int) : Float :=
  let n := digitsValue digits
  if n = 0 then Decimal.zero negative
  else if e + digits.length < -400 then Decimal.zero negative
  else if 400 < e + (Nat.toDigits 10 n).length then Decimal.infinity negative
  else
    let (num, den) := Decimal.scaleTen n 1 e
    Decimal.ofRatio negative num den

def readReal (cs : List Char) : Option Float := do
  let (negative, cs) := splitSign (← normalNumeral cs)
  let lower := String.ofList (cs.map Char.toLower)
  if lower == "inf" || lower == "infinity" then some (Decimal.infinity negative)
  else if lower == "nan" then some Decimal.nan
  else
    let whole := cs.takeWhile isPlainDigit
    let cs := cs.dropWhile isPlainDigit
    let (fraction, cs) :=
      match cs with
      | '.' :: cs => (cs.takeWhile isPlainDigit, cs.dropWhile isPlainDigit)
      | cs => ([], cs)
    if whole.isEmpty && fraction.isEmpty then none
    else
      let e ← readExponent cs
      some (scaled negative (whole ++ fraction) (e - fraction.length))

end MiniC.Text
