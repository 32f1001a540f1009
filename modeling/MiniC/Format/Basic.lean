import MiniC.Decimal.Places
import MiniC.Format.Directive

/-!
# Formatting

A format is a text with directives, each of which is replaced by the text of an argument; a doubled
percent sign stands for a single one. Numbers are padded between their sign and their digits if
zeros are asked for, and everything else with spaces on the left or on the right. The number of
arguments has to be exactly what the directives take.
-/

namespace MiniC.Format

/-- Characters to be written. Code points that are not characters can be asked for, but not
written. -/
abbrev Output := List (Option Char)

def plain (cs : List Char) : Output := cs.map some

def pad (d : Directive) (out : Output) : Output :=
  let spaces := plain (List.replicate (d.width.getD 0 - out.length) ' ')
  if d.leftAligned then out ++ spaces else spaces ++ out

def signOf (d : Directive) (negative : Bool) : List Char :=
  if negative then ['-'] else if d.plusSign then ['+'] else if d.blankSign then [' '] else []

def padNumber (d : Directive) (negative : Bool) (marker digits : List Char) : Output :=
  let front := signOf d negative ++ marker
  if d.zeroPadded && !d.leftAligned then
    let zeros := List.replicate (d.width.getD 0 - (front ++ digits).length) '0'
    plain (front ++ zeros ++ digits)
  else pad d (plain (front ++ digits))

/-- An integer in a base, with at least as many digits as the precision. -/
def integerText (d : Directive) (n : Int) : Output :=
  let base := match d.conversion with
    | 'o' => 8
    | 'x' | 'X' => 16
    | _ => 10
  let digits := Nat.toDigits base n.natAbs
  let digits := if d.conversion == 'X' then digits.map Char.toUpper else digits
  let digits := List.replicate (d.precision.getD 0 - digits.length) '0' ++ digits
  let marker := if d.alternate && base != 10 then ['0', d.conversion] else []
  padNumber d (n < 0) marker digits

/-- The integer of a value; for bases other than ten it has to be one. -/
def integerOf (d : Directive) (v : Value) : Except Fault Int :=
  match v with
  | .scalar (.text _) => .error .wrongKind
  | .scalar (.real x) =>
    if d.conversion == 'o' || d.conversion == 'x' || d.conversion == 'X' then .error .wrongKind
    else (Scalar.real x).toInt
  | .scalar s => s.toInt
  | _ => .error .wrongKind

/-- A double, with six places or digits unless the precision says otherwise. -/
def realText (d : Directive) (x : Float) : Output :=
  let upper := d.conversion.isUpper
  let word (s : List Char) : List Char := if upper then s.map Char.toUpper else s
  let mark := if upper then 'E' else 'e'
  let precision := d.precision.getD 6
  match Decimal.shape x with
  | .nan => padNumber d false [] (word ['n', 'a', 'n'])
  | .infinite negative => padNumber d negative [] (word ['i', 'n', 'f'])
  | .finite p =>
    let digits := match d.conversion with
      | 'e' | 'E' => Decimal.scientific p precision d.alternate mark
      | 'f' | 'F' => Decimal.fixed p precision d.alternate
      | _ => Decimal.general p (max precision 1) d.alternate mark
    padNumber d p.negative [] digits

/-- A character: a text of one character, or a code point. -/
def charOf (v : Value) : Except Fault (Option Char) :=
  match v with
  | .scalar (.text s) =>
    match s.toList with
    | [c] => .ok (some c)
    | _ => .error .wrongKind
  | .scalar s =>
    match s.asInt? with
    | some n =>
      if n < 0 ∨ 0x110000 ≤ n then .error .overflow
      else .ok (if n.toNat.isValidChar then some (Char.ofNat n.toNat) else none)
    | none => .error .wrongKind
  | _ => .error .wrongKind

/-- The text of a value for the conversions that take any value, cut to the precision. -/
def textOf (s : Store) (d : Directive) (v : Value) : List Char :=
  let cs := match d.conversion, v with
    | 'a', .scalar (.text t) => (Text.quotedAscii t).toList
    | 's', v => (v.render s false).toList
    | _, v => (v.render s true).toList
  match d.precision with
  | some n => cs.take n
  | none => cs

def convert (s : Store) (d : Directive) (v : Value) : Except Fault Output := do
  match d.conversion with
  | 's' | 'r' | 'a' => return pad d (plain (textOf s d v))
  | 'd' | 'i' | 'u' | 'o' | 'x' | 'X' => return integerText d (← integerOf d v)
  | 'e' | 'E' | 'f' | 'F' | 'g' | 'G' => return realText d (← v.toReal)
  | 'c' => return pad d [← charOf v]
  | _ => throw .outsideDomain

/-- Formats the arguments, reading at most `fuel` characters and directives. Values that are left
over are refused, unless `lenient`. -/
def run (s : Store) (lenient : Bool) : Nat → List Char → List Value → Except Fault Output
  | 0, _, _ => .error .outOfFuel
  | _ + 1, [], args => if args.isEmpty || lenient then .ok [] else .error .wrongKind
  | fuel + 1, '%' :: '%' :: cs, args => do return some '%' :: (← run s lenient fuel cs args)
  | fuel + 1, '%' :: cs, args => do
    let (d, cs, args) ← readDirective cs args
    let (v, args) ← nextArgument args
    let out ← convert s d v
    return out ++ (← run s lenient fuel cs args)
  | fuel + 1, c :: cs, args => do return some c :: (← run s lenient fuel cs args)

def format (s : Store) (lenient : Bool) (fmt : String) (args : List Value) : Except Fault Output :=
  run s lenient (fmt.length + 1) fmt.toList args

def toText (out : Output) : Except Fault String :=
  match out.mapM id with
  | some cs => .ok (String.ofList cs)
  | none => .error .unencodable

end MiniC.Format
