import MiniC.Value.Render

/-!
# Directives of a format

A directive starts with a percent sign. It has flags, a width, a precision, a length letter without
meaning, and the letter of the conversion. Width and precision are numerals, or stars that take an
argument.
-/

namespace MiniC.Format

structure Directive where
  leftAligned : Bool := false
  plusSign : Bool := false
  blankSign : Bool := false
  alternate : Bool := false
  zeroPadded : Bool := false
  width : Option Nat := none
  precision : Option Nat := none
  conversion : Char := '%'

def nextArgument : List Value → Except Fault (Value × List Value)
  | [] => .error .wrongKind
  | v :: vs => .ok (v, vs)

def readFlags (d : Directive) : List Char → Directive × List Char
  | '-' :: cs => readFlags { d with leftAligned := true } cs
  | '+' :: cs => readFlags { d with plusSign := true } cs
  | ' ' :: cs => readFlags { d with blankSign := true } cs
  | '#' :: cs => readFlags { d with alternate := true } cs
  | '0' :: cs => readFlags { d with zeroPadded := true } cs
  | cs => (d, cs)

/-- The integer argument that a star takes, which must be below a bound in absolute value. -/
def starArgument (bound : Int) (args : List Value) : Except Fault (Int × List Value) := do
  let (v, args) ← nextArgument args
  match v with
  | .scalar s =>
    match s.asInt? with
    | some n => if -bound ≤ n ∧ n < bound then return (n, args) else throw .overflow
    | none => throw .wrongKind
  | _ => throw .wrongKind

def readNumeral (bound : Nat) (cs : List Char) : Except Fault (Nat × List Char) :=
  let n := Text.digitsValue (cs.takeWhile Text.isPlainDigit)
  if bound ≤ n then .error .outsideDomain else .ok (n, cs.dropWhile Text.isPlainDigit)

def startsWithDigit : List Char → Bool
  | c :: _ => Text.isPlainDigit c
  | [] => false

def readWidth (d : Directive) (cs : List Char) (args : List Value) :
    Except Fault (Directive × List Char × List Value) := do
  match cs with
  | '*' :: cs =>
    let (n, args) ← starArgument (Nat.pow 2 63) args
    return ({ d with width := some n.natAbs, leftAligned := d.leftAligned || n < 0 }, cs, args)
  | cs =>
    if startsWithDigit cs then
      let (n, cs) ← readNumeral (Nat.pow 2 63) cs
      return ({ d with width := some n }, cs, args)
    else return (d, cs, args)

def readPrecision (d : Directive) (cs : List Char) (args : List Value) :
    Except Fault (Directive × List Char × List Value) := do
  match cs with
  | '.' :: '*' :: cs =>
    let (n, args) ← starArgument (Nat.pow 2 31) args
    return ({ d with precision := some n.toNat }, cs, args)
  | '.' :: cs =>
    let (n, cs) ← readNumeral (Nat.pow 2 31) cs
    return ({ d with precision := some n }, cs, args)
  | cs => return (d, cs, args)

/-- One length letter is skipped. -/
def skipLength : List Char → List Char
  | 'h' :: cs => cs
  | 'l' :: cs => cs
  | 'L' :: cs => cs
  | cs => cs

/-- The directive behind a percent sign. There are no named arguments. -/
def readDirective (cs : List Char) (args : List Value) :
    Except Fault (Directive × List Char × List Value) := do
  if cs.head? = some '(' then throw .wrongKind
  let (d, cs) := readFlags {} cs
  let (d, cs, args) ← readWidth d cs args
  let (d, cs, args) ← readPrecision d cs args
  match skipLength cs with
  | [] => throw .outsideDomain
  | c :: cs => return ({ d with conversion := c }, cs, args)

end MiniC.Format
