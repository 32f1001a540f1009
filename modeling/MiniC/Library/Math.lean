import MiniC.Value.Basic

/-!
# Mathematical functions

Functions of reals are computed on doubles. A result that is not a number, unless the argument was
none, is outside the domain. An infinite result of a finite argument is an overflow where the
function grows without bound, and otherwise a pole, which is outside the domain. Rounding gives
integers, of any size.
-/

namespace MiniC.MathFunction

/-- Applies a function and tells poles, overflow and results outside the domain. -/
def checked (f : Float → Float) (grows : Bool) (x : Float) : Except Fault Float :=
  let r := f x
  if r.isNaN && !x.isNaN then .error .outsideDomain
  else if r.isInf && x.isFinite then .error (if grows then .overflow else .outsideDomain)
  else .ok r

/-- A logarithm. That of an integer beyond the doubles is found from its leading digits and their
binary place. -/
def logarithm (f : Float → Float) (v : Value) : Except Fault Float :=
  match v with
  | .scalar s =>
    match s.asInt? with
    | some n =>
      if n ≤ 0 then .error .outsideDomain
      else
        match Decimal.ofInt? n with
        | some x => .ok (f x)
        | none =>
          let place := n.natAbs.log2 + 1
          let x := Decimal.ofRatio false n.natAbs (Nat.pow 2 place)
          if x == 1 then .ok (f 0.5 + f 2 * Float.ofNat (place + 1))
          else .ok (f x + f 2 * Float.ofNat place)
    | none => do checked f false (← v.toReal)
  | v => do checked f false (← v.toReal)

def power (x y : Float) : Except Fault Float :=
  let r := Float.pow x y
  if x.isFinite && y.isFinite && !r.isFinite then
    .error (if r.isNaN || x == 0 then .outsideDomain else .overflow)
  else .ok r

def rounded (f : Decimal.Parts → Int) (v : Value) : Except Fault Int :=
  match v with
  | .scalar (.real x) =>
    match Decimal.shape x with
    | .finite p => .ok (f p)
    | .infinite _ => .error .overflow
    | .nan => .error .outsideDomain
  | .scalar s => s.asInt?.elim (.error .wrongKind) .ok
  | _ => .error .wrongKind

def applyOne (f : MathFunction) (v : Value) : Except Fault Scalar :=
  let real (g : Float → Float) : Except Fault Scalar := do
    return .real (← checked g false (← v.toReal))
  let growing (g : Float → Float) : Except Fault Scalar := do
    return .real (← checked g true (← v.toReal))
  match f with
  | acos => real Float.acos
  | acosh => real Float.acosh
  | asin => real Float.asin
  | asinh => real Float.asinh
  | atan => real Float.atan
  | atanh => real Float.atanh
  | cos => real Float.cos
  | cosh => growing Float.cosh
  | exp => growing Float.exp
  | sin => real Float.sin
  | sinh => growing Float.sinh
  | sqrt => real Float.sqrt
  | tan => real Float.tan
  | tanh => real Float.tanh
  | log => .real <$> logarithm Float.log v
  | log10 => .real <$> logarithm Float.log10 v
  | ceil => .int <$> rounded Decimal.Parts.ceil v
  | floor => .int <$> rounded Decimal.Parts.floor v
  | round => .int <$> rounded Decimal.Parts.round v
  | trunc => .int <$> rounded Decimal.Parts.truncate v
  | atan2 => .error .wrongKind
  | pow => .error .wrongKind

/-- The value of a function. The power takes two arguments and every other function takes one, the
arc tangent of a quotient too, which would need two and is never defined. -/
def apply (f : MathFunction) (args : List Value) : Except Fault Scalar :=
  match f, args with
  | pow, [a, b] => do return .real (← power (← a.toReal) (← b.toReal))
  | f, [a] => f.applyOne a
  | _, _ => .error .wrongKind

end MiniC.MathFunction
