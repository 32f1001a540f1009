import MiniC.Format.Basic
import MiniC.Number.Arithmetic

/-!
# Operators on values

Numbers are combined with numbers. A number to the left of anything else fails for the lack of a
type, and so do comparisons with a number on the right, since a comparison can be taken from either
side. Plain values have their own operators, and a text to the left of a percent sign is a format.
-/

namespace MiniC.Value

/-- Applies an operator of numbers if the left operand is a number, and one of plain values if both
are plain. -/
def operate (onNumbers : Number → Number → Except Fault Number)
    (onScalars : Scalar → Scalar → Except Fault Scalar) (a b : Value) : Except Fault Value :=
  match a.number?, b.number? with
  | some m, some n => .number <$> onNumbers m n
  | some _, none => .error .noSuchPart
  | none, _ =>
    match a, b with
    | scalar s, scalar t => .scalar <$> onScalars s t
    | _, _ => .error .wrongKind

/-- To a pointer the word of a jump could be added if it were a number. -/
def add (a b : Value) : Except Fault Value :=
  match a.number?, b with
  | some m, jump _ =>
    if m.ctype.pointer then do
      let _ ← m.ctype.dereference.size
      .error .wrongKind
    else .error .noSuchPart
  | some m, b =>
    if m.ctype.pointer && b.number?.isNone then do
      let _ ← m.ctype.dereference.size
      .error .noSuchPart
    else operate Number.add Scalar.add a b
  | none, b => operate Number.add Scalar.add a b

/-- Nothing can be subtracted from a pointer. -/
def sub (a b : Value) : Except Fault Value :=
  match a.number? with
  | some m => if m.ctype.pointer then .error .wrongKind else operate Number.sub Scalar.sub a b
  | none => operate Number.sub Scalar.sub a b

def mul (a b : Value) : Except Fault Value :=
  operate Number.mul Scalar.mul a b

def div (a b : Value) : Except Fault Value :=
  operate Number.div Scalar.divide a b

/-- The remainder of numbers, or a text formatted with the right operand. -/
def mod (s : Store) (a b : Value) : Except Fault Value :=
  match a with
  | scalar (.text fmt) => do
    let lenient := match b with
      | record _ => true
      | memory => true
      | _ => false
    let text ← Format.toText (← Format.format s lenient fmt [b])
    return scalar (.text text)
  | a => operate Number.mod Scalar.modulo a b

def bits (f : Bool → Bool → Bool) (a b : Value) : Except Fault Value :=
  operate (Number.bits f) (Scalar.bits f) a b

/-- The bitwise or; of two structure variables, one with the fields of both. -/
def union (a b : Value) : Except Fault Value :=
  match a, b with
  | record s, record t => .ok (record (t.foldl (fun u e => u.put e.1 e.2) s))
  | a, b => bits or a b

/-- Whether two values that are not numbers are the same. -/
def same : Value → Value → Bool
  | scalar s, scalar t => s == t
  | record s, record t => s.length == t.length && s.all fun e => t.get? e.1 == some e.2
  | function _ f _ _, function _ g _ _ => f == g
  | structDef s _, structDef t _ => s == t
  | builtin f, builtin g => f == g
  | memory, memory => true
  | _, _ => false

/-- Comparisons. Values that are not plain are only tested for being the same. -/
def compare (c : Comparison) (a b : Value) : Except Fault Value :=
  match a.number?, b.number? with
  | some m, some n => .number <$> m.compare c n
  | some _, none => .error .noSuchPart
  | none, some _ => .error .noSuchPart
  | none, none =>
    match a, b with
    | scalar s, scalar t => .scalar <$> s.compare c t
    | a, b =>
      match c with
      | .eq => .ok (scalar (.bool (a.same b)))
      | .ne => .ok (scalar (.bool (!a.same b)))
      | _ => .error .wrongKind

end MiniC.Value
