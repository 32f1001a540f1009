import MiniC.Fault
import MiniC.Random
import MiniC.Text.Numeral

/-!
# Numbers

A number has a type and a value. Whatever a number is made from is first converted to an integer or
a double, as the type asks, and then brought into the range of the type by adding a multiple of the
width of the range. So the value of an integer type is the only one in its range that is congruent
to the given integer.
-/

namespace MiniC

inductive Num where
  | int (n : Int)
  | real (x : Float)
  deriving DecidableEq

/-- Whether a type, which has to have limits, has a value: a double if the type is real, and
otherwise an integer between the limits. -/
def CType.Has (t : CType) (v : Num) : Prop :=
  ∃ l, t.limits? = some l ∧
    match v with
    | .int n => t.isReal = false ∧ l.1 ≤ n ∧ n ≤ l.2
    | .real _ => t.isReal = true

structure Number where
  ctype : CType
  value : Num
  fits : ctype.Has value
  deriving DecidableEq

namespace Num

def toScalar : Num → Scalar
  | int n => .int n
  | real x => .real x

def render (v : Num) : String :=
  v.toScalar.render

def truth (v : Num) : Bool :=
  v.toScalar.truth

/-- The representative of an integer between `lo` and `hi`, of all those congruent to it modulo the
number of integers between them. -/
def wrapInt (lo hi n : Int) : Int :=
  (n - lo) % (hi - lo + 1) + lo

/-- The same for a double, with the rounding of each step. -/
def wrapReal (lo hi : Int) (x : Float) : Float :=
  Decimal.floorMod (x - Float.ofInt lo) (Float.ofInt (hi - lo + 1)) + Float.ofInt lo

def wrap (lo hi : Int) : Num → Num
  | int n => int (wrapInt lo hi n)
  | real x => real (wrapReal lo hi x)

theorem wrapInt_bounds {lo hi : Int} (h : lo ≤ hi) (n : Int) :
    lo ≤ wrapInt lo hi n ∧ wrapInt lo hi n ≤ hi := by
  have hlo := Int.emod_nonneg (n - lo) (b := hi - lo + 1) (by omega)
  have hhi := Int.emod_lt_of_pos (n - lo) (b := hi - lo + 1) (by omega)
  unfold wrapInt
  omega

end Num

namespace Scalar

/-- Converts to an integer: a fraction is dropped, a text is read. -/
def toInt : Scalar → Except Fault Int
  | bool b => .ok (if b then 1 else 0)
  | int n => .ok n
  | real x =>
    match Decimal.shape x with
    | .finite p => .ok p.truncate
    | .infinite _ => .error .overflow
    | .nan => .error .outsideDomain
  | text s => (Text.readInt s.toList).elim (.error .outsideDomain) .ok
  | nothing => .error .wrongKind

/-- Converts to a double: an integer is rounded, a text is read. -/
def toReal : Scalar → Except Fault Float
  | bool b => .ok (if b then 1 else 0)
  | int n => (Decimal.ofInt? n).elim (.error .overflow) .ok
  | real x => .ok x
  | text s => (Text.readReal s.toList).elim (.error .outsideDomain) .ok
  | nothing => .error .wrongKind

end Scalar

namespace CType

def size (t : CType) : Except Fault Nat :=
  t.size?.elim (.error (.sizeless t)) .ok

def limits (t : CType) : Except Fault (Int × Int) :=
  t.limits?.elim (.error (.sizeless t)) .ok

theorem limits_eq {t : CType} {l : Int × Int} (h : t.limits = .ok l) : t.limits? = some l := by
  unfold limits at h
  cases hl : t.limits? with
  | none =>
    rw [hl] at h
    cases h
  | some k =>
    rw [hl] at h
    exact congrArg some (Except.ok.inj h)

theorem limits?_ordered {t : CType} {l : Int × Int} (h : t.limits? = some l) : l.1 ≤ l.2 := by
  obtain ⟨k, -, rfl⟩ := Option.map_eq_some_iff.1 h
  have hpos (n : Nat) : (0 : Int) < Int.pow 2 n := Int.pow_pos (by decide)
  have h₁ := hpos (8 * k)
  have h₂ := hpos (8 * k - 1)
  unfold limitsOf
  split <;> simp only <;> omega

def convert (t : CType) (s : Scalar) : Except Fault Num :=
  if t.isReal then .real <$> s.toReal else .int <$> s.toInt

/-- What a plain value is converted to becomes a value of the type when it is brought between the
limits. -/
theorem has_wrap {t : CType} {s : Scalar} {v : Num} {l : Int × Int} (hv : t.convert s = .ok v)
    (hl : t.limits = .ok l) : t.Has (v.wrap l.1 l.2) := by
  have hl := limits_eq hl
  refine ⟨l, hl, ?_⟩
  unfold convert at hv
  split at hv
  · next hreal =>
    cases hx : s.toReal with
    | error e =>
      rw [hx] at hv
      cases hv
    | ok x =>
      rw [hx] at hv
      obtain rfl := Except.ok.inj hv
      exact hreal
  · next hreal =>
    cases hn : s.toInt with
    | error e =>
      rw [hn] at hv
      cases hv
    | ok n =>
      rw [hn] at hv
      obtain rfl := Except.ok.inj hv
      exact ⟨Bool.eq_false_iff.2 hreal, Num.wrapInt_bounds (limits?_ordered hl) n⟩

def draw (t : CType) (r : Random) : Except Fault (Num × Random) := do
  let (lo, hi) ← t.limits
  if t.isReal then
    let (x, r) := r.realBetween lo hi
    return (.real x, r)
  else
    let (n, r) := r.between lo hi
    return (.int n, r)

/-- The weakest type, at least `int`, that is as strong as both. -/
def combine (a b : CType) : Except Fault CType :=
  if a.pointer || b.pointer then .error .assumption
  else
    match a.rank?, b.rank? with
    | some i, some j => (arithmetic[max (max i j) 4]?).elim (.error .outsideDomain) .ok
    | _, _ => .error .outsideDomain

end CType

namespace Number

def ofScalar (t : CType) (s : Scalar) : Except Fault Number :=
  match hv : t.convert s, hl : t.limits with
  | .ok v, .ok l => .ok ⟨t, v.wrap l.1 l.2, t.has_wrap hv hl⟩
  | .error e, _ => .error e
  | _, .error e => .error e

theorem ofScalar_eq {t : CType} {s : Scalar} {v : Num} {l : Int × Int} (hv : t.convert s = .ok v)
    (hl : t.limits = .ok l) : ofScalar t s = .ok ⟨t, v.wrap l.1 l.2, t.has_wrap hv hl⟩ := by
  unfold ofScalar
  split
  · next v' l' hv' hl' =>
    obtain rfl := Except.ok.inj (hv.symm.trans hv')
    obtain rfl := Except.ok.inj (hl.symm.trans hl')
    rfl
  · next he => cases hv.symm.trans he
  · next he _ => cases hl.symm.trans he

/-- A number whose value was never set. -/
def draw (t : CType) (r : Random) : Except Fault (Number × Random) := do
  let (v, r) ← t.draw r
  return (← ofScalar t v.toScalar, r)

/-- As `ofScalar`, where nothing stands for a value that was never set. -/
def make (t : CType) (s : Scalar) (r : Random) : Except Fault (Number × Random) :=
  match s with
  | .nothing => draw t r
  | s => return (← ofScalar t s, r)

def convert (t : CType) (a : Number) : Except Fault Number :=
  ofScalar t a.value.toScalar

/-- Converts to the kind of value that a type has before a number of that type is made. -/
def cast (t : CType) (s : Scalar) : Except Fault Number := do
  ofScalar t (← t.convert s).toScalar

def ofInt (n : Int) : Except Fault Number :=
  ofScalar .int (.int n)

def truth (a : Number) : Bool :=
  a.value.truth

def render (a : Number) : String :=
  a.ctype.render ++ " (" ++ a.value.render ++ ")"

end Number

end MiniC
