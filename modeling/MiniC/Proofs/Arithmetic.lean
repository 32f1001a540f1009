import Mathlib.Algebra.Ring.Nat
import Mathlib.Data.Nat.Log
import MiniC.Value.Arithmetic

/-!
# Results of arithmetic

Two numbers can be combined if both types are arithmetic. The result then has the combined type,
which is real if one of the operands is. Nothing else can go wrong but a division by zero: the value
of a number is between the limits of its type, so an integer always has a nearest double. A double
that is not finite cannot be converted to an integer.
-/

namespace MiniC

/-! ## Integers as doubles -/

namespace Decimal

theorem roundDiv_le (num : Nat) {den bound : Nat} (h : num < bound * den) :
    roundDiv num den ≤ bound := by
  have hq : num / den < bound := Nat.div_lt_of_lt_mul (by rwa [Nat.mul_comm])
  have hr : num / den % 2 ≤ 1 := Nat.le_of_lt_succ (Nat.mod_lt _ (by decide))
  unfold roundDiv
  simp only
  split
  · omega
  · split <;> omega

/-- Integers of 64 bits are far from the largest double. -/
theorem ratioBits_lt {n : Nat} (h : n ≤ 2 ^ 64) : ratioBits n 1 < beyond := by
  by_cases hn : n = 0
  · rw [hn]
    decide
  have hlow : 2 ^ n.log2 ≤ n := Nat.log2_self_le hn
  have hhigh : n < 2 ^ (n.log2 + 1) := Nat.lt_log2_self
  have hlog : n.log2 ≤ 64 := by
    by_contra hlt
    have hpow : 2 ^ 65 ≤ 2 ^ n.log2 := Nat.pow_le_pow_right (by decide) (by omega)
    omega
  have hlow' : (53 : Int) + (n.log2 - (Nat.log2 1 : Nat) - 53) = n.log2 := by
    have : Nat.log2 1 = 0 := by decide
    omega
  have hexp : max (-1074) ((n.log2 : Int) - (Nat.log2 1 : Nat) - 53 + 1) = n.log2 - 52 := by
    have : Nat.log2 1 = 0 := by decide
    omega
  have hfit : (dyadic 1 n.log2).1 ≤ n * (dyadic 1 n.log2).2 := by
    simpa [dyadic] using hlow
  have hround : roundDiv (n * (dyadic 1 (n.log2 - 52)).2) (dyadic 1 (n.log2 - 52)).1 ≤ 2 ^ 53 := by
    apply roundDiv_le
    simp only [dyadic, Nat.one_mul]
    change n * 2 ^ (-((n.log2 : Int) - 52)).toNat < 2 ^ 53 * 2 ^ ((n.log2 : Int) - 52).toNat
    by_cases hl : n.log2 ≤ 52
    · rw [show ((n.log2 : Int) - 52).toNat = 0 by omega,
        show (-((n.log2 : Int) - 52)).toNat = 52 - n.log2 by omega]
      calc
        n * 2 ^ (52 - n.log2) < 2 ^ (n.log2 + 1) * 2 ^ (52 - n.log2) :=
          Nat.mul_lt_mul_of_pos_right hhigh (Nat.two_pow_pos _)
        _ = 2 ^ 53 * 2 ^ 0 := by rw [← Nat.pow_add, ← Nat.pow_add]; congr 1; omega
    · rw [show ((n.log2 : Int) - 52).toNat = n.log2 - 52 by omega,
        show (-((n.log2 : Int) - 52)).toNat = 0 by omega]
      calc
        n * 2 ^ 0 < 2 ^ (n.log2 + 1) := by omega
        _ = 2 ^ 53 * 2 ^ (n.log2 - 52) := by rw [← Nat.pow_add]; congr 1; omega
  simp only [ratioBits, if_neg hn, hlow', if_pos hfit, hexp]
  change ((n.log2 : Int) - 52 + 1074).toNat * 2 ^ 52 + _ < 2047 * 2 ^ 52
  have hscale : ((n.log2 : Int) - 52 + 1074).toNat ≤ 1086 := by omega
  have hmul := Nat.mul_le_mul_right (2 ^ 52) hscale
  omega

theorem ofInt?_of_natAbs_le {n : Int} (h : n.natAbs ≤ 2 ^ 64) : ∃ x, ofInt? n = some x :=
  ⟨_, if_neg (Nat.not_le.2 (ratioBits_lt h))⟩

end Decimal

/-! ## Types -/

namespace CType

variable {a b t : CType}

theorem same_iff : a.same b = true ↔ a.canonical = b.canonical := by
  simp [same]

theorem same_refl (t : CType) : t.same t = true :=
  same_iff.2 rfl

theorem canonical_eq (t : CType) :
    t.canonical.length = t.length ∧ t.canonical.base = t.base ∧ t.canonical.pointer = t.pointer ∧
      t.canonical.isUnsigned = t.isUnsigned := by
  unfold canonical
  split
  · next h => simp [isUnsigned, h]
  · exact ⟨rfl, rfl, rfl, rfl⟩

theorem pointer_of_same (h : a.same b = true) : a.pointer = b.pointer := by
  rw [← (canonical_eq a).2.2.1, same_iff.1 h, (canonical_eq b).2.2.1]

theorem base_of_same (h : a.same b = true) : a.base = b.base := by
  rw [← (canonical_eq a).2.1, same_iff.1 h, (canonical_eq b).2.1]

theorem isReal_of_same (h : a.same b = true) : a.isReal = b.isReal := by
  rw [isReal, isReal, pointer_of_same h, base_of_same h]

theorem isUnsigned_of_same (h : a.same b = true) : a.isUnsigned = b.isUnsigned := by
  rw [← (canonical_eq a).2.2.2, same_iff.1 h, (canonical_eq b).2.2.2]

theorem size?_of_same (h : a.same b = true) : a.size? = b.size? := by
  obtain ⟨ha, -⟩ := canonical_eq a
  obtain ⟨hb, -⟩ := canonical_eq b
  simp only [size?, pointer_of_same h, base_of_same h, ← ha, ← hb, same_iff.1 h]

theorem rank?_of_same (h : a.same b = true) : a.rank? = b.rank? := by
  have heq (c : CType) : c.same a = c.same b := by simp only [same, same_iff.1 h]
  simp only [rank?, heq]

theorem combine_of_same {a' b' : CType} (ha : a.same a' = true) (hb : b.same b' = true) :
    a.combine b = a'.combine b' := by
  simp only [combine, pointer_of_same ha, pointer_of_same hb, rank?_of_same ha, rank?_of_same hb]

theorem arithmetic_spec : ∀ i < arithmetic.length, ∀ c ∈ arithmetic[i]?,
    c.pointer = false ∧ c.isReal = decide (10 ≤ i) ∧ c.limits?.isSome = true ∧
      c.rank? = some i := by
  decide

theorem rank?_eq_some {i : Nat} (h : t.rank? = some i) :
    i < arithmetic.length ∧ t.pointer = false ∧ t.isReal = decide (10 ≤ i) := by
  obtain ⟨hlt, hsame, -⟩ := List.findIdx?_eq_some_iff_getElem.1 h
  obtain ⟨hpointer, hreal, -⟩ := arithmetic_spec i hlt arithmetic[i] (List.getElem?_eq_getElem hlt)
  exact ⟨hlt, pointer_of_same hsame ▸ hpointer, isReal_of_same hsame ▸ hreal⟩

theorem pointer_of_isArithmetic (h : t.isArithmetic = true) : t.pointer = false := by
  obtain ⟨i, hi⟩ := Option.isSome_iff_exists.1 h
  exact (rank?_eq_some hi).2.1

structure Combined (a b t : CType) : Prop where
  left : a.isArithmetic = true
  right : b.isArithmetic = true
  pointer : t.pointer = false
  isReal : t.isReal = (a.isReal || b.isReal)
  limits : t.limits?.isSome = true

/-- The place of the combined type is the greatest of the places of both types and of `int`. -/
theorem combine_of_rank? {i j : Nat} (hi : a.rank? = some i) (hj : b.rank? = some j) :
    ∃ t, arithmetic[max (max i j) 4]? = some t ∧ a.combine b = .ok t := by
  obtain ⟨hilt, hip, -⟩ := rank?_eq_some hi
  obtain ⟨hjlt, hjp, -⟩ := rank?_eq_some hj
  have hlen : arithmetic.length = 13 := rfl
  have hget := List.getElem?_eq_getElem (l := arithmetic) (i := max (max i j) 4) (by omega)
  refine ⟨_, hget, ?_⟩
  simp only [combine, hip, hjp, hi, hj, hget]
  rfl

theorem combine_isOk (ha : a.isArithmetic = true) (hb : b.isArithmetic = true) :
    ∃ t, a.combine b = .ok t ∧ Combined a b t := by
  obtain ⟨i, hi⟩ := Option.isSome_iff_exists.1 ha
  obtain ⟨j, hj⟩ := Option.isSome_iff_exists.1 hb
  obtain ⟨t, hget, ht⟩ := combine_of_rank? hi hj
  obtain ⟨hlt, -⟩ := List.getElem?_eq_some_iff.1 hget
  obtain ⟨hpointer, hreal, hlimits, -⟩ := arithmetic_spec _ hlt _ hget
  refine ⟨t, ht, ha, hb, hpointer, ?_, hlimits⟩
  rw [hreal, (rank?_eq_some hi).2.2, (rank?_eq_some hj).2.2, ← Bool.decide_or, decide_eq_decide]
  omega

theorem combined_of_eq (h : a.combine b = .ok t) : Combined a b t := by
  have harith : a.isArithmetic = true ∧ b.isArithmetic = true := by
    unfold combine at h
    split at h
    · cases h
    · split at h
      · next hi hj => exact ⟨by rw [isArithmetic, hi]; rfl, by rw [isArithmetic, hj]; rfl⟩
      · cases h
  obtain ⟨t', ht', hcombined⟩ := combine_isOk harith.1 harith.2
  obtain rfl := Except.ok.inj (h.symm.trans ht')
  exact hcombined

/-- Types are combined unless one of them is not arithmetic. -/
theorem combine_fails (h : ¬ (a.isArithmetic = true ∧ b.isArithmetic = true)) :
    ∃ e, a.combine b = .error e ∧ e ≠ .divisionByZero := by
  cases hc : a.combine b with
  | ok t => exact absurd ⟨(combined_of_eq hc).left, (combined_of_eq hc).right⟩ h
  | error e =>
    refine ⟨e, rfl, ?_⟩
    rintro rfl
    unfold combine at hc
    split at hc
    · cases hc
    · split at hc
      · cases hget : arithmetic[max (max _ _) 4]? with
        | none =>
          rw [hget] at hc
          cases hc
        | some c =>
          rw [hget] at hc
          cases hc
      · cases hc

/-- The limits of all types are in the range of 64 bits. -/
theorem natAbs_le_of_limits {l : Int × Int} (h : t.limits? = some l) {n : Int} (hlo : l.1 ≤ n)
    (hhi : n ≤ l.2) : n.natAbs ≤ 2 ^ 64 := by
  obtain ⟨k, hk, rfl⟩ := Option.map_eq_some_iff.1 h
  unfold limitsOf at hlo hhi
  split at hlo <;> rename_i hu <;> simp only [hu, if_true] at hhi <;>
    rcases size?_cases hk with rfl | rfl | rfl | rfl <;> simp [Int.pow] at hlo hhi <;> omega

theorem limits_of_isSome (h : t.limits?.isSome = true) : ∃ l, t.limits = .ok l := by
  obtain ⟨l, hl⟩ := Option.isSome_iff_exists.1 h
  exact ⟨l, by rw [limits, hl]; rfl⟩

end CType

/-! ## Making numbers -/

def Num.Finite : Num → Prop
  | int _ => True
  | real x => ∃ p, Decimal.shape x = .finite p

/-- A computation gives a number of a type unless it divides by zero. -/
def Proceeds (r : Except Fault Number) (t : CType) : Prop :=
  (∃ n, r = .ok n ∧ n.ctype = t) ∨ r = .error .divisionByZero

/-- A computation fails, and not because it divides by zero. -/
def Stops {α : Type} (r : Except Fault α) : Prop :=
  ∃ e, r = .error e ∧ e ≠ .divisionByZero

theorem Stops.bind {α β : Type} {r : Except Fault α} (h : Stops r) (f : α → Except Fault β) :
    Stops (r >>= f) := by
  obtain ⟨e, rfl, he⟩ := h
  exact ⟨e, rfl, he⟩

namespace Number

variable {t : CType} {x y n : Number}

theorem limits_isSome (n : Number) : n.ctype.limits?.isSome = true := by
  obtain ⟨l, hl, -⟩ := n.fits
  rw [hl]
  rfl

theorem value_of_isReal (h : n.ctype.isReal = true) : ∃ r, n.value = .real r := by
  obtain ⟨l, -, hvalue⟩ := n.fits
  cases hv : n.value with
  | int k =>
    rw [hv] at hvalue
    exact absurd (hvalue.1.symm.trans h) Bool.false_ne_true
  | real r => exact ⟨r, rfl⟩

theorem value_of_not_isReal (h : n.ctype.isReal = false) :
    ∃ k, n.value = .int k ∧ k.natAbs ≤ 2 ^ 64 := by
  obtain ⟨l, hl, hvalue⟩ := n.fits
  cases hv : n.value with
  | int k =>
    rw [hv] at hvalue
    exact ⟨k, rfl, CType.natAbs_le_of_limits hl hvalue.2.1 hvalue.2.2⟩
  | real r =>
    rw [hv] at hvalue
    exact absurd (h.symm.trans hvalue) Bool.false_ne_true

/-- A number is made of a value, with the type that is asked for, if the value can be converted. -/
theorem ofScalar_of_convert {s : Scalar} {v : Num} (ht : t.limits?.isSome = true)
    (hv : t.convert s = .ok v) : ∃ n, ofScalar t s = .ok n ∧ n.ctype = t := by
  obtain ⟨l, hl⟩ := CType.limits_of_isSome ht
  exact ⟨_, ofScalar_eq hv hl, rfl⟩

theorem ofScalar_ctype {s : Scalar} (h : ofScalar t s = .ok n) : n.ctype = t := by
  unfold ofScalar at h
  split at h
  · cases h
    rfl
  · cases h
  · cases h

theorem make_ctype {s : Scalar} {r r' : Random} (h : make t s r = .ok (n, r')) : n.ctype = t := by
  have hgives {e : Except Fault Number} {r₁ : Random}
      (h : (do return (← e, r₁)) = Except.ok (n, r')) : e = .ok n := by
    cases e with
    | error => cases h
    | ok n' => rw [(Prod.mk.inj (Except.ok.inj h)).1]
  cases s with
  | nothing =>
    cases hd : t.draw r with
    | error e =>
      simp only [make, draw, hd] at h
      cases h
    | ok p =>
      simp only [make, draw, hd] at h
      exact ofScalar_ctype (hgives h)
  | _ => exact ofScalar_ctype (hgives h)

theorem ofScalar_real (ht : t.limits?.isSome = true) (hr : t.isReal = true) (x : Float) :
    ∃ n, ofScalar t (.real x) = .ok n ∧ n.ctype = t :=
  ofScalar_of_convert ht (if_pos hr)

theorem ofScalar_int (ht : t.limits?.isSome = true) (hr : t.isReal = false) (k : Int) :
    ∃ n, ofScalar t (.int k) = .ok n ∧ n.ctype = t := by
  refine ofScalar_of_convert ht (v := .int k) ?_
  rw [CType.convert, hr]
  rfl

theorem ofScalar_int_real (ht : t.limits?.isSome = true) (hr : t.isReal = true) {k : Int}
    (hk : k.natAbs ≤ 2 ^ 64) : ∃ n, ofScalar t (.int k) = .ok n ∧ n.ctype = t := by
  obtain ⟨x, hx⟩ := Decimal.ofInt?_of_natAbs_le hk
  refine ofScalar_of_convert ht (v := .real x) ?_
  rw [CType.convert, if_pos hr, Scalar.toReal, hx]
  rfl

/-- A double becomes an integer if and only if it is finite. -/
theorem ofScalar_real_int (ht : t.limits?.isSome = true) (hr : t.isReal = false) (x : Float) :
    ((Num.real x).Finite → ∃ n, ofScalar t (.real x) = .ok n ∧ n.ctype = t) ∧
      (¬ (Num.real x).Finite → Stops (ofScalar t (.real x))) := by
  have hconvert : t.convert (.real x) = .int <$> (Scalar.real x).toInt := by
    rw [CType.convert, hr]
    rfl
  constructor
  · rintro ⟨p, hp⟩
    refine ofScalar_of_convert ht (v := .int p.truncate) ?_
    rw [hconvert, Scalar.toInt, hp]
    rfl
  · intro hinfinite
    have hfails : ∃ e, t.convert (.real x) = .error e ∧ e ≠ .divisionByZero := by
      rw [hconvert, Scalar.toInt]
      cases hp : Decimal.shape x with
      | finite p => exact absurd ⟨p, hp⟩ hinfinite
      | infinite negative => exact ⟨_, rfl, by simp⟩
      | nan => exact ⟨_, rfl, by simp⟩
    obtain ⟨e, he, hne⟩ := hfails
    refine ⟨e, ?_, hne⟩
    unfold ofScalar
    split
    · next hv _ => cases he.symm.trans hv
    · next hv => exact congrArg Except.error (Except.error.inj (hv.symm.trans he))
    · next hl hno => exact absurd he (hno e)

/-- The value of a number is taken over by another type, unless that is an integer type and the
value is not finite. -/
theorem ofScalar_value (ht : t.limits?.isSome = true) (n : Number) :
    (t.isReal = true ∨ n.value.Finite → ∃ n', ofScalar t n.value.toScalar = .ok n' ∧ n'.ctype = t) ∧
      (¬ (t.isReal = true ∨ n.value.Finite) → Stops (ofScalar t n.value.toScalar)) := by
  cases hn : n.ctype.isReal with
  | true =>
    obtain ⟨r, hr⟩ := value_of_isReal hn
    rw [hr]
    cases ht' : t.isReal with
    | true => exact ⟨fun _ => ofScalar_real ht ht' r, fun h => absurd (.inl rfl) h⟩
    | false =>
      obtain ⟨hfinite, hinfinite⟩ := ofScalar_real_int ht ht' r
      exact ⟨fun h => hfinite (h.resolve_left Bool.false_ne_true), fun h => hinfinite fun hf =>
        h (.inr hf)⟩
  | false =>
    obtain ⟨k, hk, hbound⟩ := value_of_not_isReal hn
    rw [hk]
    refine ⟨fun _ => ?_, fun h => absurd (.inr trivial) h⟩
    cases ht' : t.isReal with
    | true => exact ofScalar_int_real ht ht' hbound
    | false => exact ofScalar_int ht ht' k

theorem convert_error {s : Scalar} {e : Fault} (h : t.convert s = .error e) :
    e ≠ .divisionByZero := by
  unfold CType.convert at h
  rintro rfl
  split at h
  · cases s with
    | int n => cases hn : Decimal.ofInt? n <;> simp [Scalar.toReal, hn] at h
    | text s => cases hs : Text.readReal s.toList <;> simp [Scalar.toReal, hs] at h
    | _ => cases h
  · cases s with
    | real x => cases hx : Decimal.shape x <;> simp [Scalar.toInt, hx] at h
    | text s => cases hs : Text.readInt s.toList <;> simp [Scalar.toInt, hs] at h
    | _ => cases h

theorem ofScalar_limitless (ht : ¬ t.limits?.isSome = true) (s : Scalar) :
    Stops (ofScalar t s) := by
  have hl : t.limits = .error (.sizeless t) := by
    rw [CType.limits, Option.not_isSome_iff_eq_none.1 ht]
    rfl
  unfold ofScalar
  split
  · next hl' => cases hl.symm.trans hl'
  · next hv => exact ⟨_, rfl, convert_error hv⟩
  · next hl' _ =>
    cases hl.symm.trans hl'
    exact ⟨_, rfl, by simp⟩

/-! ## Operators -/

def Alike (t : CType) (u v : Num) : Prop :=
  (t.isReal = true ∧ ∃ a b, u = .real a ∧ v = .real b) ∨
    (t.isReal = false ∧ ∃ m n, u = .int m ∧ v = .int n)

/-- An operation on values of one kind gives a value of that kind unless it divides by zero. -/
def Total (f : Num → Num → Except Fault Num) : Prop :=
  ∀ t u v, Alike t u v → (∃ w, f u v = .ok w ∧ Alike t w w) ∨ f u v = .error .divisionByZero

theorem total_add : Total Num.add := by
  rintro t u v (⟨ht, a, b, rfl, rfl⟩ | ⟨ht, m, n, rfl, rfl⟩)
  · exact .inl ⟨.real (a + b), rfl, .inl ⟨ht, _, _, rfl, rfl⟩⟩
  · exact .inl ⟨.int (m + n), rfl, .inr ⟨ht, _, _, rfl, rfl⟩⟩

theorem total_sub : Total Num.sub := by
  rintro t u v (⟨ht, a, b, rfl, rfl⟩ | ⟨ht, m, n, rfl, rfl⟩)
  · exact .inl ⟨.real (a - b), rfl, .inl ⟨ht, _, _, rfl, rfl⟩⟩
  · exact .inl ⟨.int (m - n), rfl, .inr ⟨ht, _, _, rfl, rfl⟩⟩

theorem total_mul : Total Num.mul := by
  rintro t u v (⟨ht, a, b, rfl, rfl⟩ | ⟨ht, m, n, rfl, rfl⟩)
  · exact .inl ⟨.real (a * b), rfl, .inl ⟨ht, _, _, rfl, rfl⟩⟩
  · exact .inl ⟨.int (m * n), rfl, .inr ⟨ht, _, _, rfl, rfl⟩⟩

theorem total_quotient : Total quotient := by
  rintro t u v (⟨ht, a, b, rfl, rfl⟩ | ⟨ht, m, n, rfl, rfl⟩)
  · by_cases hb : (b == 0) = true
    · exact .inr (if_pos hb)
    · exact .inl ⟨.real (a / b), if_neg hb, .inl ⟨ht, _, _, rfl, rfl⟩⟩
  · by_cases hn : n = 0
    · exact .inr (if_pos hn)
    · exact .inl ⟨.int (Int.fdiv m n), if_neg hn, .inr ⟨ht, _, _, rfl, rfl⟩⟩

theorem ofScalar_alike (ht : t.limits?.isSome = true) {w : Num} (hw : Alike t w w) :
    ∃ n, ofScalar t w.toScalar = .ok n ∧ n.ctype = t := by
  rcases hw with ⟨hr, a, b, rfl, -⟩ | ⟨hr, m, n, rfl, -⟩
  · exact ofScalar_real ht hr a
  · exact ofScalar_int ht hr m

/-- The value of a number in a type that is real if that of the number is. -/
theorem convert_value (n : Number) (h : n.ctype.isReal = true → t.isReal = true) :
    ∃ v, t.convert n.value.toScalar = .ok v ∧ Alike t v v := by
  cases ht : t.isReal with
  | true =>
    cases hn : n.ctype.isReal with
    | true =>
      obtain ⟨r, hr⟩ := value_of_isReal hn
      exact ⟨.real r, by rw [hr, CType.convert, if_pos ht]; rfl, .inl ⟨ht, r, r, rfl, rfl⟩⟩
    | false =>
      obtain ⟨k, hk, hbound⟩ := value_of_not_isReal hn
      obtain ⟨r, hr⟩ := Decimal.ofInt?_of_natAbs_le hbound
      refine ⟨.real r, ?_, .inl ⟨ht, r, r, rfl, rfl⟩⟩
      rw [hk, CType.convert, if_pos ht, Num.toScalar, Scalar.toReal, hr]
      rfl
  | false =>
    cases hn : n.ctype.isReal with
    | true => exact Bool.noConfusion ((h hn).symm.trans ht)
    | false =>
      obtain ⟨k, hk, -⟩ := value_of_not_isReal hn
      exact ⟨.int k, by rw [hk, CType.convert, ht]; rfl, .inr ⟨ht, k, k, rfl, rfl⟩⟩

theorem operands_eq (h : x.ctype.combine y.ctype = .ok t) :
    ∃ u v, operands t x y = .ok (u, v) ∧ Alike t u v := by
  have hreal := (CType.combined_of_eq h).isReal
  obtain ⟨u, hu, hukind⟩ := convert_value x (t := t) fun hx => by rw [hreal, hx]; rfl
  obtain ⟨v, hv, hvkind⟩ := convert_value y (t := t) fun hy => by rw [hreal, hy, Bool.or_true]
  refine ⟨u, v, by rw [operands, hu, hv]; rfl, ?_⟩
  rcases hukind with ⟨ht, a, -, rfl, -⟩ | ⟨ht, m, -, rfl, -⟩
  · rcases hvkind with ⟨-, b, -, rfl, -⟩ | ⟨hf, -⟩
    · exact .inl ⟨ht, a, b, rfl, rfl⟩
    · exact Bool.noConfusion (ht.symm.trans hf)
  · rcases hvkind with ⟨hf, -⟩ | ⟨-, n, -, rfl, -⟩
    · exact Bool.noConfusion (hf.symm.trans ht)
    · exact .inr ⟨ht, m, n, rfl, rfl⟩

def Combine (x y : Number) : Prop :=
  x.ctype.isArithmetic = true ∧ y.ctype.isArithmetic = true

theorem lift_eq {u v : Num} (f : Num → Num → Except Fault Num)
    (h : x.ctype.combine y.ctype = .ok t) (huv : operands t x y = .ok (u, v)) :
    lift f x y = f u v >>= fun w => ofScalar t w.toScalar := by
  rw [lift, h]
  change (operands t x y >>= fun p => f p.1 p.2 >>= fun w => ofScalar t w.toScalar) = _
  rw [huv]
  rfl

theorem lift_proceeds {f : Num → Num → Except Fault Num} (hf : Total f)
    (h : x.ctype.combine y.ctype = .ok t) : Proceeds (lift f x y) t := by
  obtain ⟨u, v, huv, hkind⟩ := operands_eq h
  rw [lift_eq f h huv]
  rcases hf t u v hkind with ⟨w, hw, hwkind⟩ | hzero
  · rw [hw]
    exact .inl (ofScalar_alike (CType.combined_of_eq h).limits hwkind)
  · rw [hzero]
    exact .inr rfl

theorem lift_stops (f : Num → Num → Except Fault Num) (h : ¬ Combine x y) :
    Stops (lift f x y) :=
  Stops.bind (CType.combine_fails h) _

/-- The types of the operands are arithmetic, and neither is real. -/
def CombineInts (x y : Number) : Prop :=
  Combine x y ∧ x.ctype.isReal = false ∧ y.ctype.isReal = false

theorem isReal_of_not_combineInts (h : ¬ CombineInts x y) (hc : Combine x y)
    (ht : x.ctype.combine y.ctype = .ok t) : t.isReal = true := by
  rw [(CType.combined_of_eq ht).isReal]
  by_contra hf
  exact h ⟨hc, Bool.or_eq_false_iff.1 (Bool.not_eq_true _ ▸ hf)⟩

theorem mod_eq {u v : Num} (h : x.ctype.combine y.ctype = .ok t) (hr : t.isReal = false)
    (huv : operands t x y = .ok (u, v)) :
    mod x y = u.modulo v >>= fun w => ofScalar t w.toScalar := by
  rw [mod, h]
  change (if t.isReal = true then _ else
    operands t x y >>= fun p => p.1.modulo p.2 >>= fun w => ofScalar t w.toScalar) = _
  rw [huv, hr]
  rfl

theorem mod_proceeds (h : x.ctype.combine y.ctype = .ok t) (hr : t.isReal = false) :
    Proceeds (mod x y) t := by
  obtain ⟨u, v, huv, hkind⟩ := operands_eq h
  rcases hkind with ⟨ht, -⟩ | ⟨ht, m, n, rfl, rfl⟩
  · exact Bool.noConfusion (ht.symm.trans hr)
  · rw [mod_eq h hr huv]
    by_cases hn : n = 0
    · rw [Num.modulo, if_pos hn]
      exact .inr rfl
    · rw [Num.modulo, if_neg hn]
      exact .inl (ofScalar_int (CType.combined_of_eq h).limits hr _)

theorem mod_stops (h : ¬ CombineInts x y) : Stops (mod x y) := by
  by_cases hc : Combine x y
  · obtain ⟨t, ht, -⟩ := CType.combine_isOk hc.1 hc.2
    have hreal := isReal_of_not_combineInts h hc ht
    refine ⟨.remainderOfReals x.ctype y.ctype, ?_, by simp⟩
    rw [mod, ht]
    exact if_pos hreal
  · exact Stops.bind (CType.combine_fails hc) _

theorem bits_proceeds (f : Bool → Bool → Bool) (h : x.ctype.combine y.ctype = .ok t)
    (hr : t.isReal = false) : Proceeds (bits f x y) t := by
  obtain ⟨u, v, huv, hkind⟩ := operands_eq h
  rcases hkind with ⟨ht, -⟩ | ⟨ht, m, n, rfl, rfl⟩
  · exact Bool.noConfusion (ht.symm.trans hr)
  · rw [bits, lift_eq _ h huv]
    exact .inl (ofScalar_int (CType.combined_of_eq h).limits hr _)

theorem bits_stops (f : Bool → Bool → Bool) (h : ¬ CombineInts x y) : Stops (bits f x y) := by
  by_cases hc : Combine x y
  · obtain ⟨t, ht, -⟩ := CType.combine_isOk hc.1 hc.2
    have hreal := isReal_of_not_combineInts h hc ht
    obtain ⟨u, v, huv, hkind⟩ := operands_eq ht
    rcases hkind with ⟨-, a, b, rfl, rfl⟩ | ⟨hf, -⟩
    · refine ⟨.wrongKind, ?_, by simp⟩
      rw [bits, lift_eq _ ht huv]
      rfl
    · exact Bool.noConfusion (hreal.symm.trans hf)
  · exact lift_stops _ hc

theorem compare_eq {u v : Num} (c : Comparison) (h : x.ctype.combine y.ctype = .ok t)
    (huv : operands t x y = .ok (u, v)) :
    compare c x y = ofInt (if c.holds (u.order? v) then 1 else 0) := by
  rw [compare, h]
  change (operands t x y >>= _) = _
  rw [huv]
  rfl

theorem compare_gives (c : Comparison) (h : Combine x y) :
    ∃ n, compare c x y = .ok n ∧ n.ctype = .int := by
  obtain ⟨t, ht, -⟩ := CType.combine_isOk h.1 h.2
  obtain ⟨u, v, huv, -⟩ := operands_eq ht
  rw [compare_eq c ht huv]
  exact ofScalar_int rfl rfl _

theorem compare_stops (c : Comparison) (h : ¬ Combine x y) : Stops (compare c x y) :=
  Stops.bind (CType.combine_fails h) _

theorem logNeg_gives (x : Number) : ∃ n, logNeg x = .ok n ∧ n.ctype = .int :=
  ofScalar_int (t := .int) rfl rfl _

/-- To a pointer a number can be added if what it points to has a size and the sum is finite. -/
def Moves (x y : Number) : Prop :=
  ∃ k v w, x.ctype.dereference.size? = some k ∧ y.value.mul (.int k) = .ok v ∧
    x.value.add v = .ok w ∧ w.Finite

theorem size?_le {k : Nat} (h : t.size? = some k) : k ≤ 8 := by
  have := CType.size?_cases h
  omega

theorem exists_sum (hx : x.ctype.isReal = false) (y : Number) {k : Nat} (hk : k ≤ 8) :
    ∃ v w, y.value.mul (.int k) = .ok v ∧ x.value.add v = .ok w := by
  obtain ⟨m, hm, hbound⟩ := value_of_not_isReal hx
  obtain ⟨p, hp⟩ := Decimal.ofInt?_of_natAbs_le hbound
  cases hy : y.ctype.isReal with
  | false =>
    obtain ⟨n, hn, -⟩ := value_of_not_isReal hy
    exact ⟨.int (n * k), .int (m + n * k), by rw [hn]; rfl, by rw [hm]; rfl⟩
  | true =>
    obtain ⟨r, hr⟩ := value_of_isReal hy
    obtain ⟨q, hq⟩ := Decimal.ofInt?_of_natAbs_le (n := (k : Int)) (by omega)
    refine ⟨.real (r * q), .real (p + r * q), ?_, ?_⟩
    · simp only [hr, Num.mul, Num.asReals, Num.toScalar, Scalar.toReal, hq]
      rfl
    · simp only [hm, Num.add, Num.asReals, Num.toScalar, Scalar.toReal, hp]
      rfl

theorem isReal_of_pointer (h : t.pointer = true) : t.isReal = false := by
  rw [CType.isReal, h]
  rfl

theorem add_pointer (hx : x.ctype.pointer = true) :
    (Moves x y → ∃ n, add x y = .ok n ∧ n.ctype = x.ctype) ∧
      (¬ Moves x y → Stops (add x y)) := by
  have hreal := isReal_of_pointer hx
  have hadd {k : Nat} {v w : Num} (hk : x.ctype.dereference.size? = some k)
      (hv : y.value.mul (.int k) = .ok v) (hw : x.value.add v = .ok w) :
      add x y = ofScalar x.ctype w.toScalar := by
    simp only [add, hx, if_true, CType.size, hk, Option.elim_some]
    change (y.value.mul (.int k) >>= fun v => x.value.add v >>= _) = _
    rw [hv]
    change (x.value.add v >>= _) = _
    rw [hw]
    rfl
  constructor
  · rintro ⟨k, v, w, hk, hv, hw, hfinite⟩
    rw [hadd hk hv hw]
    cases w with
    | int n => exact ofScalar_int x.limits_isSome hreal n
    | real r => exact (ofScalar_real_int x.limits_isSome hreal r).1 hfinite
  · intro hno
    cases hk : x.ctype.dereference.size? with
    | none =>
      refine ⟨.sizeless x.ctype.dereference, ?_, by simp⟩
      simp only [add, hx, if_true, CType.size, hk, Option.elim_none]
      rfl
    | some k =>
      obtain ⟨v, w, hv, hw⟩ := exists_sum hreal y (size?_le hk)
      rw [hadd hk hv hw]
      have hinfinite : ¬ w.Finite := fun hf => hno ⟨k, v, w, hk, hv, hw, hf⟩
      cases w with
      | int n => exact absurd trivial hinfinite
      | real r => exact (ofScalar_real_int x.limits_isSome hreal r).2 hinfinite

end Number

end MiniC
