import Mathlib.Data.Int.ModEq
import MiniC.Proofs.Arithmetic

/-!
# Conversions of integers

The limits of an integer type enclose exactly one integer of each residue class modulo a power of
two, whose exponent is the number of bits of the type. So what a number of the type is made from
matters only up to this modulus. From this follows how conversions can be chained: a type that is
not larger sees the same residue class through another one, an integer that both types have is kept,
and types of the same size can be converted to each other and back.
-/

namespace MiniC

namespace Num

variable {lo hi m n : Int}

theorem wrapInt_modEq (lo hi n : Int) : wrapInt lo hi n ≡ n [ZMOD hi - lo + 1] := by
  calc
    (n - lo) % (hi - lo + 1) + lo ≡ n - lo + lo [ZMOD hi - lo + 1] :=
      (Int.mod_modEq _ _).add_right lo
    _ = n := Int.sub_add_cancel n lo

/-- No two integers of a range are congruent modulo its width. -/
theorem eq_of_modEq (hm : lo ≤ m ∧ m ≤ hi) (hn : lo ≤ n ∧ n ≤ hi)
    (h : m ≡ n [ZMOD hi - lo + 1]) : m = n := by
  have hdist : |n - m| < hi - lo + 1 := abs_lt.2 ⟨by omega, by omega⟩
  have hzero : n - m = 0 := Int.eq_zero_of_abs_lt_dvd h.dvd hdist
  omega

theorem wrapInt_eq_self (hlo : lo ≤ n) (hhi : n ≤ hi) : wrapInt lo hi n = n :=
  eq_of_modEq (wrapInt_bounds (hlo.trans hhi) n) ⟨hlo, hhi⟩ (wrapInt_modEq lo hi n)

end Num

namespace CType

variable {t : CType} {size : Nat}

/-- The values of a type are integers that take a number of bytes each. -/
structure Integral (t : CType) (size : Nat) : Prop where
  isReal : t.isReal = false
  size : t.size? = some size

namespace Integral

theorem limits? (h : t.Integral size) : t.limits? = some (limitsOf size t.isUnsigned) := by
  rw [CType.limits?, h.size]
  rfl

theorem has_iff (h : t.Integral size) {n : Int} :
    t.Has (.int n) ↔ (limitsOf size t.isUnsigned).1 ≤ n ∧ n ≤ (limitsOf size t.isUnsigned).2 := by
  simp only [Has, h.limits?, h.isReal, Option.some.injEq, exists_eq_left', true_and]

theorem has_signed_iff (h : t.Integral size) (hsign : t.isUnsigned = false) {n : Int} :
    t.Has (.int n) ↔ -2 ^ (8 * size - 1) ≤ n ∧ n < 2 ^ (8 * size - 1) := by
  rw [h.has_iff, hsign]
  exact and_congr_right fun _ => Int.le_sub_one_iff

theorem has_unsigned_iff (h : t.Integral size) (hsign : t.isUnsigned = true) {n : Int} :
    t.Has (.int n) ↔ 0 ≤ n ∧ n < 2 ^ (8 * size) := by
  rw [h.has_iff, hsign]
  exact and_congr_right fun _ => Int.le_sub_one_iff

/-- Half of the values of a type are those of one bit less. -/
theorem double (h : t.Integral size) : (2 : Int) ^ (8 * size) = 2 * 2 ^ (8 * size - 1) := by
  have hsize := size?_cases h.size
  rw [← pow_succ', Nat.sub_add_cancel (by omega)]

theorem width (h : t.Integral size) :
    (limitsOf size t.isUnsigned).2 - (limitsOf size t.isUnsigned).1 + 1 = 2 ^ (8 * size) := by
  have hdouble := h.double
  unfold limitsOf
  split <;> simp only [Int.pow_eq] <;> omega

theorem has_zero (h : t.Integral size) : t.Has (.int 0) := by
  have hpos (k : Nat) : (0 : Int) < 2 ^ k := Int.pow_pos (by decide)
  cases hsign : t.isUnsigned with
  | false =>
    have := hpos (8 * size - 1)
    exact (h.has_signed_iff hsign).2 ⟨by omega, by omega⟩
  | true => exact (h.has_unsigned_iff hsign).2 ⟨by omega, hpos _⟩

theorem eq_of_modEq (h : t.Integral size) {m n : Int} (hm : t.Has (.int m)) (hn : t.Has (.int n))
    (hmod : m ≡ n [ZMOD 2 ^ (8 * size)]) : m = n :=
  Num.eq_of_modEq (h.has_iff.1 hm) (h.has_iff.1 hn) (h.width ▸ hmod)

end Integral

end CType

namespace Number

variable {t t' : CType} {a b : Number} {size size' : Nat} {u v : Int}

theorem eq_of_value (htype : a.ctype = b.ctype) (hvalue : a.value = b.value) : a = b := by
  cases a
  cases b
  cases htype
  cases hvalue
  rfl

def Congruent (a : Number) (size : Nat) (v : Int) : Prop :=
  ∃ n, a.value = .int n ∧ n ≡ v [ZMOD 2 ^ (8 * size)]

theorem Congruent.of_value (h : a.value = .int v) (size : Nat) : a.Congruent size v :=
  ⟨v, h, rfl⟩

theorem Congruent.trans (h : a.Congruent size u) (hmod : u ≡ v [ZMOD 2 ^ (8 * size)]) :
    a.Congruent size v := by
  obtain ⟨n, hn, hmod'⟩ := h
  exact ⟨n, hn, hmod'.trans hmod⟩

theorem modEq_of_size_le {m n : Int} (hsize : size' ≤ size) (h : m ≡ n [ZMOD 2 ^ (8 * size)]) :
    m ≡ n [ZMOD 2 ^ (8 * size')] :=
  h.of_dvd (pow_dvd_pow 2 (by omega))

/-- An integer that a type has is not changed when it is made a number of the type. -/
theorem ofScalar_of_has {a : Int} (h : t.Has (.int a)) :
    ofScalar t (.int a) = .ok ⟨t, .int a, h⟩ := by
  obtain ⟨l, hl, hreal, hlo, hhi⟩ := h
  have hv : t.convert (.int a) = .ok (.int a) := by
    rw [CType.convert, hreal]
    rfl
  have hlimits : t.limits = .ok l := by
    rw [CType.limits, hl]
    rfl
  rw [ofScalar_eq hv hlimits]
  simp only [Num.wrap, Num.wrapInt_eq_self hlo hhi]

/-- An integer becomes a number that is congruent to it. -/
theorem ofScalar_congruent (ht : t.Integral size) (v : Int) :
    ∃ a, ofScalar t (.int v) = .ok a ∧ a.ctype = t ∧ a.Congruent size v := by
  have hv : t.convert (.int v) = .ok (.int v) := by
    rw [CType.convert, ht.isReal]
    rfl
  have hlimits : t.limits = .ok (CType.limitsOf size t.isUnsigned) := by
    rw [CType.limits, ht.limits?]
    rfl
  exact ⟨_, ofScalar_eq hv hlimits, rfl, _, rfl, ht.width ▸ Num.wrapInt_modEq _ _ v⟩

theorem Congruent.unique (ht : t.Integral size) (ha : a.ctype = t) (hb : b.ctype = t)
    (hav : a.Congruent size v) (hbv : b.Congruent size v) : a = b := by
  obtain ⟨m, hm, hmv⟩ := hav
  obtain ⟨n, hn, hnv⟩ := hbv
  have hmn : m = n := ht.eq_of_modEq (ha ▸ hm ▸ a.fits) (hb ▸ hn ▸ b.fits) (hmv.trans hnv.symm)
  exact eq_of_value (ha.trans hb.symm) (by rw [hm, hn, hmn])

theorem ofScalar_eq_ok_iff (ht : t.Integral size) :
    ofScalar t (.int v) = .ok a ↔ a.ctype = t ∧ a.Congruent size v := by
  obtain ⟨b, hb, htype, hbv⟩ := ofScalar_congruent ht v
  rw [hb, Except.ok.injEq]
  constructor
  · rintro rfl
    exact ⟨htype, hbv⟩
  · rintro ⟨ha, hav⟩
    exact Congruent.unique ht htype ha hbv hav

theorem ofScalar_congr (ht : t.Integral size) (h : u ≡ v [ZMOD 2 ^ (8 * size)]) :
    ofScalar t (.int u) = ofScalar t (.int v) := by
  obtain ⟨a, ha, htype, hau⟩ := ofScalar_congruent ht u
  rw [ha, (ofScalar_eq_ok_iff ht).2 ⟨htype, hau.trans h⟩]

theorem convert_eq (t : CType) (h : a.value = .int v) : a.convert t = ofScalar t (.int v) := by
  rw [convert, h]
  rfl

/-- A type that is not larger sees an integer through another type. -/
theorem convert_of_congruent (ht : t.Integral size) (hsize : size ≤ size')
    (h : a.Congruent size' v) : a.convert t = ofScalar t (.int v) := by
  obtain ⟨n, hn, hmod⟩ := h
  rw [convert_eq t hn, ofScalar_congr ht (modEq_of_size_le hsize hmod)]

theorem exists_value (ht : t.Integral size) (ha : a.ctype = t) :
    ∃ n, a.value = .int n ∧ t.Has (.int n) := by
  obtain ⟨n, hn, -⟩ := value_of_not_isReal (n := a) (ha ▸ ht.isReal)
  exact ⟨n, hn, ha ▸ hn ▸ a.fits⟩

theorem cast_int (ht : t.isReal = false) (v : Int) : cast t (.int v) = ofScalar t (.int v) := by
  rw [cast, CType.convert, ht]
  rfl

/-- An integer becomes the only one between the limits of a type that is congruent to it modulo the
number of values. So a conversion to a type that is not larger can be made through another type, a
conversion to a type with wider limits keeps the value, and one to a type of the same size can be
undone. -/
theorem integer_conversions {t : CType} {size : Nat} (ht : t.Integral size) :
    (∀ v, ∃ a n, ofScalar t (.int v) = .ok a ∧ cast t (.int v) = .ok a ∧
      a.ctype = t ∧ a.value = .int n ∧
      ∀ m, t.Has (.int m) ∧ m ≡ v [ZMOD 2 ^ (8 * size)] ↔ m = n) ∧
    ∀ t' size', t'.Integral size' →
      (size' ≤ size → ∀ v, (do (← ofScalar t (.int v)).convert t') =
        ofScalar t' (.int v)) ∧
      (∀ l l', t.limits? = some l → t'.limits? = some l' → l'.1 ≤ l.1 → l.2 ≤ l'.2 →
        ∀ a : Number, a.ctype = t →
          ∃ b, a.convert t' = .ok b ∧ b.ctype = t' ∧ b.value = a.value) ∧
      (size' = size → ∀ a : Number, a.ctype = t → (do (← a.convert t').convert t) = .ok a) := by
  constructor
  · intro v
    obtain ⟨a, ha, htype, n, hn, hmod⟩ := ofScalar_congruent ht v
    refine ⟨a, n, ha, by rw [cast_int ht.isReal, ha], htype, hn, fun m => ?_⟩
    have hhas : t.Has (.int n) := htype ▸ hn ▸ a.fits
    constructor
    · rintro ⟨hm, hmv⟩
      exact ht.eq_of_modEq hm hhas (hmv.trans hmod.symm)
    · rintro rfl
      exact ⟨hhas, hmod⟩
  intro t' size' ht'
  refine ⟨fun hsize v => ?_, fun l l' hl hl' hlo hhi a ha => ?_, fun hsize a ha => ?_⟩
  · obtain ⟨a, ha, -, hav⟩ := ofScalar_congruent ht v
    rw [ha]
    exact convert_of_congruent ht' hsize hav
  · obtain ⟨n, hn, k, hk, -, hnlo, hnhi⟩ := exists_value ht ha
    obtain rfl := Option.some.inj (hk.symm.trans hl)
    have hhas : t'.Has (.int n) := ⟨l', hl', ht'.isReal, by omega, by omega⟩
    exact ⟨_, (convert_eq t' hn).trans (ofScalar_of_has hhas), rfl, hn.symm⟩
  · obtain ⟨n, hn, -⟩ := exists_value ht ha
    obtain ⟨b, hb, -, hbn⟩ := ofScalar_congruent ht' n
    rw [convert_eq t' hn, hb]
    change b.convert t = _
    rw [convert_of_congruent ht hsize.ge hbn]
    exact (ofScalar_eq_ok_iff ht).2 ⟨ha, .of_value hn size⟩

/-- Minus one as an address of unsigned numbers, and back to an `int`. -/
theorem integer_conversions_pointer :
    CType.Integral ⟨none, some .unsigned, some .int, true⟩ 4 ∧ CType.int.Integral 4 ∧
    ∃ a b, ofScalar ⟨none, some .unsigned, some .int, true⟩ (.int (-1)) = .ok a ∧
      a.value = .int 4294967295 ∧ a.convert .int = .ok b ∧ b.value = .int (-1) ∧
      b.convert ⟨none, some .unsigned, some .int, true⟩ = .ok a := by
  have hpointer : CType.Integral ⟨none, some .unsigned, some .int, true⟩ 4 := ⟨rfl, rfl⟩
  have hint : CType.int.Integral 4 := ⟨rfl, rfl⟩
  obtain ⟨hresidue, hchain⟩ := integer_conversions hpointer
  obtain ⟨a, n, ha, -, htype, hn, hunique⟩ := hresidue (-1)
  obtain rfl : 4294967295 = n := (hunique _).1 ⟨⟨_, rfl, rfl, by decide, by decide⟩, by decide⟩
  obtain ⟨hthrough, -, hback⟩ := hchain .int 4 hint
  have hhas : CType.int.Has (.int (-1)) := ⟨_, rfl, rfl, by decide, by decide⟩
  have hb : a.convert .int = .ok ⟨.int, .int (-1), hhas⟩ := by
    have hdirect := hthrough le_rfl (-1)
    rwa [ha, ofScalar_of_has hhas] at hdirect
  have hagain := hback rfl a htype
  rw [hb] at hagain
  exact ⟨hpointer, hint, a, _, ha, hn, hb, rfl, hagain⟩

end Number

end MiniC
