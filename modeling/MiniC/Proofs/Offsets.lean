import Mathlib.Tactic.Ring
import MiniC.Proofs.IntegerLaws

/-!
# Offsets of pointers

An integer that is added to a pointer counts objects of the type pointed to, so it is scaled by
their size before the sum is brought into the range of the pointer. All pointers take four bytes,
and no promoted integer type takes less. So the sum of two offsets keeps what matters of it even
where it wraps around, and offsets can be added one after the other or all at once. A pointer is
found again by adding the opposite of an offset, but not by subtracting the offset: subtraction
knows no pointers and always fails there.
-/

namespace MiniC.Number

open CType

variable {a p n : Number} {t : CType} {i size : Nat} {u v : Int}

/-- A number is the integer that it is congruent to, brought between the limits of its type. -/
theorem Congruent.value_eq {l : Int × Int} (ht : t.Integral size) (hl : t.limits? = some l)
    (ha : a.ctype = t) (h : a.Congruent size v) : a.value = .int (Num.wrapInt l.1 l.2 v) := by
  obtain ⟨n, hn, hmod⟩ := h
  obtain rfl := Option.some.inj (ht.limits?.symm.trans hl)
  rw [← ht.width] at hmod
  have hbounds := ht.has_iff.1 (ha ▸ hn ▸ a.fits)
  have hwrapped := Num.wrapInt_bounds (limits?_ordered hl) v
  have hsame := hmod.trans (Num.wrapInt_modEq _ _ v).symm
  rw [hn, Num.eq_of_modEq hbounds hwrapped hsame]

/-! ## Moving a pointer -/

theorem integral_of_pointer (h : t.pointer = true) : t.Integral 4 :=
  ⟨isReal_of_pointer h, if_pos h⟩

/-- Pointer and offset matter up to the number of addresses. -/
theorem add_offset (hp : p.ctype.pointer = true) (hsize : p.ctype.dereference.size? = some size)
    (hu : p.Congruent 4 u) (hv : n.Congruent 4 v) :
    add p n = ofScalar p.ctype (.int (u + v * size)) := by
  obtain ⟨a, ha, hau⟩ := hu
  obtain ⟨k, hk, hkv⟩ := hv
  have hadd : add p n = ofScalar p.ctype (.int (a + k * size)) := by
    simp only [add, hp, if_true, CType.size, hsize, ha, hk]
    rfl
  rw [hadd]
  exact ofScalar_congr (integral_of_pointer hp) (hau.add (hkv.mul_right size))

theorem exists_add_offset (hp : p.ctype.pointer = true)
    (hsize : p.ctype.dereference.size? = some size) (hu : p.Congruent 4 u) (hv : n.Congruent 4 v) :
    ∃ q, add p n = .ok q ∧ q.ctype = p.ctype ∧ q.Congruent 4 (u + v * size) := by
  rw [add_offset hp hsize hu hv]
  exact ofScalar_congruent (integral_of_pointer hp) _

/-- An operator on integers gives an offset that is known modulo the number of addresses. -/
theorem Lands.offset {r : Except Fault Number} (h : Lands r i u) :
    ∃ n, r = .ok n ∧ n.Congruent 4 u := by
  obtain ⟨n, hn, hat⟩ := h
  obtain ⟨k, hk, hmod⟩ := hat.congruent
  exact ⟨n, hn, k, hk, modEq_of_size_le (sizeAt_four_le i) hmod⟩

def opposite (n : Number) : Except Fault Number := do
  mul (← ofInt (-1)) n

theorem opposite_lands (hn : ∀ size, n.Operand i size u) :
    Lands (opposite n) (max (max 4 i) 4) (-1 * u) := by
  have hhas : CType.int.Has (.int (-1)) := ⟨_, rfl, rfl, by decide, by decide⟩
  rw [opposite, ofInt, ofScalar_of_has hhas]
  exact computes_mul ⟨rfl, by decide, .of_value rfl _⟩ (hn _) rfl rfl

theorem sub_pointer (hp : p.ctype.pointer = true) (n : Number) : sub p n = .error .wrongKind :=
  if_pos hp

/-- A pointer plus an integer is a pointer of the same type, moved by that many objects within the
limits of the type. Two integers can be added one after the other or as their sum. The opposite of
an integer undoes its addition, while its subtraction fails. -/
theorem pointer_offsets {p n m : Number} {size : Nat} (hp : p.ctype.pointer = true)
    (hsize : p.ctype.dereference.size? = some size) (hnm : CombineInts n m) :
    (∃ a k l q, p.value = .int a ∧ n.value = .int k ∧ p.ctype.limits? = some l ∧
      add p n = .ok q ∧ q.ctype = p.ctype ∧
      q.value = .int (Num.wrapInt l.1 l.2 (a + k * size))) ∧
    Agree (do add (← add p n) m) (do add p (← add n m)) ∧
    (do add (← add p n) (← opposite n)) = .ok p ∧
    (do sub (← add p n) n) = .error .wrongKind := by
  have hintegral := integral_of_pointer hp
  obtain ⟨a, ha, -⟩ := exists_value hintegral rfl
  obtain ⟨i, k, hk, hn⟩ := exists_operand hnm.1.1 hnm.2.1
  obtain ⟨j, c, hc, hm⟩ := exists_operand hnm.1.2 hnm.2.2
  have hpa := Congruent.of_value ha 4
  have hnk := Congruent.of_value hk 4
  have hmc := Congruent.of_value hc 4
  obtain ⟨q, hq, htype, hqa⟩ := exists_add_offset hp hsize hpa hnk
  have hqp : q.ctype.pointer = true := by rw [htype, hp]
  have hqsize : q.ctype.dereference.size? = some size := by rw [htype, hsize]
  refine ⟨⟨a, k, _, q, ha, hk, hintegral.limits?, hq, htype, ?_⟩, ?_, ?_, ?_⟩
  · exact hqa.value_eq hintegral hintegral.limits? htype
  · -- Both ways end in the residue of the pointer with both scaled integers added to it.
    obtain ⟨r, hr, hrk⟩ := (computes_add (hn _) (hm _) rfl rfl).offset
    obtain ⟨s, hs, hstype, hsa⟩ := exists_add_offset hqp hqsize hqa hmc
    have hsum : a + (k + c) * size = a + k * size + c * size := by ring
    refine ⟨s, ?_, ?_, inRange_of_integral (integral_of_pointer (hstype ▸ hqp))⟩
    · rw [hq]
      exact hs
    · rw [hr]
      change add p r = _
      rw [add_offset hp hsize hpa hrk, ofScalar_eq_ok_iff hintegral, hsum]
      exact ⟨hstype.trans htype, hsa⟩
  · obtain ⟨r, hr, hrk⟩ := (opposite_lands hn).offset
    have hback : a + k * size + -1 * k * size = a := by ring
    rw [hq, hr]
    change add q r = _
    rw [add_offset hqp hqsize hqa hrk, htype, ofScalar_eq_ok_iff hintegral, hback]
    exact ⟨rfl, hpa⟩
  · rw [hq]
    exact sub_pointer hqp n

/-- Two offsets whose sum wraps around, from an address near the upper limit. -/
theorem pointer_offsets_wrapped : ∃ p n m q : Number,
    p.ctype = ⟨none, none, some .int, true⟩ ∧ p.value = .int 2147483644 ∧
    n.ctype = .int ∧ n.value = .int 2147483647 ∧ m.ctype = .int ∧ m.value = .int 1 ∧
    p.ctype.pointer = true ∧ p.ctype.dereference.size? = some 4 ∧ CombineInts n m ∧
    add p n = .ok q ∧ q.value = .int 2147483640 ∧
    Agree (do add (← add p n) m) (do add p (← add n m)) ∧
    (do sub (← add p n) n) = .error .wrongKind := by
  let p : Number := ⟨⟨none, none, some .int, true⟩, .int 2147483644, _, rfl, rfl, by decide,
    by decide⟩
  let n : Number := ⟨.int, .int 2147483647, _, rfl, rfl, by decide, by decide⟩
  let m : Number := ⟨.int, .int 1, _, rfl, rfl, by decide, by decide⟩
  have hnm : CombineInts n m := ⟨⟨rfl, rfl⟩, rfl, rfl⟩
  obtain ⟨⟨a, k, l, q, ha, hk, hl, hq, -, hvalue⟩, hsum, -, hsub⟩ :=
    pointer_offsets (p := p) rfl rfl hnm
  obtain rfl : 2147483644 = a := Num.int.inj ha
  obtain rfl : 2147483647 = k := Num.int.inj hk
  obtain rfl : limitsOf 4 false = l := Option.some.inj hl
  refine ⟨p, n, m, q, rfl, rfl, rfl, rfl, rfl, rfl, rfl, rfl, hnm, hq, ?_, hsum, hsub⟩
  exact hvalue.trans (congrArg Num.int (by decide))

end MiniC.Number
