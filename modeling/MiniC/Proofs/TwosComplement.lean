import Mathlib.Data.Int.Bitwise
import MiniC.Proofs.IntegerLaws

/-!
# Bits of integers

A bitwise operator works on integers whose bits go on without end, and the result is brought into
the range of the combined type afterwards. The bits below the width of a type are those of the
residue modulo the number of its values, so they are not changed by that, and each of them is the
combination of the bits of the operands at its place. An operand of a smaller type has no bits of
its own in the upper places: there it repeats the bit of its sign, or has zeros if its type is
unsigned.
-/

namespace MiniC

/-! ## Bits without end -/

theorem testBit_neg_sub_one (r k : Nat) : (-(r : Int) - 1).testBit k = !r.testBit k := by
  rw [show -(r : Int) - 1 = Int.negSucc r by omega]
  rfl

/-- The bits of an integer are those of a natural number, all turned over if it is negative. -/
theorem testBit_eq_flipped (n : Int) (k : Nat) :
    n.testBit k = ((if n < 0 then (-n - 1).toNat else n.toNat).testBit k != decide (n < 0)) := by
  cases n with
  | ofNat n =>
    have hnonneg : ¬Int.ofNat n < 0 := Int.not_lt.2 (Int.natCast_nonneg n)
    rw [if_neg hnonneg, decide_eq_false hnonneg, Bool.bne_false]
    rfl
  | negSucc n =>
    have hneg : Int.negSucc n < 0 := Int.negSucc_lt_zero n
    have hflip : (-Int.negSucc n - 1).toNat = n := by omega
    rw [if_pos hneg, decide_eq_true hneg, hflip, Bool.bne_true]
    rfl

/-- A bitwise operator combines the bits at each place. -/
theorem testBit_bitwise (f : Bool → Bool → Bool) (m n : Int) (k : Nat) :
    (bitwise f m n).testBit k = f (m.testBit k) (n.testBit k) := by
  rw [testBit_eq_flipped m, testBit_eq_flipped n]
  -- The natural numbers are combined so that two zeros give a zero, and the result is turned over.
  have hbits (x y : Nat) := Nat.testBit_bitwise
    (f := fun x y => f (x != decide (m < 0)) (y != decide (n < 0)) !=
      f (decide (m < 0)) (decide (n < 0))) (by simp) x y k
  simp only [bitwise, decide_eq_true_eq]
  split
  · next h =>
    rw [testBit_neg_sub_one, hbits, h]
    simp
  · next h =>
    rw [Bool.not_eq_true] at h
    refine (hbits _ _).trans ?_
    rw [h, Bool.bne_false]

theorem testBit_of_bounds {j k : Nat} {n : Int} (hlo : -2 ^ j ≤ n) (hhi : n < 2 ^ j) (hk : j ≤ k) :
    n.testBit k = decide (n < 0) := by
  have hpow : (2 : Int) ^ j = (2 ^ j : Nat) := by norm_cast
  have hle : 2 ^ j ≤ 2 ^ k := Nat.pow_le_pow_right (by decide) hk
  rw [testBit_eq_flipped, Nat.testBit_lt_two_pow, Bool.false_bne]
  split <;> omega

/-! ## Bits of a residue -/

def residueBit (w : Nat) (n : Int) (k : Nat) : Bool :=
  (n % 2 ^ w).toNat.testBit k

theorem residueBit_eq {w k : Nat} (h : k < w) (n : Int) : residueBit w n k = n.testBit k := by
  have hpow : (2 : Int) ^ w = (2 ^ w : Nat) := by norm_cast
  rw [residueBit, hpow]
  cases n with
  | ofNat n =>
    change ((n % 2 ^ w : Nat) : Int).toNat.testBit k = n.testBit k
    rw [Int.toNat_natCast, Nat.testBit_mod_two_pow, decide_eq_true h, Bool.true_and]
  | negSucc n =>
    have hlt : n % 2 ^ w < 2 ^ w := Nat.mod_lt _ (Nat.two_pow_pos w)
    have hres : (Int.negSucc n % (2 ^ w : Nat)).toNat = 2 ^ w - (n % 2 ^ w + 1) := by
      rw [Int.negSucc_emod _ (by omega)]
      omega
    rw [hres, Nat.testBit_two_pow_sub_succ hlt, Nat.testBit_mod_two_pow, decide_eq_true h,
      Bool.true_and, Bool.true_and]
    rfl

theorem residueBit_congr {w : Nat} {m n : Int} (h : m ≡ n [ZMOD 2 ^ w]) (k : Nat) :
    residueBit w m k = residueBit w n k := by
  rw [residueBit, residueBit, h.eq]

namespace CType

/-- The bit at a place of a wider representation of a value of a type: its own if the type has that
place, and otherwise that of the sign, which is a zero if the type is unsigned. -/
def extendedBit (t : CType) (size : Nat) (n : Int) (k : Nat) : Bool :=
  if k < 8 * size then residueBit (8 * size) n k
  else !t.isUnsigned && residueBit (8 * size) n (8 * size - 1)

/-- In a wider representation a value is extended by its sign. -/
theorem residueBit_extended {t : CType} {size w k : Nat} {n : Int} (ht : t.Integral size)
    (hn : t.Has (.int n)) (hk : k < w) : residueBit w n k = t.extendedBit size n k := by
  rw [residueBit_eq hk, extendedBit]
  split
  · next hlow => exact (residueBit_eq hlow n).symm
  · next hhigh =>
    have hsize := size?_cases ht.size
    rw [residueBit_eq (by omega)]
    cases hsign : t.isUnsigned with
    | false =>
      obtain ⟨hlo, hhi⟩ := (ht.has_signed_iff hsign).1 hn
      rw [testBit_of_bounds hlo hhi (by omega), testBit_of_bounds hlo hhi le_rfl]
      rfl
    | true =>
      obtain ⟨hlo, hhi⟩ := (ht.has_unsigned_iff hsign).1 hn
      rw [testBit_of_bounds (by omega) hhi (by omega)]
      exact decide_eq_false (by omega)

end CType

/-! ## Operators -/

namespace Number

open CType

/-- A bitwise operator gives a number of the combined type, and in the width of that type each bit
of it is the combination of the bits of the operands at its place. The bits that an operand of a
smaller type lacks are those of its sign. -/
theorem bits_of_residues {a b : Number} (h : CombineInts a b) :
    ∃ m n t size sizeA sizeB, a.value = .int m ∧ b.value = .int n ∧
      a.ctype.combine b.ctype = .ok t ∧ t.Integral size ∧
      a.ctype.Integral sizeA ∧ b.ctype.Integral sizeB ∧
      (∀ f : Bool → Bool → Bool, ∃ r v, bits f a b = .ok r ∧ r.ctype = t ∧ r.value = .int v ∧
        ∀ k < 8 * size,
          residueBit (8 * size) v k = f (residueBit (8 * size) m k) (residueBit (8 * size) n k)) ∧
      ∀ k < 8 * size, residueBit (8 * size) m k = a.ctype.extendedBit sizeA m k ∧
        residueBit (8 * size) n k = b.ctype.extendedBit sizeB n k := by
  obtain ⟨i, m, hm, ha⟩ := exists_operand h.1.1 h.2.1
  obtain ⟨j, n, hn, hb⟩ := exists_operand h.1.2 h.2.2
  obtain ⟨hi, hilt, -⟩ := ha 0
  obtain ⟨hj, hjlt, -⟩ := hb 0
  obtain ⟨t, -, ht, hintegral⟩ := combine_integers hi hj hilt hjlt
  obtain ⟨⟨sizeA, hsizeA, -⟩, -⟩ := integral_of_rank? hi hilt
  obtain ⟨⟨sizeB, hsizeB, -⟩, -⟩ := integral_of_rank? hj hjlt
  refine ⟨m, n, t, _, sizeA, sizeB, hm, hn, ht, hintegral, hsizeA, hsizeB, fun f => ?_,
    fun k hk => ⟨?_, ?_⟩⟩
  · obtain ⟨r, hr, htype, v, hv, hmod⟩ := ofScalar_congruent hintegral (bitwise f m n)
    have hbits : bits f a b = .ok r := by
      rw [bits, lift_eq _ ht (operands_int hintegral.isReal hm hn)]
      exact hr
    refine ⟨r, v, hbits, htype, hv, fun k hk => ?_⟩
    rw [residueBit_congr hmod, residueBit_eq hk, residueBit_eq hk, residueBit_eq hk,
      testBit_bitwise]
  · exact residueBit_extended hsizeA (hm ▸ a.fits) hk
  · exact residueBit_extended hsizeB (hn ▸ b.fits) hk

/-- The sign of the least character is repeated up to the highest of 64 bits; its other bits are
zeros. -/
theorem bits_of_residues_extended : ∃ (a b r : Number) (v : Int),
    a.ctype = .char ∧ a.value = .int (-128) ∧
    b.ctype = ⟨some .longLong, some .unsigned, some .int, false⟩ ∧ b.value = .int (2 ^ 64 - 1) ∧
    CombineInts a b ∧ bits and a b = .ok r ∧ r.ctype = b.ctype ∧ r.value = .int v ∧
    residueBit 64 v 63 = true ∧ residueBit 64 v 7 = true ∧ residueBit 64 v 6 = false := by
  let a : Number := ⟨.char, .int (-128), _, rfl, rfl, by decide, by decide⟩
  let b : Number := ⟨⟨some .longLong, some .unsigned, some .int, false⟩, .int (2 ^ 64 - 1), _, rfl,
    rfl, by decide, by decide⟩
  have hab : CombineInts a b := ⟨⟨rfl, rfl⟩, rfl, rfl⟩
  obtain ⟨m, n, t, size, -, -, hm, hn, ht, hintegral, -, -, hbits, -⟩ := bits_of_residues hab
  obtain rfl : -128 = m := Num.int.inj hm
  obtain rfl : 2 ^ 64 - 1 = n := Num.int.inj hn
  obtain rfl : b.ctype = t := Except.ok.inj ht
  obtain rfl : 8 = size := Option.some.inj hintegral.size
  obtain ⟨r, v, hr, htype, hv, hbit⟩ := hbits and
  refine ⟨a, b, r, v, rfl, rfl, rfl, rfl, hab, hr, htype, hv, ?_, ?_, ?_⟩
  · exact (hbit 63 (by decide)).trans (by decide)
  · exact (hbit 7 (by decide)).trans (by decide)
  · exact (hbit 6 (by decide)).trans (by decide)

end Number

end MiniC
