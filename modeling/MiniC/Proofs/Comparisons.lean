import MiniC.Proofs.IntegerLaws

/-!
# Comparisons of integers

A difference is brought into the range of the combined type, but a comparison looks at the values as
they are. Both see the same if the combined type has the values of both operands. It does not have
a negative value if it is unsigned, nor one in the upper half of its unsigned neighbour if it is
signed, and such a value is moved by the number of values of the type when it is converted. So the
two differ only where one of the operands is moved and the other is not, and there only as long as
their distance is not so large that the move keeps their order.
-/

namespace MiniC

namespace Number

open CType

variable {a b : Number} {t : CType} {size : Nat} {m n : Int}

def moved (t : CType) (size : Nat) (m : Int) : Int :=
  if t.isUnsigned then
    if m < 0 then m + 2 ^ (8 * size) else m
  else if m < 2 ^ (8 * size - 1) then m else m - 2 ^ (8 * size)

theorem moved_unsigned (hsign : t.isUnsigned = true) (size : Nat) (m : Int) :
    moved t size m = if m < 0 then m + 2 ^ (8 * size) else m :=
  if_pos hsign

theorem moved_signed (hsign : t.isUnsigned = false) (size : Nat) (m : Int) :
    moved t size m = if m < 2 ^ (8 * size - 1) then m else m - 2 ^ (8 * size) :=
  if_neg (by simp [hsign])

/-- A value that is not too far away is moved once at most. -/
theorem has_moved (ht : t.Integral size) (hm : Near size m) : t.Has (.int (moved t size m)) := by
  have hdouble := ht.double
  unfold Near at hm
  cases hsign : t.isUnsigned with
  | false =>
    rw [ht.has_signed_iff hsign, moved_signed hsign]
    split <;> omega
  | true =>
    rw [ht.has_unsigned_iff hsign, moved_unsigned hsign]
    split <;> omega

theorem moved_modEq (t : CType) (size : Nat) (m : Int) :
    moved t size m ≡ m [ZMOD 2 ^ (8 * size)] := by
  unfold moved
  split_ifs
  · exact Int.add_modEq_right
  · rfl
  · rfl
  · exact Int.modEq_iff_dvd.2 ⟨1, by omega⟩

theorem convert_moved (ht : t.Integral size) (ha : a.value = .int m) (hm : Near size m) :
    ∃ a', a.convert t = .ok a' ∧ a'.value = .int (moved t size m) := by
  rw [convert_eq t ha, ← ofScalar_congr ht (moved_modEq t size m)]
  exact ⟨_, ofScalar_of_has (has_moved ht hm), rfl⟩

/-- Two values stay apart when they are moved unless they differ by as much as they are moved. -/
theorem equality_kept_iff (ht : t.Integral size) (hm : Near size m) (hn : Near size n) :
    ((m = n ↔ moved t size m = moved t size n) ↔
      m - n ≠ 2 ^ (8 * size) ∧ n - m ≠ 2 ^ (8 * size)) := by
  have hdouble := ht.double
  unfold Near at hm hn
  cases hsign : t.isUnsigned with
  | false =>
    rw [moved_signed hsign, moved_signed hsign]
    split <;> split <;> omega
  | true =>
    rw [moved_unsigned hsign, moved_unsigned hsign]
    split <;> split <;> omega

/-- Two values stay in their order when they are moved if both are moved or none, or if they are
further apart than that. -/
theorem order_kept_iff (ht : t.Integral size) (hm : Near size m) (hn : Near size n) :
    ((m < n ↔ moved t size m < moved t size n) ↔
      ((t.Has (.int m) ↔ t.Has (.int n)) ∨ m - n < -2 ^ (8 * size) ∨ 2 ^ (8 * size) ≤ m - n)) := by
  have hdouble := ht.double
  unfold Near at hm hn
  cases hsign : t.isUnsigned with
  | false =>
    rw [moved_signed hsign, moved_signed hsign, ht.has_signed_iff hsign, ht.has_signed_iff hsign]
    split <;> split <;> omega
  | true =>
    rw [moved_unsigned hsign, moved_unsigned hsign, ht.has_unsigned_iff hsign,
      ht.has_unsigned_iff hsign]
    split <;> split <;> omega

/-- A difference is zero if and only if the operands are the same when they are converted. -/
theorem difference_zero_iff {d : Number} {m' n' : Int} (ht : t.Integral size) (hd : d.ctype = t)
    (hsub : d.Congruent size (m - n)) (hm : t.Has (.int m') ∧ m' ≡ m [ZMOD 2 ^ (8 * size)])
    (hn : t.Has (.int n') ∧ n' ≡ n [ZMOD 2 ^ (8 * size)]) : d.value = .int 0 ↔ m' = n' := by
  obtain ⟨k, hk, hmod⟩ := hsub
  have hmod : k ≡ m' - n' [ZMOD 2 ^ (8 * size)] := hmod.trans (hm.2.sub hn.2).symm
  rw [hk, Num.int.injEq]
  constructor
  · rintro rfl
    have hsame : n' ≡ m' [ZMOD 2 ^ (8 * size)] := by
      simpa using hmod.add_right n'
    exact ht.eq_of_modEq hm.1 hn.1 hsame.symm
  · rintro rfl
    rw [Int.sub_self] at hmod
    exact ht.eq_of_modEq (hd ▸ hk ▸ d.fits) ht.has_zero hmod

/-- A comparison gives whether it holds of the values as they are. -/
theorem compare_int (c : Comparison) (ht : a.ctype.combine b.ctype = .ok t)
    (hreal : t.isReal = false) (ha : a.value = .int m) (hb : b.value = .int n) :
    ∃ r, compare c a b = .ok r ∧ (r.truth = true ↔ c.holds (some (Ord.compare m n)) = true) := by
  have horder : (Num.int m).order? (.int n) = some (Ord.compare m n) := by
    simp [Num.order?]
  rw [compare_eq c ht (operands_int hreal ha hb), horder]
  split
  · next h =>
    have hone : CType.int.Has (.int 1) := ⟨_, rfl, rfl, by decide, by decide⟩
    exact ⟨_, ofScalar_of_has hone, iff_of_true rfl h⟩
  · next h =>
    have hzero : CType.int.Has (.int 0) := ⟨_, rfl, rfl, by decide, by decide⟩
    exact ⟨_, ofScalar_of_has hzero, iff_of_false Bool.false_ne_true h⟩

/-- Whether two integers are equal, and which is less, is decided by their values as they are. A
difference is zero if and only if the values are the same in the combined type. It is so exactly if
the integers are equal, unless they differ by the number of values of that type. The order is that of
the values in the combined type exactly if that has both of them or none, or if they are further
apart than the number of its values. -/
theorem comparisons_of_values {a b : Number} (h : CombineInts a b) :
    ∃ m n t size, a.value = .int m ∧ b.value = .int n ∧ a.ctype.combine b.ctype = .ok t ∧
      t.Integral size ∧ ∃ a' b' m' n' d e l,
        a.convert t = .ok a' ∧ a'.value = .int m' ∧ b.convert t = .ok b' ∧ b'.value = .int n' ∧
        sub a b = .ok d ∧ compare .eq a b = .ok e ∧ compare .lt a b = .ok l ∧
        (e.truth = true ↔ m = n) ∧ (l.truth = true ↔ m < n) ∧ (d.value = .int 0 ↔ m' = n') ∧
        ((e.truth = true ↔ d.value = .int 0) ↔
          m - n ≠ 2 ^ (8 * size) ∧ n - m ≠ 2 ^ (8 * size)) ∧
        ((l.truth = true ↔ m' < n') ↔ ((t.Has (.int m) ↔ t.Has (.int n)) ∨
          m - n < -2 ^ (8 * size) ∨ 2 ^ (8 * size) ≤ m - n)) := by
  obtain ⟨i, m, hm, ha⟩ := exists_operand h.1.1 h.2.1
  obtain ⟨j, n, hn, hb⟩ := exists_operand h.1.2 h.2.2
  obtain ⟨hi, hilt, -⟩ := ha 0
  obtain ⟨hj, hjlt, -⟩ := hb 0
  obtain ⟨t, hget, ht, hintegral⟩ := combine_integers hi hj hilt hjlt
  obtain ⟨hmnear, -⟩ := near_of_rank? hi hilt (k := max (max i j) 4) (by omega) (hm ▸ a.fits)
  obtain ⟨hnnear, -⟩ := near_of_rank? hj hjlt (k := max (max i j) 4) (by omega) (hn ▸ b.fits)
  obtain ⟨d, hd, hat⟩ := computes_sub (ha _) (hb _) rfl rfl
  obtain ⟨a', ha', hm'⟩ := convert_moved hintegral hm hmnear
  obtain ⟨b', hb', hn'⟩ := convert_moved hintegral hn hnnear
  obtain ⟨e, he, hetruth⟩ := compare_int .eq ht hintegral.isReal hm hn
  obtain ⟨l, hl, hltruth⟩ := compare_int .lt ht hintegral.isReal hm hn
  have heq : e.truth = true ↔ m = n := by
    rw [hetruth]
    simp [Comparison.holds]
  have hless : l.truth = true ↔ m < n := by
    rw [hltruth]
    simp [Comparison.holds, Int.compare_eq_lt]
  obtain rfl : d.ctype = t := Option.some.inj (hat.ctype.symm.trans hget)
  have hzero : d.value = .int 0 ↔ moved d.ctype _ m = moved d.ctype _ n :=
    difference_zero_iff hintegral rfl hat.congruent
      ⟨has_moved hintegral hmnear, moved_modEq _ _ m⟩
      ⟨has_moved hintegral hnnear, moved_modEq _ _ n⟩
  refine ⟨m, n, d.ctype, _, hm, hn, ht, hintegral, a', b', _, _, d, e, l, ha', hm', hb', hn', hd,
    he, hl, heq, hless, hzero, ?_, ?_⟩
  · rw [heq, hzero]
    exact equality_kept_iff hintegral hmnear hnnear
  · rw [hless]
    exact order_kept_iff hintegral hmnear hnnear

/-- Minus one and the greatest unsigned integer are told apart, but their difference is zero. -/
theorem comparisons_of_values_opposite : ∃ a b d e : Number,
    a.ctype = .int ∧ a.value = .int (-1) ∧
    b.ctype = .unsignedInt ∧ b.value = .int 4294967295 ∧ CombineInts a b ∧
    sub a b = .ok d ∧ d.value = .int 0 ∧
    compare .eq a b = .ok e ∧ e.truth = false := by
  let a : Number := ⟨.int, .int (-1), _, rfl, rfl, by decide, by decide⟩
  let b : Number := ⟨.unsignedInt, .int 4294967295, _, rfl, rfl, by decide, by decide⟩
  have hab : CombineInts a b := ⟨⟨rfl, rfl⟩, rfl, rfl⟩
  obtain ⟨m, n, t, size, hm, hn, ht, hintegral, a', b', m', n', d, e, l, -, -, -, -, hd, he, -, heq,
    -, -, hagree, -⟩ := comparisons_of_values hab
  obtain rfl : -1 = m := Num.int.inj hm
  obtain rfl : 4294967295 = n := Num.int.inj hn
  obtain rfl : CType.unsignedInt = t := Except.ok.inj ht
  obtain rfl : 4 = size := Option.some.inj hintegral.size
  have hfalse : ¬e.truth = true := fun h => absurd (heq.1 h) (by decide)
  refine ⟨a, b, d, e, rfl, rfl, rfl, rfl, hab, hd, ?_, he, Bool.eq_false_iff.2 hfalse⟩
  by_contra hzero
  exact (hagree.1 (iff_of_false hfalse hzero)).2 (by decide)

end Number

end MiniC
