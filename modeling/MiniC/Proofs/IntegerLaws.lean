import Mathlib.Algebra.Order.Ring.Int
import MiniC.Proofs.Conversions

/-!
# Laws of integer arithmetic

The type of a result is found by the places of the types of the operands among the arithmetic types,
and its value by a residue class: sums, differences and products only depend on the residue classes
of the operands, as long as the modulus of each operand is that of the result or a multiple of it.
So a computation with integers gives the number at a place for an integer, and two computations
agree if both the places and the integers are equal. The places of three operands combine as a
maximum and the integers as in the ring of all integers, which gives the laws of a ring.

Quotients and remainders are taken of the values themselves. Both are brought into the range of the
combined type only afterwards, which keeps their residue classes, so that the dividend is found
again even where the quotient does not fit.
-/

namespace MiniC

namespace CType

variable {a b t : CType} {i j : Nat}

def promotedSize (t : CType) : Except Fault Nat := do
  (← t.combine .int).size

/-- The size of the promoted integer type at a place: all up to `unsigned long int` take four bytes.
-/
def sizeAt (i : Nat) : Nat :=
  if i < 8 then 4 else 8

theorem sizeAt_max (i j : Nat) : sizeAt (max i j) = max (sizeAt i) (sizeAt j) := by
  unfold sizeAt
  split_ifs <;> omega

theorem sizeAt_mono (h : i ≤ j) : sizeAt i ≤ sizeAt j := by
  rw [← max_eq_right h, sizeAt_max]
  exact Nat.le_max_left _ _

theorem sizeAt_four_le (i : Nat) : sizeAt 4 ≤ sizeAt i := by
  unfold sizeAt
  split_ifs <;> omega

/-- Promoted types of one size have a combined type of that size. -/
theorem sizeAt_combined {size : Nat} (hi : sizeAt i = size) (hj : sizeAt j = size) :
    sizeAt (max (max i j) 4) = size := by
  have hfour := sizeAt_four_le i
  rw [sizeAt_max, sizeAt_max]
  omega

/-- The first ten types are those of integers, and every other one of them is unsigned. -/
theorem arithmetic_integers : ∀ i < 10, ∀ t ∈ arithmetic[i]?,
    t.isReal = false ∧ t.isUnsigned = decide (i % 2 = 1) ∧
      t.size? = some (if i < 2 then 1 else if i < 4 then 2 else sizeAt i) := by
  decide

theorem integral_at (hlo : 4 ≤ i) (hhi : i < 10) (h : arithmetic[i]? = some t) :
    t.Integral (sizeAt i) := by
  obtain ⟨hreal, -, hsize⟩ := arithmetic_integers i hhi t h
  rw [if_neg (by omega), if_neg (by omega)] at hsize
  exact ⟨hreal, hsize⟩

/-- Before it is promoted, an integer type is at most as large, and every other one is unsigned. -/
theorem integral_of_rank? (h : t.rank? = some i) (hlt : i < 10) :
    (∃ size, t.Integral size ∧ size ≤ sizeAt i) ∧ t.isUnsigned = decide (i % 2 = 1) := by
  obtain ⟨hlen, hsame, -⟩ := List.findIdx?_eq_some_iff_getElem.1 h
  obtain ⟨hreal, hsign, hsize⟩ :=
    arithmetic_integers i hlt arithmetic[i] (List.getElem?_eq_getElem hlen)
  rw [isReal_of_same hsame] at hreal
  rw [isUnsigned_of_same hsame] at hsign
  rw [size?_of_same hsame] at hsize
  refine ⟨⟨_, ⟨hreal, hsize⟩, ?_⟩, hsign⟩
  unfold sizeAt
  split_ifs <;> omega

/-- A signed type is promoted to a signed one. -/
theorem isUnsigned_promoted (hi : a.rank? = some i) (hlt : i < 10) (hsign : a.isUnsigned = false)
    (hget : arithmetic[max i 4]? = some t) : t.isUnsigned = false := by
  have hplace := (integral_of_rank? hi hlt).2
  rw [hsign] at hplace
  have heven : ¬i % 2 = 1 := of_decide_eq_false hplace.symm
  rw [(arithmetic_integers _ (by omega) t hget).2.1]
  exact decide_eq_false (by omega)

/-- An integer is not below the values of the signed types of a size, and not above those of the
unsigned ones. -/
def Near (size : Nat) (n : Int) : Prop :=
  -2 ^ (8 * size - 1) ≤ n ∧ n < 2 ^ (8 * size)

/-- The values of an integer type before it is promoted and combined with another one. -/
theorem near_of_rank? {k : Nat} {n : Int} (hi : t.rank? = some i) (hlt : i < 10) (hik : i ≤ k)
    (h : t.Has (.int n)) :
    Near (sizeAt k) n ∧ (t.isUnsigned = false → n < 2 ^ (8 * sizeAt k - 1)) := by
  obtain ⟨⟨size, hintegral, hsize⟩, -⟩ := integral_of_rank? hi hlt
  have hle : size ≤ sizeAt k := hsize.trans (sizeAt_mono hik)
  have hmono {x y : Nat} (hxy : x ≤ y) : (2 : Int) ^ x ≤ 2 ^ y := pow_le_pow_right₀ (by decide) hxy
  have hhalf := hmono (show 8 * size - 1 ≤ 8 * sizeAt k - 1 by omega)
  have hfull := hmono (show 8 * size ≤ 8 * sizeAt k by omega)
  have hstep := hmono (show 8 * sizeAt k - 1 ≤ 8 * sizeAt k by omega)
  have hpos : (0 : Int) < 2 ^ (8 * sizeAt k - 1) := pow_pos (by decide) _
  cases hsign : t.isUnsigned with
  | false =>
    rw [hintegral.has_signed_iff hsign] at h
    exact ⟨⟨by omega, by omega⟩, fun _ => by omega⟩
  | true =>
    rw [hintegral.has_unsigned_iff hsign] at h
    exact ⟨⟨by omega, by omega⟩, by rintro ⟨⟩⟩

/-- The combined type of integer types. -/
theorem combine_integers (hi : a.rank? = some i) (hj : b.rank? = some j) (hilt : i < 10)
    (hjlt : j < 10) : ∃ t, arithmetic[max (max i j) 4]? = some t ∧ a.combine b = .ok t ∧
      t.Integral (sizeAt (max (max i j) 4)) := by
  obtain ⟨t, hget, ht⟩ := combine_of_rank? hi hj
  exact ⟨t, hget, ht, integral_at (by omega) (by omega) hget⟩

theorem promotedSize_eq (hi : t.rank? = some i) (hlt : i < 10) :
    t.promotedSize = .ok (sizeAt i) := by
  obtain ⟨p, -, hp, hintegral⟩ := combine_integers hi (j := 4) (b := .int) rfl hlt (by decide)
  have hplace : sizeAt (max (max i 4) 4) = sizeAt i := by
    have hfour := sizeAt_four_le i
    rw [sizeAt_max, sizeAt_max]
    omega
  rw [promotedSize, hp]
  change p.size = _
  rw [CType.size, hintegral.size, hplace]
  rfl

end CType

namespace Number

open CType

variable {a b c r : Number} {t : CType} {i j k size : Nat} {u v w m n : Int}
  {p q : Except Fault Number} {o : Number → Number → Except Fault Number} {g : Int → Int → Int}

/-! ## Operands and results -/

/-- The type of an operand is the integer type at a place, and its value is congruent to an integer
modulo the number of values of a size. -/
structure Operand (a : Number) (i size : Nat) (u : Int) : Prop where
  rank : a.ctype.rank? = some i
  lt : i < 10
  congruent : a.Congruent size u

theorem Operand.pointer (h : a.Operand i size u) : a.ctype.pointer = false :=
  (rank?_eq_some h.rank).2.1

structure IsAt (r : Number) (i : Nat) (u : Int) : Prop where
  ctype : arithmetic[i]? = some r.ctype
  promoted : 4 ≤ i
  lt : i < 10
  congruent : r.Congruent (sizeAt i) u

theorem IsAt.integral (h : r.IsAt i u) : r.ctype.Integral (sizeAt i) :=
  integral_at h.promoted h.lt h.ctype

theorem IsAt.unique (ha : a.IsAt i u) (hb : b.IsAt i u) : a = b := by
  have htype : b.ctype = a.ctype := Option.some.inj (hb.ctype.symm.trans ha.ctype)
  exact Congruent.unique ha.integral rfl htype ha.congruent hb.congruent

theorem IsAt.operand (h : r.IsAt i u) : r.Operand i (sizeAt i) u := by
  obtain ⟨hlt, -⟩ := List.getElem?_eq_some_iff.1 h.ctype
  exact ⟨(arithmetic_spec i hlt _ h.ctype).2.2.2, h.lt, h.congruent⟩

def Lands (p : Except Fault Number) (i : Nat) (u : Int) : Prop :=
  ∃ r, p = .ok r ∧ r.IsAt i u

theorem ofScalar_lands (hget : arithmetic[i]? = some t) (hlo : 4 ≤ i) (hhi : i < 10) (u : Int) :
    Lands (ofScalar t (.int u)) i u := by
  obtain ⟨r, hr, rfl, hru⟩ := ofScalar_congruent (integral_at hlo hhi hget) u
  exact ⟨r, hr, hget, hlo, hhi, hru⟩

theorem Lands.bind {f : Number → Except Fault Number} (hp : Lands p i u) (hsize : sizeAt i = size)
    (hf : ∀ r : Number, r.Operand i size u → Lands (f r) j v) : Lands (p >>= f) j v := by
  obtain ⟨r, rfl, hr⟩ := hp
  exact hf r (hsize ▸ hr.operand)

theorem operands_int (ht : t.isReal = false) (ha : a.value = .int m) (hb : b.value = .int n) :
    operands t a b = .ok (.int m, .int n) := by
  simp only [operands, CType.convert, ht, ha, hb]
  rfl

/-- An operation of values is one of integers that respects all congruences. -/
structure Respects (f : Num → Num → Except Fault Num) (g : Int → Int → Int) : Prop where
  eq : ∀ m n, f (.int m) (.int n) = .ok (.int (g m n))
  congr : ∀ {k m m' n n' : Int}, m ≡ m' [ZMOD k] → n ≡ n' [ZMOD k] → g m n ≡ g m' n' [ZMOD k]

theorem respects_add : Respects Num.add (· + ·) :=
  ⟨fun _ _ => rfl, Int.ModEq.add⟩

theorem respects_sub : Respects Num.sub (· - ·) :=
  ⟨fun _ _ => rfl, Int.ModEq.sub⟩

theorem respects_mul : Respects Num.mul (· * ·) :=
  ⟨fun _ _ => rfl, Int.ModEq.mul⟩

/-- An operator computes a function of integers in the combined type, as far as the operands are
known modulo the number of its values. -/
def Computes (o : Number → Number → Except Fault Number) (g : Int → Int → Int) : Prop :=
  ∀ {a b : Number} {i j k size : Nat} {u v : Int}, a.Operand i size u → b.Operand j size v →
    max (max i j) 4 = k → sizeAt k = size → Lands (o a b) k (g u v)

theorem computes_lift {f : Num → Num → Except Fault Num} (hf : Respects f g) :
    Computes (lift f) g := by
  rintro a b i j _ _ u v ha hb rfl rfl
  obtain ⟨t, hget, ht, hintegral⟩ := combine_integers ha.rank hb.rank ha.lt hb.lt
  obtain ⟨m, hm, hmu⟩ := ha.congruent
  obtain ⟨n, hn, hnv⟩ := hb.congruent
  have hlift : lift f a b = ofScalar t (.int (g m n)) := by
    rw [lift_eq f ht (operands_int hintegral.isReal hm hn), hf.eq]
    rfl
  have hilt := ha.lt
  have hjlt := hb.lt
  rw [hlift, ofScalar_congr hintegral (hf.congr hmu hnv)]
  exact ofScalar_lands hget (by omega) (by omega) _

theorem computes_add : Computes add (· + ·) := by
  intro a b i j k size u v ha hb
  rw [add, if_neg (by simp [ha.pointer])]
  exact computes_lift respects_add ha hb

theorem computes_sub : Computes sub (· - ·) := by
  intro a b i j k size u v ha hb
  rw [sub, if_neg (by simp [ha.pointer])]
  exact computes_lift respects_sub ha hb

theorem computes_mul : Computes mul (· * ·) :=
  computes_lift respects_mul

/-- The conversion of a number to a promoted type of the size of its residue class. -/
theorem convert_lands (ha : a.Congruent (sizeAt i) u) (hget : arithmetic[i]? = some t)
    (hlo : 4 ≤ i) (hhi : i < 10) : Lands (a.convert t) i u := by
  rw [convert_of_congruent (integral_at hlo hhi hget) le_rfl ha]
  exact ofScalar_lands hget hlo hhi u

theorem exists_operand (harith : a.ctype.isArithmetic = true) (hreal : a.ctype.isReal = false) :
    ∃ i m, a.value = .int m ∧ ∀ size, a.Operand i size m := by
  obtain ⟨i, hi⟩ := Option.isSome_iff_exists.1 harith
  obtain ⟨m, hm, -⟩ := value_of_not_isReal hreal
  have hlt : i < 10 := by
    have hplace := (rank?_eq_some hi).2.2
    rw [hreal] at hplace
    exact Nat.not_le.1 (of_decide_eq_false hplace.symm)
  exact ⟨i, m, hm, fun size => ⟨hi, hlt, .of_value hm size⟩⟩

/-! ## The laws of a ring -/

def InRange (r : Number) : Prop :=
  ∃ l n, r.ctype.limits? = some l ∧ r.value = .int n ∧ l.1 ≤ n ∧ n ≤ l.2

/-- Two computations give the same number, which is in the range of its type. -/
def Agree (p q : Except Fault Number) : Prop :=
  ∃ r, p = .ok r ∧ q = .ok r ∧ r.InRange

theorem inRange_of_integral (h : r.ctype.Integral size) : r.InRange := by
  obtain ⟨n, hn, l, hl, -, hlo, hhi⟩ := exists_value h rfl
  exact ⟨l, n, hl, hn, hlo, hhi⟩

theorem Lands.agree (hp : Lands p i u) (hq : Lands q j v) (hplace : i = j) (hvalue : u = v) :
    Agree p q := by
  subst hplace hvalue
  obtain ⟨r, hpr, hr⟩ := hp
  obtain ⟨s, hqs, hs⟩ := hq
  exact ⟨r, hpr, hr.unique hs ▸ hqs, inRange_of_integral hr.integral⟩

theorem Computes.comm (ho : Computes o g) (hg : ∀ u v, g u v = g v u) (ha : a.Operand i size u)
    (hb : b.Operand j size v) (hi : sizeAt i = size) (hj : sizeAt j = size) :
    Agree (o a b) (o b a) := by
  have hleft := ho ha hb rfl (sizeAt_combined hi hj)
  have hright := ho hb ha rfl (sizeAt_combined hj hi)
  exact hleft.agree hright (by omega) (hg u v)

theorem Computes.assoc (ho : Computes o g) (hg : ∀ u v w, g (g u v) w = g u (g v w))
    (ha : a.Operand i size u) (hb : b.Operand j size v) (hc : c.Operand k size w)
    (hi : sizeAt i = size) (hj : sizeAt j = size) (hk : sizeAt k = size) :
    Agree (do o (← o a b) c) (do o a (← o b c)) := by
  have hij := sizeAt_combined hi hj
  have hjk := sizeAt_combined hj hk
  have hleft := (ho ha hb rfl hij).bind hij fun r hr => ho hr hc rfl (sizeAt_combined hij hk)
  have hright := (ho hb hc rfl hjk).bind hjk fun r hr => ho ha hr rfl (sizeAt_combined hi hjk)
  exact hleft.agree hright (by omega) (hg u v w)

/-- Sums, differences and products of integers are those of their values, brought into the range of
the combined type. If the promoted types have one size, the sums and products obey the laws of a
ring, and a difference is undone by a sum. -/
theorem integer_ring_laws {a b c : Number} (hab : CombineInts a b) (hac : CombineInts a c)
    (hb : b.ctype.promotedSize = a.ctype.promotedSize)
    (hc : c.ctype.promotedSize = a.ctype.promotedSize) :
    (∃ m n t, a.value = .int m ∧ b.value = .int n ∧ a.ctype.combine b.ctype = .ok t ∧
      Agree (add a b) (ofScalar t (.int (m + n))) ∧ Agree (sub a b) (ofScalar t (.int (m - n))) ∧
      Agree (mul a b) (ofScalar t (.int (m * n)))) ∧
    Agree (add a b) (add b a) ∧ Agree (mul a b) (mul b a) ∧
    Agree (do add (← add a b) c) (do add a (← add b c)) ∧
    Agree (do mul (← mul a b) c) (do mul a (← mul b c)) ∧
    Agree (do mul a (← add b c)) (do add (← mul a b) (← mul a c)) ∧
    Agree (do add (← sub a b) b) (do a.convert (← a.ctype.combine b.ctype)) := by
  obtain ⟨i, u, hu, hau⟩ := exists_operand hab.1.1 hab.2.1
  obtain ⟨j, v, hv, hbv⟩ := exists_operand hab.1.2 hab.2.2
  obtain ⟨k, w, -, hcw⟩ := exists_operand hac.1.2 hac.2.2
  obtain ⟨size, hi⟩ : ∃ size, sizeAt i = size := ⟨_, rfl⟩
  specialize hau size
  specialize hbv size
  specialize hcw size
  rw [promotedSize_eq hau.rank hau.lt, hi] at hb hc
  have hj : sizeAt j = size := by
    rwa [promotedSize_eq hbv.rank hbv.lt, Except.ok.injEq] at hb
  have hk : sizeAt k = size := by
    rwa [promotedSize_eq hcw.rank hcw.lt, Except.ok.injEq] at hc
  -- All types that are met have this size, so no step loses a part of a residue class.
  have hij := sizeAt_combined hi hj
  have hjk := sizeAt_combined hj hk
  have hik := sizeAt_combined hi hk
  obtain ⟨t, hget, ht, -⟩ := combine_integers hau.rank hbv.rank hau.lt hbv.lt
  have hlt : max (max i j) 4 < 10 := by
    have hilt := hau.lt
    have hjlt := hbv.lt
    omega
  have hexact (x : Int) := ofScalar_lands hget (by omega) hlt x
  refine ⟨⟨u, v, t, hu, hv, ht, ?_, ?_, ?_⟩, ?_, ?_, ?_, ?_, ?_, ?_⟩
  · exact (computes_add hau hbv rfl hij).agree (hexact _) rfl rfl
  · exact (computes_sub hau hbv rfl hij).agree (hexact _) rfl rfl
  · exact (computes_mul hau hbv rfl hij).agree (hexact _) rfl rfl
  · exact computes_add.comm Int.add_comm hau hbv hi hj
  · exact computes_mul.comm Int.mul_comm hau hbv hi hj
  · exact computes_add.assoc Int.add_assoc hau hbv hcw hi hj hk
  · exact computes_mul.assoc Int.mul_assoc hau hbv hcw hi hj hk
  · have hleft := (computes_add hbv hcw rfl hjk).bind hjk fun r hr =>
      computes_mul hau hr rfl (sizeAt_combined hi hjk)
    have hright := (computes_mul hau hbv rfl hij).bind hij fun r hr =>
      (computes_mul hau hcw rfl hik).bind hik fun s hs =>
        computes_add hr hs rfl (sizeAt_combined hij hik)
    exact hleft.agree hright (by omega) (Int.mul_add u v w)
  · have hleft := (computes_sub hau hbv rfl hij).bind hij fun r hr =>
      computes_add hr hbv rfl (sizeAt_combined hij hj)
    have hright : Lands (do a.convert (← a.ctype.combine b.ctype)) (max (max i j) 4) u := by
      rw [ht]
      exact convert_lands (hij ▸ hau.congruent) hget (by omega) hlt
    exact hleft.agree hright (by omega) (Int.sub_add_cancel u v)

/-- The law of distribution where types of three kinds of limits meet and each product leaves them.
-/
theorem integer_ring_laws_mixed : ∃ a b c : Number,
    a.ctype = .char ∧ a.value = .int (-128) ∧
    b.ctype = .unsignedInt ∧ b.value = .int 4294967295 ∧
    c.ctype = ⟨some .long, none, some .int, false⟩ ∧ c.value = .int (-2147483648) ∧
    CombineInts a b ∧ CombineInts a c ∧
    b.ctype.promotedSize = a.ctype.promotedSize ∧ c.ctype.promotedSize = a.ctype.promotedSize ∧
    Agree (do mul a (← add b c)) (do add (← mul a b) (← mul a c)) := by
  let a : Number := ⟨.char, .int (-128), _, rfl, rfl, by decide, by decide⟩
  let b : Number := ⟨.unsignedInt, .int 4294967295, _, rfl, rfl, by decide, by decide⟩
  let c : Number := ⟨⟨some .long, none, some .int, false⟩, .int (-2147483648), _, rfl, rfl,
    by decide, by decide⟩
  have hab : CombineInts a b := ⟨⟨rfl, rfl⟩, rfl, rfl⟩
  have hac : CombineInts a c := ⟨⟨rfl, rfl⟩, rfl, rfl⟩
  obtain ⟨-, -, -, -, -, hdistrib, -⟩ := integer_ring_laws hab hac rfl rfl
  exact ⟨a, b, c, rfl, rfl, rfl, rfl, rfl, rfl, hab, hac, rfl, rfl, hdistrib⟩

/-! ## Quotients and remainders -/

/-- The quotient that is rounded down is the truncated one if nothing remains or both signs are the
same, and otherwise one less. -/
theorem fdiv_tdiv_cases {m n : Int} (hn : n ≠ 0) :
    (n ∣ m ∨ m.sign = n.sign) ∧ m.fdiv n = m.tdiv n ∨
      ¬(n ∣ m ∨ m.sign = n.sign) ∧ m.fdiv n = m.tdiv n - 1 := by
  rw [Int.fdiv_eq_tdiv]
  by_cases hdvd : n ∣ m
  · exact .inl ⟨.inl hdvd, by rw [if_pos hdvd, Int.sub_zero]⟩
  have hm : m ≠ 0 := fun h => hdvd (h ▸ Int.dvd_zero n)
  rw [if_neg hdvd]
  rcases Int.lt_or_gt_of_ne hm with hm | hm
  · rw [if_neg (by omega), Int.sign_eq_neg_one_of_neg hm]
    rcases Int.lt_or_gt_of_ne hn with hn | hn
    · rw [if_neg (by omega), Int.sign_eq_neg_one_of_neg hn]
      exact .inl ⟨.inr rfl, by omega⟩
    · rw [if_pos (by omega), Int.sign_eq_one_of_pos hn]
      exact .inr ⟨by simp [hdvd], rfl⟩
  · rw [if_pos (by omega), Int.sign_eq_one_of_pos hm]
    rcases Int.lt_or_gt_of_ne hn with hn | hn
    · rw [if_neg (by omega), Int.sign_eq_neg_one_of_neg hn]
      exact .inr ⟨by simp [hdvd], rfl⟩
    · rw [if_pos (by omega), Int.sign_eq_one_of_pos hn]
      exact .inl ⟨.inr rfl, by omega⟩

theorem div_int (ht : a.ctype.combine b.ctype = .ok t) (hreal : t.isReal = false)
    (ha : a.value = .int m) (hb : b.value = .int n) :
    div a b = if n = 0 then .error .divisionByZero else ofScalar t (.int (m.fdiv n)) := by
  rw [div, lift_eq quotient ht (operands_int hreal ha hb), quotient]
  split <;> rfl

theorem mod_int (ht : a.ctype.combine b.ctype = .ok t) (hreal : t.isReal = false)
    (ha : a.value = .int m) (hb : b.value = .int n) :
    mod a b = if n = 0 then .error .divisionByZero else ofScalar t (.int (m.fmod n)) := by
  rw [mod_eq ht hreal (operands_int hreal ha hb), Num.modulo]
  split <;> rfl

/-- In a signed type, the quotient that is rounded down leaves the range only if the truncated one
does. -/
theorem has_fdiv {size : Nat} (ht : t.Integral size) (hsign : t.isUnsigned = false)
    (hm : t.Has (.int m)) (hn : n ≠ 0) (hq : t.Has (.int (m.tdiv n))) :
    t.Has (.int (m.fdiv n)) := by
  rw [ht.has_signed_iff hsign] at hm hq ⊢
  have habs := Int.natAbs_fdiv_le_natAbs m n
  have hle : m.fdiv n ≤ m.tdiv n := by
    rcases fdiv_tdiv_cases hn (m := m) with ⟨-, h⟩ | ⟨-, h⟩ <;> omega
  omega

/-- A quotient and a remainder exist if and only if the divisor is not zero. They are those of the
values with the quotient rounded down, brought into the range of the combined type, and give the
dividend again. So the quotient of numbers of one signed type is the truncated one, if that does not
overflow, where nothing remains or the signs are the same, and one less elsewhere. -/
theorem quotient_and_remainder {a b : Number} (h : CombineInts a b) :
    ∃ m n t, a.value = .int m ∧ b.value = .int n ∧ a.ctype.combine b.ctype = .ok t ∧
      (div a b = .error .divisionByZero ↔ n = 0) ∧ (mod a b = .error .divisionByZero ↔ n = 0) ∧
      (n ≠ 0 → ∃ q r, div a b = .ok q ∧ mod a b = .ok r ∧
        ofScalar t (.int (m.fdiv n)) = .ok q ∧ ofScalar t (.int (m.fmod n)) = .ok r ∧
        Agree (do add (← mul q b) r) (a.convert t) ∧
        (a.ctype.same b.ctype = true → a.ctype.isUnsigned = false → t.Has (.int (m.tdiv n)) →
          ∃ k, q.value = .int k ∧ (k = m.tdiv n ↔ n ∣ m ∨ m.sign = n.sign) ∧
            (¬(n ∣ m ∨ m.sign = n.sign) → k = m.tdiv n - 1))) := by
  obtain ⟨i, m, hm, ha⟩ := exists_operand h.1.1 h.2.1
  obtain ⟨j, n, hn, hb⟩ := exists_operand h.1.2 h.2.2
  obtain ⟨hi, hilt, -⟩ := ha 0
  obtain ⟨hj, hjlt, -⟩ := hb 0
  obtain ⟨t, hget, ht, hintegral⟩ := combine_integers hi hj hilt hjlt
  have hlt : max (max i j) 4 < 10 := by omega
  have hq := div_int ht hintegral.isReal hm hn
  have hr := mod_int ht hintegral.isReal hm hn
  obtain ⟨q, hfdiv, hqat⟩ := ofScalar_lands hget (by omega) hlt (m.fdiv n)
  obtain ⟨r, hfmod, hrat⟩ := ofScalar_lands hget (by omega) hlt (m.fmod n)
  rw [hfdiv] at hq
  rw [hfmod] at hr
  have hfails {p : Except Fault Number} {s : Number}
      (hp : p = if n = 0 then .error .divisionByZero else .ok s) :
      p = .error .divisionByZero ↔ n = 0 := by
    rw [hp]
    split <;> simp [*]
  refine ⟨m, n, t, hm, hn, ht, hfails hq, hfails hr, fun hzero => ?_⟩
  rw [if_neg hzero] at hq hr
  refine ⟨q, r, hq, hr, hfdiv, hfmod, ?_, fun hsame hsign hover => ?_⟩
  · -- The divisor may have a smaller type: its value is exact, hence congruent for any modulus.
    have hleft := (computes_mul hqat.operand (hb _) (k := max (max i j) 4) (by omega) rfl).bind rfl
      fun p hp => computes_add hp hrat.operand (k := max (max i j) 4) (by omega) rfl
    have hdividend : m.fdiv n * n + m.fmod n = m := by
      rw [Int.mul_comm, Int.mul_fdiv_add_fmod]
    exact hleft.agree (convert_lands (.of_value hm _) hget (by omega) hlt) rfl hdividend
  · obtain rfl : i = j := Option.some.inj (hi.symm.trans (rank?_of_same hsame ▸ hj))
    rw [max_self] at hget hintegral
    have htsign := isUnsigned_promoted hi hilt hsign hget
    obtain ⟨⟨hlo, -⟩, hhi⟩ := near_of_rank? hi hilt (k := max i 4) (by omega) (hm ▸ a.fits)
    have hdividend : t.Has (.int m) := (hintegral.has_signed_iff htsign).2 ⟨hlo, hhi hsign⟩
    have hhas := has_fdiv hintegral htsign hdividend hzero hover
    have hvalue : q.value = .int (m.fdiv n) := by
      rw [ofScalar_of_has hhas] at hfdiv
      rw [← Except.ok.inj hfdiv]
    refine ⟨_, hvalue, ?_⟩
    rcases fdiv_tdiv_cases hzero (m := m) with ⟨hexact, heq⟩ | ⟨hless, heq⟩
    · exact ⟨iff_of_true heq hexact, fun hno => absurd hexact hno⟩
    · exact ⟨iff_of_false (by omega) hless, fun _ => heq⟩

/-- A negative quotient with a remainder is one less than the truncated one. -/
theorem quotient_and_remainder_negative : ∃ a b q r : Number,
    a.ctype = .int ∧ a.value = .int (-7) ∧ b.ctype = .int ∧ b.value = .int 2 ∧ CombineInts a b ∧
    div a b = .ok q ∧ q.value = .int (-4) ∧ mod a b = .ok r ∧
    Agree (do add (← mul q b) r) (a.convert .int) := by
  let a : Number := ⟨.int, .int (-7), _, rfl, rfl, by decide, by decide⟩
  let b : Number := ⟨.int, .int 2, _, rfl, rfl, by decide, by decide⟩
  have hab : CombineInts a b := ⟨⟨rfl, rfl⟩, rfl, rfl⟩
  obtain ⟨m, n, t, hm, hn, ht, -, -, hdivides⟩ := quotient_and_remainder hab
  obtain rfl : -7 = m := Num.int.inj hm
  obtain rfl : 2 = n := Num.int.inj hn
  obtain rfl : CType.int = t := Except.ok.inj ht
  obtain ⟨q, r, hq, hr, -, -, hagain, htruncated⟩ := hdivides (by decide)
  obtain ⟨k, hk, -, hless⟩ := htruncated rfl rfl ⟨_, rfl, rfl, by decide, by decide⟩
  obtain rfl : k = -4 := hless (by decide)
  exact ⟨a, b, q, r, rfl, rfl, rfl, rfl, hab, hq, hk, hr, hagain⟩

end Number

end MiniC
