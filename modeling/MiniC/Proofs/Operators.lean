import MiniC.Proofs.Arithmetic
import MiniC.Proofs.Effects

/-!
# Operators on numbers

Whether an operator can be applied to numbers, and the type of what it gives then. The conditions
speak of the types of the operands; only where a double is to become an integer does its value
matter. All operators and assignments that are not defined fail, and none of them fails because of a
division by zero.
-/

namespace MiniC

namespace Number

def Admits (op : Kind) (x y : Number) : Prop :=
  match op with
  | .plus => if x.ctype.pointer = true then Moves x y else Combine x y
  | .minus | .asterisk | .divOp | .ltOp | .gtOp | .leOp | .geOp | .eqOp | .neOp => Combine x y
  | .modOp | .ampersand | .orOp | .xorOp => CombineInts x y
  | .logAndOp | .logOrOp => True
  | _ => False

def Results (op : Kind) (x y : Number) (t : CType) : Prop :=
  match op with
  | .plus => if x.ctype.pointer = true then t = x.ctype else x.ctype.combine y.ctype = .ok t
  | .ltOp | .gtOp | .leOp | .geOp | .eqOp | .neOp => t = .int
  | _ => x.ctype.combine y.ctype = .ok t

/-- Whether a value can become one of a type: a double has to be finite to become an integer. -/
def Converts (t : CType) (v : Num) : Prop :=
  t.isReal = true ∨ v.Finite

def Stores (x : Number) (r : Except Fault Number) : Prop :=
  ∀ n, r = .ok n → Converts x.ctype n.value

def Takes (op : Kind) (x y : Number) : Prop :=
  match op with
  | .assign => Converts x.ctype y.value
  | .addAssign => Admits .plus x y ∧ Stores x (x.add y)
  | .subAssign => Combine x y ∧ Stores x (x.sub y)
  | .mulAssign => Combine x y ∧ Stores x (x.mul y)
  | .divAssign => Combine x y ∧ Stores x (x.div y)
  | _ => False

def Steps (op : Kind) (x : Number) : Prop :=
  match op with
  | .incOp =>
    if x.ctype.pointer = true then x.ctype.dereference.size?.isSome = true
    else x.ctype.isArithmetic = true
  | .decOp => x.ctype.isArithmetic = true
  | _ => False

variable {x y : Number}

/-- An outcome that is known from a condition: a number of a type, or a division by zero, if the
condition holds, and a failure of another kind if it does not. -/
def Decided (c : Prop) (r : Except Fault Number) (T : CType → Prop) : Prop :=
  (c → ∃ t, T t ∧ Proceeds r t) ∧ (¬ c → Stops r)

theorem lift_decided {f : Num → Num → Except Fault Num} (hf : Total f) :
    Decided (Combine x y) (lift f x y) fun t => x.ctype.combine y.ctype = .ok t := by
  refine ⟨fun h => ?_, lift_stops f⟩
  obtain ⟨t, ht, -⟩ := CType.combine_isOk h.1 h.2
  exact ⟨t, ht, lift_proceeds hf ht⟩

theorem add_decided : Decided (Admits .plus x y) (add x y) (Results .plus x y) := by
  by_cases hx : x.ctype.pointer = true
  · obtain ⟨hmoves, hstops⟩ := add_pointer (y := y) hx
    simp only [Admits, if_pos hx]
    exact ⟨fun h => ⟨x.ctype, by simp only [Results, if_pos hx], .inl (hmoves h)⟩, hstops⟩
  · obtain ⟨hyes, hno⟩ := lift_decided (x := x) (y := y) total_add
    simp only [Admits, if_neg hx, add]
    refine ⟨fun h => ?_, hno⟩
    obtain ⟨t, ht, hproceeds⟩ := hyes h
    exact ⟨t, by simpa only [Results, if_neg hx] using ht, hproceeds⟩

theorem sub_decided :
    Decided (Combine x y) (sub x y) fun t => x.ctype.combine y.ctype = .ok t := by
  by_cases hx : x.ctype.pointer = true
  · rw [sub, if_pos hx]
    refine ⟨fun h => ?_, fun _ => ⟨_, rfl, by simp⟩⟩
    exact Bool.noConfusion (hx.symm.trans (CType.pointer_of_isArithmetic h.1))
  · rw [sub, if_neg hx]
    exact lift_decided total_sub

theorem mul_decided :
    Decided (Combine x y) (mul x y) fun t => x.ctype.combine y.ctype = .ok t :=
  lift_decided total_mul

theorem div_decided :
    Decided (Combine x y) (div x y) fun t => x.ctype.combine y.ctype = .ok t :=
  lift_decided total_quotient

theorem CombineInts.combine (h : CombineInts x y) :
    ∃ t, x.ctype.combine y.ctype = .ok t ∧ t.isReal = false := by
  obtain ⟨t, ht, hcombined⟩ := CType.combine_isOk h.1.1 h.1.2
  refine ⟨t, ht, ?_⟩
  rw [hcombined.isReal, h.2.1, h.2.2]
  rfl

theorem mod_decided :
    Decided (CombineInts x y) (mod x y) fun t => x.ctype.combine y.ctype = .ok t := by
  refine ⟨fun h => ?_, mod_stops⟩
  obtain ⟨t, ht, hr⟩ := h.combine
  exact ⟨t, ht, mod_proceeds ht hr⟩

theorem bits_decided (f : Bool → Bool → Bool) :
    Decided (CombineInts x y) (bits f x y) fun t => x.ctype.combine y.ctype = .ok t := by
  refine ⟨fun h => ?_, bits_stops f⟩
  obtain ⟨t, ht, hr⟩ := h.combine
  exact ⟨t, ht, bits_proceeds f ht hr⟩

theorem compare_decided (c : Comparison) :
    Decided (Combine x y) (compare c x y) fun t => t = .int :=
  ⟨fun h => ⟨_, rfl, .inl (compare_gives c h)⟩, compare_stops c⟩

/-- What an operator gives can be converted to the type of the left operand if that type is real or
the result is finite. -/
theorem Decided.convert {c : Prop} {r : Except Fault Number} {T : CType → Prop}
    (h : Decided c r T) (x : Number) :
    Decided (c ∧ Stores x r) (r >>= fun n => Number.convert x.ctype n) fun t => t = x.ctype := by
  obtain ⟨hyes, hno⟩ := h
  constructor
  · rintro ⟨hc, hstores⟩
    obtain ⟨t, -, ⟨n, rfl, -⟩ | rfl⟩ := hyes hc
    · exact ⟨_, rfl, .inl ((ofScalar_value x.limits_isSome n).1 (hstores n rfl))⟩
    · exact ⟨_, rfl, .inr rfl⟩
  · intro hnot
    by_cases hc : c
    · obtain ⟨t, -, ⟨n, rfl, -⟩ | rfl⟩ := hyes hc
      · refine (ofScalar_value x.limits_isSome n).2 fun hconverts => hnot ⟨hc, ?_⟩
        intro n' hn'
        obtain rfl := Except.ok.inj hn'
        exact hconverts
      · exact absurd ⟨hc, by rintro n hn; cases hn⟩ hnot
    · exact (hno hc).bind _

theorem Decided.of_ok {c : Prop} {r : Except Fault Number} {T : CType → Prop} {n : Number}
    (h : Decided c r T) (hr : r = .ok n) : c ∧ T n.ctype := by
  by_cases hc : c
  · obtain ⟨t, ht, ⟨n', hn', rfl⟩ | hzero⟩ := h.1 hc
    · obtain rfl := Except.ok.inj (hr.symm.trans hn')
      exact ⟨hc, ht⟩
    · cases hr.symm.trans hzero
  · obtain ⟨e, he, -⟩ := h.2 hc
    cases hr.symm.trans he

/-- A number can be converted to a type that has limits. -/
theorem convert_decided (t : CType) (x : Number) :
    Decided (t.limits?.isSome = true ∧ Converts t x.value) (x.convert t) fun t' => t' = t := by
  by_cases ht : t.limits?.isSome = true
  · obtain ⟨hyes, hno⟩ := ofScalar_value ht x
    exact ⟨fun h => ⟨t, rfl, .inl (hyes h.2)⟩, fun h => hno fun hc => h ⟨ht, hc⟩⟩
  · exact ⟨fun h => absurd h.1 ht, fun _ => ofScalar_limitless ht _⟩

theorem Decided.congr {c c' : Prop} {r : Except Fault Number} {T : CType → Prop} (h : Decided c r T)
    (hc : c ↔ c') : Decided c' r T :=
  ⟨fun h' => h.1 (hc.2 h'), fun h' => h.2 fun h'' => h' (hc.1 h'')⟩

theorem finite_of_not_isReal {n : Number} (h : n.ctype.isReal = false) : n.value.Finite := by
  obtain ⟨k, hk, -⟩ := value_of_not_isReal h
  rw [hk]
  trivial

/-- A number that is combined with an `int` can take the place of the left operand. -/
theorem stores_of_int {r : Except Fault Number} {c : Prop}
    (h : Decided c r fun t => x.ctype.combine y.ctype = .ok t) (hc : c)
    (hy : y.ctype.isReal = false) : Stores x r := by
  intro n hn
  obtain ⟨t, ht, hproceeds⟩ := h.1 hc
  rcases hproceeds with ⟨n', hn', rfl⟩ | hzero
  · obtain rfl := Except.ok.inj (hn.symm.trans hn')
    have hreal := (CType.combined_of_eq ht).isReal
    cases hx : x.ctype.isReal with
    | true => exact .inl hx
    | false =>
      rw [hx, hy] at hreal
      exact .inr (finite_of_not_isReal hreal)
  · cases hn.symm.trans hzero

/-- An integer can be added to a pointer if what it points to has a size. -/
theorem moves_iff (hx : x.ctype.pointer = true) (hy : y.ctype.isReal = false) :
    Moves x y ↔ x.ctype.dereference.size?.isSome = true := by
  obtain ⟨m, hm, -⟩ := value_of_not_isReal (isReal_of_pointer hx)
  obtain ⟨n, hn, -⟩ := value_of_not_isReal hy
  constructor
  · rintro ⟨k, -, -, hk, -⟩
    rw [hk]
    rfl
  · intro hsize
    obtain ⟨k, hk⟩ := Option.isSome_iff_exists.1 hsize
    exact ⟨k, .int (n * k), .int (m + n * k), hk, by rw [hn]; rfl, by rw [hm]; rfl, trivial⟩

/-- What is added to a pointer gives a pointer, which can take its place. -/
theorem stores_add (hx : x.ctype.pointer = true) : Stores x (add x y) := by
  intro n hn
  by_cases hmoves : Moves x y
  · obtain ⟨n', hn', htype⟩ := (add_pointer hx).1 hmoves
    obtain rfl := Except.ok.inj (hn.symm.trans hn')
    exact .inr (finite_of_not_isReal (htype ▸ isReal_of_pointer hx))
  · obtain ⟨e, he, -⟩ := (add_pointer hx).2 hmoves
    cases hn.symm.trans he

/-- One can be added to every number of an arithmetic type, and to a pointer to what has a size. -/
theorem increment_decided (hy : y.ctype = .int) :
    Decided (Steps .incOp x) (add x y >>= Number.convert x.ctype) fun t => t = x.ctype := by
  have hint : y.ctype.isReal = false := by rw [hy]; rfl
  have harith : y.ctype.isArithmetic = true := by rw [hy]; decide
  refine (add_decided.convert x).congr ?_
  by_cases hx : x.ctype.pointer = true
  · simp only [Admits, Steps, if_pos hx, moves_iff hx hint]
    exact and_iff_left (stores_add hx)
  · simp only [Admits, Steps, if_neg hx, Combine, harith, and_true]
    refine and_iff_left_of_imp fun h => ?_
    rw [add, if_neg hx]
    exact stores_of_int (lift_decided total_add) ⟨h, harith⟩ hint

theorem decrement_decided (hy : y.ctype = .int) :
    Decided (Steps .decOp x) (sub x y >>= Number.convert x.ctype) fun t => t = x.ctype := by
  have hint : y.ctype.isReal = false := by rw [hy]; rfl
  have harith : y.ctype.isArithmetic = true := by rw [hy]; decide
  refine (sub_decided.convert x).congr ?_
  simp only [Steps, Combine, harith, and_true]
  exact and_iff_left_of_imp fun h => stores_of_int sub_decided ⟨h, harith⟩ hint

end Number

namespace Value

variable {a b : Value} {x y : Number}

theorem operate_numbers (f : Number → Number → Except Fault Number)
    (g : Scalar → Scalar → Except Fault Scalar) (ha : a.number? = some x)
    (hb : b.number? = some y) : operate f g a b = .number <$> f x y := by
  simp only [operate, ha, hb]

theorem add_numbers (ha : a.number? = some x) (hb : b.number? = some y) :
    add a b = .number <$> x.add y := by
  have hoperate := operate_numbers Number.add Scalar.add ha hb
  cases b with
  | jump j => cases hb
  | number n | constant n => simp only [add, ha, hb, Option.isNone_some, Bool.and_false,
      Bool.false_eq_true, if_false, hoperate]
  | _ => cases hb

theorem sub_numbers (ha : a.number? = some x) (hb : b.number? = some y) :
    sub a b = .number <$> x.sub y := by
  simp only [sub, ha, operate_numbers _ _ ha hb]
  split
  · next hx => simp [Number.sub, hx]
  · rfl

theorem mod_numbers (s : Store) (ha : a.number? = some x) (hb : b.number? = some y) :
    mod s a b = .number <$> x.mod y := by
  have hoperate := operate_numbers Number.mod Scalar.modulo ha hb
  cases a with
  | number n | constant n => exact hoperate
  | _ => cases ha

theorem union_numbers (ha : a.number? = some x) (hb : b.number? = some y) :
    union a b = .number <$> x.bits or y := by
  have hbits : bits or a b = .number <$> x.bits or y := operate_numbers _ _ ha hb
  cases a with
  | number n | constant n => exact hbits
  | _ => cases ha

theorem compare_numbers (c : Comparison) (ha : a.number? = some x) (hb : b.number? = some y) :
    compare c a b = .number <$> x.compare c y := by
  simp only [compare, ha, hb]

end Value

namespace Eval

open Number (Admits Results Takes Steps Decided Stores Combine)

variable {op : Kind} {a b : Value} {x y : Number}

/-- What the operators give for numbers. -/
theorem operator_decided {f : Store → Value → Value → Except Fault Value}
    (hf : operator? op = some f) (s : Store) (ha : a.number? = some x) (hb : b.number? = some y) :
    ∃ r, f s a b = .number <$> r ∧ Decided (Admits op x y) r (Results op x y) := by
  cases op <;> cases hf
  case plus => exact ⟨_, Value.add_numbers ha hb, Number.add_decided⟩
  case minus => exact ⟨_, Value.sub_numbers ha hb, Number.sub_decided⟩
  case asterisk => exact ⟨_, Value.operate_numbers _ _ ha hb, Number.mul_decided⟩
  case divOp => exact ⟨_, Value.operate_numbers _ _ ha hb, Number.div_decided⟩
  case modOp => exact ⟨_, Value.mod_numbers s ha hb, Number.mod_decided⟩
  case ampersand => exact ⟨_, Value.operate_numbers _ _ ha hb, Number.bits_decided and⟩
  case orOp => exact ⟨_, Value.union_numbers ha hb, Number.bits_decided or⟩
  case xorOp => exact ⟨_, Value.operate_numbers _ _ ha hb, Number.bits_decided xor⟩
  all_goals exact ⟨_, Value.compare_numbers _ ha hb, Number.compare_decided _⟩

theorem execute_convert (t : CType) {v : Value} {n : Number} (hv : v.number? = some n)
    (m : Machine) : (convert (.number t) v).execute m = (.number <$> n.convert t, m) := by
  have hplain : v.plain = .ok n.value.toScalar := by
    cases v with
    | number k | constant k =>
      obtain rfl := Option.some.inj hv
      rfl
    | _ => cases hv
  have hmake : Number.make t n.value.toScalar m.random =
      (do return (← Number.ofScalar t n.value.toScalar, m.random)) := by
    cases n.value <;> rfl
  simp only [convert, Run.numberOf, Run.makeNumber, Run.execute_bind, Run.execute_ofExcept, hplain,
    Run.execute_get, hmake, Number.convert]
  cases Number.ofScalar t n.value.toScalar <;> rfl

/-- A number is computed and converted. -/
theorem execute_convert_result (t : CType) (r : Except Fault Number) (m : Machine) :
    (do convert (.number t) (← Run.ofExcept (Value.number <$> r))).execute m =
      (.number <$> (r >>= Number.convert t), m) := by
  rw [Run.execute_bind, Run.execute_ofExcept]
  cases r with
  | error e => rfl
  | ok n => exact execute_convert t (v := .number n) rfl m

theorem asNumber_eq (ha : a.number? = some x) : a.asNumber = .ok x := by
  rw [Value.asNumber, ha]
  rfl

/-- What an assignment gives where the place holds a number and is given another one. -/
theorem assigned_decided (op : Kind) (ha : a.number? = some x) (hb : b.number? = some y)
    (m : Machine) :
    ∃ r, (assigned op a b).execute m = (.number <$> r, m) ∧
      Decided (Takes op x y) r fun t => t = x.ctype := by
  have hcompound {f : Value → Value → Except Fault Value} {r : Except Fault Number}
      (hop : assignment? op = some f) (hf : f a b = .number <$> r) :
      (assigned op a b).execute m = (.number <$> (r >>= Number.convert x.ctype), m) := by
    rw [assigned, hop]
    change (Run.ofExcept a.asNumber >>= _).execute m = _
    rw [Run.execute_bind, Run.execute_ofExcept, asNumber_eq ha]
    rw [← execute_convert_result, ← hf]
  cases op
  case assign =>
    refine ⟨y.convert x.ctype, ?_, ?_⟩
    · change (Run.ofExcept a.asNumber >>= _).execute m = _
      rw [Run.execute_bind, Run.execute_ofExcept, asNumber_eq ha]
      exact execute_convert x.ctype hb m
    · exact (Number.convert_decided x.ctype y).congr (and_iff_right x.limits_isSome)
  case addAssign =>
    exact ⟨_, hcompound rfl (Value.add_numbers ha hb), Number.add_decided.convert x⟩
  case subAssign =>
    exact ⟨_, hcompound rfl (Value.sub_numbers ha hb), Number.sub_decided.convert x⟩
  case mulAssign =>
    exact ⟨_, hcompound rfl (Value.operate_numbers _ _ ha hb), Number.mul_decided.convert x⟩
  case divAssign =>
    exact ⟨_, hcompound rfl (Value.operate_numbers _ _ ha hb), Number.div_decided.convert x⟩
  all_goals exact ⟨.error (.unknownAssignment _), rfl, False.elim, fun _ => ⟨_, rfl, by simp⟩⟩

theorem execute_update {address : Scalar} {f : Value → Run Value} {r : Except Fault Number}
    {m m₁ : Machine} (hread : (Run.readAt address).execute m = (.ok a, m₁))
    (hf : ((f a).execute m₁).1 = .number <$> r) :
    ((update address f).execute m).1 = (fun n => (a, .number n)) <$> r := by
  have hupdate : (update address f).execute m =
      (f a >>= fun v => do Run.writeAt address v; return (a, v)).execute m₁ := by
    change (Run.readAt address >>= _).execute m = _
    rw [Run.execute_bind, hread]
    rfl
  rw [hupdate, Run.execute_bind]
  cases h : (f a).execute m₁ with
  | mk r' m₂ =>
    rw [h] at hf
    obtain rfl := hf
    cases r <;> rfl

theorem execute_makeNumber_int (k : Int) (m : Machine) :
    ∃ n, (Run.makeNumber .int (.int k)).execute m = (.ok n, m) ∧ n.ctype = .int :=
  ⟨_, rfl, rfl⟩

/-- What one gives that is added to a number at a place, or taken away. -/
theorem step_decided {f : Value → Value → Except Fault Value} (hop : op = .incOp ∧ f = Value.add ∨
      op = .decOp ∧ f = Value.sub) {target : Tree} {address : Scalar} {m m₀ m₁ : Machine}
    (hplace : (place target).execute m = (.ok address, m₀))
    (hread : (Run.readAt address).execute m₀ = (.ok a, m₁)) (ha : a.number? = some x) :
    ∃ r, ((step f target).execute m).1 = (fun n => (a, .number n)) <$> r ∧
      Decided (Steps op x) r fun t => t = x.ctype := by
  obtain ⟨one, hmake, htype⟩ := execute_makeNumber_int 1 m₁
  have hstep {r : Except Fault Number} (hf : f a (.number one) = .number <$> r) :
      ((step f target).execute m).1 =
        (fun n => (a, .number n)) <$> (r >>= Number.convert x.ctype) := by
    change ((place target >>= _).execute m).1 = _
    rw [Run.execute_bind, hplace]
    refine execute_update hread ?_
    rw [Run.execute_bind, Run.execute_ofExcept, asNumber_eq ha]
    change ((Run.makeNumber .int (.int 1) >>= _).execute m₁).1 = _
    have hconvert := execute_convert_result x.ctype r m₁
    rw [← hf] at hconvert
    rw [Run.execute_bind, hmake]
    exact congrArg Prod.fst hconvert
  rcases hop with ⟨rfl, rfl⟩ | ⟨rfl, rfl⟩
  · exact ⟨_, hstep (Value.add_numbers ha rfl), Number.increment_decided htype⟩
  · exact ⟨_, hstep (Value.sub_numbers ha rfl), Number.decrement_decided htype⟩

end Eval

end MiniC
