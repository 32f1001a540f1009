import MiniC.Proofs.Frames
import MiniC.Proofs.StepBound

/-!
# Compound assignments

An assignment that also applies an operator does what the assignment of the operation does. Both
read the place before the value is evaluated, the latter twice, and the second reading finds what
the first has found: reading creates cells but changes none. The only difference is in the way to
the cell. An assignment takes the address to which a variable is bound as it is, while the value of
a variable is read by name, which asks for a whole address. Steps by one ask for no value and are
compound assignments of one in any case.
-/

namespace MiniC

variable {a : Scalar} {m m₁ : Machine} {x : Tree}

namespace Store

structure Retained (s s' : Store) : Prop where
  scopes : SameScopes s s'
  cells : ∀ a v, s.read? a = some v → s'.read? a = some v

theorem Retained.refl (s : Store) : Retained s s :=
  ⟨⟨rfl, rfl⟩, fun _ _ h => h⟩

theorem Retained.trans {s s' s'' : Store} (h : Retained s s') (h' : Retained s' s'') :
    Retained s s'' :=
  ⟨Change.quiet.trans h.scopes h'.scopes, fun a v hv => h'.cells a v (h.cells a v hv)⟩

/-- A cell that is not there is written. -/
theorem retained_write {s : Store} (ha : s.read? a = none) (v : Value) :
    Retained s (s.write a v) := by
  refine ⟨⟨rfl, rfl⟩, fun b w hw => ?_⟩
  by_cases hab : Address.ofScalar a = Address.ofScalar b
  · rw [read?, ← hab] at hw
    rw [read?, hw] at ha
    cases ha
  · rw [read?_write_of_ne s v hab, hw]

theorem SameScopes.lookup_eq {s s' : Store} (h : SameScopes s s') (name : String) :
    s'.lookup name = s.lookup name := by
  simp only [lookup, scopeOf, h.1, h.2]

end Store

def Change.same : Change where
  Rel s s' := s' = s
  refl _ := rfl
  trans h h' := h'.trans h

namespace Run

variable {α β : Type}

/-- A computation that keeps the store in every respect leaves the same one. -/
theorem store_of_keeps {Q : α → Prop} {p : Run α} (h : p.Keeps (fun _ => True) .same Q)
    (m : Machine) : (p.execute m).2.store = m.store :=
  (h m fun _ _ _ => trivial).2.1

/-- A computation that succeeds keeps every cell, and gives the same again, without an effect, as
long as no cell has changed since. -/
def Repeatable (p : Run α) : Prop :=
  ∀ m a m₁, p.execute m = (.ok a, m₁) → m.store.Retained m₁.store ∧
    ∀ m₂ : Machine, m₁.store.Retained m₂.store → p.execute m₂ = (.ok a, m₂)

namespace Repeatable

theorem pure (a : α) : Repeatable (pure a) := by
  intro m b m₁ h
  obtain ⟨rfl, rfl⟩ : a = b ∧ m = m₁ := by simpa using h
  exact ⟨.refl _, fun _ _ => rfl⟩

theorem throw (f : Fault) : Repeatable (throw f : Run α) :=
  fun _ _ _ h => by cases h

theorem bind {p : Run α} {f : α → Run β} (hp : Repeatable p) (hf : ∀ a, Repeatable (f a)) :
    Repeatable (p >>= f) := by
  intro m b m₂ h
  obtain ⟨a, m₁, h₁, h₂⟩ := execute_bind_ok h
  obtain ⟨hkept, hagain⟩ := hp m a m₁ h₁
  obtain ⟨hkept', hagain'⟩ := hf a m₁ b m₂ h₂
  refine ⟨hkept.trans hkept', fun m₃ hm₃ => ?_⟩
  rw [execute_bind, hagain m₃ (hkept'.trans hm₃)]
  exact hagain' m₃ hm₃

theorem ite {c : Prop} [Decidable c] {p q : Run α} (hp : Repeatable p) (hq : Repeatable q) :
    Repeatable (if c then p else q) := by
  split
  · exact hp
  · exact hq

end Repeatable

theorem ofExcept_repeatable (r : Except Fault α) : Repeatable (ofExcept r) := by
  cases r with
  | ok a => exact .pure a
  | error e => exact .throw e

@[simp] theorem liftM_eq (p : Run α) : (liftM p : Run α) = p := rfl

theorem lookup_repeatable (name : String) : Repeatable (lookup name) := by
  intro m b m₁ h
  simp only [lookup, execute_bind, execute_getStore, execute_ofExcept] at h
  obtain ⟨hb, rfl⟩ := Prod.mk.inj h
  refine ⟨.refl _, fun m₂ hm₂ => ?_⟩
  simp only [lookup, execute_bind, execute_getStore, execute_ofExcept, hm₂.scopes.lookup_eq, hb]

theorem execute_readAt_some {v : Value} (h : m.store.read? a = some v) :
    (readAt a).execute m = (.ok v, m) := by
  simp only [readAt, execute_bind, execute_getStore, h]
  rfl

/-- Reading an address: the cell is there, or one with a number is created. -/
theorem readAt_cases {v : Value} (h : (readAt a).execute m = (.ok v, m₁)) :
    (m.store.read? a = some v ∧ m₁ = m) ∨
      (m.store.read? a = none ∧ ∃ n, v = .number n ∧ m₁.store = m.store.write a v) := by
  cases hread : m.store.read? a with
  | some w =>
    rw [execute_readAt_some hread] at h
    obtain ⟨rfl, rfl⟩ : w = v ∧ m = m₁ := by simpa using h
    exact .inl ⟨rfl, rfl⟩
  | none =>
    simp only [readAt, execute_bind, execute_getStore, hread] at h
    split at h
    · next n m₂ hn =>
      have hstore : m₂.store = m.store := by
        have hsame := store_of_keeps (makeNumber_keeps .int .nothing) m
        rwa [hn] at hsame
      obtain ⟨hv, rfl⟩ := Prod.mk.inj h
      obtain rfl := Except.ok.inj hv
      exact .inr ⟨rfl, n, rfl, by rw [hstore]⟩
    · cases h

theorem read?_of_readAt {v : Value} (h : (readAt a).execute m = (.ok v, m₁)) :
    m₁.store.read? a = some v := by
  obtain ⟨hread, rfl⟩ | ⟨-, n, rfl, hstore⟩ := readAt_cases h
  · exact hread
  · rw [hstore, Store.read?_write_self]

theorem readAt_repeatable (a : Scalar) : Repeatable (readAt a) := by
  intro m v m₁ h
  have hread := read?_of_readAt h
  refine ⟨?_, fun m₂ hm₂ => execute_readAt_some (hm₂.cells a v hread)⟩
  obtain ⟨-, rfl⟩ | ⟨hnone, n, rfl, hstore⟩ := readAt_cases h
  · exact .refl _
  · rw [hstore]
    exact Store.retained_write hnone _

theorem exists_of_any {p : Run α} {P : α → Bool} (h : (p.execute m).1.toOption.any P = true) :
    ∃ a m', p.execute m = (.ok a, m') ∧ P a = true := by
  cases hp : p.execute m with
  | mk r m' =>
    rw [hp] at h
    cases r with
    | error => cases h
    | ok a => exact ⟨a, m', rfl, h⟩

theorem readName_repeatable (name : String) : Repeatable (readName name) := by
  refine .bind (lookup_repeatable name) fun b => ?_
  cases b with
  | constant n => exact .pure _
  | «at» a => exact .bind (ofExcept_repeatable _) readAt_repeatable

end Run

namespace Eval

open Run (Repeatable)

/-! ## Reading a place twice -/

theorem nameOf_repeatable (t : Tree) : Repeatable (nameOf t) := by
  unfold nameOf
  split
  · exact .pure _
  · exact .throw _

theorem pointedBy_repeatable (t : Tree) : Repeatable (pointedBy t) :=
  .bind (nameOf_repeatable t) fun name => .bind (Run.readName_repeatable name) fun _ =>
    Run.ofExcept_repeatable _

theorem entryOf_repeatable (v : Value) (member : Tree) : Repeatable (entryOf v member) :=
  .bind (nameOf_repeatable member) fun _ => Run.ofExcept_repeatable _

theorem fieldAddress_repeatable (op : Kind) (base member : Tree) :
    Repeatable (fieldAddress op base member) := by
  refine .ite ?_ ?_
  · refine .bind (pointedBy_repeatable base) fun a => ?_
    exact .bind (Run.readAt_repeatable a) fun v => entryOf_repeatable v member
  · refine .bind (nameOf_repeatable base) fun name => ?_
    exact .bind (Run.readName_repeatable name) fun v => entryOf_repeatable v member

theorem addressOf_repeatable (name : String) : Repeatable (addressOf name) := by
  refine .bind (Run.lookup_repeatable name) fun b => ?_
  split
  · exact .pure _
  · exact .throw _

theorem place_repeatable (hx : x.IsTarget) : Repeatable (place x) := by
  cases hx with
  | var k n => exact addressOf_repeatable _
  | pointed op k i n => exact pointedBy_repeatable _
  | field op b m i j n => exact fieldAddress_repeatable _ _ _

def readPlace (x : Tree) : Run Value := do
  Run.readAt (← place x)

theorem readPlace_repeatable (hx : x.IsTarget) : Repeatable (readPlace x) :=
  .bind (place_repeatable hx) Run.readAt_repeatable

/-- If it is a variable that is bound to an address, it can be read by name. -/
def Nameable (x : Tree) (m : Machine) : Prop :=
  ∀ k n a, x = .var k n → m.store.lookup k.value.render = .ok (.at a) →
    Run.addressOf (.at a) = .ok a

theorem Nameable.of_retained {m' : Machine} (h : Nameable x m) (hm : m.store.Retained m'.store) :
    Nameable x m' := by
  intro k n a hx ha
  rw [hm.scopes.lookup_eq] at ha
  exact h k n a hx ha

theorem execute_lookup (name : String) (m : Machine) :
    (Run.lookup name).execute m = (m.store.lookup name, m) := by
  simp only [Run.lookup, Run.execute_bind, Run.execute_getStore, Run.execute_ofExcept]

/-- The place of a variable is the address to which it is bound. -/
theorem place_var {k : Token} {n : Nat} (h : (place (.var k n)).execute m = (.ok a, m₁)) :
    m.store.lookup k.value.render = .ok (.at a) ∧ m₁ = m := by
  simp only [place, addressOf, Run.execute_bind, execute_lookup] at h
  split at h
  · next b m₂ hlookup =>
    obtain ⟨hb, rfl⟩ := Prod.mk.inj hlookup
    cases b with
    | «at» c =>
      obtain ⟨rfl, rfl⟩ : c = a ∧ m = m₁ := by simpa using h
      exact ⟨hb, rfl⟩
    | constant c => cases h
  · cases h

/-- A place that was found is evaluated to what is read there. -/
theorem eval_target (hx : x.IsTarget) (hplace : (place x).execute m = (.ok a, m₁))
    (hn : Nameable x m) (fuel : Nat) : (eval (fuel + 2) x).execute m = (readPlace x).execute m := by
  cases hx with
  | var k n =>
    change (Run.readName k.value.render).execute m = _
    obtain ⟨hb, rfl⟩ := place_var hplace
    simp only [readPlace, Run.readName, Run.execute_bind, execute_lookup, hb, hplace,
      hn k n a rfl hb, Run.execute_ofExcept]
  | pointed op k i n ho =>
    have hrule : eval (fuel + 2) (.unary op (.var k i) true n) =
        (do dereference (← Run.readName k.value.render)) := by
      simp only [eval, rule, before, ho]
      rfl
    have hpointed : place (.unary op (.var k i) true n) =
        (do Run.ofExcept (← Run.readName k.value.render).content) := rfl
    rw [hrule, readPlace, hpointed, bind_assoc]
    rfl
  | field op b c i j n => rfl

/-- After a place has been found and read, its tree is evaluated to the same value, without an
effect. -/
theorem eval_read_target (hx : x.IsTarget) {m₂ : Machine} {old : Value}
    (hplace : (place x).execute m = (.ok a, m₁)) (hread : (Run.readAt a).execute m₁ = (.ok old, m₂))
    (hn : Nameable x m) (fuel : Nat) : (eval (fuel + 2) x).execute m₂ = (.ok old, m₂) := by
  have hfirst : (readPlace x).execute m = (.ok old, m₂) := by
    rw [readPlace, Run.execute_bind, hplace]
    exact hread
  obtain ⟨hkept, hagain⟩ := readPlace_repeatable hx m old m₂ hfirst
  obtain ⟨-, hplace'⟩ := place_repeatable hx m a m₁ hplace
  obtain ⟨hkept₂, -⟩ := Run.readAt_repeatable a m₁ old m₂ hread
  rw [eval_target hx (hplace' m₂ hkept₂) (hn.of_retained hkept)]
  exact hagain m₂ (.refl _)

/-! ## Assignments -/

/-- The cell of a place is absent or holds a number. -/
def HoldsNumber (x : Tree) (m : Machine) : Prop :=
  ∀ a m₁ v, (place x).execute m = (.ok a, m₁) → m₁.store.read? a = some v → v.number?.isSome = true

theorem HoldsNumber.asNumber {m₂ : Machine} (h : HoldsNumber x m) {old : Value}
    (hplace : (place x).execute m = (.ok a, m₁))
    (hread : (Run.readAt a).execute m₁ = (.ok old, m₂)) : ∃ n, old.asNumber = .ok n := by
  obtain ⟨hold, -⟩ | ⟨-, n, rfl, -⟩ := Run.readAt_cases hread
  · obtain ⟨n, hn⟩ := Option.isSome_iff_exists.1 (h a m₁ old hplace hold)
    exact ⟨n, by rw [Value.asNumber, hn]; rfl⟩
  · exact ⟨n, rfl⟩

def replace (x : Tree) (f : Value → Run Value) : Run (Value × Value) := do
  update (← place x) f

/-- How a value is replaced depends on what the new one is made from. -/
theorem execute_replace {f g : Value → Run Value}
    (h : ∀ a m₁ old m₂, (place x).execute m = (.ok a, m₁) →
      (Run.readAt a).execute m₁ = (.ok old, m₂) → (f old).execute m₂ = (g old).execute m₂) :
    (replace x f).execute m = (replace x g).execute m := by
  rw [replace, replace, Run.execute_bind, Run.execute_bind]
  cases hplace : (place x).execute m with
  | mk r m₁ =>
    cases r with
    | error e => rfl
    | ok a =>
      change (Run.readAt a >>= _).execute m₁ = (Run.readAt a >>= _).execute m₁
      rw [Run.execute_bind, Run.execute_bind]
      cases hread : (Run.readAt a).execute m₁ with
      | mk r m₂ =>
        cases r with
        | error e => rfl
        | ok old =>
          change (f old >>= _).execute m₂ = (g old >>= _).execute m₂
          rw [Run.execute_bind, Run.execute_bind, h a m₁ old m₂ hplace hread]

theorem execute_map {α β : Type} (f : α → β) (p : Run α) (m : Machine) :
    (do return f (← p) : Run β).execute m = ((p.execute m).1.map f, (p.execute m).2) := by
  rw [Run.execute_bind]
  cases p.execute m with
  | mk r m' => cases r <;> rfl

theorem eval_assign (x : Tree) (k : Token) (e : Tree) (i fuel : Nat) :
    eval (fuel + 1) (.assign x k e i) = (do
      return (← replace x fun old => do assigned k.kind old (← eval fuel e)).2) := by
  rw [replace, bind_assoc]
  rfl

def compound? : Kind → Option Kind
  | .plus => some .addAssign
  | .minus => some .subAssign
  | .asterisk => some .mulAssign
  | .divOp => some .divAssign
  | _ => none

/-- An operator that has a compound assignment combines both its operands. -/
theorem compound?_operator {op : Token} {k : Kind} (h : compound? op.kind = some k) :
    ∃ f : Value → Value → Except Fault Value, assignment? k = some f ∧
      ∀ (ev : Evaluator Run) (l r : Tree), binary ev l op r =
        (do let a ← ev l; let b ← ev r; combine (fun _ => f) a b) := by
  unfold compound? at h
  split at h <;> cases h <;> next hop =>
    refine ⟨_, rfl, fun ev l r => ?_⟩
    simp only [binary, hop, operator?]
    rfl

/-- What is assigned to a number by an operator is a number of the same type. -/
theorem assigned_eq {k : Kind} {f : Value → Value → Except Fault Value}
    (hk : assignment? k = some f) {old : Value} {n : Number} (hold : old.asNumber = .ok n)
    (given : Value) :
    assigned k old given = (do convert (.number n.ctype) (← Run.ofExcept (f old given))) := by
  rw [assigned, hk]
  simp only [hold, Run.ofExcept, pure_bind]

/-- A compound assignment gives a number what the assignment of the operation gives it. -/
theorem assigned_compound {k : Kind} {f : Value → Value → Except Fault Value}
    (hk : assignment? k = some f) {old : Value} {n : Number} (hold : old.asNumber = .ok n)
    (given : Value) (m : Machine) :
    (assigned k old given).execute m =
      (do assigned .assign old (← combine (fun _ => f) old given)).execute m := by
  have hassign (v : Value) := assigned_eq (k := .assign) rfl hold v
  simp only [assigned_eq hk hold, hassign, combine, Run.execute_bind, Run.execute_ofExcept,
    Run.execute_getStore]

theorem eval_compound (hx : x.IsTarget) (hm : HoldsNumber x m) (hn : Nameable x m) {op k eq : Token}
    (hk : compound? op.kind = some k.kind) (heq : eq.kind = .assign) (e : Tree) (i j l fuel : Nat) :
    (eval (fuel + 3) (.assign x k e i)).execute m =
      (eval (fuel + 4) (.assign x eq (.binary x op e j) l)).execute m := by
  obtain ⟨f, hf, hbinary⟩ := compound?_operator hk
  suffices h : (replace x fun old => do assigned k.kind old (← eval (fuel + 2) e)).execute m =
      (replace x fun old => do
        assigned eq.kind old (← eval (fuel + 3) (.binary x op e j))).execute m by
    rw [eval_assign, eval_assign, execute_map, execute_map, h]
  refine execute_replace fun a m₁ old m₂ hplace hread => ?_
  obtain ⟨n, hold⟩ := hm.asNumber hplace hread
  -- The place is read once more, and then both sides evaluate the given value.
  have hvalue : eval (fuel + 3) (.binary x op e j) =
      (do let a ← eval (fuel + 2) x; let b ← eval (fuel + 2) e; combine (fun _ => f) a b) :=
    hbinary _ x e
  rw [hvalue, bind_assoc, Run.execute_bind _ _ m₂, Run.execute_bind _ _ m₂,
    eval_read_target hx hplace hread hn]
  change _ = ((do let b ← eval (fuel + 2) e; combine (fun _ => f) old b) >>= _).execute m₂
  rw [bind_assoc, Run.execute_bind _ _ m₂]
  cases (eval (fuel + 2) e).execute m₂ with
  | mk r m₃ =>
    cases r with
    | error e => rfl
    | ok w =>
      rw [heq]
      exact assigned_compound hf hold w m₃

/-! ## Steps by one -/

def stepping? : Kind → Option Kind
  | .incOp => some .addAssign
  | .decOp => some .subAssign
  | _ => none

def one (n : Nat) : Tree := .num ⟨.integerConst, .int 1⟩ n

/-- A step by one replaces the value at a place as the assignment does. -/
theorem execute_step (hm : HoldsNumber x m) {k : Kind} {f : Value → Value → Except Fault Value}
    (hk : assignment? k = some f) (j fuel : Nat) :
    (step f x).execute m =
      (replace x fun old => do assigned k old (← eval (fuel + 1) (one j))).execute m := by
  change (replace x _).execute m = _
  refine execute_replace fun a m₁ old m₂ hplace hread => ?_
  obtain ⟨n, hold⟩ := hm.asNumber hplace hread
  have hone : eval (fuel + 1) (one j) = (do return .number (← Run.makeNumber .int (.int 1))) := rfl
  simp only [hone, hold, assigned_eq hk hold, bind_assoc, pure_bind, Run.ofExcept]

theorem stepping?_rule {op : Token} {k : Kind} (h : stepping? op.kind = some k) :
    ∃ f, assignment? k = some f ∧ ∀ (x : Tree) (n fuel : Nat),
      eval (fuel + 1) (.unary op x true n) = (do return (← step f x).2) ∧
        eval (fuel + 1) (.unary op x false n) = (do return (← step f x).1) := by
  unfold stepping? at h
  split at h <;> cases h <;> next hop =>
    refine ⟨_, rfl, fun x n fuel => ?_⟩
    simp only [eval, rule, before, behind, hop]
    exact ⟨rfl, rfl⟩

/-- A tree that gives a part of what a computation gives ends as the computation does. -/
theorem ends_iff_of_map {α : Type} {t : Tree} {f : α → Value} {p : Run α}
    (h : ∀ fuel, eval (fuel + 1) t = (do return f (← p))) (m : Machine) (r : Except Fault Value)
    (m' : Machine) : Ends t m r m' ↔
      r ≠ .error .outOfFuel ∧ ((p.execute m).1.map f = r ∧ (p.execute m).2 = m') := by
  refine and_congr_right fun hr => ⟨fun ⟨fuel, hrun⟩ => ?_, fun ⟨hr', hm'⟩ => ⟨1, ?_⟩⟩
  · cases fuel with
    | zero =>
      obtain ⟨hr', -⟩ := Prod.mk.inj hrun
      exact absurd hr'.symm hr
    | succ fuel =>
      rw [h, execute_map] at hrun
      exact Prod.mk.inj hrun
  · rw [h, execute_map, hr', hm']

/-- The old value that a place is replaced from is the one that is read there. -/
theorem read_of_replace {f : Value → Run Value} {m' : Machine} {p : Value × Value}
    (h : (replace x f).execute m = (.ok p, m')) :
    ∃ m₁, (readPlace x).execute m = (.ok p.1, m₁) := by
  obtain ⟨a, m₁, hplace, h⟩ := Run.execute_bind_ok h
  obtain ⟨old, m₂, hread, h⟩ := Run.execute_bind_ok h
  obtain ⟨v, m₃, -, h⟩ := Run.execute_bind_ok h
  obtain ⟨_, m₄, -, h⟩ := Run.execute_bind_ok h
  obtain ⟨rfl, -⟩ : (old, v) = p ∧ _ := by simpa using h
  refine ⟨m₂, ?_⟩
  rw [readPlace, Run.execute_bind, hplace]
  exact hread

/-! ## Variables that cannot be read by name -/

/-- Reading an address always gives a value. -/
theorem readAt_ok (a : Scalar) (m : Machine) :
    ∃ v m₁, (Run.readAt a).execute m = (.ok v, m₁) := by
  cases hread : m.store.read? a with
  | some v => exact ⟨v, m, Run.execute_readAt_some hread⟩
  | none =>
    obtain ⟨l, hl⟩ : ∃ l, CType.limits .int = .ok l := ⟨_, rfl⟩
    have hreal : CType.int.isReal = false := rfl
    obtain ⟨n, r, hdraw⟩ : ∃ n r, Number.make .int .nothing m.random = .ok (n, r) := by
      cases hd : m.random.between l.1 l.2 with
      | mk d r =>
        obtain ⟨n, hn⟩ : ∃ n, Number.ofScalar .int (.int d) = .ok n :=
          ⟨_, Number.ofScalar_eq rfl hl⟩
        refine ⟨n, r, ?_⟩
        simp only [Number.make, Number.draw, CType.draw, hl, hreal, hd, bind, Except.bind, pure,
          Except.pure, Bool.false_eq_true, if_false, Num.toScalar, hn]
    refine ⟨.number n, { m with store := m.store.write a (.number n), random := r }, ?_⟩
    simp only [Run.readAt, Run.execute_bind, Run.execute_getStore, hread, Run.makeNumber,
      Run.execute_get, hdraw, Run.execute_ofExcept, Run.execute_set, Run.execute_pure,
      Run.execute_setStore]

theorem eval_unnameable (hn : ¬Nameable x m) {op eq : Token} {k : Kind}
    (hk : compound? op.kind = some k) (e : Tree) (j l : Nat) :
    ∃ old m₁, (readPlace x).execute m = (.ok old, m₁) ∧ ∀ fuel, 3 ≤ fuel →
      (eval fuel (.assign x eq (.binary x op e j) l)).execute m = (.error .noSuchPart, m₁) := by
  simp only [Nameable, not_forall] at hn
  obtain ⟨t, n, a, rfl, hb, ha⟩ := hn
  have hfault : Run.addressOf (.at a) = .error .noSuchPart := by
    cases a with
    | bool | int => exact absurd rfl ha
    | _ => rfl
  have hplace : (place (.var t n)).execute m = (.ok a, m) := by
    simp only [place, addressOf, Run.execute_bind, execute_lookup, hb, Run.execute_pure]
  obtain ⟨old, m₁, hread⟩ := readAt_ok a m
  have hscopes := (Run.readAt_repeatable a m old m₁ hread).1.scopes
  refine ⟨old, m₁, ?_, fun fuel hfuel => ?_⟩
  · rw [readPlace, Run.execute_bind, hplace]
    exact hread
  · obtain ⟨fuel, rfl⟩ := Nat.exists_eq_add_of_le' hfuel
    obtain ⟨f, -, hbinary⟩ := compound?_operator hk
    have hvalue : eval (fuel + 2) (.binary (.var t n) op e j) = (do
        let a ← Run.readName t.value.render
        let b ← eval (fuel + 1) e
        combine (fun _ => f) a b) := hbinary _ _ e
    rw [eval_assign, replace, hvalue]
    simp only [update, Run.liftM_eq, Run.readName, Run.execute_bind, hplace, hread, execute_lookup,
      hscopes.lookup_eq, hb, hfault, Run.execute_ofExcept]

end Eval

open Eval

/-- At a place whose cell is absent or holds a number, a compound assignment ends as the assignment
of the operation does, with the same result and the same machine, if the place is not a variable
that cannot be read by name; in that case the latter fails when it has read the place once. A step
by one in front ends as the compound assignment of one. A step behind ends with the same machine and
the same faults, and gives the value that was read at the place before. -/
theorem compound_assignment_iff {x : Tree} (hx : x.IsTarget) {m : Machine}
    (hm : HoldsNumber x m) :
    (∀ op k eq : Token, compound? op.kind = some k.kind → eq.kind = .assign →
      ∀ (e : Tree) (i j l : Nat),
        (Nameable x m → ∀ r m', Ends (.assign x k e i) m r m' ↔
          Ends (.assign x eq (.binary x op e j) l) m r m') ∧
        (¬Nameable x m → ∀ r m', Ends (.assign x eq (.binary x op e j) l) m r m' ↔
          r = .error .noSuchPart ∧ ∃ old, (readPlace x).execute m = (.ok old, m'))) ∧
    (∀ op k : Token, stepping? op.kind = some k.kind → ∀ i j l : Nat,
      (∀ r m', Ends (.unary op x true i) m r m' ↔ Ends (.assign x k (one j) l) m r m') ∧
      (∀ f m', Ends (.unary op x false i) m (.error f) m' ↔
        Ends (.assign x k (one j) l) m (.error f) m') ∧
      (∀ old m', Ends (.unary op x false i) m (.ok old) m' ↔
        (∃ v, Ends (.assign x k (one j) l) m (.ok v) m') ∧
          ∃ m₁, (readPlace x).execute m = (.ok old, m₁))) := by
  refine ⟨fun op k eq hk heq e i j l => ⟨fun hn => ?_, fun hn r m' => ?_⟩,
    fun op k hk i j l => ?_⟩
  · refine ends_iff_of_eval 3 1 fun fuel hfuel => ?_
    obtain ⟨fuel, rfl⟩ := Nat.exists_eq_add_of_le' hfuel
    exact eval_compound hx hm hn hk heq e i j l fuel
  · obtain ⟨old, m₁, hread, heval⟩ := eval_unnameable hn hk e j l
    rw [ends_iff_of_result heval fun h => by cases h]
    refine and_congr_right fun _ => ⟨?_, ?_⟩
    · rintro rfl
      exact ⟨old, hread⟩
    · rintro ⟨old', hread'⟩
      exact (Prod.mk.inj (hread'.symm.trans hread)).2
  · obtain ⟨f, hf, hrule⟩ := stepping?_rule hk
    have hassign (r : Except Fault Value) (m' : Machine) : Ends (.assign x k (one j) l) m r m' ↔
        r ≠ .error .outOfFuel ∧ (((step f x).execute m).1.map Prod.snd = r ∧
          ((step f x).execute m).2 = m') := by
      rw [← ends_iff_of_map (fun fuel => (hrule x i fuel).1)]
      refine (ends_iff_of_eval 1 1 (fun fuel hfuel => ?_) r m').symm
      obtain ⟨fuel, rfl⟩ := Nat.exists_eq_add_of_le' hfuel
      rw [(hrule x i fuel).1, eval_assign, execute_map, execute_map, execute_step hm hf j fuel]
    have hfront := ends_iff_of_map (fun fuel => (hrule x i fuel).1) m
    have hbehind := ends_iff_of_map (fun fuel => (hrule x i fuel).2) m
    refine ⟨fun r m' => (hfront r m').trans (hassign r m').symm, fun e m' => ?_,
      fun old m' => ?_⟩
    · rw [hbehind, hassign]
      cases ((step f x).execute m).1 <;> simp [Except.map]
    · rw [hbehind]
      simp only [hassign]
      cases hrun : (step f x).execute m with
      | mk r m₂ =>
        cases r with
        | error e => simp [Except.map]
        | ok p =>
          rw [execute_step hm hf j 0] at hrun
          obtain ⟨m₁, hread⟩ := read_of_replace hrun
          simp [Except.map, hread, and_comm]

/-- After a block of a size that is not whole, a variable can be increased by a compound assignment,
but not by the assignment of the sum. -/
theorem compound_assignment_behind_fraction :
    ∃ program v x, Program.parse
        "#include <stdlib.h>\nint main()\x7b malloc(4.0); int x; x = 1; x = x + 1; return 0; \x7d" =
        .ok program ∧
      (Analysis.analyze program).1.isOk = true ∧
      Event.enter v ∈ history 20 program (Machine.start "") ∧
      Tree.IsTarget x ∧ HoldsNumber x v.before ∧
      (∃ m', Ends (.assign x (.ofKind .assign) (.binary x (.ofKind .plus) (one 1) 1) 1) v.before
        (.error .noSuchPart) m') ∧
      ∃ w m', Ends (.assign x (.ofKind .addAssign) (one 1) 1) v.before (.ok w) m' := by
  have hrun : ((Program.parse
      "#include <stdlib.h>\nint main()\x7b malloc(4.0); int x; x = 1; x = x + 1; return 0; \x7d"
        ).toOption.any fun t => (Analysis.analyze t).1.isOk &&
          (history 20 t (Machine.start "")).any fun e => e.entered?.any fun v =>
            ((place (.var (.ofName "x") 1)).execute v.before).1.toOption.any (fun a =>
              !(Run.addressOf (.at a)).isOk &&
                (v.before.store.read? a).any (·.number?.isSome)) &&
            ((eval 5 (.assign (.var (.ofName "x") 1) (.ofKind .addAssign) (one 1) 1)).execute
              v.before).1.isOk) = true := by
    decide +kernel
  obtain ⟨program, hp, haccepted, v, hv, hcheck⟩ := Program.exists_visit hrun
  simp only [Bool.and_eq_true] at hcheck
  obtain ⟨hx, hadd⟩ := hcheck
  obtain ⟨w, m', hadd⟩ := Run.exists_of_isOk hadd
  obtain ⟨c, m₀, hplace, hx⟩ := Run.exists_of_any hx
  simp only [Bool.and_eq_true, Bool.not_eq_true'] at hx
  obtain ⟨hname, hcell⟩ := hx
  obtain ⟨hbound, rfl⟩ := place_var hplace
  obtain ⟨old, hold, hnumber⟩ := (Option.any_eq_true _ _).1 hcell
  have hm : HoldsNumber (.var (.ofName "x") 1) v.before := by
    intro c' m₁ old' hplace' hread
    obtain ⟨hc, rfl⟩ := Prod.mk.inj (hplace'.symm.trans hplace)
    obtain rfl := Except.ok.inj hc
    rw [hold] at hread
    exact Option.some.inj hread ▸ hnumber
  have hn : ¬Nameable (.var (.ofName "x") 1) v.before := by
    intro hn
    rw [hn _ _ _ rfl hbound] at hname
    cases hname
  obtain ⟨b, m₁, hread⟩ := readAt_ok c v.before
  refine ⟨program, v, .var (.ofName "x") 1, hp, haccepted, hv, .var _ _, hm, ⟨m₁, ?_⟩, w, m',
    ?_, 5, hadd⟩
  · have hsum := ((compound_assignment_iff (.var _ _) hm).1 (.ofKind .plus) (.ofKind .addAssign)
      (.ofKind .assign) rfl rfl (one 1) 1 1 1).2 hn
    refine (hsum _ _).2 ⟨rfl, b, ?_⟩
    rw [readPlace, Run.execute_bind, hplace]
    exact hread
  · rintro ⟨⟩

end MiniC
