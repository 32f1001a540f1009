import MiniC.Eval.Basic

/-!
# What operations do to the store

`Keeps F R Q p` says of a computation `p` that it leaves only values that satisfy `F` in the cells
if there were only such before, that it changes the store within the relation `R`, also when it
fails, and that its result satisfies `Q`. The operations from which the rules of evaluation are made
are of two kinds. Most are *quiet*: they touch neither the scopes nor the frames. Opening and
leaving a scope and declaring a name are *mild*: they change at most the current frame. Both kinds
create no function values; a function value in a cell has been put there.
-/

namespace MiniC

variable {s : Store} {v : Value}

/-- A computation on a state with a second one after it. -/
theorem run_bind {ε S α β : Type} (p : ExceptT ε (StateM S) α)
    (f : α → ExceptT ε (StateM S) β) (s : S) :
    (p >>= f).run s =
      match p.run s with
      | (.ok a, s') => (f a).run s'
      | (.error e, s') => (.error e, s') := by
  change (ExceptT.bind p f).run s = _
  simp only [ExceptT.bind, ExceptT.run, ExceptT.mk]
  change (match p s with | (r, s') => ExceptT.bindCont f r s') = _
  cases h : p s with
  | mk r s' => cases r <;> rfl

theorem run_bind_ok {ε S α β : Type} {p : ExceptT ε (StateM S) α}
    {f : α → ExceptT ε (StateM S) β} {s s' : S} {b : β} :
    (p >>= f).run s = (.ok b, s') ↔
      ∃ a s₁, p.run s = (.ok a, s₁) ∧ (f a).run s₁ = (.ok b, s') := by
  rw [run_bind]
  cases h : p.run s with
  | mk r s₁ =>
    cases r with
    | ok a =>
      constructor
      · intro hf
        exact ⟨a, s₁, rfl, hf⟩
      · rintro ⟨_, _, ⟨⟩, hf⟩
        exact hf
    | error e =>
      constructor
      · intro hf
        cases hf
      · rintro ⟨_, _, ⟨⟩, _⟩

def Value.isFunction : Value → Bool
  | function .. => true
  | _ => false

namespace Store

def Holds (F : Value → Prop) (s : Store) : Prop :=
  ∀ (k : Address) (c : Cell), s.cells[k]? = some c → F c.value

theorem holds_empty (F : Value → Prop) : empty.Holds F := by
  intro k c h
  simp [empty] at h

theorem Holds.read {F : Value → Prop} (hs : s.Holds F) {a : Scalar} (h : s.read? a = some v) :
    F v := by
  obtain ⟨c, hc, rfl⟩ := Option.map_eq_some_iff.1 h
  exact hs _ c hc

theorem Holds.write {F : Value → Prop} (hs : s.Holds F) (a : Scalar) (hv : F v) :
    (s.write a v).Holds F := by
  intro k c h
  simp only [Store.write, Std.ExtTreeMap.getElem?_insert] at h
  split at h
  · obtain rfl := Option.some.inj h
    exact hv
  · exact hs k c h

theorem Holds.erase {F : Value → Prop} (hs : s.Holds F) (key : Address) :
    Store.Holds F { s with cells := s.cells.erase key } := by
  intro k c h
  simp only [Std.ExtTreeMap.getElem?_erase] at h
  split at h
  · cases h
  · exact hs k c h

def SameScopes (s s' : Store) : Prop :=
  s'.globals = s.globals ∧ s'.frames = s.frames

def SameBelow (s s' : Store) : Prop :=
  s'.frames.length = s.frames.length ∧ s'.frames.tail = s.frames.tail

theorem SameScopes.below {s' : Store} (h : SameScopes s s') : SameBelow s s' := by
  rw [SameBelow, h.2]
  exact ⟨rfl, rfl⟩

theorem pushScope_cases {s' : Store} (h : s.pushScope = .ok s') :
    ∃ f fs c cs, s.frames = f :: fs ∧ f.scopes = c :: cs ∧
      s' = { s with frames := { f with scopes := ⟨innerName c.name, []⟩ :: c :: cs } :: fs } := by
  unfold pushScope at h
  split at h
  · next f fs hf =>
    split at h
    · next c cs hc => exact ⟨f, fs, c, cs, hf, hc, (Except.ok.inj h).symm⟩
    · cases h
  · cases h

theorem popScope_cases {s' : Store} (h : s.popScope = .ok s') :
    ∃ f fs c cs, s.frames = f :: fs ∧ f.scopes = c :: cs ∧
      s' = { s with frames := { f with scopes := cs } :: fs } := by
  unfold popScope at h
  split at h
  · next f fs hf =>
    split at h
    · next c cs hc => exact ⟨f, fs, c, cs, hf, hc, (Except.ok.inj h).symm⟩
    · cases h
  · cases h

theorem popFrame_cases {s' : Store} (h : s.popFrame = .ok s') :
    ∃ f fs, s.frames = f :: fs ∧ s' = { s with frames := fs } := by
  unfold popFrame at h
  split at h
  · cases h
  · next f fs hf => exact ⟨f, fs, hf, (Except.ok.inj h).symm⟩

theorem bind_cases {s' : Store} {name : String} {b : Binding} (h : s.bind name b = .ok s') :
    (s.frames = [] ∧
      s' = { s with globals := { s.globals with entries := s.globals.entries.put name b } }) ∨
    ∃ f fs c cs, s.frames = f :: fs ∧ f.scopes = c :: cs ∧
      s' = { s with frames :=
        { f with scopes := { c with entries := c.entries.put name b } :: cs } :: fs } := by
  unfold Store.bind at h
  split at h
  · next hf => exact .inl ⟨hf, (Except.ok.inj h).symm⟩
  · next f fs hf =>
    split at h
    · cases h
    · next c cs hc => exact .inr ⟨f, fs, c, cs, hf, hc, (Except.ok.inj h).symm⟩

end Store

structure Change where
  Rel : Store → Store → Prop
  refl (s : Store) : Rel s s
  trans {s s' s'' : Store} : Rel s s' → Rel s' s'' → Rel s s''

def Change.quiet : Change where
  Rel := Store.SameScopes
  refl _ := ⟨rfl, rfl⟩
  trans h h' := ⟨h'.1.trans h.1, h'.2.trans h.2⟩

def Change.mild : Change where
  Rel := Store.SameBelow
  refl _ := ⟨rfl, rfl⟩
  trans h h' := ⟨h'.1.trans h.1, h'.2.trans h.2⟩

def Change.free : Change where
  Rel _ _ := True
  refl _ := trivial
  trans _ _ := trivial

namespace Run

variable {α β : Type} {F : Value → Prop} {R : Change} {P : α → Prop} {Q : β → Prop}

theorem execute_bind (p : Run α) (f : α → Run β) (m : Machine) :
    (p >>= f).execute m =
      match p.execute m with
      | (.ok a, m') => (f a).execute m'
      | (.error e, m') => (.error e, m') := by
  unfold execute
  rw [run_bind]
  cases p.run m with
  | mk r m' => cases r <;> rfl

theorem execute_bind_ok {p : Run α} {f : α → Run β} {m m'' : Machine} {b : β}
    (h : (p >>= f).execute m = (.ok b, m'')) :
    ∃ a m', p.execute m = (.ok a, m') ∧ (f a).execute m' = (.ok b, m'') := by
  rw [execute_bind] at h
  cases hp : p.execute m with
  | mk r m' =>
    rw [hp] at h
    cases r with
    | error e => cases h
    | ok a => exact ⟨a, m', rfl, h⟩

@[simp] theorem execute_pure (a : α) (m : Machine) : (pure a : Run α).execute m = (.ok a, m) := rfl

@[simp] theorem execute_throw (f : Fault) (m : Machine) :
    (throw f : Run α).execute m = (.error f, m) := rfl

@[simp] theorem execute_ofExcept (r : Except Fault α) (m : Machine) :
    (ofExcept r).execute m = (r, m) := by
  cases r <;> rfl

@[simp] theorem execute_get (m : Machine) : (get : Run Machine).execute m = (.ok m, m) := rfl

@[simp] theorem execute_set (m m' : Machine) : (set m' : Run Unit).execute m = (.ok (), m') := rfl

@[simp] theorem execute_getStore (m : Machine) : getStore.execute m = (.ok m.store, m) := rfl

@[simp] theorem execute_setStore (s : Store) (m : Machine) :
    (setStore s).execute m = (.ok (), { m with store := s }) := rfl

theorem execute_changeStore (g : Store → Except Fault Store) (m : Machine) :
    (changeStore g).execute m =
      match g m.store with
      | .ok s => (.ok (), { m with store := s })
      | .error e => (.error e, m) := by
  simp only [changeStore, execute_bind, execute_getStore, execute_ofExcept]
  cases g m.store <;> rfl

/-- A computation keeps a property of the store, whether it fails or not, and its results have a
property. -/
def Preserves (I : Store → Prop) (Q : α → Prop) (p : Run α) : Prop :=
  ∀ m : Machine, I m.store →
    I (p.execute m).2.store ∧ ∀ a, (p.execute m).1 = .ok a → Q a

namespace Preserves

variable {I : Store → Prop} {P : α → Prop} {Q : β → Prop}

theorem ofStore {p : Run α} (h : ∀ m, (p.execute m).2.store = m.store) :
    Preserves I (fun _ => True) p := by
  intro m hm
  rw [h m]
  exact ⟨hm, fun _ _ => trivial⟩

theorem pure {a : α} (ha : P a) : Preserves I P (pure a) :=
  fun _ hm => ⟨hm, fun _ hb => Except.ok.inj hb ▸ ha⟩

theorem throw (f : Fault) : Preserves I P (throw f : Run α) :=
  fun _ hm => ⟨hm, fun _ hb => by cases hb⟩

theorem ofExcept {r : Except Fault α} (h : ∀ a, r = .ok a → P a) : Preserves I P (ofExcept r) := by
  intro m hm
  rw [execute_ofExcept]
  exact ⟨hm, h⟩

theorem bind {p : Run α} {f : α → Run β} (hp : Preserves I P p)
    (hf : ∀ a, P a → Preserves I Q (f a)) : Preserves I Q (p >>= f) := by
  intro m hm
  obtain ⟨hm', hP⟩ := hp m hm
  rw [execute_bind]
  cases h : p.execute m with
  | mk r m' =>
    rw [h] at hm' hP
    cases r with
    | error e => exact ⟨hm', fun b hb => by cases hb⟩
    | ok a => exact hf a (hP a rfl) m' hm'

theorem weaken {p : Run α} {P' : α → Prop} (hp : Preserves I P p) (h : ∀ a, P a → P' a) :
    Preserves I P' p :=
  fun m hm => ⟨(hp m hm).1, fun a ha => h a ((hp m hm).2 a ha)⟩

/-- What comes first only has to keep the property of the store. -/
theorem after {p : Run α} {f : α → Run β} (hp : Preserves I (fun _ => True) p)
    (hf : ∀ a, Preserves I Q (f a)) : Preserves I Q (p >>= f) :=
  hp.bind fun a _ => hf a

theorem ite {c : Prop} [Decidable c] {p q : Run α} (hp : Preserves I P p)
    (hq : Preserves I P q) : Preserves I P (if c then p else q) := by
  split
  · exact hp
  · exact hq

theorem changeStore {g : Store → Except Fault Store}
    (hg : ∀ s s', I s → g s = .ok s' → I s') :
    Preserves I (fun _ => True) (changeStore g) := by
  intro m hm
  rw [execute_changeStore]
  cases h : g m.store with
  | ok s => exact ⟨hg _ s hm h, fun _ _ => trivial⟩
  | error e => exact ⟨hm, fun _ _ => trivial⟩

theorem makeNumber (t : CType) (s : Scalar) : Preserves I (fun _ => True) (makeNumber t s) := by
  refine .ofStore fun m => ?_
  simp only [Run.makeNumber, execute_bind, execute_get, execute_ofExcept]
  cases Number.make t s m.random <;> rfl

theorem lookup (name : String) : Preserves I (fun _ => True) (lookup name) :=
  .after (.ofStore fun _ => rfl) fun _ => .ofExcept fun _ _ => trivial

theorem forM {xs : List α} {f : α → Run PUnit} (h : ∀ a ∈ xs, Preserves I (fun _ => True) (f a)) :
    Preserves I (fun _ => True) (xs.forM f) := by
  induction xs with
  | nil => exact .pure trivial
  | cons a xs ih =>
    obtain ⟨ha, hxs⟩ := List.forall_mem_cons.1 h
    exact .after ha fun _ => ih hxs

end Preserves

def Keeps (F : Value → Prop) (R : Change) (Q : α → Prop) (p : Run α) : Prop :=
  ∀ m : Machine, m.store.Holds F →
    (p.execute m).2.store.Holds F ∧ R.Rel m.store (p.execute m).2.store ∧
      ∀ a, (p.execute m).1 = .ok a → Q a

namespace Keeps

variable {p : Run α}

/-- A computation that is kept in bounds from one store on. -/
theorem preserves (hp : Keeps F R P p) (s₀ : Store) :
    Preserves (fun s => s.Holds F ∧ R.Rel s₀ s) P p := by
  rintro m ⟨hm, hR⟩
  obtain ⟨hm', hR', hP⟩ := hp m hm
  exact ⟨⟨hm', R.trans hR hR'⟩, hP⟩

theorem ofPreserves (hp : ∀ s₀, Preserves (fun s => s.Holds F ∧ R.Rel s₀ s) P p) :
    Keeps F R P p := by
  intro m hm
  obtain ⟨⟨hm', hR⟩, hP⟩ := hp m.store m ⟨hm, R.refl _⟩
  exact ⟨hm', hR, hP⟩

theorem pure {a : α} (ha : P a) : Keeps F R P (pure a) :=
  .ofPreserves fun _ => .pure ha

theorem throw (f : Fault) : Keeps F R P (throw f) :=
  .ofPreserves fun _ => .throw f

theorem bind {f : α → Run β} (hp : Keeps F R P p) (hf : ∀ a, P a → Keeps F R Q (f a)) :
    Keeps F R Q (p >>= f) :=
  .ofPreserves fun s₀ => (hp.preserves s₀).bind fun a ha => (hf a ha).preserves s₀

theorem weaken {P' : α → Prop} (hp : Keeps F R P p) (h : ∀ a, P a → P' a) : Keeps F R P' p := by
  intro m hm
  obtain ⟨hm', hR, hP⟩ := hp m hm
  exact ⟨hm', hR, fun a ha => h a (hP a ha)⟩

/-- What comes first only has to keep the store. -/
theorem after {f : α → Run β} (hp : Keeps F R (fun _ => True) p) (hf : ∀ a, Keeps F R Q (f a)) :
    Keeps F R Q (p >>= f) :=
  hp.bind fun a _ => hf a

theorem ite {c : Prop} [Decidable c] {q : Run α} (hp : Keeps F R P p) (hq : Keeps F R P q) :
    Keeps F R P (if c then p else q) := by
  split
  · exact hp
  · exact hq

theorem toMild (hp : Keeps F .quiet P p) : Keeps F .mild P p := by
  intro m hm
  obtain ⟨hm', hR, hP⟩ := hp m hm
  exact ⟨hm', Store.SameScopes.below hR, hP⟩

theorem toFree (hp : Keeps F R P p) : Keeps F .free P p := by
  intro m hm
  obtain ⟨hm', -, hP⟩ := hp m hm
  exact ⟨hm', trivial, hP⟩

/-- A quiet computation leaves the scopes as they are. -/
theorem sameScopes {r : Except Fault α} {m m' : Machine} (hp : Keeps (fun _ => True) .quiet P p)
    (h : p.execute m = (r, m')) : Store.SameScopes m.store m'.store := by
  obtain ⟨-, hR, -⟩ := hp m fun _ _ _ => trivial
  rw [h] at hR
  exact hR

end Keeps

theorem ofExcept_keeps {r : Except Fault α} (h : ∀ a, r = .ok a → P a) :
    Keeps F R P (ofExcept r) :=
  .ofPreserves fun _ => .ofExcept h

theorem forM_keeps {xs : List α} {f : α → Run PUnit} (h : ∀ a, Keeps F R (fun _ => True) (f a)) :
    Keeps F R (fun _ => True) (xs.forM f) := by
  induction xs with
  | nil => exact .pure trivial
  | cons a xs ih => exact .after (h a) fun _ => ih

theorem getStore_keeps : Keeps F R (fun s => s.Holds F) getStore := by
  intro m hm
  refine ⟨hm, R.refl _, fun s hs => ?_⟩
  obtain rfl := Except.ok.inj hs
  exact hm

/-- A change of the store that is not refused. -/
theorem setStore_keeps {g : Store → Store}
    (hg : ∀ s, s.Holds F → (g s).Holds F ∧ R.Rel s (g s)) :
    Keeps F R (fun _ => True) (do setStore (g (← getStore))) := by
  intro m hm
  exact ⟨(hg _ hm).1, (hg _ hm).2, fun _ _ => trivial⟩

theorem write_keeps (a : Scalar) (hv : F v) :
    Keeps F .quiet (fun _ => True) (do setStore ((← getStore).write a v)) :=
  setStore_keeps fun _ hs => ⟨hs.write a hv, rfl, rfl⟩

/-- A cell is written and something else follows. -/
theorem write_then_keeps (a : Scalar) (hv : F v) {f : Unit → Run β} (hf : Keeps F .quiet Q (f ())) :
    Keeps F .quiet Q (do let s ← getStore; let u ← setStore (s.write a v); f u) := by
  rw [← bind_assoc]
  exact (write_keeps a hv).bind fun _ _ => hf

theorem changeStore_keeps {g : Store → Except Fault Store}
    (hg : ∀ s s', g s = .ok s' → s.Holds F → s'.Holds F ∧ R.Rel s s') :
    Keeps F R (fun _ => True) (changeStore g) := by
  intro m hm
  rw [execute_changeStore]
  cases h : g m.store with
  | ok s => exact ⟨(hg _ s h hm).1, (hg _ s h hm).2, fun _ _ => trivial⟩
  | error e => exact ⟨hm, R.refl _, fun _ _ => trivial⟩

/-! ## Reading, writing and making numbers -/

theorem makeNumber_keeps (t : CType) (s : Scalar) :
    Keeps F R (fun _ => True) (makeNumber t s) :=
  .ofPreserves fun _ => .makeNumber t s

theorem allocate_keeps (size : Scalar) : Keeps F .quiet (fun _ => True) (allocate size) := by
  intro m hm
  simp only [allocate, execute_bind, execute_getStore, execute_ofExcept]
  cases m.store.next.add size with
  | ok next => exact ⟨hm, ⟨rfl, rfl⟩, fun _ _ => trivial⟩
  | error e => exact ⟨hm, ⟨rfl, rfl⟩, fun _ _ => trivial⟩

theorem lookup_keeps (name : String) : Keeps F R (fun _ => True) (lookup name) :=
  .ofPreserves fun _ => .lookup name

theorem writeAt_keeps (a : Scalar) (hv : F v) : Keeps F .quiet (fun _ => True) (writeAt a v) :=
  write_then_keeps a hv (.ite (.throw _) (.pure trivial))

theorem writeName_keeps (name : String) (hv : F v) :
    Keeps F .quiet (fun _ => True) (writeName name v) := by
  refine .after (lookup_keeps name) fun b => ?_
  cases b with
  | constant n => exact .throw _
  | «at» a => exact .after (ofExcept_keeps fun _ _ => trivial) fun a => writeAt_keeps a hv

section

/-! Values that are read and made. Only functions have to be told apart. -/

variable (hF : ∀ v : Value, v.isFunction = false → F v)

include hF

theorem readAt_keeps (a : Scalar) : Keeps F .quiet F (readAt a) := by
  refine .bind getStore_keeps fun s hs => ?_
  cases h : s.read? a with
  | some v => exact .pure (hs.read h)
  | none =>
    refine .after (makeNumber_keeps _ _) fun n => ?_
    exact write_then_keeps a (hF _ rfl) (.pure (hF _ rfl))

theorem readName_keeps (name : String) : Keeps F .quiet F (readName name) := by
  refine .after (lookup_keeps name) fun b => ?_
  cases b with
  | constant n => exact .pure (hF _ rfl)
  | «at» a => exact .after (ofExcept_keeps fun _ _ => trivial) fun a => readAt_keeps hF a

end

/-! ## Scopes and declarations -/

theorem pushScope_keeps : Keeps F .mild (fun _ => True) (changeStore Store.pushScope) := by
  refine changeStore_keeps fun s s' h hs => ?_
  obtain ⟨f, fs, c, cs, hf, -, rfl⟩ := Store.pushScope_cases h
  exact ⟨hs, by rw [hf]; rfl, by rw [hf]; rfl⟩

theorem popScope_keeps : Keeps F .mild (fun _ => True) (changeStore Store.popScope) := by
  refine changeStore_keeps fun s s' h hs => ?_
  obtain ⟨f, fs, c, cs, hf, -, rfl⟩ := Store.popScope_cases h
  exact ⟨hs, by rw [hf]; rfl, by rw [hf]; rfl⟩

theorem pushFrame_keeps (name : String) :
    Keeps F .free (fun _ => True) (changeStore fun s => .ok (s.pushFrame name)) := by
  refine changeStore_keeps fun s s' h hs => ?_
  obtain rfl := Except.ok.inj h
  exact ⟨hs, trivial⟩

theorem popFrame_keeps : Keeps F .free (fun _ => True) (changeStore Store.popFrame) := by
  refine changeStore_keeps fun s s' h hs => ?_
  obtain ⟨f, fs, -, rfl⟩ := Store.popFrame_cases h
  exact ⟨hs, trivial⟩

theorem bind_keeps (name : String) (b : Binding) :
    Keeps F .mild (fun _ => True) (changeStore (·.bind name b)) := by
  refine changeStore_keeps fun s s' h hs => ?_
  obtain ⟨-, rfl⟩ | ⟨f, fs, c, cs, hf, -, rfl⟩ := Store.bind_cases h
  · exact ⟨hs, rfl, rfl⟩
  · exact ⟨hs, by rw [hf]; rfl, by rw [hf]; rfl⟩

theorem declare_keeps (name : String) (size : Nat) (hv : F v) :
    Keeps F .mild (fun _ => True) (declare name size v) :=
  .after (allocate_keeps _).toMild fun a => .after (bind_keeps name _) fun _ =>
    (write_keeps a hv).toMild

theorem declareConstant_keeps (name : String) (s : Scalar) :
    Keeps F .mild (fun _ => True) (declareConstant name s) :=
  .after (makeNumber_keeps _ s) fun n => bind_keeps name (.constant n)

section

variable (hF : ∀ v : Value, v.isFunction = false → F v)

include hF

theorem declareNumber_keeps (t : CType) (name : String) :
    Keeps F .mild (fun _ => True) (declareNumber t name) :=
  .after (ofExcept_keeps fun _ _ => trivial) fun size => .after (makeNumber_keeps t _) fun _ =>
    declare_keeps name size (hF _ rfl)

theorem declareField_keeps (name field : String) (t : VarType) :
    Keeps F .quiet (fun _ => True) (declareField name field t) := by
  unfold declareField
  refine .after (ofExcept_keeps fun _ _ => trivial) fun size => ?_
  refine .after (allocate_keeps _) fun a => ?_
  refine .after ((readName_keeps hF name).weaken fun _ _ => trivial) fun v => ?_
  have hlast : Keeps F .quiet (fun _ => True) (do
      let n ← makeNumber (fieldType t) .nothing
      setStore ((← getStore).write a (.number n))) :=
    .after (makeNumber_keeps _ _) fun n => write_keeps a (hF _ rfl)
  split
  · refine .after (lookup_keeps name) fun b => ?_
    cases hb : addressOf b with
    | ok c =>
      simp only [ofExcept, pure_bind]
      exact write_then_keeps c (hF _ rfl) hlast
    | error e =>
      refine .after (getStore_keeps.weaken fun _ _ => trivial) fun _ => ?_
      exact .bind (P := fun _ => False) (.throw e) fun _ h => h.elim
  · exact .throw _

theorem declareStructVar_keeps (t : StructType) (name : String) :
    Keeps F .mild (fun _ => True) (declareStructVar t name) := by
  refine .ite (declareNumber_keeps hF _ name) ?_
  refine .after (declare_keeps name structSize (hF (.record []) rfl)) fun _ => ?_
  refine .after ((readName_keeps hF _).weaken fun _ _ => trivial).toMild fun v => ?_
  split
  · refine Keeps.toMild ?_
    exact forM_keeps fun f => declareField_keeps hF name f.1 f.2
  · exact .throw _

theorem declareVariable_keeps (t : VarType) (name : String) :
    Keeps F .mild (fun _ => True) (declareVariable t name) := by
  cases t with
  | number t => exact declareNumber_keeps hF t name
  | struct t => exact declareStructVar_keeps hF t name

end

end Run

end MiniC
