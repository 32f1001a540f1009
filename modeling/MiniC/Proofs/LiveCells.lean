import MiniC.Proofs.CellTypes
import MiniC.Proofs.Isolation

/-!
# Types of cells along a run

From a moment at which no expression of a function is being evaluated, the numbers in the cells keep
their types as long as the function runs, if two calls of the library do no harm: reading input
stores a number of the type that the specifier asks for, and taking a block without a size makes
later blocks overlap with it.

An assignment replaces a value by one of the type that was there when its target was evaluated. A
block that has been taken since then may have a cell of another type, because an address can be used
before its block is taken. But such a block belongs to a function that was called by the assignment,
and has ended when the assignment is made.
-/

namespace MiniC

open Eval (callMain)
open Recorded (Keeps Inside entered left visitAt)

variable {t : Tree} {fuel : Nat}

/-! ## What is followed -/

/-- What is called, the values that it is given, and the machine when it is called. -/
def Visit.request? (v : Visit) : Option (Value × List Value × Machine) :=
  match v.tree with
  | .call f args _ =>
    match (Eval.arguments (Eval.eval (v.fuel - 1)) args).execute v.before with
    | (.ok vs, m) =>
      match (Run.readName f).execute m with
      | (.ok w, m') => some (w, if Eval.takesMemory f then vs ++ [.memory] else vs, m')
      | (.error _, _) => none
    | (.error _, _) => none
  | _ => none

namespace Event

/-- Whether a function of the library that is called is given plain values of a kind. -/
def serves (P : Builtin → List Value → Bool) : Event → Bool
  | enter v =>
    match v.request? with
    | some (.builtin f, vs, _) => P f (vs.map Eval.argument)
    | _ => true
  | leave .. => true

def behind : Event → List Tree
  | enter v => v.tree :: v.context
  | leave v _ _ => v.context

def frame (e : Event) : List Tree :=
  e.behind.dropWhile fun t => !t.isBody

/-- An event is harmless for a cell: the body still runs, and no function of the library is called
that takes a block without a size or reads a number of another type into the cell. -/
structure Harmless (frame : List Tree) (a : Int) (o : Option CType) (e : Event) : Prop where
  live : frame <:+ e.behind
  allots : e.serves Builtin.allots = true
  reads : e.serves (Builtin.readsAs a o) = true

end Event

/-- No expression of the innermost body is being evaluated. -/
def Calm (c : List Tree) : Prop :=
  ∀ t ∈ c.takeWhile fun t => !t.isBody, t.isExpression = false

theorem calm_of_isBody (ht : t.isBody = true) (c : List Tree) : Calm (t :: c) := by
  intro u hu
  rw [List.takeWhile_cons_of_neg (by simp [ht])] at hu
  cases hu

theorem Calm.cons {c : List Tree} (h : Calm c) (ht : t.isExpression = false) : Calm (t :: c) := by
  cases hb : t.isBody with
  | true => exact calm_of_isBody hb c
  | false =>
    intro u hu
    rw [List.takeWhile_cons_of_pos (by simp [hb])] at hu
    obtain rfl | hu := List.mem_cons.1 hu
    · exact ht
    · exact h u hu

def Fits (t : Tree) (c : List Tree) : Prop :=
  t.isExpression = true ∨ t.isBody = true ∨ Calm c

/-- The types of the numbers in the cells are those of every earlier moment at which no expression
was being evaluated, as far as everything since then was harmless. -/
def Stays (es : List Event) (st : Store) : Prop :=
  ∀ since e before a o, es = since ++ e :: before → Calm e.behind →
    (∀ e' ∈ since, e'.Harmless e.frame a o) → e.machine.store.Lasting Value.type? a o →
      st.Lasting Value.type? a o

theorem Stays.onward {es : List Event} {st st' : Store} (h : Stays es st)
    (honward : st.Onward Value.type? st') : Stays es st' := by
  intro since e before a o hes hcalm hsince he
  exact honward.lasting (h since e before a o hes hcalm hsince he)

theorem Stays.cons {es : List Event} {st : Store} (h : Stays es st) {e : Event}
    (he : e.machine.store = st) : Stays (e :: es) st := by
  intro since e₁ before a o hes hcalm hsince hlasting
  cases since with
  | nil =>
    obtain ⟨rfl, -⟩ := List.cons.inj hes
    exact he ▸ hlasting
  | cons e' since =>
    obtain ⟨-, hes⟩ := List.cons.inj hes
    exact h since e₁ before a o hes hcalm (List.forall_mem_cons.1 hsince).2 hlasting

def Noted (P : Event → List Event → Prop) : List Event → Prop
  | [] => True
  | e :: es => P e es ∧ Noted P es

theorem Noted.of_append {P : Event → List Event → Prop} {later before : List Event} {e : Event}
    (h : Noted P (later ++ e :: before)) : P e before := by
  induction later with
  | nil => exact h.1
  | cons e' later ih => exact ih h.2

/-! ## What has happened -/

/-- No function of the library has been asked for a block without a size. -/
def Allotted (es : List Event) : Prop :=
  ∀ e ∈ es, e.serves Builtin.allots = true

/-- A body is begun by a call that is being evaluated, when the parameters have been given the
values of the arguments. -/
def Begun (p : Tree) (u : Visit) (before : List Event) : Prop :=
  ∃ inside w earlier type f ps vs m, before = inside ++ .enter w :: earlier ∧
    (∀ e ∈ inside, Inside w.tree w.context e) ∧ u.context = w.tree :: w.context ∧
    w.request? = some (.function type f ps u.tree, vs, m) ∧
    (Eval.enterFunction f ps vs).execute m = (.ok (), u.before) ∧
    (Value.function type f ps u.tree).DeclaredIn p ∧ (Allotted before → m.store.Ordered)

structure Fair (p : Tree) (e : Event) (before : List Event) : Prop where
  stays : Stays (e :: before) e.machine.store
  ordered : Allotted before → e.visit.before.store.Ordered
  fits : Fits e.visit.tree e.visit.context
  begun : ∀ u, e = .enter u → u.tree.isBody = true → Begun p u before
  ended : ∀ u r m, e = .leave u r m → (Eval.eval u.fuel u.tree).execute u.before = (r, m)

structure Typed (p : Tree) (c : List Tree) (s : Machine × Journal) : Prop extends Sound p s where
  context : s.2.context = c
  last : ∀ e ∈ s.2.events.head?, e.behind = c
  stays : Stays s.2.events s.1.store
  ordered : Allotted s.2.events → s.1.store.Ordered
  noted : Noted (Fair p) s.2.events

structure Amid (p : Tree) (v : Visit) (earlier : List Event) (s : Machine × Journal) : Prop
    extends Typed p (v.tree :: v.context) s where
  during : ∃ inside, s.2.events = inside ++ .enter v :: earlier ∧
    ∀ e ∈ inside, Inside v.tree v.context e

section

variable {p : Tree} {c : List Tree} {v : Visit} {earlier : List Event} {s : Machine × Journal}

theorem Typed.onward (h : Typed p c s) {m : Machine} (hheld : m.store.Holds (Value.DeclaredIn p))
    (honward : s.1.store.Onward Value.type? m.store) : Typed p c (m, s.2) where
  visited := h.visited
  declared := hheld
  context := h.context
  last := h.last
  stays := h.stays.onward honward
  ordered hall := honward.ordered (h.ordered hall)
  noted := h.noted

theorem Recorded.Inside.suffix {e : Event} (h : Inside t c e) : t :: c <:+ e.behind := by
  obtain ⟨inner, hinner⟩ := h
  cases e with
  | enter u => exact ⟨u.tree :: inner, congrArg (u.tree :: ·) hinner.symm⟩
  | leave u r m => exact ⟨inner, hinner.symm⟩

theorem Tree.not_isBody_of_isExpression (h : t.isExpression = true) : t.isBody = false := by
  cases t with
  | body => cases h
  | _ => rfl

/-- If no expression of the innermost body is being evaluated, the body is inside of every
expression that is. -/
theorem Calm.body_inside (ht : t.isExpression = true) {inner : List Tree}
    (h : Calm (inner ++ t :: c)) :
    (t :: c).length < ((inner ++ t :: c).dropWhile fun t => !t.isBody).length := by
  induction inner with
  | nil =>
    have hmem : t ∈ (t :: c).takeWhile fun t => !t.isBody := by
      rw [List.takeWhile_cons_of_pos (by simp [Tree.not_isBody_of_isExpression ht])]
      exact List.mem_cons_self
    rw [h t hmem] at ht
    cases ht
  | cons x inner ih =>
    cases hx : x.isBody with
    | true =>
      rw [List.cons_append, List.dropWhile_cons_of_neg (by simp [hx])]
      simp only [List.length_cons, List.length_append]
      omega
    | false =>
      rw [List.cons_append, List.dropWhile_cons_of_pos (by simp [hx])]
      apply ih
      intro u hu
      apply h
      rw [List.cons_append, List.takeWhile_cons_of_pos (by simp [hx])]
      exact List.mem_cons_of_mem _ hu

/-- While an expression is evaluated, a moment inside it at which no expression of the innermost
body was being evaluated belongs to a body that has ended. -/
theorem Amid.before_tree (h : Amid p v earlier s) (hv : v.tree.isExpression = true)
    {since before : List Event} {e : Event} (hes : s.2.events = since ++ e :: before)
    (hcalm : Calm e.behind) (hlive : ∀ e' ∈ since, e.frame <:+ e'.behind) :
    ∃ since', earlier = since' ++ e :: before ∧ ∀ e' ∈ Event.enter v :: since', e' ∈ since := by
  obtain ⟨inside, hevents, hinside⟩ := h.during
  have hsplit : (inside ++ [.enter v]) ++ earlier = since ++ e :: before := by
    rw [List.append_assoc, ← hes, hevents]
    rfl
  obtain ⟨since', rfl, hearlier⟩ | ⟨rest, hrest, hbefore⟩ := List.append_eq_append_iff.1 hsplit
  · refine ⟨since', hearlier, List.forall_mem_cons.2 ⟨by simp, fun e' he' => ?_⟩⟩
    exact List.mem_append_right _ he'
  cases rest with
  | nil =>
    rw [List.append_nil] at hrest
    refine ⟨[], hbefore.symm, List.forall_mem_singleton.2 ?_⟩
    rw [← hrest]
    simp
  | cons e' rest =>
    -- The moment is inside the evaluation, so its body is further inside than what runs now.
    obtain ⟨rfl, -⟩ := List.cons.inj hbefore
    have hmem : e ∈ inside ++ [.enter v] := by
      rw [hrest]
      simp
    obtain ⟨inner, hinner⟩ : v.tree :: v.context <:+ e.behind := by
      obtain hmem | hmem := List.mem_append.1 hmem
      · exact (hinside e hmem).suffix
      · obtain rfl := List.mem_singleton.1 hmem
        exact List.suffix_refl _
    have hdeep : (v.tree :: v.context).length < e.frame.length := by
      rw [← hinner] at hcalm
      rw [Event.frame, ← hinner]
      exact hcalm.body_inside hv
    have hlast := h.last
    rw [hes] at hlast
    cases since with
    | nil =>
      rw [← hlast e rfl] at hdeep
      have hle := (List.dropWhile_suffix (l := e.behind) fun t => !t.isBody).length_le
      exact absurd hdeep (Nat.not_lt.2 hle)
    | cons e₀ since =>
      have hle := (hlive e₀ List.mem_cons_self).length_le
      rw [hlast e₀ rfl] at hle
      exact absurd hdeep (Nat.not_lt.2 hle)

/-! ## Evaluation -/

structure Steady (p : Tree) {α : Type} (Q : α → Prop) (q : Run α) : Prop where
  keeps : ∃ R, q.Keeps (Value.DeclaredIn p) R Q
  onward : ∀ s₀ : Store, q.Preserves (s₀.Onward Value.type?) fun _ => True

theorem Typed.lift {α : Type} {Q : α → Prop} {q : Run α} (hq : Steady p Q q) :
    Keeps (Typed p c) Q (liftM q) := by
  intro s hs
  obtain ⟨R, hkeeps⟩ := hq.keeps
  obtain ⟨hheld, -, hQ⟩ := hkeeps s.1 hs.declared
  have honward := (hq.onward s.1.store s.1 (.refl Value.type? s.1.store)).1
  exact ⟨hs.onward hheld honward, hQ⟩

theorem Amid.lift {α : Type} {Q : α → Prop} {q : Run α} (hq : Steady p Q q) :
    Keeps (Amid p v earlier) Q (liftM q) := by
  intro s hs
  obtain ⟨htyped, hQ⟩ := Typed.lift hq s hs.toTyped
  exact ⟨⟨htyped, hs.during⟩, hQ⟩

/-- What is allowed by every effect keeps the types. -/
theorem Steady.of_reading {q : Run Value} (h : ∀ E : Reading, E.Allows E.Fine q) :
    Steady p (Value.DeclaredIn p) q :=
  ⟨⟨.quiet, h (Run.quietly Value.declaredIn_of_isFunction)⟩, fun s₀ => h (Run.onwards s₀ _)⟩

def typing (p : Tree) (v : Visit) (earlier : List Event) : Following Recorded Recorded where
  Fine := Value.DeclaredIn p
  Target _ := True
  Allows Q q := Steady p Q q
  Rel Q q _ := Keeps (Amid p v earlier) Q q
  pure ha := .pure ha
  bind hp hf := hp.bind hf
  lift hq := Amid.lift hq
  simple v hv := Value.declaredIn_of_isFunction v (Value.isFunction_of_isSimple hv)
  jump _ := trivial
  ofExcept h := ⟨⟨.quiet, Run.ofExcept_keeps h⟩, fun _ => .ofExcept fun _ _ => trivial⟩
  makeNumber t s := ⟨⟨.quiet, Run.makeNumber_keeps t s⟩, fun _ => .makeNumber t s⟩
  readName name := .of_reading fun E => E.readName name
  readAt a := .of_reading fun E => E.readAt a
  step f t _ := ⟨⟨.quiet, Eval.step_keeps Value.declaredIn_of_isFunction f t⟩,
    fun _ => Eval.step_onward f t⟩
  behind {_ t} _ := ⟨⟨.quiet, (Run.quietly Value.declaredIn_of_isFunction).behind fun _ f =>
    Eval.step_keeps Value.declaredIn_of_isFunction f t⟩, fun s₀ => (Run.onwards s₀ _).behind fun _ f =>
      (Eval.step_onward f t).weaken fun _ _ => ⟨trivial, trivial⟩⟩
  literal k := .of_reading fun E => E.literal k
  convert t w := .of_reading fun E => E.convert t w
  arrow l r := .of_reading fun E => E.arrow l r
  combine b hf ha := ⟨⟨.quiet, (Run.quietly Value.declaredIn_of_isFunction).combine b hf ha⟩,
    fun s₀ => (Run.onwards s₀ _).combine b hf trivial⟩
  referTo t := .of_reading fun E => E.referTo t
  dereference w := .of_reading fun E => E.dereference w
  negate w := .of_reading fun E => E.negate w
  assigned op old w := .of_reading fun E => E.assigned op old w
  fieldValue op b m := .of_reading fun E => E.fieldValue op b m

def Recorded.Brings {α : Type} (I J : Machine × Journal → Prop) (Q : α → Prop) (q : Recorded α) :
    Prop :=
  ∀ s, I s → J (q.execute s).2 ∧ ∀ a, (q.execute s).1 = .ok a → Q a

theorem Recorded.Brings.bind {α β : Type} {I J K : Machine × Journal → Prop} {P : α → Prop}
    {Q : β → Prop} {q : Recorded α} {f : α → Recorded β} (hq : Brings I K P q)
    (hKJ : ∀ s, K s → J s) (hf : ∀ a, P a → Brings K J Q (f a)) : Brings I J Q (q >>= f) := by
  intro s hs
  obtain ⟨hs', hP⟩ := hq s hs
  rw [execute_bind]
  cases h : q.execute s with
  | mk r s' =>
    rw [h] at hs' hP
    cases r with
    | error e => exact ⟨hKJ s' hs', fun b hb => by cases hb⟩
    | ok a => exact hf a (hP a rfl) s' hs'

/-! ## Assignments -/

structure First (p : Tree) (v : Visit) (earlier : List Event) (s : Machine × Journal) : Prop
    extends Amid p v earlier s where
  events : s.2.events = .enter v :: earlier

theorem First.lift {α : Type} {Q : α → Prop} {q : Run α} (hq : Steady p Q q) :
    Keeps (First p v earlier) Q (liftM q) := by
  intro s hs
  obtain ⟨hamid, hQ⟩ := Amid.lift hq s hs.toAmid
  exact ⟨⟨hamid, hs.events⟩, hQ⟩

def Recalls (v : Visit) (earlier : List Event) (a : Scalar) (old : Value) : Prop :=
  ∀ since e before b o, earlier = since ++ e :: before → Calm e.behind →
    (∀ e' ∈ Event.enter v :: since, e'.Harmless e.frame b o) →
    e.machine.store.Lasting Value.type? b o → Address.ofScalar a = Address.whole b → old.type? = o

theorem First.readAt (a : Scalar) :
    Keeps (First p v earlier) (Recalls v earlier a) (liftM (Run.readAt a)) := by
  have hsteady : Steady p (Value.DeclaredIn p) (Run.readAt a) := (typing p v earlier).readAt a
  intro s hs
  refine ⟨(First.lift hsteady s hs).1, fun old hold => ?_⟩
  intro since e before b o hearlier hcalm hharmless hlasting hab
  have hevents : s.2.events = (Event.enter v :: since) ++ e :: before := by
    rw [hs.events, hearlier]
    rfl
  have honward := (hsteady.onward s.1.store s.1 (.refl Value.type? s.1.store)).1
  obtain ⟨w, hw, ho⟩ :=
    (honward.lasting (hs.stays _ e before b o hevents hcalm hharmless hlasting)).cell
  have hread : ((Run.readAt a).execute s.1).2.store.read? a = some old :=
    Run.readAt_ok (Prod.ext hold rfl)
  rw [Store.read?_congr _ (show Address.ofScalar (.int b) = Address.ofScalar a from hab.symm),
    hread] at hw
  rw [Option.some.inj hw, ho]

theorem Amid.writeAt (hv : v.tree.isExpression = true) {a : Scalar} {old w : Value}
    (hold : Recalls v earlier a old) (hw : w.type? = old.type?) (hfine : w.DeclaredIn p) :
    Keeps (Amid p v earlier) (fun _ => True) (liftM (Run.writeAt a w)) := by
  intro s hs
  refine ⟨⟨⟨⟨hs.visited, ?_⟩, hs.context, hs.last, ?_, ?_, hs.noted⟩, hs.during⟩,
    fun _ _ => trivial⟩
  · exact (Run.writeAt_keeps a hfine s.1 hs.declared).1
  · change Stays s.2.events ((Run.writeAt a w).execute s.1).2.store
    rw [Run.execute_writeAt_store]
    intro since e before b o hes hcalm hharmless hlasting
    apply (hs.stays since e before b o hes hcalm hharmless hlasting).write
    intro hab
    obtain ⟨since', hearlier, hsub⟩ :=
      hs.before_tree hv hes hcalm fun e' he' => (hharmless e' he').live
    rw [hw]
    exact hold since' e before b o hearlier hcalm (fun e' he' => hharmless e' (hsub e' he'))
      hlasting hab
  · intro hall
    change ((Run.writeAt a w).execute s.1).2.store.Ordered
    rw [Run.execute_writeAt_store]
    exact hs.ordered hall

theorem assigned_steady (op : Kind) (old given : Value) :
    Steady p (fun w => w.type? = old.type? ∧ w.DeclaredIn p) (Eval.assigned op old given) where
  keeps := by
    refine ⟨.quiet, fun m hm => ?_⟩
    obtain ⟨hheld, hquiet, hfine⟩ :=
      (Run.quietly (F := Value.DeclaredIn p) Value.declaredIn_of_isFunction).assigned op old given
        m hm
    refine ⟨hheld, hquiet, fun w hw => ⟨?_, hfine w hw⟩⟩
    obtain ⟨x, n, hx, rfl, htype⟩ := Eval.assigned_type (Prod.ext hw rfl)
    rw [Value.type?, Value.type?, hx]
    exact congrArg some htype
  onward s₀ := (Run.onwards s₀ _).assigned op old given

theorem assign_typed (hv : v.tree.isExpression = true) (target : Tree) (op : Token) {value : Tree}
    (hvalue : Keeps (Amid p v earlier) (Value.DeclaredIn p) (record fuel value)) :
    Recorded.Brings (First p v earlier) (Amid p v earlier) (Value.DeclaredIn p)
      (Eval.assign (record fuel) target op value) := by
  have hplace : Steady p (fun _ => True) (Eval.place target) :=
    ⟨⟨.quiet, (Run.quietly Value.declaredIn_of_isFunction).place target⟩,
      fun s₀ => (Run.onwards s₀ _).place target⟩
  refine .bind (First.lift hplace) (fun _ hs => hs.toAmid) fun a _ => ?_
  have hupdate : Recorded.Brings (First p v earlier) (Amid p v earlier)
      (fun r => Value.DeclaredIn p r.2)
      (Eval.update a fun old => do Eval.assigned op.kind old (← record fuel value)) := by
    refine .bind (First.readAt a) (fun _ hs => hs.toAmid) fun old hold => ?_
    have hassigned : Keeps (Amid p v earlier) (fun w => w.type? = old.type? ∧ w.DeclaredIn p)
        (do Eval.assigned op.kind old (← record fuel value)) :=
      hvalue.bind fun given _ => Amid.lift (assigned_steady op.kind old given)
    have hwrite := hassigned.bind fun w hw =>
      (Amid.writeAt hv hold hw.1 hw.2).bind fun _ _ =>
        Keeps.pure (I := Amid p v earlier) (P := fun r : Value × Value => r.2.DeclaredIn p)
          (a := (old, w)) hw.2
    exact fun s hs => hwrite s hs.toAmid
  exact hupdate.bind (fun _ hs => hs) fun r hr => Keeps.pure hr

/-! ## Calls -/

theorem Visit.request?_eq {n : Nat} {f : String} {args : List Tree} {s₁ : Machine × Journal}
    {vs : List Value} {w : Value} {m₂ : Machine} (ht : v.tree = .call f args n)
    (hfuel : v.fuel = fuel + 1) (hs : v.before = s.1)
    (hargs : (Eval.arguments (record fuel) args).execute s = (.ok vs, s₁))
    (hw : (Run.readName f).execute s₁.1 = (.ok w, m₂)) :
    v.request? = some (w, if Eval.takesMemory f then vs ++ [.memory] else vs, m₂) := by
  have hplain := record_arguments fuel args s
  rw [hargs] at hplain
  simp only [request?, ht, hfuel, hs, Nat.add_sub_cancel, hplain, hw]

theorem Event.serves_enter {P : Builtin → List Value → Bool} {b : Builtin} {vs : List Value}
    {m : Machine} (hr : v.request? = some (.builtin b, vs, m)) (h : (enter v).serves P = true) :
    P b (vs.map Eval.argument) = true := by
  rw [serves, hr] at h
  exact h

/-- A function of the library keeps the types, as far as the call is harmless. -/
theorem Amid.callBuiltin (h : Amid p v earlier s) (hv : v.tree.isExpression = true) {b : Builtin}
    {vs : List Value} {m : Machine} (hr : v.request? = some (.builtin b, vs, m)) :
    Amid p v earlier (((Eval.callBuiltin b vs).execute s.1).2, s.2) := by
  refine ⟨⟨⟨h.visited, ?_⟩, h.context, h.last, ?_, ?_, h.noted⟩, h.during⟩
  · exact (Eval.callBuiltin_keeps Value.declaredIn_of_isFunction b vs s.1 h.declared).1
  · intro since e before a o hes hcalm hharmless hlasting
    have hstays := h.stays since e before a o hes hcalm hharmless hlasting
    obtain ⟨since', -, hsub⟩ :=
      h.before_tree hv hes hcalm fun e' he' => (hharmless e' he').live
    have hcall := hharmless _ (hsub _ List.mem_cons_self)
    have hminds := Eval.minds_lasting (Event.serves_enter hr hcall.allots)
      (Event.serves_enter hr hcall.reads)
    exact (Eval.callBuiltin_preserves hminds s.1 hstays).1
  · intro hall
    obtain ⟨inside, hevents, -⟩ := h.during
    have hcall : (Event.enter v).serves Builtin.allots = true := hall _ (by simp [hevents])
    have hminds := Eval.minds_ordered (Event.serves_enter hr hcall)
    exact (Eval.callBuiltin_preserves hminds s.1 (h.ordered hall)).1

def KeepsBodies (p : Tree) (v : Visit) (earlier : List Event) (fuel : Nat) : Prop :=
  ∀ body s, p.Reachable body → body.isBody = true → Amid p v earlier s →
    Begun p (visitAt fuel body s) s.2.events →
      Amid p v earlier ((record fuel body).execute s).2 ∧
        ∀ w, ((record fuel body).execute s).1 = .ok w → w.DeclaredIn p

theorem Amid.callFunction (hp : p.Grammatical .program) (hruns : KeepsBodies p v earlier fuel)
    (h : Amid p v earlier s) {type body : Tree} {f : String} {ps : List Tree} {vs : List Value}
    (hr : v.request? = some (.function type f ps body, vs, s.1))
    (hf : (Value.function type f ps body).DeclaredIn p) (hvs : ∀ w ∈ vs, w.DeclaredIn p) :
    Amid p v earlier ((Eval.callFunction (record fuel) type f ps body vs).execute s).2 ∧
      ∀ w, ((Eval.callFunction (record fuel) type f ps body vs).execute s).1 = .ok w →
        w.DeclaredIn p := by
  have henter : Steady p (fun _ => True) (Eval.enterFunction f ps vs) :=
    ⟨⟨_, Eval.enterFunction_keeps Value.declaredIn_of_isFunction f ps hvs⟩,
      fun _ => Eval.enterFunction_onward f ps vs⟩
  obtain ⟨hentered, -⟩ := Amid.lift henter s h
  rw [Eval.callFunction, Recorded.execute_bind, Recorded.execute_lift]
  rw [Recorded.execute_lift] at hentered
  cases hrun : (Eval.enterFunction f ps vs).execute s.1 with
  | mk r m =>
    rw [hrun] at hentered
    cases r with
    | error e => exact ⟨hentered, fun w hw => by cases hw⟩
    | ok u =>
      have hbegun : Begun p (visitAt fuel body (m, s.2)) s.2.events := by
        obtain ⟨inside, hevents, hinside⟩ := h.during
        exact ⟨inside, v, earlier, type, f, ps, vs, s.1, hevents, hinside, h.context, hr, hrun, hf,
          h.ordered⟩
      obtain ⟨n, hn⟩ := hf
      have hreach : p.Reachable body := .inl (hn.ofPart (by simp [Tree.parts]))
      have hisBody : body.isBody = true := by
        obtain ⟨k, hk⟩ := hn.grammatical hp
        obtain ⟨cs, i, rfl, -⟩ := hk.function_isBody
        rfl
      have hleave (w : Value) : Steady p (Value.DeclaredIn p) (Eval.leaveFunction type w) :=
        ⟨⟨_, Eval.leaveFunction_keeps Value.declaredIn_of_isFunction type w⟩,
          fun _ => Eval.leaveFunction_onward type w⟩
      have hbody : Recorded.Brings (· = (m, s.2)) (Amid p v earlier) (Value.DeclaredIn p)
          (record fuel body) := by
        rintro _ rfl
        exact hruns body _ hreach hisBody hentered hbegun
      exact hbody.bind (fun _ hs => hs) (fun w _ => Amid.lift (hleave w)) _ rfl

theorem call_typed (hp : p.Grammatical .program) {n : Nat} {f : String} {args : List Tree}
    (ht : v.tree = .call f args n) (hfuel : v.fuel = fuel + 1)
    (hruns : KeepsBodies p v earlier fuel)
    (hargs : ∀ a ∈ args, Keeps (Amid p v earlier) (Value.DeclaredIn p) (record fuel a))
    (hs : Amid p v earlier s) (hbefore : s.1 = v.before) :
    Amid p v earlier ((Eval.call (record fuel) f args).execute s).2 ∧
      ∀ w, ((Eval.call (record fuel) f args).execute s).1 = .ok w → w.DeclaredIn p := by
  have hexpr : v.tree.isExpression = true := by rw [ht]; rfl
  have hboth : ∀ a ∈ args, (typing p v earlier).Both (record fuel a) (record fuel a) := hargs
  obtain ⟨hamid, hvs⟩ := (typing p v earlier).arguments hboth s hs
  rw [Eval.call, Recorded.execute_bind]
  cases hrun : (Eval.arguments (record fuel) args).execute s with
  | mk r s₁ =>
    rw [hrun] at hamid hvs
    cases r with
    | error e => exact ⟨hamid, fun w hw => by cases hw⟩
    | ok vs =>
      obtain ⟨hread, hw⟩ := Amid.lift ((typing p v earlier).readName f) s₁ hamid
      rw [Recorded.execute_lift] at hread hw
      simp only [Eval.callName, Recorded.execute_bind, Recorded.execute_lift]
      cases hname : (Run.readName f).execute s₁.1 with
      | mk r m₂ =>
        rw [hname] at hread hw
        cases r with
        | error e => exact ⟨hread, fun w hw => by cases hw⟩
        | ok w =>
          have hr := Visit.request?_eq ht hfuel hbefore.symm hrun hname
          have hgiven : ∀ x ∈ (if Eval.takesMemory f then vs ++ [.memory] else vs),
              x.DeclaredIn p := by
            split
            · exact List.forall_mem_append.2 ⟨hvs vs rfl, List.forall_mem_singleton.2 trivial⟩
            · exact hvs vs rfl
          cases w with
          | builtin b =>
            refine ⟨hread.callBuiltin hexpr hr, ?_⟩
            exact (Eval.callBuiltin_keeps Value.declaredIn_of_isFunction b _ m₂
              hread.declared).2.2
          | function type name ps body => exact hread.callFunction hp hruns hr (hw _ rfl) hgiven
          | _ => exact ⟨hread, fun w hw => by cases hw⟩

/-! ## All trees -/

theorem Fits.operand (hp : p.Grammatical .program) {u : Tree} (ht : p.Reachable t) (hc : Fits t c)
    (hu : u ∈ t.operands) : u.isBody = false ∧ Fits u (t :: c) := by
  obtain ht | rfl := ht
  · obtain ⟨k, hk⟩ := ht.grammatical hp
    refine ⟨hk.operand_not_isBody hu, ?_⟩
    cases he : t.isExpression with
    | true => exact .inl (isExpression_of_grammatical ((hk.toExpression he).operand hu))
    | false =>
      obtain hexpr | hbody | hcalm := hc
      · rw [he] at hexpr
        cases hexpr
      · exact .inr (.inr (calm_of_isBody hbody c))
      · exact .inr (.inr (hcalm.cons he))
  · exact absurd hu List.not_mem_nil

theorem record_during (fuel : Nat) (u : Tree) (hs : Amid p v earlier s) :
    ∃ inside, ((record fuel u).execute s).2.2.events = inside ++ .enter v :: earlier ∧
      ∀ e ∈ inside, Inside v.tree v.context e := by
  obtain ⟨m, c', es⟩ := s
  obtain rfl : c' = v.tree :: v.context := hs.context
  obtain ⟨inside, rfl, hinside⟩ : ∃ inside, es = inside ++ .enter v :: earlier ∧
    ∀ e ∈ inside, Inside v.tree v.context e := hs.during
  obtain ⟨hadd, -⟩ := Recorded.record_adds fuel u m (v.tree :: v.context)
  have hnew : ∀ e ∈ ((record fuel u).execute (Recorded.startAt m (v.tree :: v.context))).2.2.events,
      Inside v.tree v.context e := by
    refine (Recorded.record_happens fuel u (v.tree :: v.context) _ (fun e he _ => ⟨[], he⟩) ?_
      (Recorded.startAt m (v.tree :: v.context)) ⟨rfl, List.forall_mem_nil _⟩).1.2
    rintro e ⟨inner, he⟩
    exact ⟨inner ++ [u], by rw [he, List.append_assoc]; rfl⟩
  rw [hadd]
  refine ⟨_, (List.append_assoc _ _ _).symm, List.forall_mem_append.2 ⟨hnew, hinside⟩⟩

theorem Typed.entered (h : Typed p c s) (ht : p.Reachable t) (hc : Fits t c)
    (hbegun : t.isBody = true → Begun p (visitAt fuel t s) s.2.events) :
    First p (visitAt fuel t s) s.2.events (entered fuel t s) := by
  obtain rfl := h.context
  have hfair : Fair p (.enter (visitAt fuel t s)) s.2.events := by
    refine ⟨h.stays.cons rfl, h.ordered, hc, ?_, fun _ _ _ he => by cases he⟩
    rintro _ ⟨⟩ hb
    exact hbegun hb
  have hsound : Sound p (Recorded.entered fuel t s) := h.toSound.entered ht
  refine ⟨⟨⟨hsound, rfl, ?_, h.stays.cons rfl, ?_, hfair, h.noted⟩, [], rfl, ?_⟩, rfl⟩
  · rintro e ⟨⟩
    rfl
  · exact fun hall => h.ordered (List.forall_mem_cons.1 hall).2
  · exact List.forall_mem_nil _

theorem Typed.left {s' : Machine × Journal} {r : Except Fault Value} (h : Typed p c s)
    (ht : p.Reachable t) (hc : Fits t c) (h' : Amid p (visitAt fuel t s) s.2.events s')
    (hrun : (Eval.eval fuel t).execute s.1 = (r, s'.1)) : Typed p c (left fuel t s r s') := by
  obtain rfl := h.context
  obtain ⟨inside, hevents, -⟩ := h'.during
  have hfair : Fair p (.leave (visitAt fuel t s) r s'.1) s'.2.events := by
    refine ⟨h'.stays.cons rfl, fun hall => h.ordered fun e he => hall e ?_, hc,
      fun _ he => (by cases he), ?_⟩
    · rw [hevents]
      exact List.mem_append_right _ (List.mem_cons_of_mem _ he)
    · rintro _ _ _ ⟨⟩
      exact hrun
  refine ⟨h.toSound.left h'.toSound ht, rfl, ?_, h'.stays.cons rfl, ?_, hfair, h'.noted⟩
  · rintro e ⟨⟩
    rfl
  · exact fun hall => h'.ordered (List.forall_mem_cons.1 hall).2

theorem scopes_typed (ht : p.Reachable t)
    (hop : ∀ u ∈ t.operands, (typing p v earlier).Both (record fuel u) (record fuel u))
    (hs : t.touchesScopes = true) :
    (typing p v earlier).Both (Eval.rule (record fuel) fuel t)
      (Eval.rule (record fuel) fuel t) := by
  let C := typing p v earlier
  have hfine := Value.declaredIn_of_isFunction (p := p)
  cases t with
  | block cs =>
    refine C.bind (C.lift ⟨⟨_, Run.pushScope_keeps⟩, fun _ => Run.pushScope_onward⟩) fun _ _ => ?_
    refine C.bind (C.untilJump hop) fun w hw => ?_
    exact C.bind (C.lift ⟨⟨_, Run.popScope_keeps⟩, fun _ => Run.popScope_onward⟩) fun _ _ =>
      C.pure hw
  | varDecl x type =>
    exact C.bind (C.lift ⟨⟨_, Eval.declare_keeps hfine x type⟩,
      fun _ => Eval.declare_onward x type⟩) fun _ _ => C.nothing
  | structDecl s fields =>
    exact C.bind (C.lift ⟨⟨_, Eval.defineStruct_keeps hfine s fields⟩,
      fun _ => Eval.defineStruct_onward s fields⟩) fun _ _ => C.nothing
  | library l =>
    exact C.bind (C.lift ⟨⟨_, Eval.includeLibrary_keeps hfine l⟩,
      fun _ => Eval.includeLibrary_onward l⟩) fun _ _ => C.nothing
  | function type name params body n =>
    obtain ht | ht := ht
    · have hv : (Value.function type name params body).DeclaredIn p := ⟨n, ht⟩
      exact C.bind (C.lift ⟨⟨_, Eval.define_keeps name hfine hv⟩,
        fun _ => Eval.define_onward name _⟩) fun _ _ => C.nothing
    · cases ht
  | _ => cases hs

theorem rule_typed (hp : p.Grammatical .program) (ht : p.Reachable t) (htree : v.tree = t)
    (hfuel : v.fuel = fuel + 1) (hruns : KeepsBodies p v earlier fuel)
    (hop : ∀ u ∈ t.operands, Keeps (Amid p v earlier) (Value.DeclaredIn p) (record fuel u))
    (hs : First p v earlier s) (hbefore : s.1 = v.before) :
    Amid p v earlier ((Eval.rule (record fuel) fuel t).execute s).2 ∧
      ∀ w, ((Eval.rule (record fuel) fuel t).execute s).1 = .ok w → w.DeclaredIn p := by
  by_cases hassign : ∃ target op value n, t = .assign target op value n
  · obtain ⟨target, op, value, n, rfl⟩ := hassign
    have hexpr : v.tree.isExpression = true := by rw [htree]; rfl
    exact assign_typed hexpr target op (hop value (List.mem_singleton.2 rfl)) s hs
  by_cases hcall : ∃ f args n, t = .call f args n
  · obtain ⟨f, args, n, rfl⟩ := hcall
    exact call_typed hp htree hfuel hruns hop hs.toAmid hbefore
  have hrule : (typing p v earlier).Both (Eval.rule (record fuel) fuel t)
      (Eval.rule (record fuel) fuel t) := by
    apply (typing p v earlier).rule fuel t
    · cases t with
      | unary => exact fun _ => trivial
      | _ => trivial
    · exact hop
    · exact fun target op value n h => absurd ⟨target, op, value, n, h⟩ hassign
    · exact fun f args n h => absurd ⟨f, args, n, h⟩ hcall
    · exact scopes_typed ht hop
  exact hrule s hs.toAmid

theorem record_typed (hp : p.Grammatical .program) (fuel : Nat) (ht : p.Reachable t) (hc : Fits t c)
    (hs : Typed p c s) (hbegun : t.isBody = true → Begun p (visitAt fuel t s) s.2.events) :
    Typed p c ((record fuel t).execute s).2 ∧
      ∀ w, ((record fuel t).execute s).1 = .ok w → w.DeclaredIn p := by
  induction fuel generalizing t c s with
  | zero => exact ⟨hs, fun w hw => by cases hw⟩
  | succ fuel ih =>
    have hfirst := hs.entered ht hc hbegun
    have hop : ∀ u ∈ t.operands, Keeps (Amid p (visitAt (fuel + 1) t s) s.2.events)
        (Value.DeclaredIn p) (record fuel u) := by
      intro u hu s₁ hs₁
      obtain ⟨hbody, hfits⟩ := hc.operand hp ht hu
      rw [← hs.context] at hfits
      obtain ⟨htyped, hfine⟩ := ih (ht.operand hu) hfits hs₁.toTyped (by rw [hbody]; nofun)
      exact ⟨⟨htyped, record_during fuel u hs₁⟩, hfine⟩
    have hruns : KeepsBodies p (visitAt (fuel + 1) t s) s.2.events fuel := by
      intro body s₁ hreach hbody hs₁ hb
      obtain ⟨htyped, hfine⟩ := ih hreach (.inr (.inl hbody)) hs₁.toTyped fun _ => hb
      exact ⟨⟨htyped, record_during fuel body hs₁⟩, hfine⟩
    obtain ⟨hamid, hfine⟩ := rule_typed hp ht rfl rfl hruns hop hfirst rfl
    rw [Recorded.execute_record]
    refine ⟨hs.left ht hc hamid ?_, hfine⟩
    exact (record_eval (fuel + 1) t s)

/-! ## Whole runs -/

theorem Typed.start {m : Machine} (hm : m.store = Store.empty) : Typed p [] (m, .empty) where
  visited := List.forall_mem_nil _
  declared := hm ▸ Store.holds_empty _
  context := rfl
  last _ he := by cases he
  stays since e before a o hes := by
    cases since with
    | nil => cases hes
    | cons => cases hes
  ordered _ := hm ▸ Store.ordered_empty
  noted := trivial

theorem history_fair (hp : p.Grammatical .program) {m : Machine} (hm : m.store = Store.empty) :
    Noted (Fair p) (history fuel p m) := by
  have hrecord {t : Tree} (ht : p.Reachable t) (hbody : t.isBody = false) :
      Keeps (Typed p []) (Value.DeclaredIn p) (record fuel t) := by
    intro s hs
    have hfits : Fits t [] := .inr (.inr fun u hu => absurd hu List.not_mem_nil)
    exact record_typed hp fuel ht hfits hs (by rw [hbody]; nofun)
  have hprogram : p.isBody = false := by
    cases hp with
    | program => rfl
  have hpush : Steady p (fun _ => True) (Run.changeStore fun s => .ok (s.pushFrame "main")) :=
    ⟨⟨_, Run.pushFrame_keeps "main"⟩, fun _ => Run.pushFrame_onward "main"⟩
  have hpop : Steady p (fun _ => True) (Run.changeStore Store.popFrame) :=
    ⟨⟨_, Run.popFrame_keeps⟩, fun _ => Run.popFrame_onward⟩
  have hrun : Keeps (Typed p []) (fun _ => True) (Eval.executeBy (record fuel) p) := by
    refine (hrecord (.inl (.self p)) hprogram).bind fun _ _ => ?_
    refine (Typed.lift hpush).bind fun _ _ => ?_
    refine (hrecord (.inr rfl) rfl).bind fun w _ => ?_
    refine (Typed.lift hpop).bind fun _ _ => ?_
    exact Typed.lift ⟨⟨.free, Run.ofExcept_keeps fun _ _ => trivial⟩,
      fun _ => .ofExcept fun _ _ => trivial⟩
  exact (hrun _ (.start hm)).1.noted

end

end MiniC
