import MiniC.Proofs.Lookup

/-!
# Names are bound as they are scoped

While a program runs, the scopes of the frame on top bind a name as the declarations say that have
been executed in them. This is an invariant of the body of a function, as long as no call has left a
frame on top: a block opens a scope on both sides, and a declaration adds its name on both sides.
Outside of switches, what has been executed in a scope is what the program text declares in front of
the tree that is being evaluated. A parameter without an argument breaks the invariant. The global
scope does not change once the top of the program has been executed.
-/

namespace MiniC

open Eval (callMain)

namespace Recorded

variable {α β : Type} {P : Visit → List Event → Prop}

/-- Something holds of every evaluation that has begun, and of what had happened before it. -/
def Told (P : Visit → List Event → Prop) : List Event → Prop
  | [] => True
  | .enter v :: es => P v es ∧ Told P es
  | .leave .. :: es => Told P es

theorem Told.of_history {later before : List Event} {v : Visit}
    (h : Told P (later ++ .enter v :: before)) : P v before := by
  induction later with
  | nil => exact h.1
  | cons e later ih =>
    cases e with
    | enter u => exact ih h.2
    | leave u r m => exact ih h

/-- From states with one property, a computation keeps what is told of the evaluations, and if it
succeeds it leads to states with another property. -/
def Leads (P : Visit → List Event → Prop) (I : Machine × Journal → Prop) (p : Recorded α)
    (J : α → Machine × Journal → Prop) : Prop :=
  ∀ s, I s → Told P (p.execute s).2.2.events ∧ ∀ a s', p.execute s = (.ok a, s') → J a s'

namespace Leads

variable {I I' : Machine × Journal → Prop} {J J' : α → Machine × Journal → Prop}
  {K : β → Machine × Journal → Prop}

theorem pure {a : α} (hI : ∀ s, I s → Told P s.2.events) (hJ : ∀ s, I s → J a s) :
    Leads P I (pure a) J := by
  intro s hs
  refine ⟨hI s hs, fun b s' h => ?_⟩
  obtain ⟨rfl, rfl⟩ : a = b ∧ s = s' := by simpa using h
  exact hJ s hs

theorem bind {p : Recorded α} {f : α → Recorded β} (hp : Leads P I p J)
    (hf : ∀ a, Leads P (J a) (f a) K) : Leads P I (p >>= f) K := by
  intro s hs
  obtain ⟨htold, hok⟩ := hp s hs
  rw [execute_bind]
  cases h : p.execute s with
  | mk r s' =>
    rw [h] at htold
    cases r with
    | error e => exact ⟨htold, fun b s'' hb => by cases hb⟩
    | ok a => exact hf a s' (hok a s' h)

theorem lift {q : Run α} (hI : ∀ s, I s → Told P s.2.events)
    (hJ : ∀ s a m, I s → q.execute s.1 = (.ok a, m) → J a (m, s.2)) : Leads P I (liftM q) J := by
  intro s hs
  refine ⟨hI s hs, fun a s' h => ?_⟩
  obtain ⟨h, hj⟩ := execute_lift_ok h
  have hJ := hJ s a s'.1 hs h
  rw [← hj] at hJ
  exact hJ

theorem weaken {p : Recorded α} (hp : Leads P I p J) (hI : ∀ s, I' s → I s)
    (hJ : ∀ a s, J a s → J' a s) : Leads P I' p J' :=
  fun s hs => ⟨(hp s (hI s hs)).1, fun a s' h => hJ a s' ((hp s (hI s hs)).2 a s' h)⟩

/-- The evaluation of a tree leads from where its beginning leads, by its rule, to where its end
leads. -/
theorem record {fuel : Nat} {t : Tree} {J J' : Value → Machine × Journal → Prop}
    (hin : ∀ s, I s → I' (entered (fuel + 1) t s))
    (hrule : Leads P I' (Eval.rule (record fuel) fuel t) J')
    (hout : ∀ s v s', I s → J' v s' → J v (left (fuel + 1) t s (.ok v) s')) :
    Leads P I (MiniC.record (fuel + 1) t) J := by
  intro s hs
  obtain ⟨htold, hok⟩ := hrule _ (hin s hs)
  refine ⟨htold, fun v s' h => ?_⟩
  obtain ⟨s₁, hr, rfl⟩ := execute_record_ok h
  exact hout s v s₁ hs (hok v s₁ hr)

end Leads

end Recorded

open Recorded (Told Leads entered left visitAt)

/-! ## Scopes that are open -/

theorem le_of_mem_scopeDepths {c : List Tree} {n : Nat} (h : n ∈ scopeDepths c) :
    n ≤ c.length := by
  fun_induction scopeDepths c with
  | case1 => cases h
  | case2 => exact Nat.le_of_eq (List.mem_singleton.1 h)
  | case3 _ _ c ih =>
    obtain rfl | h := List.mem_cons.1 h
    · exact Nat.le_refl _
    · exact Nat.le_succ_of_le (ih h)
  | case4 _ _ _ _ ih => exact Nat.le_succ_of_le (ih h)

theorem scopeDepths_pairwise (c : List Tree) : (scopeDepths c).Pairwise (· > ·) := by
  fun_induction scopeDepths c with
  | case1 => exact .nil
  | case2 => exact List.pairwise_singleton _ _
  | case3 _ _ c ih => exact .cons (fun n hn => Nat.lt_succ_of_le (le_of_mem_scopeDepths hn)) ih
  | case4 _ _ _ _ ih => exact ih

theorem scopeDepths_cons {t : Tree} (ht : ∀ cs n, t ≠ .block cs n) (hb : t.isBody = false)
    (c : List Tree) : scopeDepths (t :: c) = scopeDepths c := by
  cases t with
  | block cs n => exact absurd rfl (ht cs n)
  | body => cases hb
  | _ => rfl

/-- The innermost scope inside a body is one of the body. -/
theorem lt_of_head?_scopeDepths {b : Tree} {c d : List Tree} {n : Nat} (hb : b.isBody = true)
    (hsuffix : b :: c <:+ d) (h : (scopeDepths d).head? = some n) : c.length < n := by
  fun_induction scopeDepths d with
  | case1 => cases h
  | case2 | case3 =>
    obtain rfl := Option.some.inj h
    exact hsuffix.length_le
  | case4 t d hbody _ ih =>
    obtain heq | hsuffix := List.suffix_cons_iff.1 hsuffix
    · obtain ⟨rfl, -⟩ := List.cons.inj heq
      cases b with
      | body => exact absurd rfl (hbody _ _)
      | _ => cases hb
    · exact ih hsuffix h

namespace Declaration

variable {d : Declaration} {n : Nat} {e : Event} {es : List Event}

theorem executedIn_cons (h : n ≤ e.visit.context.length) :
    d.ExecutedIn n (e :: es) ↔ e.Executes d n ∨ d.ExecutedIn n es := by
  simp [ExecutedIn, h]

theorem not_executedIn (h : e.visit.context.length < n) : ¬ d.ExecutedIn n (e :: es) := by
  simp [ExecutedIn, h]

theorem InSwitch.tree {b : Tree} {c : List Tree} {k : Tree.Category} (hb : b.Grammatical k)
    (h : d.InSwitch (b :: c)) : d.tree.isDeclaration = true ∧ d.tree.declarations = [d] := by
  obtain ⟨b', hb', s, cs, n, hwithin, hd⟩ := h
  obtain rfl := Option.some.inj hb'
  obtain ⟨j, hj⟩ := hwithin.grammatical hb
  exact hj.own.tree_of_declared rfl hd

end Declaration

namespace Layers

variable {Δ : Layers}

def declare (ds : List Declaration) : Layers → Layers
  | l :: Δ => ⟨l.depth, ds.reverse ++ l.declared⟩ :: Δ
  | [] => []

theorem declare_nil (Δ : Layers) : Δ.declare [] = Δ := by
  cases Δ <;> rfl

theorem declare_append (Δ : Layers) (ds es : List Declaration) :
    Δ.declare (ds ++ es) = (Δ.declare ds).declare es := by
  cases Δ with
  | nil => rfl
  | cons l Δ => simp only [declare, List.reverse_append, List.append_assoc]

end Layers

theorem Event.Executes.left {e : Event} {d : Declaration} {n : Nat} (h : e.Executes d n) :
    e.visit.tree = d.tree ∧ (scopeDepths e.visit.context).head? = some n ∧ ∀ v, e ≠ .enter v := by
  cases e with
  | enter => exact h.elim
  | leave u r m =>
    cases r with
    | error => exact h.elim
    | ok => exact ⟨h.1, h.2, by rintro v ⟨⟩⟩

/-- After an event the scopes bind what they have bound: no declaration in a switch has been
executed in them. -/
def Event.Spares (frame : List Tree) (Δ : Layers) (e : Event) : Prop :=
  ∀ l ∈ Δ, l.depth ≤ e.visit.context.length ∧
    ∀ d : Declaration, d.InSwitch frame → ¬ e.Executes d l.depth

namespace Layer.Binds

variable {program : Tree} {name : String} {frame : List Tree} {es : List Event} {e : Event}
  {l : Layer} {x : Scope} {Δ : Layers} {xs : List Scope}

theorem cons (h : l.Binds program name frame es x) (hlen : l.depth ≤ e.visit.context.length)
    (he : ∀ d : Declaration, d.InSwitch frame → ¬ e.Executes d l.depth) :
    l.Binds program name frame (e :: es) x where
  made b hb := by
    obtain ⟨d, hname, ⟨e', he', hmakes⟩, hwhere⟩ := h.made b hb
    refine ⟨d, hname, ⟨e', List.mem_cons_of_mem _ he', hmakes⟩, hwhere.imp_right fun hd => ?_⟩
    exact ⟨hd.1, (Declaration.executedIn_cons hlen).2 (.inr hd.2)⟩
  bound := h.bound
  executed d hname hswitch hd :=
    h.executed d hname hswitch (((Declaration.executedIn_cons hlen).1 hd).resolve_left
      (he d hswitch))

theorem spare (h : List.Forall₂ (Layer.Binds program name frame es) Δ xs)
    (he : e.Spares frame Δ) : List.Forall₂ (Layer.Binds program name frame (e :: es)) Δ xs := by
  induction h with
  | nil => exact .nil
  | cons hl _ ih =>
    obtain ⟨⟨hlen, hno⟩, hrest⟩ := List.forall_mem_cons.1 he
    exact .cons (hl.cons hlen hno) (ih hrest)

/-- A declaration has been executed in a scope, and its name is bound there. -/
theorem put (h : l.Binds program name frame es x) {d : Declaration} {b : Binding}
    (hlen : l.depth ≤ e.visit.context.length) (hmakes : d.Makes program b e)
    (hd : e.Executes d l.depth)
    (honly : ∀ d' : Declaration, d'.InSwitch frame → e.Executes d' l.depth → d' = d) :
    Layer.Binds program name frame (e :: es) ⟨l.depth, d :: l.declared⟩
      { x with entries := x.entries.put d.name b } := by
  by_cases hname : d.name = name
  · subst hname
    have hbound : Table.get? (x.entries.put d.name b) d.name = some b := Table.get?_put_self ..
    refine ⟨fun b' hb' => ⟨d, rfl, ⟨e, List.mem_cons_self .., ?_⟩, ?_⟩, ?_, ?_⟩
    · obtain rfl := Option.some.inj (hbound.symm.trans hb')
      exact hmakes
    · by_cases hswitch : d.InSwitch frame
      · exact .inr ⟨hswitch, (Declaration.executedIn_cons hlen).2 (.inl hd)⟩
      · exact .inl ⟨List.mem_cons_self .., hswitch⟩
    · exact fun _ _ _ _ => Option.isSome_of_eq_some hbound
    · exact fun _ _ _ _ => Option.isSome_of_eq_some hbound
  · have hother : Table.get? (x.entries.put d.name b) name = x.entries.get? name :=
      Table.get?_put_of_ne _ _ hname
    refine ⟨fun b' hb' => ?_, fun d' hd' hname' => ?_, fun d' hname' hswitch hd' => ?_⟩
    · obtain ⟨d', hname', ⟨e', he', hmakes'⟩, hwhere⟩ := h.made b' (hother ▸ hb')
      refine ⟨d', hname', ⟨e', List.mem_cons_of_mem _ he', hmakes'⟩, ?_⟩
      exact hwhere.imp (And.imp_left (List.mem_cons_of_mem _))
        (And.imp_right fun hd' => (Declaration.executedIn_cons hlen).2 (.inr hd'))
    · rw [hother]
      obtain rfl | hd' := List.mem_cons.1 hd'
      · exact absurd hname' hname
      · exact h.bound d' hd' hname'
    · rw [hother]
      obtain hd' | hd' := (Declaration.executedIn_cons hlen).1 hd'
      · exact absurd (honly d' hswitch hd' ▸ hname') hname
      · exact h.executed d' hname' hswitch hd'

theorem of_declared {n : Nat} {ds ds' : List Declaration}
    (hds : ∀ d : Declaration, ¬ d.InSwitch frame → (d ∈ ds ↔ d ∈ ds'))
    (h : Layer.Binds program name frame es ⟨n, ds⟩ x) :
    Layer.Binds program name frame es ⟨n, ds'⟩ x := by
  refine ⟨fun b hb => ?_, fun d hd hname hno => h.bound d ((hds d hno).2 hd) hname hno, h.executed⟩
  obtain ⟨d, hname, hmakes, hwhere⟩ := h.made b hb
  exact ⟨d, hname, hmakes, hwhere.imp_left fun hd => ⟨(hds d hd.2).1 hd.1, hd.2⟩⟩

/-- Declarations in switches may be counted among those in front of a tree, or not. -/
theorem declare_iff {ds : List Declaration} (hds : ∀ d ∈ ds, d.InSwitch frame) :
    List.Forall₂ (Layer.Binds program name frame es) (Δ.declare ds) xs ↔
      List.Forall₂ (Layer.Binds program name frame es) Δ xs := by
  cases Δ with
  | nil => rfl
  | cons l Δ =>
    have hmem {d : Declaration} (hd : ¬ d.InSwitch frame) :
        d ∈ ds.reverse ++ l.declared ↔ d ∈ l.declared := by
      rw [List.mem_append, List.mem_reverse]
      exact or_iff_right fun h => hd (hds d h)
    have hiff (x : Scope) :
        Layer.Binds program name frame es ⟨l.depth, ds.reverse ++ l.declared⟩ x ↔
          l.Binds program name frame es x :=
      ⟨of_declared fun _ => hmem, of_declared fun _ hd => (hmem hd).symm⟩
    simp only [Layers.declare, List.forall₂_cons_left_iff, hiff]

end Layer.Binds

/-! ## Bodies that run -/

structure Scene where
  program : Tree
  /-- The name whose lookups are followed. -/
  name : String
  Tells : Visit → List Event → Prop

structure Setting extends Scene where
  /-- What has been executed at the top of the program. -/
  defined : List Tree
  globals : Scope
  /-- What happened at the top of the program. -/
  first : List Event

def Setting.Fine (S : Setting) (v : Value) : Prop :=
  v.DeclaredIn (.program S.defined 0)

theorem Setting.fine_of_isFunction (S : Setting) (v : Value) (hv : v.isFunction = false) :
    S.Fine v :=
  Value.declaredIn_of_isFunction v hv

structure Activation where
  body : Place
  /-- The trees around the body: the call comes first. -/
  context : List Tree
  earlier : List Event
  below : List Frame
  /-- What is in scope around the function. -/
  global : List Declaration

namespace Activation

def frame (A : Activation) : List Tree :=
  A.body.tree :: A.context

def Located (A : Activation) (c : List Tree) (q : Place) : Prop :=
  ∃ ts, A.body.Chain .executed (ts ++ [A.body.tree]) q ∧
    c = ts.filter (fun t => !t.isLabel) ++ A.frame ∧ ∀ t ∈ ts, t.isBody = false

/-- The scopes of the function that are open inside some trees, with what they declare. -/
structure Scoped (A : Activation) (c : List Tree) (Γ : Env) (Δ : Layers) : Prop where
  env : Γ = Δ.env ++ [A.global]
  depths : Δ.map Layer.depth = scopeDepths c
  nonempty : Δ ≠ []

structure Has (A : Activation) (c : List Tree) (q : Place) (Δ : Layers) : Prop
    extends A.Scoped c q.env Δ where
  located : A.Located c q
  inner : q.tree.Inner

end Activation

structure Setting.Runs (S : Setting) (A : Activation) : Prop where
  chain : ∃ ts, (Place.start S.program).Chain .executed ts A.body
  isBody : A.body.tree.isBody = true
  global : ∀ d ∈ A.global, d ∈ S.defined.flatMap Tree.introduces
  first : S.first <:+ A.earlier
  declares : ∀ d : Declaration, d.InSwitch A.frame →
    d.tree.isDeclaration = true ∧ d.tree.declarations = [d]

/-- Labels are not bodies. -/
theorem Tree.not_isBody_of_filter {t : Tree} {us : List Tree}
    (hus : us.filter (fun u => !u.isLabel) = [t]) (ht : t.isBody = false) :
    ∀ u ∈ us, u.isBody = false := by
  intro u hu
  cases hlabel : u.isLabel with
  | true => cases u <;> first | rfl | cases hlabel
  | false =>
    have hmem : u ∈ us.filter (fun u => !u.isLabel) := List.mem_filter.2 ⟨hu, by simp [hlabel]⟩
    rw [hus] at hmem
    rw [List.mem_singleton.1 hmem]
    exact ht

namespace Activation

variable {A : Activation} {c : List Tree} {q r : Place} {Γ : Env} {Δ : Layers} {t u : Tree}

theorem Located.suffix (h : A.Located c q) : A.frame <:+ c := by
  obtain ⟨ts, -, rfl, -⟩ := h
  exact List.suffix_append _ _

theorem Located.within (h : A.Located c q) : q.tree.Within A.body.tree := by
  obtain ⟨ts, hchain, -, -⟩ := h
  exact hchain.within

/-- What stands in the body itself. -/
theorem located_of_part (hr : r ∈ A.body.parts .executed) : A.Located A.frame r :=
  ⟨[], .part .self hr, rfl, List.forall_mem_nil _⟩

theorem Located.below (h : A.Located c q) {us : List Tree} (hr : q.Chain .executed us r)
    (hus : us.filter (fun t => !t.isLabel) = [q.tree]) (hq : q.tree.isBody = false) :
    A.Located (q.tree :: c) r := by
  obtain ⟨ts, hchain, rfl, hts⟩ := h
  refine ⟨us ++ ts, ?_, ?_, ?_⟩
  · rw [List.append_assoc]
    exact hchain.trans hr
  · rw [List.filter_append, hus, List.append_assoc]
    rfl
  · exact List.forall_mem_append.2 ⟨Tree.not_isBody_of_filter hus hq, hts⟩

namespace Scoped

theorem declare (h : A.Scoped c Γ Δ) (ds : List Declaration) :
    A.Scoped c (Γ.declare ds) (Δ.declare ds) := by
  obtain ⟨rfl, hdepths, hne⟩ := h
  cases Δ with
  | nil => exact absurd rfl hne
  | cons l Δ => exact ⟨rfl, hdepths, List.cons_ne_nil _ _⟩

theorem inside (h : A.Scoped c Γ Δ) (ht : ∀ cs n, t ≠ .block cs n) (hb : t.isBody = false) :
    A.Scoped (t :: c) Γ Δ :=
  ⟨h.env, h.depths.trans (scopeDepths_cons ht hb c).symm, h.nonempty⟩

theorem block (h : A.Scoped c Γ Δ) (cs : List Tree) (n : Nat) :
    A.Scoped (.block cs n :: c) ([] :: Γ) (⟨c.length + 1, []⟩ :: Δ) :=
  ⟨congrArg (List.cons []) h.env, congrArg (List.cons _) h.depths, List.cons_ne_nil _ _⟩

theorem depth_le (h : A.Scoped c Γ Δ) {l : Layer} (hl : l ∈ Δ) : l.depth ≤ c.length :=
  le_of_mem_scopeDepths (h.depths ▸ List.mem_map_of_mem hl)

theorem mem_zip (h : A.Scoped c Γ Δ) {l : Layer} (hl : l ∈ Δ) :
    (l.declared, l.depth) ∈ Γ.zip (scopeDepths c) := by
  have hlen : Δ.env.length = (Δ.map Layer.depth).length := by simp [Layers.env]
  rw [h.env, ← h.depths, ← List.append_nil (Δ.map Layer.depth), List.zip_append hlen, Layers.env,
    List.zip_map']
  exact List.mem_append_left _ (List.mem_map_of_mem hl)

/-- A declaration is executed in the innermost scope only. -/
theorem innermost {l : Layer} (h : A.Scoped c Γ (l :: Δ)) :
    (scopeDepths c).head? = some l.depth ∧ ∀ l' ∈ Δ, l'.depth < l.depth := by
  have hpairwise := scopeDepths_pairwise c
  rw [← h.depths, List.map_cons, List.pairwise_cons] at hpairwise
  exact ⟨by rw [← h.depths]; rfl, fun l' hl => hpairwise.1 _ (List.mem_map_of_mem hl)⟩

end Scoped

end Activation

theorem Tree.Inner.not_isBody {t : Tree} (h : t.Inner) : t.isBody = false := by
  obtain ⟨k, hg, hk⟩ := h
  exact hg.inner_not_isBody hk

/-! ## The invariant of a body -/

def Scene.Made (S : Scene) (es : List Event) (d : Declaration) (b : Binding) : Prop :=
  ∃ e ∈ es, d.Makes S.program b e

theorem Scene.Made.mono {S : Scene} {es es' : List Event} (h : ∀ e ∈ es, e ∈ es')
    (d : Declaration) (b : Binding) (hmade : S.Made es d b) : S.Made es' d b := by
  obtain ⟨e, he, hd⟩ := hmade
  exact ⟨e, h e he, hd⟩

structure Setting.Base (S : Setting) (s : Machine × Journal) : Prop where
  told : Told S.Tells s.2.events
  globals : s.1.store.globals = S.globals
  held : s.1.store.Holds S.Fine

/-- The frame of a body binds the name as the declarations say that have been executed, if the
parameters are given and no call has left a frame. -/
def Setting.Shows (S : Setting) (A : Activation) (es : List Event) (Δ : Layers)
    (frames : List Frame) : Prop :=
  (∀ e ∈ es, e.valueless = false) → ∃ f, frames = f :: A.below ∧
    (Given S.program S.name A.frame →
      List.Forall₂ (Layer.Binds S.program S.name A.frame es) Δ f.scopes)

/-- What holds while a body runs, where the scopes of the function are `Δ`. -/
structure Setting.Here (S : Setting) (A : Activation) (c : List Tree) (Δ : Layers)
    (s : Machine × Journal) : Prop extends S.Base s where
  context : s.2.context = c
  height : A.below.length < s.1.store.frames.length
  since : ∃ during u, s.2.events = during ++ .enter u :: A.earlier ∧ u.tree = A.body.tree ∧
    u.context = A.context ∧ (∀ e ∈ during, A.frame <:+ e.visit.context) ∧
    S.Shows A (during ++ [.enter u]) Δ s.1.store.frames

namespace Setting

variable {S : Setting} {A : Activation} {c : List Tree} {q : Place} {Δ Δ' : Layers}
  {s s' : Machine × Journal} {fuel : Nat} {e : Event}

theorem Shows.cons {es : List Event} {frames : List Frame} (h : S.Shows A es Δ frames)
    (he : e.Spares A.frame Δ) : S.Shows A (e :: es) Δ frames := by
  intro hclean
  obtain ⟨f, hf, hbinds⟩ := h (List.forall_mem_cons.1 hclean).2
  exact ⟨f, hf, fun hgiven => Layer.Binds.spare (hbinds hgiven) he⟩

theorem Shows.append {es es' : List Event} {frames : List Frame} (h : S.Shows A es Δ frames)
    (hes : ∀ e ∈ es', e.Spares A.frame Δ) : S.Shows A (es' ++ es) Δ frames := by
  induction es' with
  | nil => exact h
  | cons e es' ih =>
    obtain ⟨he, hrest⟩ := List.forall_mem_cons.1 hes
    exact (ih hrest).cons he

/-- Beginning or ending what is no declaration executes none. -/
theorem Runs.spares (hA : S.Runs A) {Γ : Env} (hΔ : A.Scoped c Γ Δ) (hc : e.visit.context = c)
    (he : e.visit.tree.isDeclaration = false ∨ ∃ v, e = .enter v) : e.Spares A.frame Δ := by
  intro l hl
  refine ⟨hc ▸ hΔ.depth_le hl, fun d hd hexecutes => ?_⟩
  obtain ⟨htree, -, hended⟩ := hexecutes.left
  obtain he | ⟨v, he⟩ := he
  · rw [htree, (hA.declares d hd).1] at he
    cases he
  · exact hended v he

theorem Here.congr (h : S.Here A c Δ s)
    (hbinds : ∀ es xs, List.Forall₂ (Layer.Binds S.program S.name A.frame es) Δ xs →
      List.Forall₂ (Layer.Binds S.program S.name A.frame es) Δ' xs) :
    S.Here A c Δ' s := by
  obtain ⟨hbase, hcontext, hheight, during, u, hevents, htree, hu, hlen, hshows⟩ := h
  refine ⟨hbase, hcontext, hheight, during, u, hevents, htree, hu, hlen, fun hclean => ?_⟩
  obtain ⟨f, hf, hshows⟩ := hshows hclean
  exact ⟨f, hf, fun hgiven => hbinds _ _ (hshows hgiven)⟩

/-- The invariant does not depend on the cells. -/
theorem Here.quiet (h : S.Here A c Δ s) {m : Machine} (hheld : m.store.Holds S.Fine)
    (hsame : Store.SameScopes s.1.store m.store) : S.Here A c Δ (m, s.2) := by
  obtain ⟨⟨htold, hglobals, -⟩, hcontext, hheight, hsince⟩ := h
  refine ⟨⟨htold, hsame.1.trans hglobals, hheld⟩, hcontext, ?_, ?_⟩
  · rw [hsame.2]
    exact hheight
  · rw [hsame.2]
    exact hsince

/-- A tree of the body is begun. -/
theorem Here.entered (h : S.Here A c Δ s) (hA : S.Runs A) (hq : A.Has c q Δ)
    (htells : S.Tells (visitAt fuel q.tree s) s.2.events) :
    S.Here A (q.tree :: c) Δ (Recorded.entered fuel q.tree s) := by
  have hsuffix : A.frame <:+ s.2.context := h.context.symm ▸ hq.located.suffix
  obtain ⟨⟨htold, hglobals, hheld⟩, hcontext, hheight, during, u, hevents, htree, hu, hdeep,
    hshows⟩ := h
  refine ⟨⟨⟨htells, htold⟩, hglobals, hheld⟩, congrArg (List.cons q.tree) hcontext, hheight,
    .enter (visitAt fuel q.tree s) :: during, u, congrArg _ hevents, htree, hu,
    List.forall_mem_cons.2 ⟨hsuffix, hdeep⟩, ?_⟩
  exact hshows.cons (hA.spares hq.toScoped hcontext (.inr ⟨_, rfl⟩))

/-- A tree of the body is ended. -/
theorem Here.left (h : S.Here A c Δ s) (hA : S.Runs A) (hq : A.Has c q Δ)
    (h' : S.Here A (q.tree :: c) Δ s') (ht : q.tree.isDeclaration = false)
    (r : Except Fault Value) : S.Here A c Δ (Recorded.left fuel q.tree s r s') := by
  have hsuffix : A.frame <:+ s.2.context := h.context.symm ▸ hq.located.suffix
  obtain ⟨⟨htold, hglobals, hheld⟩, -, hheight, during, u, hevents, htree, hu, hdeep, hshows⟩ := h'
  refine ⟨⟨htold, hglobals, hheld⟩, h.context, hheight,
    .leave (visitAt fuel q.tree s) r s'.1 :: during, u, congrArg _ hevents, htree, hu,
    List.forall_mem_cons.2 ⟨hsuffix, hdeep⟩, ?_⟩
  exact hshows.cons (hA.spares hq.toScoped h.context (.inl ht))

theorem Here.first (h : S.Here A c Δ s) (hA : S.Runs A) : S.first <:+ s.2.events := by
  obtain ⟨-, -, -, during, u, hevents, -⟩ := h
  rw [hevents]
  exact (hA.first.trans (List.suffix_cons _ _)).trans (List.suffix_append _ _)

/-! ## Standing at a tree -/

/-- What holds where a tree is evaluated, as far as the operations on cells keep it. -/
structure Standing (S : Setting) (c : List Tree) where
  Holds : Machine × Journal → Prop
  base {s : Machine × Journal} : Holds s → S.Base s
  context {s : Machine × Journal} : Holds s → s.2.context = c
  first {s : Machine × Journal} : Holds s → S.first <:+ s.2.events
  quiet {s : Machine × Journal} {m : Machine} : Holds s → m.store.Holds S.Fine →
    Store.SameScopes s.1.store m.store → Holds (m, s.2)

def inBody (hA : S.Runs A) (c : List Tree) (Δ : Layers) : S.Standing c where
  Holds := S.Here A c Δ
  base h := h.toBase
  context h := h.context
  first h := h.first hA
  quiet h := h.quiet

namespace Standing

theorem lift (I : S.Standing c) {α : Type} {Q : α → Prop} {q : Run α}
    (hq : q.Keeps S.Fine .quiet Q) :
    Leads S.Tells I.Holds (liftM q) fun a s => I.Holds s ∧ Q a := by
  refine .lift (fun s hs => (I.base hs).told) fun s a m hs h => ?_
  obtain ⟨hheld, hsame, hQ⟩ := hq s.1 (I.base hs).held
  rw [h] at hheld hsame hQ
  exact ⟨I.quiet hs hheld hsame, hQ a rfl⟩

def staying (I : S.Standing c) : Correspondence Recorded Recorded where
  Fine := S.Fine
  fine := S.fine_of_isFunction
  Rel Q p _ := Leads S.Tells I.Holds p fun a s => I.Holds s ∧ Q a
  pure ha := .pure (fun _ hs => (I.base hs).told) fun _ hs => ⟨hs, ha⟩
  bind hp hf := by
    refine hp.bind fun a s hs => ?_
    exact hf a hs.2 s hs.1
  quiet hp := I.lift hp

end Standing

end Setting

end MiniC
