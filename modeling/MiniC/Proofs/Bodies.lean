import MiniC.Proofs.Lexical

/-!
# Bodies that run

The invariant of a body is kept by everything that happens in it. A block and a declaration change
the scopes of the program text and those of the frame alike. A call starts a body of its own, above
the frames of its caller, and when that body has ended with a value the frames of the caller are on
top again.
-/

namespace MiniC

open Recorded (Told Leads entered left visitAt)

variable {f : String} {m : Machine} {args : List Tree} {ds : List Declaration} {n : Nat} {q : Place}

namespace Recorded.Leads

variable {α β : Type} {P : Visit → List Event → Prop} {I : Machine × Journal → Prop}
  {J : α → Machine × Journal → Prop} {K : β → Machine × Journal → Prop}

theorem of_each {p : Recorded α} (h : ∀ s, I s → Leads P (· = s) p J) : Leads P I p J :=
  fun s hs => h s hs s rfl

theorem throw (f : Fault) (hI : ∀ s, I s → Told P s.2.events) :
    Leads P I (throw f : Recorded α) J :=
  fun s hs => ⟨hI s hs, fun a s' h => by cases h⟩

/-- What follows a computation may use how it went. -/
theorem step {p : Recorded α} {f : α → Recorded β} {s : Machine × Journal}
    (hp : Leads P (· = s) p J)
    (hf : ∀ a s', p.execute s = (.ok a, s') → J a s' → Leads P (· = s') (f a) K) :
    Leads P (· = s) (p >>= f) K := by
  rintro s₀ rfl
  obtain ⟨htold, hok⟩ := hp s₀ rfl
  rw [execute_bind]
  cases h : p.execute s₀ with
  | mk r s' =>
    rw [h] at htold
    cases r with
    | error e => exact ⟨htold, fun b s'' hb => by cases hb⟩
    | ok a => exact hf a s' h (hok a s' h) s' rfl

end Recorded.Leads

theorem Eval.arguments_length {fuel : Nat} {s s' : Machine × Journal} {vs : List Value}
    (h : (Eval.arguments (record fuel) args).execute s = (.ok vs, s')) :
    vs.length = args.length := by
  induction args generalizing s s' vs with
  | nil =>
    obtain ⟨rfl, -⟩ : [] = vs ∧ s = s' := by simpa [Eval.arguments] using h
    rfl
  | cons a args ih =>
    obtain ⟨v, s₁, -, h⟩ := Recorded.execute_bind_ok h
    obtain ⟨ws, s₂, h₂, h⟩ := Recorded.execute_bind_ok h
    obtain ⟨rfl, -⟩ : v :: ws = vs ∧ s₂ = s' := by simpa using h
    exact congrArg Nat.succ (ih h₂)

/-- Where the body of a function stands that a program has declared. -/
theorem Place.exists_activation {type b : Tree} {ps ds us : List Tree} {i : Nat}
    (hp : Tree.Grammatical .program (.program (ds ++ us) n))
    (h : Tree.Within (.function type f ps b i) (.program ds 0)) :
    ∃ g, (∀ d ∈ g, d ∈ ds.flatMap Tree.introduces) ∧ (∀ p ∈ ps, p.Grammatical .parameter) ∧
      b.isBody = true ∧ Tree.Within (.function type f ps b i) (.program (ds ++ us) n) ∧
        ∃ ts, (Place.start (.program (ds ++ us) n)).Chain .executed ts
          ⟨[(declarationsOf ps).reverse, g], false, false, b⟩ := by
  cases hp with
  | program _ hc =>
    have hds : Tree.Grammatical .program (.program ds 0) :=
      .program 0 fun c hcs => hc c (List.mem_append_left _ hcs)
    have hmem := h.function_mem hds
    obtain ⟨g, hg, hchain⟩ := Place.exists_body hmem us n
    have hmem : .function type f ps b i ∈ ds ++ us := List.mem_append_left _ hmem
    have hwithin : Tree.Within (.function type f ps b i) (.program (ds ++ us) n) :=
      Tree.Within.ofPart (.self (.program (ds ++ us) n)) hmem
    cases hc _ hmem with
    | function _ _ _ hps hb =>
      cases hb with
      | body => exact ⟨g, hg, hps, rfl, hwithin, _, hchain⟩
    | declared hd => cases hd

/-- The trees of a function that open a scope or declare a name. -/
theorem Tree.Inner.scopes_cases {t : Tree} (h : t.Inner) (ht : t.touchesScopes = true) :
    (∃ cs n, t = .block cs n ∧ ∀ c ∈ cs, c.Inner) ∨
      (∃ k i type n, t = .varDecl (.var k i) type n) ∨
        ∃ name fields mark n, t = .structDecl name fields mark n := by
  obtain ⟨k, hg, hk⟩ := h
  induction hg with
  | block n hc => exact .inl ⟨_, n, rfl, fun c hcs => ⟨_, hc c hcs, rfl⟩⟩
  | varDecl v i n => exact .inr (.inl ⟨v, i, _, n, rfl⟩)
  | structDecl name fields mark n => exact .inr (.inr ⟨name, fields, mark, n, rfl⟩)
  | ofExpression _ ih | simple _ ih | ofStatement _ ih | ofDeclaration _ ih | ofItem _ ih =>
    exact ih ht rfl
  | function | library | declared => cases hk
  | _ => cases ht

theorem Tree.Grammatical.body_inner {k : Category} {cs : List Tree}
    (h : Grammatical k (.body cs n)) : ∀ c ∈ cs, c.Inner := by
  cases h.own with
  | body n hc => exact fun c hcs => ⟨_, hc c hcs, rfl⟩

namespace Setting

variable {S : Setting} {A : Activation} {c : List Tree} {Δ : Layers} {s s' : Machine × Journal}
  {t : Tree} {fuel : Nat}

/-! ## Scopes -/

/-- The frame on top is replaced, and has other scopes. -/
theorem Here.retop (h : S.Here A c Δ s) {f f' : Frame} {fs : List Frame} {Δ' : Layers}
    (hheld : m.store.Holds S.Fine) (hglobals : m.store.globals = s.1.store.globals)
    (hf : s.1.store.frames = f :: fs) (hf' : m.store.frames = f' :: fs)
    (hbinds : ∀ es, es.head? = s.2.events.head? →
      List.Forall₂ (Layer.Binds S.program S.name A.frame es) Δ f.scopes →
        List.Forall₂ (Layer.Binds S.program S.name A.frame es) Δ' f'.scopes) :
    S.Here A c Δ' (m, s.2) := by
  obtain ⟨⟨htold, hglob, -⟩, hcontext, hheight, during, u, hevents, htree, hu, hdeep, hold⟩ := h
  refine ⟨⟨htold, hglobals.trans hglob, hheld⟩, hcontext, ?_, during, u, hevents, htree, hu, hdeep,
    fun hclean => ?_⟩
  · rw [hf] at hheight
    rw [hf']
    exact hheight
  · obtain ⟨g, hg, hgbinds⟩ := hold hclean
    obtain ⟨rfl, rfl⟩ := List.cons.inj (hf.symm.trans hg)
    refine ⟨f', hf', fun hgiven => hbinds _ ?_ (hgbinds hgiven)⟩
    rw [hevents]
    cases during <;> rfl

/-- A scope is opened right behind the beginning of its block. -/
theorem Here.pushScope (h : S.Here A c Δ s) {v : Visit} (hv : s.2.events.head? = some (.enter v))
    {a : Unit} (hpush : (Run.changeStore Store.pushScope).execute s.1 = (.ok a, m)) :
    S.Here A c (⟨v.context.length + 1, []⟩ :: Δ) (m, s.2) := by
  obtain ⟨hheld, -⟩ := Run.pushScope_keeps s.1 h.held
  rw [hpush] at hheld
  rw [Run.execute_changeStore] at hpush
  split at hpush
  · next s' hs' =>
    obtain ⟨-, rfl⟩ := Prod.mk.inj hpush
    obtain ⟨f, fs, x, xs, hf, hx, rfl⟩ := Store.pushScope_cases hs'
    refine h.retop hheld rfl hf rfl fun es hes hbinds => ?_
    rw [hx] at hbinds
    obtain ⟨es, rfl⟩ := List.head?_eq_some_iff.1 (hes.trans hv)
    refine .cons ⟨fun b hb => (by cases hb), fun d hd => absurd hd List.not_mem_nil, ?_⟩ hbinds
    exact fun d _ _ hd => absurd hd (Declaration.not_executedIn (Nat.lt_succ_self _))
  · cases hpush

theorem Here.popScope {l : Layer} (h : S.Here A c (l :: Δ) s) {a : Unit}
    (hpop : (Run.changeStore Store.popScope).execute s.1 = (.ok a, m)) : S.Here A c Δ (m, s.2) := by
  obtain ⟨hheld, -⟩ := Run.popScope_keeps s.1 h.held
  rw [hpop] at hheld
  rw [Run.execute_changeStore] at hpop
  split at hpop
  · next s' hs' =>
    obtain ⟨-, rfl⟩ := Prod.mk.inj hpop
    obtain ⟨f, fs, x, xs, hf, hx, rfl⟩ := Store.popScope_cases hs'
    refine h.retop hheld rfl hf rfl fun es _ hbinds => ?_
    rw [hx] at hbinds
    exact (List.forall₂_cons.1 hbinds).2
  · cases hpop

/-- A declaration that has been executed is bound in the innermost scope. -/
theorem Here.declared {d : Declaration} {b : Binding} {v : Value} {Γ : Env} {l w : Bool}
    (h : S.Here A c Δ s) (hA : S.Runs A) (hq : A.Has c ⟨Γ, l, w, d.tree⟩ Δ)
    (hd : d.tree.declarations = [d]) (h' : S.Here A (d.tree :: c) Δ s')
    (hb : Store.Rebinds d.name b s'.1.store m.store) (hheld : m.store.Holds S.Fine) :
    S.Here A c (Δ.declare [d]) (Recorded.left fuel d.tree s (.ok v) (m, s'.2)) := by
  obtain ⟨⟨htold, hglobals, -⟩, -, hheight, during, u, hevents, htree, hu, hdeep, hshows⟩ := h'
  obtain ⟨hnil, -⟩ | ⟨f, fs, x, xs, hf, hx, hglob, hframes⟩ := hb
  · rw [hnil] at hheight
    exact absurd hheight (Nat.not_lt_zero _)
  have hcontext : (visitAt fuel d.tree s).context = c := h.context
  have hsuffix : A.frame <:+ (visitAt fuel d.tree s).context := hcontext.symm ▸ hq.located.suffix
  let e : Event := .leave (visitAt fuel d.tree s) (.ok v) m
  have hmakes : d.Makes S.program b e := by
    refine ⟨⟨{ x with entries := x.entries.put d.name b }, ?_, Table.get?_put_self ..⟩, rfl⟩
    simp [Store.currentScope?, hframes]
  have honly (d' : Declaration) (n : Nat) (hswitch : d'.InSwitch A.frame)
      (hexecutes : e.Executes d' n) : d' = d := by
    have hsame : d.tree = d'.tree := hexecutes.1
    have hd' := (hA.declares d' hswitch).2
    rw [← hsame, hd] at hd'
    exact (List.cons.inj hd').1.symm
  refine ⟨⟨htold, hglob.trans hglobals, hheld⟩, h.context, ?_, e :: during, u, congrArg _ hevents,
    htree, hu, List.forall_mem_cons.2 ⟨hsuffix, hdeep⟩, fun hclean => ?_⟩
  · rw [hf] at hheight
    change _ < m.store.frames.length
    rw [hframes]
    exact hheight
  · obtain ⟨g, hg, hbinds⟩ := hshows (List.forall_mem_cons.1 hclean).2
    obtain ⟨rfl, rfl⟩ := List.cons.inj (hf.symm.trans hg)
    refine ⟨_, hframes, fun hgiven => ?_⟩
    have hbinds := hbinds hgiven
    rw [hx] at hbinds
    cases hbinds with
    | @cons top _ Δ _ htop hrest =>
      obtain ⟨hhead, hlower⟩ := hq.toScoped.innermost
      have hdepth {l : Layer} (hl : l ∈ top :: Δ) : l.depth ≤ e.visit.context.length :=
        hcontext.symm ▸ hq.toScoped.depth_le hl
      have hexecutes : e.Executes d top.depth := ⟨rfl, hcontext.symm ▸ hhead⟩
      refine .cons (htop.put (hdepth (List.mem_cons_self ..)) hmakes hexecutes fun d' => honly d' _)
        (Layer.Binds.spare hrest fun l hl => ⟨hdepth (List.mem_cons_of_mem _ hl), ?_⟩)
      -- The scopes further out have other depths.
      intro d' _ hother
      have hhead' : (scopeDepths (visitAt fuel d.tree s).context).head? = some l.depth := hother.2
      rw [hcontext, hhead] at hhead'
      exact absurd (Option.some.inj hhead') (Nat.ne_of_gt (hlower l hl))

/-! ## Items -/

def Follows (S : Setting) (fuel : Nat) : Prop :=
  ∀ ⦃A : Activation⦄ ⦃c : List Tree⦄ ⦃q : Place⦄ ⦃Δ : Layers⦄, S.Runs A → A.Has c q Δ →
    Leads S.Tells (S.Here A c Δ) (record fuel q.tree) fun v s =>
      S.Here A c (Δ.declare q.tree.declarations) s ∧ S.Fine v

def Behind (S : Setting) (A : Activation) (c : List Tree) (Δ : Layers) (v : Value)
    (s : Machine × Journal) : Prop :=
  (∃ ds, S.Here A c (Δ.declare ds) s) ∧ S.Fine v

theorem Here.behind (h : S.Here A c Δ s) {v : Value} (hv : S.Fine v) :
    S.Behind A c Δ v s :=
  ⟨⟨[], Δ.declare_nil.symm ▸ h⟩, hv⟩

theorem Behind.of_declare {v : Value} (h : S.Behind A c (Δ.declare ds) v s) :
    S.Behind A c Δ v s := by
  obtain ⟨⟨es, h⟩, hv⟩ := h
  rw [← Layers.declare_append] at h
  exact ⟨⟨ds ++ es, h⟩, hv⟩

theorem Follows.item (h : S.Follows fuel) (hA : S.Runs A) {p : Place} (hp : A.Scoped c p.env Δ)
    (hlocated : A.Located c (p.here t)) (ht : t.Inner) {f : Value → Recorded Value}
    (hf : ∀ v, S.Fine v → Leads S.Tells (S.Here A c (Δ.declare t.declarations)) (f v)
      (S.Behind A c (Δ.declare t.declarations))) :
    Leads S.Tells (S.Here A c Δ) (record fuel t >>= f) (S.Behind A c Δ) := by
  refine (h hA (q := p.here t) ⟨hp, hlocated, ht⟩).bind fun v s hs => ?_
  obtain ⟨htold, hok⟩ := hf v hs.2 s hs.1
  exact ⟨htold, fun w s' hw => (hok w s' hw).of_declare⟩

/-- A run through the items of a block that may stop behind each of them. -/
theorem Follows.sequence (h : S.Follows fuel) (hA : S.Runs A) {run : List Tree → Recorded Value}
    (hnil : run [] = pure .nothing)
    (hcons : ∀ t ts, ∃ f, run (t :: ts) = record fuel t >>= f ∧
      ∀ v, S.Fine v → f v = run ts ∨ ∃ w, S.Fine w ∧ f v = pure w)
    {ts : List Tree} {p : Place} (hp : A.Scoped c p.env Δ)
    (hlocated : ∀ r ∈ p.each ts, A.Located c r) (hts : ∀ t ∈ ts, t.Inner) :
    Leads S.Tells (S.Here A c Δ) (run ts) (S.Behind A c Δ) := by
  induction ts generalizing p Δ with
  | nil => exact hnil ▸ .pure (fun _ hs => hs.told) fun _ hs => hs.behind trivial
  | cons t ts ih =>
    obtain ⟨ht, hrest⟩ := List.forall_mem_cons.1 hts
    obtain ⟨hfirst, hlocated⟩ := List.forall_mem_cons.1 hlocated
    obtain ⟨f, hrun, hf⟩ := hcons t ts
    rw [hrun]
    refine h.item hA hp hfirst ht fun v hv => ?_
    obtain hv | ⟨w, hw, hv⟩ := hf v hv <;> rw [hv]
    · have hbehind : A.Scoped c (p.env.after t) (Δ.declare t.declarations) :=
        ht.plain p.env ▸ hp.declare _
      exact ih (p := { p with env := p.env.after t }) hbehind hlocated hrest
    · exact .pure (fun _ hs => hs.told) fun _ hs => hs.behind hw

/-! ## Trees that open no scope -/

/-- What a statement declares, it declares in switches. -/
theorem Here.declare_iff {c' : List Tree} (hq : A.Has c q Δ) (ht : q.tree.touchesScopes = false)
    (hds : ∀ d ∈ ds, d ∈ q.tree.declarations) : S.Here A c' (Δ.declare ds) s ↔ S.Here A c' Δ s := by
  have hswitch : ∀ d ∈ ds, d.InSwitch A.frame := by
    intro d hd
    obtain ⟨x, cs, n, hwithin, hd⟩ := hq.inner.declared_in_switch ht (hds d hd)
    exact ⟨A.body.tree, rfl, x, cs, n, hwithin.trans hq.located.within, hd⟩
  constructor
  · exact fun h => h.congr fun es xs => (Layer.Binds.declare_iff hswitch).1
  · exact fun h => h.congr fun es xs => (Layer.Binds.declare_iff hswitch).2

/-- What the rule for a tree evaluates stays in the scopes of the tree. -/
theorem Follows.operand (h : S.Follows fuel) (hA : S.Runs A) (hq : A.Has c q Δ)
    (ht : q.tree.touchesScopes = false) {u : Tree} (hu : u ∈ q.tree.operands) :
    (S.inBody hA (q.tree :: c) Δ).staying.Both (record fuel u) (record fuel u) := by
  obtain ⟨k, hg, hk⟩ := hq.inner
  obtain ⟨r, rfl, ⟨us, hchain, hus⟩, hinner, ds, henv, hds⟩ :=
    Place.exists_operand hg hk ht hu q.env q.inLoop q.inSwitch
  have hbody := hq.inner.not_isBody
  have hblock : ∀ cs n, q.tree ≠ .block cs n := by
    intro cs n hq
    rw [hq] at ht
    cases ht
  have hr : A.Has (q.tree :: c) r (Δ.declare ds) :=
    ⟨henv ▸ (hq.toScoped.inside hblock hbody).declare ds, hq.located.below hchain hus hbody, hinner⟩
  refine (h hA hr).weaken (fun s hs => ?_) fun v s hs => ⟨?_, hs.2⟩
  · exact (Here.declare_iff hq ht fun d hd => hds d (List.mem_append_left _ hd)).2 hs
  · have hback := hs.1
    rw [← Layers.declare_append] at hback
    exact (Here.declare_iff hq ht hds).1 hback

/-- The rule for a tree that opens no scope, declares nothing itself and is no call. -/
theorem Follows.rule (h : S.Follows fuel) (hA : S.Runs A) (hq : A.Has c q Δ)
    (ht : q.tree.touchesScopes = false) (hcall : ∀ f args n, q.tree ≠ .call f args n) :
    (S.inBody hA (q.tree :: c) Δ).staying.Both (Eval.rule (record fuel) fuel q.tree)
      (Eval.rule (record fuel) fuel q.tree) := by
  refine (S.inBody hA (q.tree :: c) Δ).staying.rule fuel q.tree (fun u hu => h.operand hA hq ht hu)
    (fun f args n hc => absurd hc (hcall f args n)) fun hs => ?_
  rw [ht] at hs
  cases hs

/-! ## Blocks and declarations -/

structure Proper (S : Setting) : Prop where
  grammatical : S.program.Grammatical .program
  begins : ∃ us n, S.program = .program (S.defined ++ us) n

/-- What is told of an evaluation follows from where it happens. -/
structure Ready (S : Setting) : Prop extends S.Proper where
  body : ∀ {A : Activation} {s : Machine × Journal} (fuel : Nat), S.Runs A →
    s.2.context = A.context → S.Tells (visitAt (fuel + 1) A.body.tree s) s.2.events
  inner : ∀ {A : Activation} {c : List Tree} {q : Place} {Δ : Layers} {s : Machine × Journal}
    (fuel : Nat), S.Runs A → A.Has c q Δ → S.Here A c Δ s →
      S.Tells (visitAt (fuel + 1) q.tree s) s.2.events

theorem Ready.entered (h : S.Ready) (hA : S.Runs A) (hq : A.Has c q Δ) (hs : S.Here A c Δ s) :
    S.Here A (q.tree :: c) Δ (Recorded.entered (fuel + 1) q.tree s) :=
  hs.entered hA hq (h.inner fuel hA hq hs)

theorem Follows.block (h : S.Follows fuel) (hready : S.Ready) (hA : S.Runs A) {Γ : Env} {l w : Bool}
    {cs : List Tree} (hq : A.Has c ⟨Γ, l, w, .block cs n⟩ Δ) (hcs : ∀ t ∈ cs, t.Inner) :
    Leads S.Tells (S.Here A c Δ) (record (fuel + 1) (.block cs n)) fun v s =>
      S.Here A c Δ s ∧ S.Fine v := by
  have hlocated : ∀ r ∈ Place.each ⟨[] :: Γ, l, w, .block cs n⟩ cs,
      A.Located (.block cs n :: c) r :=
    fun r hr => hq.located.below (.part .self hr) rfl rfl
  let I := S.Here A (.block cs n :: c)
  let Δ' : Layers := ⟨c.length + 1, []⟩ :: Δ
  let Begins (s : Machine × Journal) : Prop :=
    I Δ s ∧ ∃ v, s.2.events.head? = some (.enter v) ∧ v.context = c
  have hpush : Leads S.Tells Begins (liftM (Run.changeStore Store.pushScope)) fun _ => I Δ' := by
    refine .lift (fun s hs => hs.1.told) ?_
    rintro s a m ⟨hs, v, hv, rfl⟩ hm
    exact hs.pushScope hv hm
  have hpop (v : Value) : Leads S.Tells (S.Behind A (.block cs n :: c) Δ' v)
      (liftM (Run.changeStore Store.popScope)) fun _ s => I Δ s ∧ S.Fine v :=
    .lift (fun s ⟨⟨ds, hs⟩, _⟩ => hs.told) fun s a m ⟨⟨ds, hs⟩, hv⟩ hm => ⟨hs.popScope hm, hv⟩
  have hitems : Leads S.Tells (I Δ') (Eval.untilJump (record fuel) cs)
      (S.Behind A (.block cs n :: c) Δ') :=
    h.sequence hA rfl (fun _ _ => ⟨_, rfl, fun v _ => by
      split
      · exact .inr ⟨.jump _, trivial, rfl⟩
      · exact .inl rfl⟩) (hq.toScoped.block cs n) hlocated hcs
  have hrule : Leads S.Tells Begins (Eval.rule (record fuel) fuel (.block cs n))
      fun v s => I Δ s ∧ S.Fine v := by
    refine hpush.bind fun _ => hitems.bind fun v => (hpop v).bind fun _ => ?_
    exact .pure (fun _ hs => hs.1.told) fun _ hs => hs
  exact .record (fun s hs => ⟨hready.entered hA hq hs, _, rfl, hs.context⟩) hrule
    fun s v s' hs hs' => ⟨hs.left hA hq hs'.1 rfl _, hs'.2⟩

theorem declaration_leads (hready : S.Ready) (hA : S.Runs A) {Γ : Env} {l w : Bool}
    {d : Declaration} (hq : A.Has c ⟨Γ, l, w, d.tree⟩ Δ) (hd : d.tree.declarations = [d])
    {p : Run Unit} (hp : p.BindsName d.name) (hheld : p.Keeps S.Fine .mild fun _ => True)
    (hrule : Eval.rule (record fuel) fuel d.tree = (do
      let _ ← (liftM p : Recorded Unit)
      return .nothing)) :
    Leads S.Tells (S.Here A c Δ) (record (fuel + 1) d.tree) fun v s =>
      S.Here A c (Δ.declare [d]) s ∧ S.Fine v := by
  let J (s' : Machine × Journal) : Prop := ∃ b s, S.Here A (d.tree :: c) Δ s ∧ s.2 = s'.2 ∧
    Store.Rebinds d.name b s.1.store s'.1.store ∧
      s'.1.store.Holds S.Fine
  have htold (s' : Machine × Journal) (h : J s') : Told S.Tells s'.2.events := by
    obtain ⟨b, s, hs, he, -⟩ := h
    exact he ▸ hs.told
  have hbinds : Leads S.Tells (S.Here A (d.tree :: c) Δ) (liftM p) fun _ => J := by
    refine .lift (fun s hs => hs.told) fun s a m hs hm => ?_
    obtain ⟨b, hb⟩ := hp s.1 a m hm
    obtain ⟨hholds, -⟩ := hheld s.1 hs.held
    rw [hm] at hholds
    exact ⟨b, s, hs, rfl, hb, hholds⟩
  have hdeclares : Leads S.Tells (S.Here A (d.tree :: c) Δ) (Eval.rule (record fuel) fuel d.tree)
      fun v s => J s ∧ S.Fine v := by
    rw [hrule]
    exact hbinds.bind fun _ => .pure htold fun s hs => ⟨hs, trivial⟩
  refine .record (fun s hs => hready.entered hA hq hs) hdeclares fun s v s' hs hs' => ?_
  obtain ⟨⟨b, s₁, hs₁, he, hb, hholds⟩, hv⟩ := hs'
  have hdeclared : S.Here A c (Δ.declare [d])
      (Recorded.left (fuel + 1) d.tree s (.ok v) (s'.1, s₁.2)) :=
    hs.declared hA hq hd hs₁ hb hholds
  rw [he] at hdeclared
  exact ⟨hdeclared, hv⟩

/-! ## Calls -/

structure Begun (S : Setting) (A : Activation) (Δ : Layers) (s : Machine × Journal) : Prop
    extends S.Base s where
  context : s.2.context = A.context
  events : s.2.events = A.earlier
  frames : ∃ f, s.1.store.frames = f :: A.below ∧ (Given S.program S.name A.frame → ∀ fuel,
    List.Forall₂ (Layer.Binds S.program S.name A.frame
      [.enter ⟨A.context, fuel, A.body.tree, s.1⟩]) Δ f.scopes)

def InCall (c : List Tree) (e : Event) : Prop :=
  ∃ b : Tree, b.isBody = true ∧ b :: c <:+ e.visit.tree :: e.visit.context

theorem InCall.suffix {e : Event} (h : InCall c e) : c <:+ e.visit.context := by
  obtain ⟨b, -, h⟩ := h
  obtain h | h := List.suffix_cons_iff.1 h
  · exact (List.cons.inj h).2 ▸ List.suffix_refl _
  · exact (List.suffix_cons b c).trans h

/-- What happens in a call happens in other scopes than those of the caller. -/
theorem Runs.spares_call (hA : S.Runs A) {Γ : Env} (hΔ : A.Scoped c Γ Δ) {e : Event}
    (he : InCall c e) : e.Spares A.frame Δ := by
  intro l hl
  refine ⟨Nat.le_trans (hΔ.depth_le hl) he.suffix.length_le, fun d hd hexecutes => ?_⟩
  obtain ⟨htree, hhead, -⟩ := hexecutes.left
  obtain ⟨b, hb, hsuffix⟩ := he
  obtain heq | hsuffix := List.suffix_cons_iff.1 hsuffix
  · obtain ⟨rfl, -⟩ := List.cons.inj heq
    have hdecl := (hA.declares d hd).1
    rw [← htree] at hdecl
    cases ht : e.visit.tree with
    | body =>
      rw [ht] at hdecl
      cases hdecl
    | _ =>
      rw [ht] at hb
      cases hb
  · have hlt := lt_of_head?_scopeDepths hb hsuffix hhead
    exact absurd (hΔ.depth_le hl) (Nat.not_le_of_lt hlt)

/-- A body has ended. Its frame is on top, if no call has left a frame. -/
structure Ended (S : Setting) (A : Activation) (s : Machine × Journal) : Prop
    extends S.Base s where
  context : s.2.context = A.context
  height : A.below.length < s.1.store.frames.length
  since : ∃ during, s.2.events = during ++ A.earlier ∧ (∀ e ∈ during, InCall A.context e) ∧
      ((∀ e ∈ during, e.valueless = false) → ∃ f, s.1.store.frames = f :: A.below)

theorem Begun.entered (h : S.Begun A Δ s)
    (htells : S.Tells (visitAt fuel A.body.tree s) s.2.events) :
    S.Here A A.frame Δ (Recorded.entered fuel A.body.tree s) := by
  obtain ⟨⟨htold, hglobals, hheld⟩, hcontext, hevents, f, hf, hshows⟩ := h
  have hheight : A.below.length < s.1.store.frames.length := by
    rw [hf]
    exact Nat.lt_succ_self _
  refine ⟨⟨⟨htells, htold⟩, hglobals, hheld⟩, ?_, hheight, [], visitAt fuel A.body.tree s, ?_, rfl,
    hcontext, List.forall_mem_nil _, fun _ => ⟨f, hf, fun hs => ?_⟩⟩
  · exact congrArg (List.cons A.body.tree) hcontext
  · exact congrArg (List.cons _) hevents
  · have hbinds := hshows hs fuel
    rw [← hcontext] at hbinds
    exact hbinds

theorem Here.ended {Δ₀ : Layers} (h' : S.Here A A.frame Δ s') (hA : S.Runs A) (h : S.Begun A Δ₀ s)
    (r : Except Fault Value) : S.Ended A (Recorded.left fuel A.body.tree s r s') := by
  obtain ⟨⟨htold, hglobals, hheld⟩, -, hheight, during, u, hevents, htree, hu, hdeep, hshows⟩ := h'
  have hbefore : (visitAt fuel A.body.tree s).context = A.context := h.context
  refine ⟨⟨htold, hglobals, hheld⟩, h.context, hheight,
    .leave (visitAt fuel A.body.tree s) r s'.1 :: during ++ [.enter u], ?_, fun e he => ?_,
    fun hclean => ?_⟩
  · simp [Recorded.left, hevents]
  · refine ⟨A.body.tree, hA.isBody, ?_⟩
    simp only [List.cons_append, List.mem_cons, List.mem_append, List.not_mem_nil,
      or_false] at he
    obtain rfl | he | rfl := he
    · exact hbefore ▸ List.suffix_refl _
    · exact (hdeep e he).trans (List.suffix_cons _ _)
    · exact htree ▸ hu ▸ List.suffix_refl _
  · obtain ⟨f, hf, -⟩ := hshows (List.forall_mem_cons.1 hclean).2
    exact ⟨f, hf⟩

def FollowsBody (S : Setting) (fuel : Nat) : Prop :=
  ∀ ⦃A : Activation⦄ ⦃Δ : Layers⦄, S.Runs A → A.Scoped A.frame A.body.env Δ →
    Leads S.Tells (S.Begun A Δ) (record fuel A.body.tree) fun v s =>
      S.Ended A s ∧ S.Fine v

theorem begun_of_enterFunction {type b : Tree} {name : String} {ps : List Tree} {vs : List Value}
    {i : Nat} {g : List Declaration} {a : Unit} (hs : S.Base s)
    (hcontext : s.2.context = .call f args n :: c)
    (hA : S.Runs ⟨⟨[(declarationsOf ps).reverse, g], false, false, b⟩, s.2.context, s.2.events,
      s.1.store.frames, g⟩) (hps : ∀ p ∈ ps, p.Grammatical .parameter)
    (hfunction : Tree.Within (.function type name ps b i) S.program) (hvs : ∀ v ∈ vs, S.Fine v)
    (hlen : args.length ≤ vs.length)
    (h : (Eval.enterFunction name ps vs).execute s.1 = (.ok a, m)) :
    S.Begun ⟨⟨[(declarationsOf ps).reverse, g], false, false, b⟩, s.2.context, s.2.events,
      s.1.store.frames, g⟩ [⟨s.2.context.length + 1, (declarationsOf ps).reverse⟩] (m, s.2) := by
  obtain ⟨hle, hglobals, fr, x, hframes, hx, hbound⟩ := Eval.enterFunction_binds hps h
  obtain ⟨hheld, -⟩ := Eval.enterFunction_keeps S.fine_of_isFunction name ps hvs s.1
    hs.held
  rw [h] at hheld
  refine ⟨⟨hs.told, hglobals.trans hs.globals, hheld⟩, rfl, rfl, fr, hframes, fun hgiven fuel => ?_⟩
  obtain ⟨hother, hsame⟩ := hbound S.name
  have hparam {d : Declaration} (hd : d ∈ declarationsOf ps) :
      d.tree ∈ ps ∧ d.tree.isDeclaration = false := by
    obtain ⟨p, hp, hdp⟩ := exists_of_mem_declarationsOf hd
    cases hps p hp with
    | param v j k =>
      obtain rfl := List.mem_singleton.1 hdp
      exact ⟨hp, rfl⟩
  rw [hx]
  refine .cons ⟨fun bd hget => ?_, fun d hd hname _ => ?_, fun d _ _ hd => ?_⟩ .nil
  · have hin : S.name ∈ namesOf (declarationsOf ps) := by
      by_contra hin
      rw [hother hin] at hget
      cases hget
    obtain ⟨d, hd, hname⟩ := List.mem_map.1 hin
    obtain ⟨hmem, hno⟩ := hparam hd
    refine ⟨d, hname, ⟨_, List.mem_singleton.2 rfl, ⟨x, ?_, hname ▸ hget⟩, type, name, ps, i,
      hfunction, hmem⟩, .inl ⟨List.mem_reverse.2 hd, fun hswitch => ?_⟩⟩
    · simp [Store.currentScope?, hframes, hx]
    · rw [(hA.declares d hswitch).1] at hno
      cases hno
  · have hin : S.name ∈ namesOf (declarationsOf ps) :=
      List.mem_map.2 ⟨d, List.mem_reverse.1 hd, hname⟩
    have hargs : args.length = ps.length :=
      hgiven b f args n c (congrArg (List.cons b) hcontext) type name ps i hfunction hin
    exact hsame (by omega) hin
  · exact absurd hd (Declaration.not_executedIn (Nat.lt_succ_self _))

structure Returned (S : Setting) (s : Machine × Journal) (v : Value) (s' : Machine × Journal) : Prop
    extends S.Base s' where
  context : s'.2.context = s.2.context
  height : s.1.store.frames.length ≤ s'.1.store.frames.length
  declared : S.Fine v
  since : ∃ during, s'.2.events = during ++ s.2.events ∧ (∀ e ∈ during, InCall s.2.context e) ∧
      ((∀ e ∈ during, e.valueless = false) → v.isNothing = false →
        s'.1.store.frames = s.1.store.frames)

/-- A function of the program is called, above the frames of its caller. -/
theorem FollowsBody.callFunction (h : S.FollowsBody fuel) (hp : S.Proper) {type b : Tree}
    {name : String} {ps : List Tree} {vs : List Value} (hs : S.Base s)
    (hfirst : S.first <:+ s.2.events) (hcontext : s.2.context = .call f args n :: c)
    (hfunction : S.Fine (.function type name ps b)) (hvs : ∀ v ∈ vs, S.Fine v)
    (hlen : args.length ≤ vs.length) :
    Leads S.Tells (· = s) (Eval.callFunction (record fuel) type name ps b vs) (S.Returned s) := by
  obtain ⟨i, hdefined⟩ := hfunction
  obtain ⟨us, k, hprogram⟩ := hp.begins
  obtain ⟨g, hglobal, hps, hbody, hwithin, ts, hchain⟩ :=
    Place.exists_activation (hprogram ▸ hp.grammatical) hdefined
  rw [← hprogram] at hwithin hchain
  let A : Activation := ⟨⟨[(declarationsOf ps).reverse, g], false, false, b⟩, s.2.context,
    s.2.events, s.1.store.frames, g⟩
  let Δ : Layers := [⟨s.2.context.length + 1, (declarationsOf ps).reverse⟩]
  obtain ⟨j, hj⟩ := hchain.within.grammatical hp.grammatical
  have hA : S.Runs A := ⟨⟨ts, hchain⟩, hbody, hglobal, hfirst, fun d hd => hd.tree hj⟩
  have hscoped : A.Scoped A.frame A.body.env Δ := by
    refine ⟨rfl, ?_, List.cons_ne_nil _ _⟩
    cases b with
    | body => rfl
    | _ => cases hbody
  have henter : Leads S.Tells (· = s) (liftM (Eval.enterFunction name ps vs))
      fun _ => S.Begun A Δ := by
    refine .lift (fun s' hs' => hs' ▸ hs.told) ?_
    rintro s₀ a m rfl hm
    exact begun_of_enterFunction hs hcontext hA hps hwithin hvs hlen hm
  refine henter.bind fun _ => (h hA hscoped).bind fun w => ?_
  refine .lift (fun s' hs' => hs'.1.told) fun s₂ v m ⟨hended, _⟩ hm => ?_
  have hglobals : m.store.globals = s₂.1.store.globals := by
    obtain ⟨-, -, rfl⟩ | ⟨-, -, -, -, hglobals⟩ := Eval.leaveFunction_cases hm
    · rfl
    · exact hglobals
  obtain ⟨hheld, -, hv⟩ := Eval.leaveFunction_keeps S.fine_of_isFunction type w s₂.1
    hended.held
  rw [hm] at hheld hv
  obtain ⟨during, hevents, hdeep, hclean⟩ := hended.since
  have hheight : s.1.store.frames.length < s₂.1.store.frames.length := hended.height
  refine ⟨⟨hended.told, hglobals.trans hended.globals, hheld⟩, hended.context, ?_, hv v rfl, during,
    hevents, hdeep, fun hd hvalue => ?_⟩
  · obtain ⟨-, -, rfl⟩ | ⟨-, -, fr, hfr, -⟩ := Eval.leaveFunction_cases hm
    · exact Nat.le_of_lt hheight
    · rw [hfr, List.length_cons] at hheight
      exact Nat.le_of_lt_succ hheight
  · obtain ⟨-, rfl, -⟩ | ⟨-, -, fr, hfr, -⟩ := Eval.leaveFunction_cases hm
    · cases hvalue
    · obtain ⟨fr', hfr'⟩ := hclean hd
      exact (List.cons.inj (hfr.symm.trans hfr')).2

/-- A call of a function of the program has ended. If it has left its frame, this is seen. -/
theorem Here.returned {s₂ : Machine × Journal} {v : Value} {Γ : Env} {l w : Bool}
    (h : S.Here A c Δ s) (hA : S.Runs A) (hq : A.Has c ⟨Γ, l, w, .call f args n⟩ Δ)
    (h₂ : S.Here A (.call f args n :: c) Δ s₂) (hr : S.Returned s₂ v s')
    (hcalls : (visitAt fuel (.call f args n) s).callsFunction = true) :
    S.Here A c Δ (Recorded.left fuel (.call f args n) s (.ok v) s') := by
  have hsuffix : A.frame <:+ s.2.context := h.context.symm ▸ hq.located.suffix
  obtain ⟨-, hcontext, hheight, during, u, hevents, htree, hu, hdeep, hshows⟩ := h₂
  obtain ⟨⟨htold, hglobals, hheld⟩, -, hheight', -, during', hevents', hdeep', hframes⟩ := hr
  rw [hcontext] at hdeep'
  have hinner : ∀ e ∈ during', A.frame <:+ e.visit.context := fun e he =>
    (hq.located.suffix.trans (List.suffix_cons _ _)).trans (hdeep' e he).suffix
  have hspares : ∀ e ∈ during', e.Spares A.frame Δ := fun e he =>
    hA.spares_call (hq.toScoped.inside (by rintro cs n ⟨⟩) rfl) (hdeep' e he)
  refine ⟨⟨htold, hglobals, hheld⟩, h.context, Nat.lt_of_lt_of_le hheight hheight',
    .leave (visitAt fuel (.call f args n) s) (.ok v) s'.1 :: (during' ++ during), u, ?_, htree, hu,
    List.forall_mem_cons.2 ⟨hsuffix, List.forall_mem_append.2 ⟨hinner, hdeep⟩⟩, fun hclean => ?_⟩
  · simp [Recorded.left, hevents', hevents]
  · rw [List.cons_append, List.append_assoc] at hclean ⊢
    obtain ⟨hlast, hrest⟩ := List.forall_mem_cons.1 hclean
    obtain ⟨hduring', hduring⟩ := List.forall_mem_append.1 hrest
    have hvalue : v.isNothing = false := by simpa [Event.valueless, hcalls] using hlast
    have hback : S.Shows A (during ++ [.enter u]) Δ s'.1.store.frames :=
      hframes hduring' hvalue ▸ hshows
    exact (hback.append hspares).cons (hA.spares hq.toScoped h.context (.inl rfl)) hclean

/-- What is known when the rule for a call has been followed: it has come back to where it stands,
or a function of the program has been called. -/
def Standing.Called (I : S.Standing c) (call : Visit) (v : Value) (s : Machine × Journal) : Prop :=
  (I.Holds s ∧ S.Fine v) ∨
    (call.callsFunction = true ∧ ∃ s₂, I.Holds s₂ ∧ S.Returned s₂ v s)

/-- What a name stands for is called, behind the arguments. -/
theorem FollowsBody.callName (h : S.FollowsBody fuel) (hp : S.Proper)
    (I : S.Standing (.call f args n :: c)) {vs : List Value} {call : Visit} (hs : I.Holds s)
    (hvs : ∀ v ∈ vs, S.Fine v) (hlen : args.length ≤ vs.length)
    (hcall : ∀ w m, (Run.readName f).execute s.1 = (.ok w, m) → call.callee? = some w) :
    Leads S.Tells (· = s) (Eval.callName (record fuel) f vs) (I.Called call) := by
  have hread := (I.lift (Run.readName_keeps S.fine_of_isFunction f)).weaken
    (fun s' (hs' : s' = s) => hs'.symm ▸ hs) fun _ _ h => h
  refine hread.step fun w s₁ hw ⟨hs₁, hfine⟩ => ?_
  obtain ⟨hw, -⟩ := Recorded.execute_lift_ok hw
  have hcallee := hcall w s₁.1 hw
  cases w with
  | builtin b =>
    have hcalled := I.lift (Eval.callBuiltin_keeps S.fine_of_isFunction b vs)
    exact hcalled.weaken (fun s' hs' => hs'.symm ▸ hs₁) fun _ _ => .inl
  | function type name ps b =>
    have hcalls : call.callsFunction = true := by
      rw [Visit.callsFunction, hcallee]
      rfl
    refine (h.callFunction hp (I.base hs₁) (I.first hs₁) (I.context hs₁) hfine hvs hlen).weaken
      (fun _ hs' => hs') fun v s' hr => .inr ⟨hcalls, s₁, hs₁, hr⟩
  | _ => exact .throw _ fun s' hs' => hs'.symm ▸ (I.base hs₁).told

/-- The arguments of a call are evaluated, and then what its name stands for is called. -/
theorem FollowsBody.call (h : S.FollowsBody fuel) (hp : S.Proper)
    (I : S.Standing (.call f args n :: c))
    (hargs : ∀ a ∈ args, I.staying.Both (record fuel a) (record fuel a))
    (hs : I.Holds (entered (fuel + 1) (.call f args n) s)) :
    Leads S.Tells (· = entered (fuel + 1) (.call f args n) s)
      (Eval.rule (record fuel) fuel (.call f args n))
        (I.Called (visitAt (fuel + 1) (.call f args n) s)) := by
  have hvalues : Leads S.Tells (· = entered (fuel + 1) (.call f args n) s)
      (Eval.arguments (record fuel) args) fun vs s₁ => I.Holds s₁ ∧ ∀ v ∈ vs, S.Fine v :=
    (I.staying.arguments hargs).weaken (fun s' hs' => hs'.symm ▸ hs) fun _ _ h => h
  refine hvalues.step fun vs s₁ hvs ⟨hs₁, hfine⟩ => h.callName hp I hs₁ ?_ ?_ fun w m hw =>
    Visit.callee?_eq rfl rfl (s := entered (fuel + 1) (.call f args n) s) rfl hvs hw
  · split
    · exact List.forall_mem_append.2 ⟨hfine, List.forall_mem_singleton.2 trivial⟩
    · exact hfine
  · have hlen := Eval.arguments_length hvs
    split
    · simp [hlen]
    · exact Nat.le_of_eq hlen.symm

theorem Follows.call (h : S.Follows fuel) (hbody : S.FollowsBody fuel) (hready : S.Ready)
    (hA : S.Runs A) {Γ : Env} {l w : Bool} (hq : A.Has c ⟨Γ, l, w, .call f args n⟩ Δ) :
    Leads S.Tells (S.Here A c Δ) (record (fuel + 1) (.call f args n)) fun v s =>
      S.Here A c Δ s ∧ S.Fine v := by
  refine .of_each fun s hs => ?_
  have hrule := hbody.call hready.toProper (S.inBody hA (.call f args n :: c) Δ)
    (fun a ha => h.operand hA hq rfl ha) (hready.entered hA hq hs)
  refine .record (fun s' hs' => hs' ▸ rfl) hrule fun s' v s₁ hs' hs₁ => ?_
  subst hs'
  obtain ⟨hs₁, hv⟩ | ⟨hcalls, s₂, hs₂, hr⟩ := hs₁
  · exact ⟨hs.left hA hq hs₁ rfl _, hv⟩
  · exact ⟨hs.returned hA hq hs₂ hr hcalls, hr.declared⟩

/-! ## Evaluation -/

theorem Follows.succ (h : S.Follows fuel) (hbody : S.FollowsBody fuel) (hready : S.Ready) :
    S.Follows (fuel + 1) := by
  intro A c q Δ hA hq
  obtain ⟨Γ, l, w, t⟩ := q
  by_cases ht : t.touchesScopes = true
  · obtain ⟨cs, n, rfl, hcs⟩ | ⟨k, i, type, n, rfl⟩ | ⟨name, fields, mark, n, rfl⟩ :=
      hq.inner.scopes_cases ht
    · refine (h.block hready hA hq hcs).weaken (fun _ hs => hs) fun v s hs => ⟨?_, hs.2⟩
      exact Δ.declare_nil.symm ▸ hs.1
    · let d : Declaration := ⟨k.value.render, .object, .varDecl (.var k i) type n⟩
      exact declaration_leads hready hA (d := d) hq rfl (Eval.declare_bindsName k i type)
        (Eval.declare_keeps S.fine_of_isFunction _ type) rfl
    · let d : Declaration := ⟨name, .tag, .structDecl name fields mark n⟩
      exact declaration_leads hready hA (d := d) hq rfl (Eval.defineStruct_bindsName name fields)
        (Eval.defineStruct_keeps S.fine_of_isFunction name fields) rfl
  · have ht : t.touchesScopes = false := Bool.eq_false_iff.2 ht
    have hstay {v : Value} {s : Machine × Journal} (hs : S.Here A c Δ s) (hv : S.Fine v) :
        S.Here A c (Δ.declare t.declarations) s ∧ S.Fine v :=
      ⟨(Here.declare_iff hq ht fun _ hd => hd).2 hs, hv⟩
    by_cases hcall : ∃ f args n, t = .call f args n
    · obtain ⟨f, args, n, rfl⟩ := hcall
      exact (h.call hbody hready hA hq).weaken (fun _ hs => hs) fun v s hs => hstay hs.1 hs.2
    · have hcall : ∀ f args n, t ≠ .call f args n := fun f args n he => hcall ⟨f, args, n, he⟩
      refine .record (fun s hs => hready.entered hA hq hs) (h.rule hA hq ht hcall)
        fun s v s' hs hs' => ?_
      have hdecl : t.isDeclaration = false := by cases t <;> first | rfl | cases ht
      exact hstay (hs.left hA hq hs'.1 hdecl _) hs'.2

theorem FollowsBody.succ (h : S.Follows fuel) (hready : S.Ready) : S.FollowsBody (fuel + 1) := by
  intro A Δ hA hscoped
  have hbody := hA.isBody
  obtain ⟨ts, hchain⟩ := hA.chain
  obtain ⟨j, hj⟩ := hchain.within.grammatical hready.grammatical
  cases ht : A.body.tree with
  | body cs n =>
    rw [ht] at hj
    have hlocated : ∀ r ∈ A.body.each cs, A.Located A.frame r := by
      intro r hr
      apply Activation.located_of_part
      rw [Place.parts, ht]
      exact hr
    have hrule : Leads S.Tells (S.Here A A.frame Δ) (Eval.rule (record fuel) fuel (.body cs n))
        (S.Behind A A.frame Δ) :=
      h.sequence hA rfl (fun _ _ => ⟨_, rfl, fun v hv => by
        split
        · exact .inr ⟨_, hv, rfl⟩
        · exact .inl rfl⟩) hscoped hlocated hj.body_inner
    rw [← ht] at hrule ⊢
    refine .record (fun s hs => hs.entered (hready.body fuel hA hs.context)) hrule
      fun s v s' hs hs' => ⟨hs'.1.choose_spec.ended hA hs _, hs'.2⟩
  | _ =>
    rw [ht] at hbody
    cases hbody

theorem Ready.follows (h : S.Ready) (fuel : Nat) : S.Follows fuel ∧ S.FollowsBody fuel := by
  induction fuel with
  | zero =>
    constructor
    · intro A c q Δ _ _
      exact .throw _ fun _ hs => hs.told
    · intro A Δ _ _
      exact .throw _ fun _ hs => hs.told
  | succ fuel ih => exact ⟨ih.1.succ ih.2 h, .succ ih.1 h⟩

end Setting

end MiniC
