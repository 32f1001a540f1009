import MiniC.Proofs.Launch

/-!
# Lookups find what is declared

In the run of an accepted program, a lookup of a name finds the binding that was made by the
declaration to which the name is resolved where the tree stands, if nothing disturbs it: a call that
has left a frame, a parameter without an argument, a declaration in a switch that was jumped over or
executed ahead of its place, a variable with the name of its structure, or a name that the top of
the program declares twice.
-/

namespace MiniC

open Eval (callMain)
open Recorded (Told Leads entered left visitAt startAt)

/-! ## Names are resolved -/

theorem Place.Occurs.trans {o : Order} {p q r : Place} (h : p.Occurs o q) (h' : q.Occurs o r) :
    p.Occurs o r := by
  induction h with
  | self => exact h'
  | part hq _ ih => exact .part hq (ih h')

theorem Analysis.ComesTo.at {program : Tree} {p : Place} {s : Analysis} (h : ComesTo program p s) :
    s.At p := by
  cases h with
  | within _ hs | behind _ _ _ hs => exact hs

theorem Analysis.ComesTo.resolves {program : Tree} {p : Place} {s : Analysis}
    (hs : ComesTo program p s) {name : String} (h : (p.env.find? name).isSome = true) :
    ∃ d, p.Resolves program name d := by
  obtain ⟨d, hd⟩ := Option.isSome_iff_exists.1 h
  have hmeaning := SymbolTable.lookup?_meaning hs.at.tables name
  rw [hd, Option.map_some] at hmeaning
  obtain ⟨y, hy, hmeans⟩ := Option.map_eq_some_iff.1 hmeaning
  exact ⟨d, hd, s, y, hs, hy, hmeans⟩

theorem Env.isSome_of_meaning {Γ : Env} {name : String} {a : Meaning}
    (h : (Γ.find? name).map Declaration.meaning = some a) : (Γ.find? name).isSome = true := by
  obtain ⟨d, hd, -⟩ := Option.map_eq_some_iff.1 h
  rw [hd]
  rfl

/-- A name that is looked up for a tree of an accepted program is declared where the tree stands. -/
theorem Visit.Looks.declared {A : Tree → Analysis → Prop} {p : Place} (hp : p.Passable A)
    {k : Tree.Category} (hg : p.tree.Grammatical k) {v : Visit} (htree : p.tree = v.tree)
    {name : String} {m : Machine} {during : List Event} (h : v.Looks name m during) :
    (p.env.find? name).isSome = true := by
  have hfine := (hp _ (.self _)).1
  obtain ⟨Γ, l, w, t⟩ := p
  obtain rfl : t = v.tree := htree
  cases h with
  | first hname => exact hp.firstName hg hname
  | called hcall ha =>
    rw [hcall] at hfine
    obtain hmeaning | hmeaning := hfine
    · exact Env.isSome_of_meaning hmeaning
    · exact Env.isSome_of_meaning hmeaning
  | tag hdecl ht hd =>
    rw [hdecl] at hfine
    exact Env.isSome_of_meaning hfine

theorem Visit.Looks.not_isLabel {v : Visit} {name : String} {m : Machine} {during : List Event}
    (h : v.Looks name m during) : v.tree.isLabel = false := by
  cases h with
  | first hname => cases hv : v.tree <;> first | rfl | (rw [hv] at hname; cases hname)
  | called hcall => rw [hcall]; rfl
  | tag hdecl => rw [hdecl]; rfl

/-- A name that an evaluation looks up is resolved where the tree stands. -/
theorem Visit.StandsAt.resolves {program : Tree} (hp : program.Grammatical .program)
    (ha : (Analysis.analyze program).1.isOk = true) {v : Visit} {p : Place}
    (hv : v.StandsAt program p) {name : String} {m : Machine} {during : List Event}
    (h : v.Looks name m during) : ∃ d, p.Resolves program name d := by
  cases hv with
  | within hchain htree haround =>
    have hpass : p.Passable (Analysis.Comes program Analysis.start) :=
      fun r hr => Analysis.accepted_places hp ha (hchain.occurs.trans hr)
    obtain ⟨-, s, a, s', hs, hcomes, -⟩ := hpass _ (.self _)
    obtain ⟨k, hk⟩ := hchain.within.grammatical hp
    have hcomes := (Analysis.arrives_iff (htree ▸ h.not_isLabel)).1 hcomes
    exact (Analysis.ComesTo.within hcomes hs).resolves (h.declared hpass hk htree)
  | @behind cs n hprogram hcontext htree hplace =>
    subst hprogram hplace
    obtain ⟨s, hgives, hs, hpassed, hmain⟩ := Analysis.passed_program hp ha
    have hname : name = "main" := by
      cases h with
      | first hname =>
        rw [htree] at hname
        cases hname
      | called hcall =>
        rw [htree] at hcall
        exact (Tree.call.inj hcall).1.symm
      | tag hdecl =>
        rw [htree] at hdecl
        cases hdecl
    subst hname
    have hat := hpassed.at_behind hs callMain
    obtain ⟨y, hy⟩ := Option.isSome_iff_exists.1 hmain
    obtain ⟨d, hd, hmeans⟩ := hat.find? hy
    exact ⟨d, hd, s, y, .behind rfl rfl hgives hat, hy, hmeans.symm⟩

/-! ## The state of a lookup -/

/-- If a name is declared once, its declaration is the one that is found. -/
theorem find?_eq_some_of_count {ds : List Declaration} {name : String} {d : Declaration}
    (hcount : (namesOf ds).count name ≤ 1) (hd : d ∈ ds) (hname : d.name = name) :
    ds.find? (·.name = name) = some d := by
  induction ds with
  | nil => cases hd
  | cons x ds ih =>
    rw [namesOf, List.map_cons, List.count_cons] at hcount
    by_cases hx : x.name = name
    · rw [List.find?_cons_of_pos (by simp [hx])]
      cases hd with
      | head => rfl
      | tail _ hd =>
        have hpos : 0 < (ds.map Declaration.name).count name :=
          List.count_pos_iff.2 (List.mem_map.2 ⟨d, hd, hname⟩)
        rw [if_pos (beq_iff_eq.2 hx)] at hcount
        omega
    · rw [List.find?_cons_of_neg (by simp [hx])]
      cases hd with
      | head => exact absurd hname hx
      | tail _ hd => exact ih (Nat.le_trans (Nat.le_add_right _ _) hcount) hd

namespace Setting

variable {S : Setting} {A : Activation} {c : List Tree} {Δ : Layers} {s s₁ : Machine × Journal}
  {t : Tree} {fuel : Nat} {name : String} {m : Machine} {during : List Event}

/-- A lookup for a tree is a lookup in a state in which what holds inside the tree holds. -/
theorem Standing.looks (I : S.Standing (t :: c)) (hs : I.Holds (entered (fuel + 1) t s))
    (hargs : ∀ f args n, t = .call f args n → ∀ a ∈ args,
      I.staying.Both (record fuel a) (record fuel a))
    (htag : ∀ k i a j n, t = .varDecl (.var k i) (.structName (.struct a) j) n →
      k.value.render ≠ a.name)
    (h : (visitAt (fuel + 1) t s).Looks name m during) :
    ∃ s₁, I.Holds s₁ ∧ s₁.2.events = during ++ .enter (visitAt (fuel + 1) t s) :: s.2.events ∧
      m.store.lookup name = s₁.1.store.lookup name := by
  cases h with
  | first => exact ⟨_, hs, rfl, rfl⟩
  | @called _ args n vs s' hcall ha =>
    obtain rfl : t = .call name args n := hcall
    -- The arguments go the same way behind all that has happened as with an empty journal.
    have hrun := (Recorded.arguments_adds fuel args s.1 (.call name args n :: s.2.context)).1
      (.enter (visitAt (fuel + 1) (.call name args n) s) :: s.2.events)
    change (Eval.arguments (record fuel) args).execute
      (startAt s.1 (.call name args n :: s.2.context)) = (.ok vs, s') at ha
    rw [ha] at hrun
    obtain ⟨-, hok⟩ := I.staying.arguments (hargs name args n rfl) _ hs
    exact ⟨_, (hok vs _ hrun).1, rfl, rfl⟩
  | @tag k a i j n m hdecl ht hd =>
    obtain rfl : t = .varDecl (.var k i) (.structName (.struct a) j) n := hdecl
    obtain ⟨b, hb⟩ := Run.declare_bindsName _ _ _ _ _ hd
    exact ⟨_, hs, rfl, hb.lookup_of_ne (htag k i a j n rfl)⟩

/-! ## Lookups in a body -/

def mute (S : Setting) : Setting :=
  { S with Tells := fun _ _ => True }

theorem told_mute (es : List Event) : Told S.mute.Tells es := by
  induction es with
  | nil => trivial
  | cons e es ih =>
    cases e with
    | enter v => exact ⟨trivial, ih⟩
    | leave v r m => exact ih

theorem Base.mute (h : S.Base s) : S.mute.Base s :=
  ⟨told_mute _, h.globals, h.held⟩

theorem Runs.mute (h : S.Runs A) : S.mute.Runs A :=
  ⟨h.chain, h.isBody, h.global, h.first, h.declares⟩

theorem Here.mute (h : S.Here A c Δ s) : S.mute.Here A c Δ s :=
  ⟨h.toBase.mute, h.context, h.height, h.since⟩

theorem Outside.mute {fs : List Frame} (h : S.Outside fs c s) : S.mute.Outside fs c s :=
  ⟨h.toBase.mute, h.context, h.first, h.frames⟩

theorem Grounded.mute (h : S.Grounded) : S.mute.Grounded :=
  h

theorem Proper.mute (h : S.Proper) : S.mute.Prepared where
  grammatical := h.grammatical
  begins := h.begins
  body _ _ _ := trivial
  inner _ _ _ _ := trivial
  outer _ _ _ := trivial
  main _ _ _ _ := trivial

/-- What has happened since a body was begun. -/
theorem Here.activation (h : S.Here A c Δ s) {v : Visit} (hv : v.frame = A.frame) :
    s.2.events = v.activation s.2.events ++ A.earlier ∧
      S.Shows A (v.activation s.2.events) Δ s.1.store.frames := by
  obtain ⟨during, u, hevents, -, hu, hdeep, hshows⟩ := h.since
  let deep (e : Event) : Bool := v.frame.length ≤ e.visit.context.length
  have hlong : ∀ e ∈ during, deep e = true := by
    intro e he
    have hle := (hdeep e he).length_le
    rw [← hv] at hle
    exact decide_eq_true hle
  have hshort : ¬ deep (.enter u) = true := by
    have hlt : u.context.length < v.frame.length := by simp [hv, hu, Activation.frame]
    exact fun hle => Nat.not_lt_of_le (of_decide_eq_true hle) hlt
  have hsince : v.activation s.2.events = during ++ [.enter u] := by
    change s.2.events.takeWhile deep ++ (s.2.events.dropWhile deep).take 1 = _
    rw [hevents, List.takeWhile_append_of_pos hlong, List.dropWhile_append_of_pos hlong,
      List.takeWhile_cons_of_neg hshort, List.dropWhile_cons_of_neg hshort, List.append_nil]
    rfl
  rw [hsince]
  refine ⟨?_, hshows⟩
  rw [hevents, List.append_assoc]
  rfl

/-- What has happened up to a lookup since a body was begun. -/
theorem Here.shows_since {v : Visit} (hv : v.frame = A.frame) (hs : S.Here A c Δ s)
    (hs₁ : S.Here A (t :: c) Δ s₁) (hevents : s₁.2.events = during ++ .enter v :: s.2.events) :
    S.Shows A (v.since during s.2.events) Δ s₁.1.store.frames := by
  obtain ⟨hsplit, -⟩ := hs.activation hv
  obtain ⟨hsplit₁, hshows⟩ := hs₁.activation hv
  have hsame : v.activation s₁.2.events ++ A.earlier = v.since during s.2.events ++ A.earlier := by
    rw [← hsplit₁, hevents, Visit.since, List.append_assoc, List.cons_append, ← hsplit]
  rw [← List.append_cancel_right hsame]
  exact hshows

/-- The global scope binds what the top of the program has declared. -/
theorem Grounded.binding (h : S.Grounded) (hp : S.Proper)
    (honce : (namesOf S.program.globals).count S.name ≤ 1) {d : Declaration}
    (hd : d ∈ S.defined.flatMap Tree.introduces) (hname : d.name = S.name) :
    ∃ b, S.globals.entries.get? S.name = some b ∧ S.Made S.first d b := by
  obtain ⟨us, n, hprogram⟩ := hp.begins
  have hcount : (namesOf (S.defined.flatMap Tree.introduces)).count S.name ≤ 1 := by
    rw [hprogram, Tree.globals, List.flatMap_append] at honce
    simp only [namesOf, List.map_append, List.count_append] at honce ⊢
    omega
  have hrel := h honce
  rw [find?_eq_some_of_count hcount hd hname] at hrel
  cases hget : S.globals.entries.get? S.name with
  | none =>
    rw [hget] at hrel
    cases hrel
  | some b =>
    rw [hget] at hrel
    cases hrel with
    | some hmade => exact ⟨b, rfl, hmade⟩

/-- A declaration at the top of the program that is found is bound in the global scope. -/
theorem Grounded.found (h : S.Grounded) (hp : S.Proper) {v : Visit} {before : List Event}
    (hfirst : S.first <:+ before) (hclean : v.Undisturbed S.program S.name during before)
    {g : List Declaration} (hg : ∀ d ∈ g, d ∈ S.defined.flatMap Tree.introduces) {d : Declaration}
    (hd : Env.find? [g] S.name = some d) :
    ∃ b, S.globals.entries.get? S.name = some b ∧ ∃ e ∈ before, d.Makes S.program b e := by
  have hfind : g.find? (·.name = S.name) = some d := by simpa [Env.find?] using hd
  have hmem := hg d (List.mem_of_find?_eq_some hfind)
  have hname : d.name = S.name := by simpa using List.find?_some hfind
  obtain ⟨b, hb, e, he, hmakes⟩ := h.binding hp hclean.once hmem hname
  exact ⟨b, hb, e, hfirst.subset he, hmakes⟩

/-- In a body, the scope that binds a name is the one that declares it. -/
theorem Here.scopes (ha : (Analysis.analyze S.program).1.isOk = true) (hp : S.Proper)
    (hA : S.Runs A) {q : Place} (hq : A.Has c q Δ) {v : Visit} (hcontext : v.context = c)
    (hv : v.frame = A.frame) (hstands : v.StandsAt S.program q) (hs : S.Here A c Δ s)
    (hs₁ : S.Here A (t :: c) Δ s₁) (hevents : s₁.2.events = during ++ .enter v :: s.2.events)
    (hclean : v.Undisturbed S.program S.name during s.2.events) :
    ∃ f fs, s₁.1.store.frames = f :: fs ∧
      Option.Rel (fun d x => ∃ b, (∃ e ∈ v.since during s.2.events, d.Makes S.program b e) ∧
        Table.get? x.entries S.name = some b) (Δ.env.find? S.name)
          (f.scopes.find? (·.entries.has S.name)) := by
  obtain ⟨f, hf, hbinds⟩ := hs.shows_since hv hs₁ hevents hclean.returned
  have hzip {l : Layer} (hl : l ∈ Δ) : (l.declared, l.depth) ∈ q.env.zip (scopeDepths v.context) :=
    hcontext ▸ hq.toScoped.mem_zip hl
  refine ⟨f, A.below, hf, Store.find?_of_binds (hbinds (hv ▸ hclean.given)) ?_ ?_ ?_⟩
  · obtain ⟨us, hus⟩ := hA.chain
    obtain ⟨ts, hchain, -⟩ := hq.located
    have hwell : S.program.WellFormed .executed :=
      fun _ h => (Analysis.accepted_places hp.grammatical ha h).1
    have hdistinct := (hus.trans hchain).distinct hp.grammatical hwell
    have hdistinct : Env.Distinct (q.env.declare []) := hdistinct.ofDeclare (List.forall_mem_nil _)
    rw [Env.declare_nil, hq.env, Env.Distinct, List.dropLast_concat] at hdistinct
    exact fun l hl => hdistinct l.declared (List.mem_map_of_mem hl)
  · intro l hl d hd hfind hswitch
    refine hclean.reached q hstands _ (hzip hl) d hd ?_ (hv ▸ hswitch)
    rw [hq.env, Env.find?, List.findSome?_append]
    exact Option.or_eq_some_iff.2 (.inl hfind)
  · exact fun l hl d hname hswitch => hclean.ahead q hstands _ (hzip hl) d hname (hv ▸ hswitch)

/-- A lookup in a body finds what is declared. -/
theorem Here.finds (ha : (Analysis.analyze S.program).1.isOk = true) (hg : S.Grounded)
    (hp : S.Proper) (hA : S.Runs A) {q : Place} (hq : A.Has c q Δ) {v : Visit}
    (hcontext : v.context = c) (hv : v.frame = A.frame) (hstands : v.StandsAt S.program q)
    (hs : S.Here A c Δ s) (hs₁ : S.Here A (t :: c) Δ s₁)
    (hevents : s₁.2.events = during ++ .enter v :: s.2.events)
    (hlookup : m.store.lookup S.name = s₁.1.store.lookup S.name) {d : Declaration}
    (hd : q.Resolves S.program S.name d)
    (hclean : v.Undisturbed S.program S.name during s.2.events) :
    v.FindsDeclared S.program S.name m during s.2.events := by
  obtain ⟨f, fs, hf, hrel⟩ := hs.scopes ha hp hA hq hcontext hv hstands hs₁ hevents hclean
  have hfind : (Δ.env.find? S.name).or (Env.find? [A.global] S.name) = some d := by
    rw [← hd.1, hq.env, Env.find?, Env.find?, Env.find?, List.findSome?_append]
  have hlast : q.env.dropLast = Δ.env := by rw [hq.env, List.dropLast_concat]
  cases hΔ : Δ.env.find? S.name with
  | some d' =>
    rw [hΔ] at hfind hrel
    obtain rfl := Option.some.inj hfind
    obtain ⟨b, ⟨e, he, hmakes⟩, hb⟩ := Store.lookup_of_some hf hrel
    refine ⟨q, d', b, hstands, hd, hlookup.trans hb, e, hmakes, ?_, fun _ => he⟩
    have hall : s₁.2.events = v.since during s.2.events ++ A.earlier := by
      rw [hevents, Visit.since, List.append_assoc, List.cons_append, ← (hs.activation hv).1]
    rw [← hevents, hall]
    exact List.mem_append_left _ he
  | none =>
    rw [hΔ] at hfind hrel
    obtain ⟨b, hb, e, he, hmakes⟩ := hg.found hp (hs.first hA) hclean hA.global hfind
    have hb : s₁.1.store.lookup S.name = .ok b :=
      Store.lookup_of_none hf hrel (hs₁.globals.symm ▸ hb)
    refine ⟨q, d, b, hstands, hd, hlookup.trans hb, e, hmakes, ?_, fun hlocal => ?_⟩
    · exact List.mem_append_right _ (List.mem_cons_of_mem _ he)
    · rw [hlast, hΔ] at hlocal
      cases hlocal

theorem Here.lookup (ha : (Analysis.analyze S.program).1.isOk = true) (hg : S.Grounded)
    (hp : S.Proper) (hA : S.Runs A) {q : Place} (hq : A.Has c q Δ) (hs : S.Here A c Δ s)
    (hlooks : (visitAt (fuel + 1) q.tree s).Looks S.name m during)
    (hclean : (visitAt (fuel + 1) q.tree s).Undisturbed S.program S.name during s.2.events) :
    (visitAt (fuel + 1) q.tree s).FindsDeclared S.program S.name m during s.2.events := by
  have hmute := hp.mute
  have hargs : ∀ f args n, q.tree = .call f args n → ∀ a ∈ args,
      (S.mute.inBody hA.mute (q.tree :: c) Δ).staying.Both (record fuel a) (record fuel a) := by
    intro f args n ht a hmem
    apply (hmute.follows fuel).1.operand hA.mute hq
    · rw [ht]
      rfl
    · rw [ht]
      exact hmem
  obtain ⟨s₁, hs₁, hevents, hlookup⟩ := (S.mute.inBody hA.mute (q.tree :: c) Δ).looks
    (hmute.entered hA.mute hq hs.mute) hargs hclean.untagged hlooks
  have hstands := hA.standsAt hq.located (v := visitAt (fuel + 1) q.tree s) rfl hs.context
  obtain ⟨d, hd⟩ := hstands.resolves hp.grammatical ha hlooks
  have hframe : (visitAt (fuel + 1) q.tree s).frame = A.frame := by
    obtain ⟨-, -, -, hdrop, -⟩ := hq.located.around hA.isBody
    rw [← hdrop, ← hs.context]
    rfl
  exact hs.mute.finds (S := S.mute) ha hg.mute hmute.toProper hA.mute hq hs.context hframe hstands
    hs₁ hevents hlookup hd hclean

/-! ## Lookups outside of all bodies -/

/-- Before and at the call of `main`, a name is looked up in the global scope. -/
theorem lookup_outside {fs : List Frame} (hfs : fs = [] ∨ fs = [mainFrame]) {st : Store}
    (hf : st.frames = fs) {b : Binding} (hb : st.globals.entries.get? name = some b) :
    st.lookup name = .ok b := by
  obtain rfl | rfl := hfs
  · have hscope : st.scopeOf name = .ok st.globals := by rw [Store.scopeOf, hf]
    exact Store.lookup_of_scopeOf hscope hb
  · exact Store.lookup_of_none (R := fun _ _ => True) hf .none hb

/-- A lookup outside of all bodies finds what is declared. -/
theorem Outside.finds (ha : (Analysis.analyze S.program).1.isOk = true) (hg : S.Grounded)
    (hp : S.Proper) {fs : List Frame} (hfs : fs = [] ∨ fs = [mainFrame]) {q : Place}
    {g : List Declaration} (hq : q.env = [g])
    (hdefined : ∀ d ∈ g, d ∈ S.defined.flatMap Tree.introduces) (hs : S.Outside fs c s)
    (hargs : ∀ f args n, q.tree = .call f args n → ∀ a ∈ args,
      (S.mute.outside fs (q.tree :: c)).staying.Both (record fuel a) (record fuel a))
    (hstands : (visitAt (fuel + 1) q.tree s).StandsAt S.program q)
    (hlooks : (visitAt (fuel + 1) q.tree s).Looks S.name m during)
    (hclean : (visitAt (fuel + 1) q.tree s).Undisturbed S.program S.name during s.2.events) :
    (visitAt (fuel + 1) q.tree s).FindsDeclared S.program S.name m during s.2.events := by
  obtain ⟨s₁, hs₁, hevents, hlookup⟩ := (S.mute.outside fs (q.tree :: c)).looks
    (hs.mute.entered trivial) hargs hclean.untagged hlooks
  obtain ⟨d, hd⟩ := hstands.resolves hp.grammatical ha hlooks
  have hfind : Env.find? [g] S.name = some d := hq ▸ hd.1
  obtain ⟨b, hb, e, he, hmakes⟩ := hg.found hp hs.first hclean hdefined hfind
  refine ⟨q, d, b, hstands, hd, ?_, e, hmakes, ?_, fun hlocal => ?_⟩
  · exact hlookup.trans (lookup_outside hfs hs₁.frames (hs₁.globals.symm ▸ hb))
  · exact List.mem_append_right _ (List.mem_cons_of_mem _ he)
  · rw [hq] at hlocal
    cases hlocal

theorem Outside.lookup (ha : (Analysis.analyze S.program).1.isOk = true) (hg : S.Grounded)
    (hp : S.Proper) {q : Place} (hq : S.Placed q) (hs : S.Outside [] [S.program] s)
    (hlooks : (visitAt (fuel + 1) q.tree s).Looks S.name m during)
    (hclean : (visitAt (fuel + 1) q.tree s).Undisturbed S.program S.name during s.2.events) :
    (visitAt (fuel + 1) q.tree s).FindsDeclared S.program S.name m during s.2.events := by
  have hargs : ∀ f args n, q.tree = .call f args n → ∀ a ∈ args,
      (S.mute.outside [] [q.tree, S.program]).staying.Both (record fuel a) (record fuel a) := by
    intro f args n ht
    have htop := hq.topLevel
    rw [ht] at htop
    cases htop
  have hstands := hq.standsAt hp (v := visitAt (fuel + 1) q.tree s) rfl hs.context
  obtain ⟨g, henv, hdefined⟩ := hq.env
  exact hs.finds ha hg hp (.inl rfl) henv hdefined hargs hstands hlooks hclean

/-- The lookup of `main` behind the top of the program. -/
theorem Outside.lookup_main (ha : (Analysis.analyze S.program).1.isOk = true) (hg : S.Grounded)
    (hp : S.Proper) {n : Nat} (hn : S.program = .program S.defined n)
    (hs : S.Outside [mainFrame] [] s)
    (hlooks : (visitAt (fuel + 1) callMain s).Looks S.name m during)
    (hclean : (visitAt (fuel + 1) callMain s).Undisturbed S.program S.name during s.2.events) :
    (visitAt (fuel + 1) callMain s).FindsDeclared S.program S.name m during s.2.events := by
  have hargs : ∀ f args n, callMain = .call f args n → ∀ a ∈ args,
      (S.mute.outside [mainFrame] [callMain]).staying.Both (record fuel a) (record fuel a) := by
    intro f args n ht
    obtain ⟨-, rfl, -⟩ := Tree.call.inj ht
    exact List.forall_mem_nil _
  obtain ⟨g, henv, hdefined⟩ := Env.afterAll_introduces [] S.defined
  let q : Place := ⟨Env.afterAll [[]] S.defined, false, false, callMain⟩
  have hstands : (visitAt (fuel + 1) callMain s).StandsAt S.program q :=
    .behind hn hs.context rfl rfl
  have hdefined : ∀ d ∈ g, d ∈ S.defined.flatMap Tree.introduces :=
    fun d hd => (hdefined d hd).resolve_left List.not_mem_nil
  exact hs.finds ha hg hp (.inr rfl) (q := q) henv hdefined hargs hstands hlooks hclean

end Setting

/-! ## The whole run -/

def lookupsOf (program : Tree) (name : String) : Scene where
  program := program
  name := name
  Tells v before := ∀ m during, v.Looks name m during →
    v.Undisturbed program name during before → v.FindsDeclared program name m during before

/-- Nothing is looked up for a body or for a program itself. -/
theorem Visit.Looks.not_whole {v : Visit} {name : String} {m : Machine} {during : List Event}
    (h : v.Looks name m during) : v.tree.isBody = false ∧ ∀ cs n, v.tree ≠ .program cs n := by
  obtain ⟨c, fuel, t, m₀⟩ := v
  cases h with
  | first hname =>
    change t.isBody = false ∧ ∀ cs n, t ≠ .program cs n
    cases t with
    | body => cases hname
    | program => cases hname
    | _ => exact ⟨rfl, nofun⟩
  | called hcall =>
    obtain rfl : t = _ := hcall
    exact ⟨rfl, nofun⟩
  | tag hdecl =>
    obtain rfl : t = _ := hdecl
    exact ⟨rfl, nofun⟩

theorem lookupsOf_ready {program : Tree} (hp : program.Grammatical .program)
    (ha : (Analysis.analyze program).1.isOk = true) (name : String) :
    (lookupsOf program name).Ready where
  grammatical := hp
  root fuel m m' during hlooks _ := by
    obtain ⟨cs, n, rfl⟩ := hp.exists_program
    exact absurd rfl (hlooks.not_whole.2 cs n)
  prepared S hS hproper hground := by
    obtain ⟨C, ds, g, es⟩ := S
    obtain rfl := hS
    refine ⟨⟨hproper, fun {A s} fuel hA _ m during hlooks _ => ?_,
      fun {A c q Δ s} fuel hA hq hs m during hlooks hclean => ?_⟩,
      fun {q s} fuel hq hs m during hlooks hclean => ?_,
      fun {s} fuel n hn hs m during hlooks hclean => ?_⟩
    · exact absurd hA.isBody (Bool.eq_false_iff.1 hlooks.not_whole.1)
    · exact hs.lookup ha hground hproper hA hq hlooks hclean
    · exact hs.lookup ha hground hproper hq hlooks hclean
    · exact hs.lookup_main ha hground hproper hn hlooks hclean

/-! ## Variables that nothing disturbs, by a computation -/

def Tree.takesAll (name : String) (args : List Tree) : Tree → Bool
  | .function _ _ ps _ _ =>
    !(namesOf (declarationsOf ps)).contains name || args.length == ps.length
  | _ => true

/-- Whether two trees declare the same variable of an arithmetic type. -/
def Tree.declaresAs : Tree → Tree → Bool
  | .varDecl (.var k i) (.typeName t j) n, .varDecl (.var k' i') (.typeName t' j') n' =>
    (k, i, t, j, n) == (k', i', t', j', n')
  | _, _ => false

theorem Tree.eq_of_declaresAs {t u : Tree} (h : t.declaresAs u = true) : t = u := by
  unfold declaresAs at h
  split at h
  · cases beq_iff_eq.1 h
    rfl
  · cases h

def Declaration.alike (d e : Declaration) : Bool :=
  d.name == e.name && d.meaning == e.meaning && d.tree.declaresAs e.tree

theorem Declaration.eq_of_alike {d e : Declaration} (h : d.alike e = true) : d = e := by
  simp only [alike, Bool.and_eq_true, beq_iff_eq] at h
  obtain ⟨name, meaning, tree⟩ := d
  obtain ⟨⟨rfl, rfl⟩, htree⟩ := h
  exact congrArg (mk e.name e.meaning) (Tree.eq_of_declaresAs htree)

def Event.executes (d : Declaration) (depth : Nat) : Event → Bool
  | .leave u (.ok _) _ => u.tree.declaresAs d.tree && (scopeDepths u.context).head? == some depth
  | _ => false

theorem Event.Executes.of_executes {e : Event} {d : Declaration} {depth : Nat}
    (h : e.executes d depth = true) : e.Executes d depth := by
  unfold executes at h
  split at h
  · obtain ⟨htree, hdepth⟩ := Bool.and_eq_true_iff.1 h
    exact ⟨Tree.eq_of_declaresAs htree, beq_iff_eq.1 hdepth⟩
  · cases h

def Tree.switched : Tree → List Declaration
  | .switch _ cs _ => declarationsOf cs
  | _ => []

/-- Whether the declarations of a name in a scope have been executed there, and those in switches of
a body, whose depth is bounded, are among them. -/
def settles (name : String) (bound : Nat) (body : Tree) (es : List Event)
    (x : List Declaration × Nat) : Bool :=
  (x.1.all fun d => d.name != name ||
    (es.takeWhile fun e => x.2 ≤ e.visit.context.length).any (·.executes d x.2)) &&
  body.allTo (fun t => t.switched.all fun d => d.name != name || x.1.any d.alike) bound

def Place.allTo (P : Place → Bool) : Nat → Place → Bool
  | 0, _ => false
  | bound + 1, p => P p && (p.parts .executed).all (allTo P bound)

theorem Place.of_allTo {P : Place → Bool} {bound : Nat} {p q : Place}
    (h : p.allTo P bound = true) (hq : p.Occurs .executed q) : P q = true := by
  induction hq generalizing bound with
  | self =>
    cases bound with
    | zero => cases h
    | succ bound => exact (Bool.and_eq_true_iff.1 h).1
  | part hr _ ih =>
    cases bound with
    | zero => cases h
    | succ bound => exact ih (List.all_eq_true.1 (Bool.and_eq_true_iff.1 h).2 _ hr)

/-- Whether a variable is evaluated and nothing disturbs it, wherever it stands. -/
def Visit.settled (program : Tree) (name : String) (bound : Nat) (before : List Event) (v : Visit) :
    Bool :=
  match v.frame with
  | b :: .call _ args _ :: _ =>
    v.tree.variable? == some name && program.allTo (Tree.takesAll name args) bound &&
      (v.since [] before).all (fun e => !e.valueless) &&
      (namesOf program.globals).count name == 1 &&
      (Place.start program).allTo (fun q => q.tree.variable? != some name ||
        (q.env.zip (scopeDepths v.context)).all (settles name bound b (v.since [] before))) bound
  | _ => false

theorem Tree.eq_var_of_variable? {t : Tree} {name : String} (h : t.variable? = some name) :
    ∃ k n, t = .var k n ∧ k.value.render = name := by
  cases t with
  | var k n => exact ⟨k, n, rfl, Option.some.inj h⟩
  | _ => cases h

theorem Visit.undisturbed_of_settled {program : Tree} {name : String} {bound : Nat}
    {before : List Event} {v : Visit} (h : v.settled program name bound before = true) :
    v.tree.variable? = some name ∧ v.Undisturbed program name [] before := by
  unfold settled at h
  split at h
  · next b f args i rest hframe =>
    simp only [Bool.and_eq_true, List.all_eq_true, Bool.not_eq_true', beq_iff_eq] at h
    obtain ⟨⟨⟨⟨hvar, htakes⟩, hsince⟩, hcount⟩, hplaces⟩ := h
    have hscopes (p : Place) (hp : v.StandsAt program p) : ∀ x ∈ p.env.zip (scopeDepths v.context),
        settles name bound b (v.since [] before) x = true := by
      cases hp with
      | behind _ _ hmain =>
        rw [hmain] at hvar
        cases hvar
      | within hchain htree =>
        have hall := Place.of_allTo hplaces hchain.occurs
        rw [htree, hvar] at hall
        simpa using hall
    refine ⟨hvar, hsince, ?_, ?_, ?_, ?_, Nat.le_of_eq hcount⟩
    · intro b' f' args' i' rest' hframe' type g ps n hwithin hin
      rw [hframe] at hframe'
      obtain ⟨-, rfl, -⟩ := Tree.call.inj (List.cons.inj (List.cons.inj hframe').2).1
      have hall := Tree.all_of_allTo htakes hwithin
      simpa [Tree.takesAll, hin] using hall
    · intro p hp x hx d hd hfind _
      obtain ⟨c, -, hc⟩ := List.exists_of_findSome?_eq_some hfind
      have hname : d.name = name := by simpa using List.find?_some hc
      have hdone := List.all_eq_true.1 (Bool.and_eq_true_iff.1 (hscopes p hp x hx)).1 d hd
      simp only [hname, bne_self_eq_false, Bool.false_or, List.any_eq_true] at hdone
      obtain ⟨e, he, hexecutes⟩ := hdone
      exact ⟨e, he, Event.Executes.of_executes hexecutes⟩
    · rintro p hp x hx d hname ⟨b', hb', s, cs, n, hwithin, hin⟩ _
      rw [hframe] at hb'
      obtain rfl := Option.some.inj hb'
      have hall := Tree.all_of_allTo (Bool.and_eq_true_iff.1 (hscopes p hp x hx)).2 hwithin
      have halike := List.all_eq_true.1 hall d hin
      simp only [hname, bne_self_eq_false, Bool.false_or, List.any_eq_true] at halike
      obtain ⟨e, he, heq⟩ := halike
      rwa [Declaration.eq_of_alike heq]
    · intro k i t j n hdecl
      rw [hdecl] at hvar
      cases hvar
  · cases h

/-! ## The result -/

/-- In the run of an accepted program, a lookup that nothing disturbs finds the binding that was
made by the declaration to which the analysis resolves the name. -/
theorem lookup_finds_declared {code : String} {program : Tree}
    (hp : Program.parse code = .ok program) (ha : (Analysis.analyze program).1.isOk = true)
    {fuel : Nat} {m : Machine} (hm : m.store = Store.empty) {later before : List Event} {v : Visit}
    (hv : history fuel program m = later ++ .enter v :: before) {name : String} {m' : Machine}
    {during : List Event} (hlooks : v.Looks name m' during)
    (hclean : v.Undisturbed program name during before) :
    v.FindsDeclared program name m' during before := by
  have hready := lookupsOf_ready (Program.parse_grammatical hp) ha name
  have htold : Told (lookupsOf program name).Tells (history fuel program m) := hready.told fuel hm
  rw [hv] at htold
  exact htold.of_history m' during hlooks hclean

/-- The evaluation that has begun last, with what happened before. -/
def begun? : List Event → Option (Visit × List Event)
  | .enter v :: before => some (v, before)
  | _ => none

/-- The variable of a switch that has been executed hides the one at the top. -/
theorem lookup_finds_declared_switch :
    ∃ program later v before,
      Program.parse ("int y; int f(int x)\x7b switch (x) \x7b case 5: int y; \x7d return y; \x7d" ++
        " int main()\x7b return f(5); \x7d") = .ok program ∧
      (Analysis.analyze program).1.isOk = true ∧
      history 20 program (Machine.start "") = later ++ .enter v :: before ∧
      v.Looks "y" v.before [] ∧ v.Undisturbed program "y" [] before ∧
      v.FindsDeclared program "y" v.before [] before := by
  have hrun : ((Program.parse
      ("int y; int f(int x)\x7b switch (x) \x7b case 5: int y; \x7d return y; \x7d" ++
        " int main()\x7b return f(5); \x7d")).toOption.any fun t => (Analysis.analyze t).1.isOk &&
          (begun? ((history 20 t (Machine.start "")).drop 7)).any fun x =>
            x.1.settled t "y" 12 x.2) = true := by
    decide +kernel
  obtain ⟨program, hp, haccepted, hfound⟩ := Program.exists_accepted hrun
  unfold begun? at hfound
  split at hfound
  · next v before hdrop =>
    obtain ⟨hvar, hclean⟩ := Visit.undisturbed_of_settled hfound
    have hhistory := (List.take_append_drop 7 (history 20 program (Machine.start ""))).symm
    rw [hdrop] at hhistory
    obtain ⟨k, i, htree, hname⟩ := Tree.eq_var_of_variable? hvar
    have hfirst : v.tree.firstName? = some "y" := by rw [htree, Tree.firstName?, hname]
    exact ⟨program, _, v, before, hp, haccepted, hhistory, .first hfirst, hclean,
      lookup_finds_declared hp haccepted rfl hhistory (.first hfirst) hclean⟩
  · cases hfound

end MiniC
