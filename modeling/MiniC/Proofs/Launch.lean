import MiniC.Proofs.Bodies

/-!
# Programs from their top on

The top of a program is executed while no function is running, so what it declares is bound in the
global scope. An initializer at the top is not executed: the program ends with a fault there. The
functions that run from `main` on see the global scope as the top of the program has left it.
-/

namespace MiniC

open Eval (callMain)
open Recorded (Told Leads entered left visitAt)

theorem Tree.Grammatical.exists_program {t : Tree} (h : t.Grammatical .program) :
    ∃ cs n, t = .program cs n := by
  cases h with
  | program n => exact ⟨_, n, rfl⟩

theorem Tree.Within.program_cases {u : Tree} {ds : List Tree} {n : Nat}
    (h : u.Within (.program ds n)) : u = .program ds n ∨ ∃ d ∈ ds, u.Within d := by
  generalize hp : Tree.program ds n = p at h
  induction h with
  | self => exact .inl rfl
  | @part u v p hv _ ih =>
    subst hp
    obtain rfl | ⟨d, hd, hvd⟩ := ih rfl
    · exact .inr ⟨u, hv, .self u⟩
    · exact .inr ⟨d, hd, hvd.ofPart hv⟩

theorem Value.DeclaredIn.mono {v : Value} {ds : List Tree} (h : v.DeclaredIn (.program ds 0))
    (more : List Tree) : v.DeclaredIn (.program (ds ++ more) 0) := by
  cases v with
  | function type name ps b =>
    obtain ⟨i, hi⟩ := h
    obtain hi | ⟨d, hd, hi⟩ := hi.program_cases
    · cases hi
    · have hd : d ∈ Tree.parts (.program (ds ++ more) 0) := List.mem_append_left _ hd
      exact ⟨i, hi.trans (.part hd (.self _))⟩
  | _ => trivial

def mainFrame : Frame :=
  ⟨"main", [⟨"main" ++ ".scope_00", []⟩]⟩

namespace Setting

def Grounded (S : Setting) : Prop :=
  (namesOf S.program.globals).count S.name ≤ 1 →
    Option.Rel (S.Made S.first)
      ((S.defined.flatMap Tree.introduces).find? (·.name = S.name))
      (S.globals.entries.get? S.name)

structure Outside (S : Setting) (fs : List Frame) (c : List Tree) (s : Machine × Journal) : Prop
    extends S.Base s where
  context : s.2.context = c
  first : S.first <:+ s.2.events
  frames : s.1.store.frames = fs

variable {S : Setting} {fs : List Frame} {c : List Tree} {s s' : Machine × Journal} {t : Tree}
  {fuel : Nat}

def outside (S : Setting) (fs : List Frame) (c : List Tree) : S.Standing c where
  Holds := S.Outside fs c
  base h := h.toBase
  context h := h.context
  first h := h.first
  quiet h hheld hsame :=
    { told := h.told
      globals := hsame.1.trans h.globals
      held := hheld
      context := h.context
      first := h.first
      frames := hsame.2.trans h.frames }

theorem Outside.entered (h : S.Outside fs c s)
    (htells : S.Tells (visitAt fuel t s) s.2.events) :
    S.Outside fs (t :: c) (Recorded.entered fuel t s) where
  told := ⟨htells, h.told⟩
  globals := h.globals
  held := h.held
  context := congrArg (List.cons t) h.context
  first := h.first.trans (List.suffix_cons _ _)
  frames := h.frames

structure Placed (S : Setting) (q : Place) : Prop where
  topLevel : q.tree.isTopLevel = true
  chain : (Place.start S.program).Chain .executed [S.program] q
  env : ∃ g, q.env = [g] ∧ ∀ d ∈ g, d ∈ S.defined.flatMap Tree.introduces

structure Prepared (S : Setting) : Prop extends S.Ready where
  outer : ∀ {q : Place} {s : Machine × Journal} (fuel : Nat), S.Placed q →
    S.Outside [] [S.program] s → S.Tells (visitAt (fuel + 1) q.tree s) s.2.events
  main : ∀ {s : Machine × Journal} (fuel n : Nat), S.program = .program S.defined n →
    S.Outside [mainFrame] [] s → S.Tells (visitAt (fuel + 1) callMain s) s.2.events

end Setting

namespace Scene

variable {C : Scene} {done rest : List Tree} {t : Tree} {s : Machine × Journal} {fuel n : Nat}

def settingAt (C : Scene) (done : List Tree) (s : Machine × Journal) : Setting :=
  ⟨C, done, s.1.store.globals, s.2.events⟩

structure AtTop (C : Scene) (done : List Tree) (c : List Tree) (s : Machine × Journal) : Prop where
  grounded : (C.settingAt done s).Grounded
  outside : (C.settingAt done s).Outside [] c s

structure Ready (C : Scene) : Prop where
  grammatical : C.program.Grammatical .program
  root : ∀ (fuel : Nat) (m : Machine), C.Tells (visitAt fuel C.program (m, .empty)) []
  prepared : ∀ S : Setting, S.toScene = C → S.Proper → S.Grounded → S.Prepared

/-! ## Declarations at the top -/

theorem placed_of_append (hp : C.program = .program (done ++ t :: rest) n)
    (ht : t.isTopLevel = true) (s : Machine × Journal) :
    ∃ q : Place, q.tree = t ∧ (C.settingAt done s).Placed q := by
  obtain ⟨d, hd, hdone⟩ := Env.afterAll_introduces [] done
  refine ⟨⟨[d], false, false, t⟩, rfl, ht, .part .self ?_, d, rfl,
    fun x hx => (hdone x hx).resolve_left List.not_mem_nil⟩
  change _ ∈ (Place.start C.program).parts .executed
  rw [hp]
  change _ ∈ Place.each ⟨[[]], false, false, _⟩ (done ++ t :: rest)
  rw [Place.each_append, hd]
  exact List.mem_append_right _ (List.mem_cons_self ..)

/-- What a declaration at the top introduces is bound in the global scope. -/
theorem rel_of_introduces {es : List Event} {st st' : Store} {e : Event}
    (hcount : (namesOf C.program.globals).count C.name ≤ 1)
    (hp : C.program = .program (done ++ t :: rest) n)
    (hold : Option.Rel (C.Made es) ((done.flatMap Tree.introduces).find? (·.name = C.name))
      (st.globals.entries.get? C.name))
    (h : Store.Introduces (namesOf t.introduces) st st')
    (hmakes : ∀ d ∈ t.introduces, ∀ b, st'.Binds d.name b → d.Makes C.program b e) :
    Option.Rel (C.Made (e :: es))
      (((done ++ [t]).flatMap Tree.introduces).find? (·.name = C.name))
      (st'.globals.entries.get? C.name) := by
  rw [List.flatMap_append, List.find?_append, List.flatMap_singleton]
  by_cases hname : C.name ∈ namesOf t.introduces
  · have hdone : C.name ∉ namesOf (done.flatMap Tree.introduces) := by
      intro hin
      rw [hp, Tree.globals, List.flatMap_append, List.flatMap_cons] at hcount
      simp only [namesOf, List.map_append, List.count_append] at hcount hin hname
      have hfirst := List.count_pos_iff.2 hin
      have hsecond := List.count_pos_iff.2 hname
      omega
    rw [find?_eq_none_iff.2 hdone, Option.none_or]
    obtain ⟨b, hb⟩ := Option.isSome_iff_exists.1 (h.bound C.name hname)
    cases hfind : t.introduces.find? (·.name = C.name) with
    | none => exact absurd hname (find?_eq_none_iff.1 hfind)
    | some d =>
      have hd : d ∈ t.introduces := List.mem_of_find?_eq_some hfind
      have hdname : d.name = C.name := by simpa using List.find?_some hfind
      rw [hb]
      refine .some ⟨e, List.mem_cons_self .., hmakes d hd b ⟨st'.globals, ?_, hdname ▸ hb⟩⟩
      simp [Store.currentScope?, h.frames]
  · rw [find?_eq_none_iff.2 hname, Option.or_none, h.others C.name hname]
    exact Option.Rel.mono (Made.mono fun e he => List.mem_cons_of_mem _ he) hold

theorem Ready.prepared_at (h : C.Ready) (hp : C.program = .program (done ++ rest) n) {c : List Tree}
    (hs : C.AtTop done c s) : (C.settingAt done s).Prepared :=
  h.prepared _ rfl ⟨h.grammatical, rest, n, hp⟩ hs.grounded

/-- A declaration at the top is executed. -/
theorem Ready.declaration (h : C.Ready) (hp : C.program = .program (done ++ t :: rest) n)
    (ht : t.isTopLevel = true) {p : Run Unit} (hrule : Eval.rule (record fuel) fuel t = (do
      let _ ← (liftM p : Recorded Unit)
      return .nothing))
    (hintro : ∀ m a m', m.store.frames = [] → p.execute m = (.ok a, m') →
      Store.Introduces (namesOf t.introduces) m.store m'.store)
    (htree : ∀ d ∈ t.introduces, d.tree = t)
    (hkeeps : p.Keeps (Value.DeclaredIn (.program (done ++ [t]) 0)) .mild fun _ => True) :
    Leads C.Tells (C.AtTop done [C.program]) (record (fuel + 1) t)
      fun _ => C.AtTop (done ++ [t]) [C.program] := by
  refine .of_each fun s hs => ?_
  obtain ⟨q, rfl, hq⟩ := placed_of_append hp ht s
  have htells : C.Tells (visitAt (fuel + 1) q.tree s) s.2.events :=
    (h.prepared_at hp hs).outer fuel hq hs.outside
  have hdeclares : Leads C.Tells (· = entered (fuel + 1) q.tree s)
      (Eval.rule (record fuel) fuel q.tree) fun _ s' =>
        (∃ a, p.execute s.1 = (.ok a, s'.1)) ∧ s'.2 = (entered (fuel + 1) q.tree s).2 := by
    rw [hrule]
    have htold (s' : Machine × Journal) (hs' : s'.2 = (entered (fuel + 1) q.tree s).2) :
        Told C.Tells s'.2.events := by
      rw [hs']
      exact ⟨htells, hs.outside.told⟩
    refine Leads.bind (.lift (fun s' hs' => htold s' (hs' ▸ rfl)) ?_) fun a =>
      .pure (fun s' hs' => htold s' hs'.2) fun s' hs' => hs'
    rintro s' a m rfl hm
    exact ⟨⟨a, hm⟩, rfl⟩
  refine .record (fun s' hs' => hs' ▸ rfl) hdeclares fun s' v s₁ hs' ⟨⟨a, hm⟩, hjournal⟩ => ?_
  subst hs'
  obtain ⟨m, j⟩ := s₁
  obtain rfl : j = (entered (fuel + 1) q.tree s').2 := hjournal
  have hnew : Store.Introduces (namesOf q.tree.introduces) s'.1.store m.store :=
    hintro s'.1 a m hs.outside.frames hm
  obtain ⟨hheld, -⟩ := hkeeps s'.1 fun x v hv => (hs.outside.held x v hv).mono [q.tree]
  rw [hm] at hheld
  constructor
  · intro hcount
    refine rel_of_introduces hcount hp (Option.Rel.mono (Made.mono ?_) (hs.grounded hcount)) hnew ?_
    · exact fun e he => List.mem_cons_of_mem _ he
    · exact fun d hd b hb => ⟨hb, (htree d hd).symm⟩
  · exact ⟨⟨⟨htells, hs.outside.told⟩, rfl, hheld⟩, hs.outside.context, List.suffix_refl _,
      hnew.frames⟩

theorem Ready.child (h : C.Ready) (hp : C.program = .program (done ++ t :: rest) n)
    (htop : t.isTopLevel = true) (ht : t.Grammatical .topLevel) :
    Leads C.Tells (C.AtTop done [C.program]) (record fuel t)
      fun _ => C.AtTop (done ++ [t]) [C.program] := by
  cases fuel with
  | zero => exact .throw _ fun _ hs => hs.outside.told
  | succ fuel =>
    have htree : ∀ d ∈ t.introduces, d.tree = t := fun d hd => Tree.tree_of_mem_introduces ht hd
    have hfine := Value.declaredIn_of_isFunction (p := .program (done ++ [t]) 0)
    cases ht with
    | @function type b ps f i =>
      have hwithin : Tree.Within (.function type f ps b i)
          (.program (done ++ [.function type f ps b i]) 0) :=
        Tree.Within.ofPart (.self (.program (done ++ [.function type f ps b i]) 0))
          (List.mem_append_right _ (List.mem_singleton.2 rfl))
      refine h.declaration hp rfl rfl (fun m a m' hm hr => ?_) htree
        (Eval.define_keeps f hfine ⟨i, hwithin⟩)
      obtain ⟨b', hb⟩ := Eval.define_bindsName f (.function type f ps b) m a m' hr
      exact hb.introduces hm
    | library l i =>
      exact h.declaration hp rfl rfl (fun m a m' hm hr => Eval.includeLibrary_introduces hm hr)
        htree (Eval.includeLibrary_keeps hfine l)
    | declared hd =>
      cases hd with
      | @varDecl type k i j =>
        refine h.declaration hp rfl rfl (fun m a m' hm hr => ?_) htree
          (Eval.declare_keeps hfine (.var k i) type)
        obtain ⟨b, hb⟩ := Eval.declare_bindsName k i type m a m' hr
        exact hb.introduces hm
      | structDecl name fields =>
        refine h.declaration hp rfl rfl (fun m a m' hm hr => ?_) htree
          (Eval.defineStruct_keeps hfine name fields)
        obtain ⟨b, hb⟩ := Eval.defineStruct_bindsName name fields m a m' hr
        exact hb.introduces hm
      | initializer => cases htop

/-- The declarations at the top are executed one after the other. -/
theorem Ready.children (h : C.Ready) (hp : C.program = .program (done ++ rest) n)
    (hrest : ∀ t ∈ rest, t.Grammatical .topLevel) :
    Leads C.Tells (C.AtTop done [C.program]) (Eval.program (record fuel) rest)
      fun _ => C.AtTop (done ++ rest) [C.program] := by
  induction rest generalizing done with
  | nil =>
    rw [List.append_nil]
    exact .pure (fun _ hs => hs.outside.told) fun _ hs => hs
  | cons t rest ih =>
    obtain ⟨ht, hrest⟩ := List.forall_mem_cons.1 hrest
    unfold Eval.program
    split
    · next htop =>
      refine (h.child hp htop ht).bind fun _ => ?_
      have hp' : C.program = .program ((done ++ [t]) ++ rest) n := by
        rw [hp, List.append_assoc, List.singleton_append]
      have hrest := ih hp' hrest
      rw [List.append_assoc, List.singleton_append] at hrest
      exact hrest
    · exact .throw _ fun _ hs => hs.outside.told

/-! ## The whole run -/

theorem Ready.start (h : C.Ready) {m : Machine} (hm : m.store = Store.empty) :
    C.AtTop [] [C.program] (entered fuel C.program (m, .empty)) := by
  constructor
  · intro _
    change Option.Rel _ none (m.store.globals.entries.get? C.name)
    rw [hm]
    exact .none
  · refine ⟨⟨⟨h.root fuel m, trivial⟩, rfl, ?_⟩, rfl, List.suffix_refl _, ?_⟩
    · change m.store.Holds _
      rw [hm]
      exact Store.holds_empty _
    · change m.store.frames = []
      rw [hm]
      rfl

theorem AtTop.left {c : List Tree} {s' : Machine × Journal} (h : C.AtTop done (t :: c) s')
    (hc : s.2.context = c) (r : Except Fault Value) :
    C.AtTop done c (Recorded.left fuel t s r s') := by
  obtain ⟨hgrounded, ⟨htold, -, hheld⟩, -, -, hframes⟩ := h
  constructor
  · exact fun hcount => Option.Rel.mono (Made.mono fun e he => List.mem_cons_of_mem _ he)
      (hgrounded hcount)
  · exact ⟨⟨htold, rfl, hheld⟩, hc, List.suffix_refl _, hframes⟩

/-- The top of a program is executed. -/
theorem Ready.top (h : C.Ready) {cs : List Tree} (hp : C.program = .program cs n) {m : Machine}
    (hm : m.store = Store.empty) :
    Leads C.Tells (· = (m, .empty)) (record fuel C.program) fun _ => C.AtTop cs [] := by
  cases fuel with
  | zero => exact .throw _ fun s hs => hs ▸ trivial
  | succ fuel =>
    have hcs : ∀ t ∈ cs, t.Grammatical .topLevel := by
      have hg := h.grammatical
      rw [hp] at hg
      cases hg with
      | program _ hc => exact hc
    have hrule : Leads C.Tells (C.AtTop [] [C.program]) (Eval.rule (record fuel) fuel C.program)
        fun _ => C.AtTop cs [C.program] := by
      have hall : Leads C.Tells (C.AtTop [] [C.program]) (Eval.program (record fuel) cs)
          fun _ => C.AtTop cs [C.program] :=
        h.children hp hcs
      rw [hp] at hall ⊢
      exact hall
    refine .record (fun s hs => hs ▸ h.start hm) hrule fun s v s' hs hs' => ?_
    exact hs'.left (hs ▸ rfl) _

/-- `main` is called when the top of the program has been executed. -/
theorem Ready.main (h : C.Ready) {cs : List Tree} (hp : C.program = .program cs n)
    (hs : C.AtTop cs [] s) :
    Leads C.Tells (· = ({ s.1 with store := s.1.store.pushFrame "main" }, s.2))
      (record fuel callMain) fun _ s' => Told C.Tells s'.2.events := by
  have hp' : C.program = .program (cs ++ []) n := by rw [List.append_nil, hp]
  have hprepared : (C.settingAt cs s).Prepared := h.prepared_at hp' hs
  have hmain : (C.settingAt cs s).Outside [mainFrame] []
      ({ s.1 with store := s.1.store.pushFrame "main" }, s.2) := by
    obtain ⟨⟨htold, hglobals, hheld⟩, hcontext, hfirst, hframes⟩ := hs.outside
    exact ⟨⟨htold, hglobals, hheld⟩, hcontext, hfirst, congrArg (List.cons _) hframes⟩
  cases fuel with
  | zero => exact .throw _ fun s' hs' => hs' ▸ hs.outside.told
  | succ fuel =>
    have hrule := (hprepared.follows fuel).2.call hprepared.toProper
      ((C.settingAt cs s).outside [mainFrame] [callMain]) (List.forall_mem_nil _)
        (hmain.entered (hprepared.main fuel n hp hmain))
    refine .record (fun s' hs' => hs' ▸ rfl) hrule fun s' v s₁ _ hs₁ => ?_
    obtain ⟨hs₁, -⟩ | ⟨-, s₂, -, hr⟩ := hs₁
    · exact hs₁.told
    · exact hr.told

/-- What is told of each evaluation holds in the history of a program. -/
theorem Ready.told (h : C.Ready) (fuel : Nat) {m : Machine} (hm : m.store = Store.empty) :
    Told C.Tells (history fuel C.program m) := by
  obtain ⟨cs, n, hp⟩ := h.grammatical.exists_program
  have hpush : Leads C.Tells (C.AtTop cs [])
      (liftM (Run.changeStore fun s => .ok (s.pushFrame "main"))) fun _ s' =>
        ∃ s, C.AtTop cs [] s ∧ s' = ({ s.1 with store := s.1.store.pushFrame "main" }, s.2) := by
    refine .lift (fun s hs => hs.outside.told) fun s a m' hs hr => ⟨s, hs, ?_⟩
    rw [Run.execute_changeStore] at hr
    obtain ⟨-, rfl⟩ := Prod.mk.inj hr
    rfl
  have hmain : Leads C.Tells (fun s' => ∃ s, C.AtTop cs [] s ∧
      s' = ({ s.1 with store := s.1.store.pushFrame "main" }, s.2)) (record fuel callMain)
        fun _ s' => Told C.Tells s'.2.events := by
    rintro s' ⟨s, hs, rfl⟩
    exact h.main hp hs _ rfl
  have hrun : Leads C.Tells (· = (m, .empty)) (Eval.executeBy (record fuel) C.program)
      fun _ s' => Told C.Tells s'.2.events := by
    have hlift {α : Type} (p : Run α) : Leads C.Tells (fun s => Told C.Tells s.2.events)
        (liftM p) fun _ s => Told C.Tells s.2.events :=
      .lift (fun s hs => hs) fun s a m' hs _ => hs
    refine (h.top hp hm).bind fun _ => hpush.bind fun _ => hmain.bind fun v => ?_
    exact (hlift _).bind fun _ => hlift _
  exact (hrun (m, .empty) rfl).1

end Scene

/-! ## Where evaluations stand -/

theorem Activation.Located.around {A : Activation} {c : List Tree} {q : Place}
    (h : A.Located c q) (hbody : A.body.tree.isBody = true) :
    ∃ ts, A.body.Chain .executed (ts ++ [A.body.tree]) q ∧
      (c.takeWhile fun t => !t.isBody) = ts.filter (fun t => !t.isLabel) ∧
      (c.dropWhile fun t => !t.isBody) = A.frame ∧ ∀ t ∈ ts, t.isBody = false := by
  obtain ⟨ts, hchain, rfl, hts⟩ := h
  have hall : ∀ t ∈ ts.filter (fun t => !t.isLabel), (!t.isBody) = true := by
    intro t ht
    simp [hts t (List.mem_filter.1 ht).1]
  refine ⟨ts, hchain, ?_, ?_, hts⟩
  · rw [List.takeWhile_append_of_pos hall, Activation.frame, List.takeWhile_cons_of_neg]
    · exact List.append_nil _
    · simp [hbody]
  · rw [List.dropWhile_append_of_pos hall, Activation.frame, List.dropWhile_cons_of_neg]
    simp [hbody]

/-- An evaluation in a body stands where its tree stands in the body. -/
theorem Setting.Runs.standsAt {S : Setting} {A : Activation} {c : List Tree} {q : Place}
    (hA : S.Runs A) (hq : A.Located c q) {v : Visit} (htree : v.tree = q.tree)
    (hcontext : v.context = c) : v.StandsAt S.program q := by
  obtain ⟨us, hus⟩ := hA.chain
  obtain ⟨ts, hchain, haround, -, hts⟩ := hq.around hA.isBody
  refine .within (hus.trans hchain) htree.symm ?_
  rw [Visit.around, hcontext, haround, List.append_assoc, List.takeWhile_append_of_pos]
  · rw [List.singleton_append, List.takeWhile_cons_of_neg (by simp [hA.isBody]), List.append_nil]
  · intro t ht
    simp [hts t ht]

/-- An evaluation at the top of the program stands where its tree stands. -/
theorem Setting.Placed.standsAt {S : Setting} (hp : S.Proper) {q : Place} (hq : S.Placed q)
    {v : Visit} (htree : v.tree = q.tree) (hcontext : v.context = [S.program]) :
    v.StandsAt S.program q := by
  refine .within hq.chain htree.symm ?_
  obtain ⟨us, n, hprogram⟩ := hp.begins
  rw [Visit.around, hcontext, hprogram]
  rfl

theorem standing_ready {program : Tree} (hp : program.Grammatical .program) :
    Scene.Ready ⟨program, "", fun v _ => v.tree.isExpression = true →
      ∃ p, v.StandsAt program p⟩ where
  grammatical := hp
  root fuel m ht := by
    obtain ⟨cs, n, rfl⟩ := hp.exists_program
    cases ht
  prepared S hS hproper _ := by
    obtain ⟨C, ds, g, es⟩ := S
    obtain rfl := hS
    refine ⟨⟨hproper, fun {A s} fuel hA _ ht => ?_, fun {A c q Δ s} fuel hA hq hs _ => ?_⟩,
      fun {q s} fuel hq hs _ => ?_, fun {s} fuel n hn hs _ => ?_⟩
    · have hbody := hA.isBody
      cases hb : A.body.tree with
      | body =>
        simp only [visitAt, hb] at ht
        cases ht
      | _ =>
        rw [hb] at hbody
        cases hbody
    · exact ⟨q, hA.standsAt hq.located rfl hs.context⟩
    · exact ⟨q, hq.standsAt hproper rfl hs.context⟩
    · exact ⟨_, .behind hn hs.context rfl rfl⟩

/-- Every expression that the run of a program evaluates stands somewhere in the program. -/
theorem history_standsAt {program : Tree} (hp : program.Grammatical .program) {fuel : Nat}
    {m : Machine} (hm : m.store = Store.empty) {v : Visit}
    (hv : .enter v ∈ history fuel program m) (ht : v.tree.isExpression = true) :
    ∃ p, v.StandsAt program p := by
  obtain ⟨later, before, hhistory⟩ := List.append_of_mem hv
  have htold := (standing_ready hp).told fuel hm
  rw [hhistory] at htold
  exact htold.of_history ht

end MiniC
