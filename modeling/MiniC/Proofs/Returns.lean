import MiniC.Proofs.Frames
import MiniC.Proofs.Journal

/-!
# What a return ends

A return gives its value to whatever it stands in. The body of a function ends with the value of a
return among its own statements, and then the call converts this value. But a block, a condition, a
loop or a switch gives the value of a return no meaning: the body goes on behind the statement in
which the return stands, and if nothing stands there the call has no value.
-/

namespace MiniC

variable {p t : Tree} {fuel : Nat} {m m' : Machine} {d args : List Tree} {s' : Machine × Journal}
  {r : Visit}

def Tree.isBody : Tree → Bool
  | body .. => true
  | _ => false

def Event.isEnter : Event → Bool
  | enter _ => true
  | leave .. => false

/-- The trees around an evaluation up to the body in which it happens. -/
def Visit.around (v : Visit) : List Tree :=
  v.context.takeWhile fun t => !t.isBody

/-- An evaluation happens in the body of the function that is called. -/
def Visit.InBodyOf (r c : Visit) : Prop :=
  ∃ b, b.isBody = true ∧ r.context = r.around ++ b :: c.tree :: c.context

theorem Tree.Grammatical.not_isBody (ht : t.Grammatical .expression) : t.isBody = false := by
  cases ht <;> rfl

/-- An expression, or nothing where one could stand, is no return. -/
theorem Tree.Grammatical.not_isReturn (ht : t.Grammatical .optional) : t.isReturn = false := by
  cases ht with
  | absentExpression => rfl
  | ofExpression he => cases he <;> rfl

theorem Tree.Grammatical.optional_operand {u : Tree} (ht : t.Grammatical .optional)
    (hu : u ∈ t.operands) : u.Grammatical .optional := by
  cases ht with
  | absentExpression => exact absurd hu List.not_mem_nil
  | ofExpression he => exact .ofExpression (he.operand hu)

theorem Tree.Grammatical.optional_not_touchesScopes (ht : t.Grammatical .optional) :
    t.touchesScopes = false := by
  cases ht with
  | absentExpression => rfl
  | ofExpression he => exact he.not_touchesScopes

theorem Tree.eq_returning (hr : t.isReturn = true) : ∃ e n, t = .returning e n := by
  cases t with
  | returning e n => exact ⟨e, n, rfl⟩
  | _ => cases hr

theorem Tree.Grammatical.returned {k : Category} (ht : Grammatical k t) (hr : t.isReturn = true) :
    ∃ e n, t = .returning e n ∧ e.Grammatical .optional := by
  obtain ⟨e, n, rfl⟩ := t.eq_returning hr
  cases ht.own with
  | returning n hv => exact ⟨_, n, rfl, hv⟩
  | simple he => cases he with
    | ofExpression he => cases he

namespace Recorded

/-! ## Returns inside an expression -/

def Foreign (c : List Tree) (e : Event) : Prop :=
  ∃ inner, e.visit.context = inner ++ c ∧
    (e.visit.tree.isReturn = true → ∃ b ∈ inner, b.isBody = true)

def SoundForeign (p : Tree) (inner c : List Tree) (s : Machine × Journal) : Prop :=
  Sound p s ∧ Happens (inner ++ c) (Foreign c) s

theorem Keeps.and {α : Type} {I J : Machine × Journal → Prop} {P Q : α → Prop} {q : Recorded α}
    (hI : Keeps I P q) (hJ : Keeps J Q q) : Keeps (fun s => I s ∧ J s) P q :=
  fun s hs => ⟨⟨(hI s hs.1).1, (hJ s hs.2).1⟩, (hI s hs.1).2⟩

theorem SoundForeign.lift {inner c : List Tree} {α : Type} {R : Change} {Q : α → Prop} {q : Run α}
    (hq : q.Keeps (Value.DeclaredIn p) R Q) : Keeps (SoundForeign p inner c) Q (liftM q) :=
  fun s hs => ⟨⟨(Sound.lift hq s hs.1).1, hs.2⟩, (Sound.lift hq s hs.1).2⟩

def foreignness (p : Tree) (inner c : List Tree) : Correspondence Recorded Recorded where
  Fine := Value.DeclaredIn p
  fine := Value.declaredIn_of_isFunction
  Rel Q q _ := Keeps (SoundForeign p inner c) Q q
  pure ha := .pure ha
  bind hp hf := hp.bind hf
  quiet hp := SoundForeign.lift hp

/-- What happens in a body is not about a return in the body from which it is called. -/
theorem record_body_foreign (fuel : Nat) {b : Tree} (hb : b.isBody = true) (hp : p.Reachable b)
    (inner c : List Tree) :
    Keeps (SoundForeign p inner c) (Value.DeclaredIn p) (record fuel b) := by
  refine (record_sound p fuel hp).and (record_happens fuel b (inner ++ c) _ ?_ ?_)
  · intro e hc ht
    refine ⟨inner, hc, fun hr => ?_⟩
    rw [ht] at hr
    cases b <;> cases hb
    cases hr
  · rintro e ⟨more, he⟩
    refine ⟨more ++ b :: inner, by rw [he]; simp, fun _ => ⟨b, by simp, hb⟩⟩

/-- The value of a return is evaluated without a return of the current body. -/
theorem record_foreign {k : Tree.Category} (hg : p.Grammatical k) (fuel : Nat) (hp : p.Reachable t)
    (ht : t.Grammatical .optional) (inner c : List Tree) :
    Keeps (SoundForeign p inner c) (Value.DeclaredIn p) (record fuel t) := by
  induction fuel generalizing t inner with
  | zero => exact .throw _
  | succ fuel ih =>
    have hop (u : Tree) (hu : u ∈ t.operands) :
        Keeps (SoundForeign p (t :: inner) c) (Value.DeclaredIn p) (record fuel u) :=
      ih (hp.operand hu) (ht.optional_operand hu) (t :: inner)
    have hcalls : (foreignness p (t :: inner) c).Calls (record fuel) (record fuel) := by
      intro type name params body args hf ha
      obtain ⟨n, hn⟩ := hf
      obtain ⟨j, hj⟩ := hn.grammatical hg
      obtain ⟨cs, i, rfl, -⟩ := hj.function_isBody
      have hbody : p.Reachable (.body cs i) := .inl (hn.ofPart (by simp [Tree.parts]))
      have hfine := Value.declaredIn_of_isFunction (p := p)
      refine (SoundForeign.lift (Eval.enterFunction_keeps hfine name params ha)).bind fun _ _ => ?_
      refine (record_body_foreign fuel rfl hbody (t :: inner) c).bind fun v _ => ?_
      exact SoundForeign.lift (Eval.leaveFunction_keeps hfine type v)
    have hrule : (foreignness p (t :: inner) c).Both (Eval.rule (record fuel) fuel t)
        (Eval.rule (record fuel) fuel t) := by
      refine (foreignness p (t :: inner) c).rule fuel t hop ?_ fun hs => ?_
      · rintro f args n rfl
        exact (foreignness p _ c).call hcalls f hop
      · rw [ht.optional_not_touchesScopes] at hs
        cases hs
    intro s hs
    obtain ⟨hsound, hcontext, hE⟩ := hs
    have hself (e : Event) (hc : e.visit.context = inner ++ c) (he : e.visit.tree = t) :
        Foreign c e := by
      refine ⟨inner, hc, fun hr => ?_⟩
      rw [he, ht.not_isReturn] at hr
      cases hr
    have hin : SoundForeign p (t :: inner) c (entered (fuel + 1) t s) := by
      refine ⟨hsound.entered hp, ?_, ?_⟩
      · exact congrArg (List.cons t) hcontext
      · exact List.forall_mem_cons.2 ⟨hself _ hcontext rfl, hE⟩
    obtain ⟨⟨hsound', -, hE'⟩, hQ⟩ := hrule _ hin
    rw [execute_record]
    refine ⟨⟨hsound.left hsound' hp, hcontext, ?_⟩, hQ⟩
    exact List.forall_mem_cons.2 ⟨hself _ hcontext rfl, hE'⟩

/-! ## Returns inside a body -/

/-- Where an event stands in two lists one after the other. -/
theorem event_of_append {A B later earlier : List Event} {e : Event}
    (h : A ++ B = later ++ e :: earlier) :
    (∃ rest, A = later ++ e :: rest ∧ earlier = rest ++ B) ∨
      ∃ front, later = A ++ front ∧ B = front ++ e :: earlier := by
  obtain ⟨front, hl, hB⟩ | ⟨rest, hA, he⟩ := List.append_eq_append_iff.1 h
  · exact .inr ⟨front, hl, hB⟩
  · cases rest with
    | nil => exact .inr ⟨[], by simpa using hA.symm, by simpa using he.symm⟩
    | cons e' rest =>
      obtain ⟨rfl, rfl⟩ := List.cons.inj he
      exact .inl ⟨rest, hA, rfl⟩

theorem body_adds (fuel : Nat) (cs : List Tree) :
    Adds (fun _ => True) (Eval.body (record fuel) cs) := by
  have h : adding.Both (Eval.body (record fuel) cs) (Eval.body (record fuel) cs) :=
    adding.body fun c _ => record_adds fuel c
  exact h

/-- The first statement of a body is begun. -/
theorem body_enters {c : Tree} {cs : List Tree} {w : Value}
    (h : (Eval.body (record fuel) (c :: cs)).execute (startAt m d) = (.ok w, s')) :
    ∃ e ∈ s'.2.events, e.isEnter = true := by
  obtain ⟨v, s₁, h₁, h₂⟩ := execute_bind_ok h
  cases fuel with
  | zero => cases h₁
  | succ fuel =>
    obtain ⟨s₂, -, -, hevents, -⟩ := record_events h₁
    have hmem : Event.enter ⟨d, fuel + 1, c, m⟩ ∈ s₁.2.events := by simp [hevents]
    split at h₂
    · obtain ⟨-, rfl⟩ : v = w ∧ s₁ = s' := by simpa using h₂
      exact ⟨_, hmem, rfl⟩
    · obtain ⟨s₃, -, -, hs'⟩ := (body_adds _ cs).ok h₂
      rw [hs']
      exact ⟨_, List.mem_append_right _ hmem, rfl⟩

/-- A return that is evaluated during a statement of a body: it is this statement, or it stands
inside it and this statement is not a return. -/
theorem statement_return {k : Tree.Category} (hg : p.Grammatical k) {c : Tree}
    (hc : c.Grammatical .item) (hp : c.Within p) (hm : m.store.Holds (Value.DeclaredIn p))
    {v : Value} (h : (record fuel c).execute (startAt m d) = (.ok v, s')) {x : Value}
    (hr : r.tree.isReturn = true) {inside : List Tree} (hin : r.context = inside ++ d)
    (hown : ∀ t ∈ inside, t.isBody = false) {later earlier : List Event}
    (hev : s'.2.events = later ++ .leave r (.ok x) m' :: earlier) :
    (inside = [] ∧ c.isReturn = true ∧ x = v ∧ later = []) ∨
      (inside ≠ [] ∧ c.isReturn = false) := by
  cases fuel with
  | zero => cases h
  | succ fuel =>
    obtain ⟨s₁, hrule, -, hevents, hinside⟩ := record_events h
    rw [hevents] at hev
    cases later with
    | nil =>
      obtain ⟨hleave, -⟩ := List.cons.inj hev
      obtain ⟨rfl, hx, -⟩ := Event.leave.inj hleave
      exact .inl ⟨List.self_eq_append_left.1 hin, hr, (Except.ok.inj hx).symm, rfl⟩
    | cons e later =>
      obtain ⟨-, hev⟩ := List.cons.inj hev
      have hmem : Event.leave r (.ok x) m' ∈ s₁.2.events := by
        have hall : Event.leave r (.ok x) m' ∈ s₁.2.events ++ [.enter ⟨d, fuel + 1, c, m⟩] := by
          simp [hev]
        simpa using hall
      obtain ⟨inner, hinner⟩ := hinside _ hmem
      have hcut : inside = inner ++ [c] := by
        refine List.append_cancel_right (hin.symm.trans (hinner.trans ?_))
        rw [List.append_assoc, List.singleton_append]
      refine .inr ⟨by simp [hcut], Bool.eq_false_iff.2 fun hret => ?_⟩
      -- Otherwise the return would stand in the expression of a return.
      obtain ⟨e, n, rfl, he⟩ := hc.returned hret
      have hreach : p.Reachable e := .inl (hp.ofPart (List.mem_singleton.2 rfl))
      have hstart : SoundForeign p [] (.returning e n :: d) (startAt m (.returning e n :: d)) :=
        ⟨⟨List.forall_mem_nil _, hm⟩, rfl, List.forall_mem_nil _⟩
      obtain ⟨⟨-, -, hforeign⟩, -⟩ := record_foreign hg fuel hreach he [] _ _ hstart
      have hrun : (record fuel e).execute (startAt m (.returning e n :: d)) = (.ok v, s₁) := hrule
      rw [hrun] at hforeign
      obtain ⟨inner', hinner', hbody⟩ := hforeign _ hmem
      obtain ⟨b, hb, hisBody⟩ := hbody hr
      obtain rfl := List.append_cancel_right (hinner'.symm.trans hinner)
      rw [hown b (by simp [hcut, hb])] at hisBody
      cases hisBody

/-- A return that is evaluated during a completed body. If it is one of the statements of the body,
the body ends with its value. If not, and no other statement is begun after it, the body ends
without a value. -/
theorem body_return {k : Tree.Category} (hg : p.Grammatical k) {cs : List Tree}
    (hcs : ∀ c ∈ cs, Tree.Grammatical .item c) (hp : ∀ c ∈ cs, c.Within p)
    (hm : m.store.Holds (Value.DeclaredIn p)) {w : Value}
    (h : (Eval.body (record fuel) cs).execute (startAt m d) = (.ok w, s')) {x : Value}
    (hr : r.tree.isReturn = true) {inside : List Tree} (hin : r.context = inside ++ d)
    (hown : ∀ t ∈ inside, t.isBody = false) {later earlier : List Event}
    (hev : s'.2.events = later ++ .leave r (.ok x) m' :: earlier) :
    (inside = [] → w = x ∧ later = []) ∧
      (inside ≠ [] → (∀ e ∈ later, e.isEnter = false) → w = .nothing) := by
  induction cs generalizing m later earlier s' with
  | nil =>
    obtain ⟨-, rfl⟩ : Value.nothing = w ∧ startAt m d = s' := by simpa [Eval.body] using h
    simp at hev
  | cons c cs ih =>
    obtain ⟨hc, hcs⟩ := List.forall_mem_cons.1 hcs
    obtain ⟨hpc, hpcs⟩ := List.forall_mem_cons.1 hp
    obtain ⟨v, s₁, h₁, h₂⟩ := execute_bind_ok h
    have hfirst {later earlier : List Event}
        (hev : s₁.2.events = later ++ .leave r (.ok x) m' :: earlier) :=
      statement_return hg hc hpc hm h₁ hr hin hown hev
    cases hret : c.isReturn with
    | true =>
      obtain ⟨rfl, rfl⟩ : v = w ∧ s₁ = s' := by simpa [hret] using h₂
      obtain ⟨hnil, -, rfl, rfl⟩ | ⟨-, hno⟩ := hfirst hev
      · exact ⟨fun _ => ⟨rfl, rfl⟩, fun hne => absurd hnil hne⟩
      · rw [hret] at hno
        cases hno
    | false =>
      have h₂ : (Eval.body (record fuel) cs).execute s₁ = (.ok w, s') := by
        simpa [hret] using h₂
      obtain ⟨s₂, hrest, -, hs'⟩ := (body_adds fuel cs).ok h₂
      have hcontext : s₁.2.context = d := by
        obtain ⟨s₃, -, -, hs₁⟩ := (record_adds fuel c).ok h₁
        rw [hs₁]
      rw [hcontext] at hrest
      rw [hs'] at hev
      obtain ⟨rest, hev', -⟩ | ⟨front, rfl, hev'⟩ := event_of_append hev
      · obtain ⟨⟨-, hm₁⟩, -⟩ := record_sound p fuel (.inl hpc) (startAt m d) ⟨List.forall_mem_nil _, hm⟩
        rw [h₁] at hm₁
        exact ih hcs hpcs hm₁ hrest hev'
      · obtain ⟨-, hyes, -⟩ | ⟨hne, -⟩ := hfirst hev'
        · rw [hret] at hyes
          cases hyes
        refine ⟨fun hnil => absurd hnil hne, fun _ hlater => ?_⟩
        cases cs with
        | nil =>
          obtain ⟨rfl, -⟩ : Value.nothing = w ∧ _ := by simpa [Eval.body] using hrest
          rfl
        | cons c' cs =>
          obtain ⟨e, he, henter⟩ := body_enters hrest
          rw [hlater e (List.mem_append_left _ he)] at henter
          cases henter

/-! ## Returns inside a call -/

/-- The events of the arguments of a call belong to one of them. -/
theorem arguments_events {vs : List Value}
    (h : (Eval.arguments (record fuel) args).execute (startAt m d) = (.ok vs, s')) {e : Event}
    (he : e ∈ s'.2.events) :
    ∃ a ∈ args, (e.visit.context = d ∧ e.visit.tree = a) ∨ Inside a d e := by
  let E (e : Event) : Prop :=
    ∃ a ∈ args, (e.visit.context = d ∧ e.visit.tree = a) ∨ Inside a d e
  have hargs : (happening d E).Rel (fun vs => ∀ v ∈ vs, (happening d E).Fine v)
      (Eval.arguments (record fuel) args) (Eval.arguments (record fuel) args) := by
    refine (happening d E).arguments fun a ha => record_happens fuel a d E ?_ ?_
    · exact fun e hc ht => ⟨a, ha, .inl ⟨hc, ht⟩⟩
    · exact fun e hi => ⟨a, ha, .inr hi⟩
  obtain ⟨⟨-, hE⟩, -⟩ := hargs (startAt m d) ⟨rfl, List.forall_mem_nil _⟩
  rw [h] at hE
  exact hE e he

theorem context_unique {inside inner : List Tree} {b : Tree}
    (h : inside ++ b :: d = inner ++ t :: d) : inside = inner ∧ b = t := by
  have hwhole : inside ++ [b] ++ d = inner ++ [t] ++ d := by simpa using h
  obtain ⟨hinside, hb⟩ := List.append_inj' (List.append_cancel_right hwhole) rfl
  exact ⟨hinside, List.singleton_inj.1 hb⟩

/-- A return in a body is not evaluated during the arguments of the call of the body. -/
theorem return_not_in_arguments {vs : List Value} (hargs : ∀ a ∈ args, a.Grammatical .expression)
    (h : (Eval.arguments (record fuel) args).execute (startAt m d) = (.ok vs, s')) {body : Tree}
    (hb : body.isBody = true) {e : Event} {inside : List Tree}
    (hin : e.visit.context = inside ++ body :: d) : e ∉ s'.2.events := by
  intro he
  obtain ⟨a, ha, ⟨hc, -⟩ | ⟨inner, hi⟩⟩ := arguments_events h he
  · have hlen := congrArg List.length (hc.symm.trans hin)
    simp only [List.length_append, List.length_cons] at hlen
    omega
  · obtain ⟨-, rfl⟩ := context_unique (hin.symm.trans hi)
    rw [(hargs body ha).not_isBody] at hb
    cases hb

/-- The events of a call of a function are those of its body. -/
theorem callFunction_events {type : Tree} {name : String} {params : List Tree} {body : Tree}
    {args : List Value} {s : Machine × Journal} {v : Value}
    (h : (Eval.callFunction (record fuel) type name params body args).execute s = (.ok v, s')) :
    ∃ m₁ w s₁ m₂, (record fuel body).execute (startAt m₁ s.2.context) = (.ok w, s₁) ∧
      s'.2.events = s₁.2.events ++ s.2.events ∧
      (Eval.leaveFunction type w).execute s₁.1 = (.ok v, m₂) := by
  obtain ⟨⟨⟩, s₁, h₁, h⟩ := execute_bind_ok h
  obtain ⟨w, s₂, h₂, h₃⟩ := execute_bind_ok h
  obtain ⟨-, hj₁⟩ := execute_lift_ok h₁
  obtain ⟨h₃, hj₃⟩ := execute_lift_ok h₃
  obtain ⟨s₄, h₄, hm₄, hs₂⟩ := (record_adds fuel body).ok h₂
  rw [hj₁] at h₄ hs₂
  rw [hm₄] at h₃
  exact ⟨s₁.1, w, s₄, s'.1, h₄, by rw [hj₃, hs₂], h₃⟩

/-- An end that is among the events of an evaluation, but is not its own end, is inside it. -/
theorem event_inside {later earlier inner : List Event} {v : Visit} {o o' : Except Fault Value}
    (hne : r ≠ v) (h : .leave v o m :: (inner ++ [.enter v]) = later ++ .leave r o' m' :: earlier) :
    ∃ front rest, later = .leave v o m :: front ∧ inner = front ++ .leave r o' m' :: rest ∧
      earlier = rest ++ [.enter v] := by
  cases later with
  | nil =>
    obtain ⟨hleave, -⟩ := List.cons.inj h
    obtain ⟨rfl, -⟩ := Event.leave.inj hleave
    exact absurd rfl hne
  | cons e later =>
    obtain ⟨rfl, hrest⟩ := List.cons.inj h
    obtain ⟨rest, hinner, hearlier⟩ | ⟨front, -, hlast⟩ := event_of_append hrest
    · exact ⟨later, rest, rfl, hinner, hearlier⟩
    · cases front with
      | nil => cases hlast
      | cons e front => simp at hlast

/-- A return whose end is among the events of an evaluation, but which is not the evaluated tree,
ends inside the evaluation. -/
theorem leave_inside {later earlier inner : List Event} {v : Visit} {o o' : Except Fault Value}
    (hne : r.tree ≠ v.tree)
    (h : .leave v o m :: (inner ++ [.enter v]) = later ++ .leave r o' m' :: earlier) :
    ∃ front rest, later = .leave v o m :: front ∧ inner = front ++ .leave r o' m' :: rest := by
  have hvisit : r ≠ v := fun hrv => hne (congrArg Visit.tree hrv)
  obtain ⟨front, rest, hlater, hinner, -⟩ := event_inside hvisit h
  exact ⟨front, rest, hlater, hinner⟩

/-- What is called is declared in the program if it is a function. -/
theorem callee_declared {depth n : Nat} {f : String} (hreach : p.Reachable (.call f args n))
    (hm : m.store.Holds (Value.DeclaredIn p)) {vs : List Value} {s : Machine × Journal} {w : Value}
    (hargs : (Eval.arguments (record depth) args).execute (startAt m d) = (.ok vs, s))
    (hw : (Run.readName f).execute s.1 = (.ok w, m')) : w.DeclaredIn p := by
  have hsound : (soundness p).Rel (fun vs => ∀ v ∈ vs, (soundness p).Fine v)
      (Eval.arguments (record depth) args) (Eval.arguments (record depth) args) :=
    (soundness p).arguments fun a ha => record_sound p depth (hreach.operand ha)
  obtain ⟨⟨-, hs⟩, -⟩ := hsound (startAt m d) (.startAt hm d)
  rw [hargs] at hs
  obtain ⟨-, -, hdeclared⟩ := Run.readName_keeps Value.declaredIn_of_isFunction f s.1 hs
  rw [hw] at hdeclared
  exact hdeclared w rfl

/-- A return that is evaluated during a completed call, in the body of the function that is called.
If it is one of the statements of the body, the body ends with its value and nothing is begun after
it. If not, and nothing is begun after it, the body ends without a value. -/
theorem call_return {k : Tree.Category} (hg : p.Grammatical k) {depth n : Nat} {f : String}
    (hreach : p.Reachable (.call f args n)) (hm : m.store.Holds (Value.DeclaredIn p)) {v : Value}
    (h : (record (depth + 1) (.call f args n)).execute (startAt m d) = (.ok v, s')) {type : Tree}
    {name : String} {params : List Tree} {body : Tree}
    (hf : Visit.callee? ⟨d, depth + 1, .call f args n, m⟩ = some (.function type name params body))
    (hr : r.tree.isReturn = true) {b : Tree} (hb : b.isBody = true) {inside : List Tree}
    (hin : r.context = inside ++ b :: .call f args n :: d) (hown : ∀ t ∈ inside, t.isBody = false)
    {x : Value} {later earlier : List Event}
    (hev : s'.2.events = later ++ .leave r (.ok x) m' :: earlier) :
    ∃ w m₁ m₂, (Eval.leaveFunction type w).execute m₁ = (.ok v, m₂) ∧
      (inside = [] → w = x ∧ ∀ e ∈ later, e.isEnter = false) ∧
      (inside ≠ [] → (∀ e ∈ later, e.isEnter = false) → w = .nothing) := by
  have hargs : ∀ a ∈ args, a.Grammatical .expression := by
    intro a ha
    exact (hreach.call_grammatical hg).argument ha
  have hcallTree : r.tree ≠ .call f args n := fun ht => by rw [ht] at hr; cases hr
  have hsound := (record_sound p (depth + 1) hreach _ (.startAt hm d)).1
  rw [h] at hsound
  -- The events of the call: its end, those of the body, those of the arguments, its beginning.
  obtain ⟨s₁, hcall, -, hevents, -⟩ := record_events h
  obtain ⟨vs, s₂, w, m₃, given, h₂, h₃, hcallee⟩ := call_cases hcall
  obtain rfl := Option.some.inj ((Visit.callee?_eq rfl rfl rfl h₂ h₃).symm.trans hf)
  obtain ⟨_, hbuiltin, -⟩ | ⟨_, _, _, _, hw, hfunction⟩ := hcallee
  · cases hbuiltin
  obtain ⟨rfl, rfl, rfl, rfl⟩ := Value.function.inj hw
  obtain ⟨m₄, w, s₅, m₆, hbody, hs₁, hleave⟩ := callFunction_events hfunction
  obtain ⟨i, hi⟩ := callee_declared hreach hm h₂ h₃
  obtain ⟨j, hj⟩ := hi.grammatical hg
  obtain ⟨cs, l, rfl, hcs⟩ := hj.function_isBody
  have hcontext : s₂.2.context = .call f args n :: d := by
    obtain ⟨s₃, -, -, hs₂⟩ := (arguments_adds depth args).ok h₂
    rw [hs₂]
  cases depth with
  | zero => cases hbody
  | succ depth =>
    rw [hcontext] at hbody
    obtain ⟨s₆, hrule, -, hevents₅, hinside₆⟩ := record_events hbody
    have hm₄ : m₄.store.Holds (Value.DeclaredIn p) := by
      refine (hsound.visited (.enter ⟨.call f args n :: d, depth + 1, .body cs l, m₄⟩) ?_).2
      rw [hevents, hs₁, hevents₅]
      simp
    rw [hevents] at hev
    obtain ⟨front, rest, rfl, hinner⟩ := leave_inside hcallTree hev
    rw [hs₁] at hinner
    obtain ⟨rest', hinner₅, -⟩ | ⟨_, -, harg⟩ := event_of_append hinner
    · rw [hevents₅] at hinner₅
      have hbodyTree : r.tree ≠ .body cs l := fun ht => by rw [ht] at hr; cases hr
      obtain ⟨front, rest, rfl, hinner₆⟩ := leave_inside hbodyTree hinner₅
      obtain ⟨inner, hinner⟩ := hinside₆ (.leave r (.ok x) m') (by rw [hinner₆]; simp)
      obtain ⟨rfl, rfl⟩ := context_unique (hin.symm.trans hinner)
      have hwithin : Tree.Within (.body cs l) p := hi.ofPart (by simp [Tree.parts])
      obtain ⟨hnil, hne⟩ := body_return hg hcs (fun c hc => hwithin.ofPart hc) hm₄ hrule hr hin hown
        hinner₆
      refine ⟨w, s₅.1, m₆, hleave, fun hinside => ?_, fun hinside hlater => ?_⟩
      · obtain ⟨hw, rfl⟩ := hnil hinside
        exact ⟨hw, by simp [Event.isEnter]⟩
      · exact hne hinside fun e he => hlater e (List.mem_cons_of_mem _ (List.mem_cons_of_mem _ he))
    · have hmem : Event.leave r (.ok x) m' ∈ s₂.2.events := by
        change _ ∈ (m₃, s₂.2).2.events
        rw [harg]
        simp
      exact absurd hmem (return_not_in_arguments hargs h₂ hb hin)

end Recorded

/-- A return that is evaluated during a call, at the depth of the body that the call runs, happens
in that body. -/
theorem Visit.inBodyOf_of_length {c : Visit} {o : Except Fault Value} {v : Value}
    (hv : (Eval.eval c.fuel c.tree).execute c.before = (.ok v, m'))
    (hev : Event.leave r o m ∈ c.events) (hne : r.tree ≠ c.tree)
    (hlen : r.context.length = r.around.length + c.context.length + 2) : r.InBodyOf c := by
  obtain ⟨context, depth, tree, before⟩ := c
  cases depth with
  | zero => cases hv
  | succ depth =>
    have hrec := record_eval (depth + 1) tree (Recorded.startAt before context)
    rw [hv] at hrec
    obtain ⟨hok, -⟩ := Prod.mk.inj hrec
    obtain ⟨s₁, -, -, hevents, hinside⟩ := Recorded.record_events (Prod.ext hok.symm rfl)
    have hmem : Event.leave r o m ∈ s₁.2.events := by
      rw [Visit.events, hevents] at hev
      simp only [List.mem_cons, List.mem_append, List.not_mem_nil, or_false, reduceCtorEq] at hev
      obtain hself | hmem := hev
      · obtain ⟨rfl, -⟩ := Event.leave.inj hself
        exact absurd rfl hne
      · exact hmem
    obtain ⟨inner, hinner⟩ := hinside _ hmem
    -- Behind the trees up to the body come the body and the context of the call, by length.
    have hsplit : r.around ++ r.context.dropWhile (fun t => !t.isBody) = r.context :=
      List.takeWhile_append_dropWhile
    have hhead := List.head?_dropWhile_not (fun t : Tree => !t.isBody) r.context
    cases hrest : r.context.dropWhile (fun t => !t.isBody) with
    | nil =>
      rw [hrest, List.append_nil] at hsplit
      rw [hsplit] at hlen
      omega
    | cons b rest =>
      rw [hrest] at hsplit hhead
      refine ⟨b, by simpa using hhead, ?_⟩
      have hrestLen : rest.length = (tree :: context).length := by
        have h := congrArg List.length hsplit
        simp only [List.length_append, List.length_cons] at h hlen ⊢
        omega
      have hwhole : (r.around ++ [b]) ++ rest = inner ++ tree :: context := by
        rw [List.append_assoc, List.singleton_append, hsplit]
        exact hinner
      obtain ⟨-, rfl⟩ := List.append_inj' hwhole hrestLen
      exact hsplit.symm

/-- In the run of a program, a return that is evaluated during a completed call of a function, in
the body of that function, ends it exactly if it is one of the statements of the body and has a
value: no other statement is begun after it, and the call gives the returned value, converted to the
type of the function. -/
theorem return_ends_call_iff {code : String} {program : Tree}
    (hp : Program.parse code = .ok program) {fuel : Nat} {m : Machine}
    (hm : m.store = Store.empty) {c : Visit} (hc : Event.enter c ∈ history fuel program m)
    {type : Tree} {name : String} {params : List Tree} {body : Tree}
    (hf : c.callee? = some (.function type name params body)) {v : Value} {m' : Machine}
    (hv : (Eval.eval c.fuel c.tree).execute c.before = (.ok v, m')) {r : Visit} {e : Tree} {n : Nat}
    (hr : r.tree = .returning e n) (hin : r.InBodyOf c) {x : Value} {m'' : Machine}
    {later earlier : List Event} (hev : c.events = later ++ .leave r (.ok x) m'' :: earlier) :
    ((∀ e ∈ later, e.isEnter = false) ∧ Converts type x v) ↔
      r.around = [] ∧ x.isNothing = false := by
  obtain ⟨f, args, k, ht⟩ := Visit.isCall_of_callee? hf
  obtain ⟨hreach, hbefore⟩ : program.Reachable c.tree ∧ _ := history_sound hm hc
  obtain ⟨b, hb, hcontext⟩ := hin
  have hown : ∀ t ∈ r.around, t.isBody = false := fun t ht => by
    simpa using List.all_eq_true.1 List.all_takeWhile t ht
  obtain ⟨context, depth, tree, before⟩ := c
  dsimp only at hreach hbefore ht hv hcontext
  subst ht
  cases depth with
  | zero => cases hv
  | succ depth =>
    have hrec := record_eval (depth + 1) (.call f args k) (Recorded.startAt before context)
    rw [hv] at hrec
    obtain ⟨hok, -⟩ := Prod.mk.inj hrec
    obtain ⟨w, m₁, m₂, hleave, hnil, hne⟩ := Recorded.call_return (Program.parse_grammatical hp)
      hreach hbefore (Prod.ext hok.symm rfl) hf (by rw [hr]; rfl) hb hcontext hown hev
    constructor
    · rintro ⟨hlater, t, c, number, -, hc, -, rfl⟩
      have hx : x.isNothing = false := by
        cases x with
        | scalar => cases hc
        | _ => rfl
      refine ⟨Classical.byContradiction fun hinside => ?_, hx⟩
      obtain rfl := hne hinside hlater
      obtain ⟨-, hv, -⟩ | ⟨hw, -⟩ := Eval.leaveFunction_cases hleave
      · cases hv
      · cases hw
    · rintro ⟨hinside, hx⟩
      obtain ⟨rfl, hlater⟩ := hnil hinside
      refine ⟨hlater, ?_⟩
      obtain ⟨hw, -⟩ | ⟨-, hconverts, -⟩ := Eval.leaveFunction_cases hleave
      · rw [hx] at hw
        cases hw
      · exact hconverts

/-- A return in a condition does not end its function. -/
theorem return_in_condition_goes_on :
    ∃ program c type name params body v m' r e n x m'' later earlier,
      Program.parse
          "int f(int a)\x7b if (a) return 1; return 2; \x7d int main()\x7b return f(1); \x7d" =
        .ok program ∧
      (Analysis.analyze program).1.isOk = true ∧
      Event.enter c ∈ history 20 program (Machine.start "") ∧
      c.callee? = some (.function type name params body) ∧
      (Eval.eval c.fuel c.tree).execute c.before = (.ok v, m') ∧ r.tree = .returning e n ∧
      r.InBodyOf c ∧ c.events = later ++ .leave r (.ok x) m'' :: earlier ∧ x.isNothing = false ∧
      ¬((∀ e ∈ later, e.isEnter = false) ∧ Converts type x v) := by
  have hrun : ((Program.parse
      "int f(int a)\x7b if (a) return 1; return 2; \x7d int main()\x7b return f(1); \x7d").toOption.any
        fun t => (Analysis.analyze t).1.isOk &&
          (history 20 t (Machine.start "")).any fun e => e.entered?.any fun c =>
            c.callsFunction && ((Eval.eval c.fuel c.tree).execute c.before).1.isOk &&
              c.events.any fun e => e.given?.any fun r =>
                r.1.tree.isReturn && !r.1.around.isEmpty && !r.2.isNothing &&
                  r.1.context.length == r.1.around.length + c.context.length + 2) = true := by
    decide +kernel
  obtain ⟨program, hp, haccepted, c, hc, hcall⟩ := Program.exists_visit hrun
  simp only [Bool.and_eq_true] at hcall
  obtain ⟨⟨hf, hok⟩, hany⟩ := hcall
  obtain ⟨v, m', hv⟩ := Run.exists_of_isOk hok
  obtain ⟨type, name, params, body, hcallee⟩ := Visit.callee?_of_callsFunction hf
  obtain ⟨f, args, k, ht⟩ := Visit.isCall_of_callee? hcallee
  obtain ⟨e, he, hany⟩ := List.any_eq_true.1 hany
  obtain ⟨⟨r, x⟩, hgiven, hreturn⟩ := (Option.any_eq_true ..).1 hany
  obtain ⟨m'', rfl⟩ := Event.eq_leave hgiven
  simp only [Bool.and_eq_true, Bool.not_eq_true', beq_iff_eq] at hreturn
  obtain ⟨⟨⟨hr, haround⟩, hx⟩, hlen⟩ := hreturn
  obtain ⟨e, n, hreturning⟩ := Tree.eq_returning hr
  obtain ⟨later, earlier, hev⟩ := List.append_of_mem he
  have hin : r.InBodyOf c :=
    Visit.inBodyOf_of_length hv he (by rw [hreturning, ht]; exact nofun) hlen
  refine ⟨program, c, type, name, params, body, v, m', r, e, n, x, m'', later, earlier, hp,
    haccepted, hc, hcallee, hv, hreturning, hin, hev, hx, fun hends => ?_⟩
  have hnil := (return_ends_call_iff hp rfl hc hcallee hv hreturning hin hev).1 hends
  rw [hnil.1] at haround
  cases haround

end MiniC
