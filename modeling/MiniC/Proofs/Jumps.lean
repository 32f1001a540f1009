import MiniC.Proofs.Contexts

/-!
# Where a jump goes

A jump is the value of a statement. A block and a condition pass it on, and a block leaves its scope
on the way, so a jump comes to the nearest loop or switch around it, and nothing else is executed
before. There a jump that asks to leave ends the loop or the switch. One that asks for the next turn
lets a loop go on with its increment and its condition; but a switch takes it too, and goes on with
its next statement. What the loop or the switch does from then on is given as a computation, whose
events are the rest of those of the loop or the switch.
-/

namespace MiniC

open Eval (Evaluator)

def unwind : List Tree → Run Unit
  | [] => return ()
  | .block .. :: ts => do
    Run.changeStore Store.popScope
    unwind ts
  | _ :: ts => unwind ts

theorem unwind_append (ts us : List Tree) :
    unwind (ts ++ us) = (do unwind ts; unwind us) := by
  induction ts with
  | nil => exact (pure_bind _ _).symm
  | cons t ts ih =>
    cases t with
    | block cs n =>
      simp only [List.cons_append, unwind, ih, bind_assoc]
    | _ => exact ih

def Event.ended? : Event → Option Tree
  | enter _ => none
  | leave v _ _ => some v.tree

/-- The evaluations of some trees end, each right after the one before. -/
def EndInTurn (ts : List Tree) (es : List Event) : Prop :=
  es.reverse.map Event.ended? = ts.map some

theorem EndInTurn.leave {ts : List Tree} {es : List Event} (h : EndInTurn ts es) (v : Visit)
    (r : Except Fault Value) (m : Machine) : EndInTurn (ts ++ [v.tree]) (.leave v r m :: es) := by
  unfold EndInTurn at h ⊢
  rw [List.reverse_cons, List.map_append, List.map_append, h]
  rfl

/-- What a loop or a switch does after a jump out of a part of it. -/
inductive Tree.Resumes {M : Type → Type} [Monad M] [MonadLiftT Run M] (ev : Evaluator M) :
    Tree → Tree → Jump → M Value → Prop
  | leave {t part : Tree} : Resumes ev t part .leave (return .nothing)
  | whileLoop {c b : Tree} {n : Nat} (turns : Nat) :
      Resumes ev (.whileLoop c b n) b .again
        (Eval.whileTrue (ev c) (ev b) (return .nothing) turns)
  | doWhile {c b : Tree} {n : Nat} (turns : Nat) :
      Resumes ev (.doWhile c b n) b .again do
        if (← ev c).truth then Eval.doWhile (ev c) (ev b) turns else return .nothing
  | forLoop {s c i b : Tree} {n : Nat} (turns : Nat) :
      Resumes ev (.forLoop s c i b n) b .again do
        let _ ← ev i
        Eval.whileTrue (ev c) (ev b) (ev i) turns
  | switch {s part : Tree} {front rest : List Tree} {n : Nat} (subject : Value) :
      Resumes ev (.switch s (front ++ part :: rest) n) part .again do
        Eval.cases ev subject true rest
        return .nothing

namespace Recorded

variable {α β : Type} {c : List Tree} {j : Visit} {inner : List Tree} {k : Jump}

/-! ## Computations that go on after an event -/

theorem Adds.bind_ok {P : α → Prop} {Q : β → Prop} {p : Recorded α} {f : α → Recorded β}
    (hf : ∀ a, P a → Adds Q (f a)) (hp : Adds P p) {m : Machine} {a : α} {s' : Machine × Journal}
    (h : p.execute (startAt m c) = (.ok a, s')) :
    (p >>= f).execute (startAt m c) =
      (((f a).execute (startAt s'.1 c)).1, ((f a).execute (startAt s'.1 c)).2.1,
        ⟨c, ((f a).execute (startAt s'.1 c)).2.2.events ++ s'.2.events⟩) := by
  obtain ⟨hadd, hP⟩ := hp m c
  rw [h] at hP hadd
  have hself : s' = (s'.1, ⟨c, s'.2.events⟩) := by
    have hs := congrArg Prod.snd (h.symm.trans (hadd []))
    rw [List.append_nil] at hs
    exact hs
  rw [execute_bind, h]
  change (f a).execute s' = _
  rw [hself, (hf a (hP a rfl) s'.1 c).1]

structure Continues (c : List Tree) (p : Recorded α) (m : Machine) (q : Recorded α) (m' : Machine)
    (inner : List Tree) (later : List Event) : Prop where
  result : (p.execute (startAt m c)).1 = (q.execute (startAt m' c)).1
  machine : (p.execute (startAt m c)).2.1 = (q.execute (startAt m' c)).2.1
  later : ∃ ends, EndInTurn inner ends ∧ later = (q.execute (startAt m' c)).2.2.events ++ ends

/-- After the end of the evaluation `j` in it, a computation ends the trees around the evaluation,
and goes on as one of some computations. -/
def GoesOn (c : List Tree) (j : Visit) (inner : List Tree) (G : Recorded α → Prop)
    (p : Recorded α) : Prop :=
  Adds (fun _ => True) p ∧ ∀ m later r m' earlier,
    (p.execute (startAt m c)).2.2.events = later ++ .leave j r m' :: earlier →
      ∃ q, G q ∧ Continues c p m q m' inner later

namespace GoesOn

variable {G : Recorded α → Prop}

theorem of_not_mem {p : Recorded α} (hp : Adds (fun _ => True) p)
    (h : ∀ m, ∀ e ∈ (p.execute (startAt m c)).2.2.events, e.visit ≠ j) : GoesOn c j inner G p := by
  refine ⟨hp, fun m later r m' earlier hev => ?_⟩
  have hmem : .leave j r m' ∈ (p.execute (startAt m c)).2.2.events := by
    rw [hev]
    exact List.mem_append_right _ (List.mem_cons_self ..)
  exact absurd rfl (h m _ hmem)

theorem pure (a : α) : GoesOn c j inner G (pure a) :=
  of_not_mem (.pure trivial) fun _ _ he => absurd he List.not_mem_nil

theorem lift {R : Change} {Q : α → Prop} {p : Run α} (hp : p.Keeps (fun _ => True) R Q) :
    GoesOn c j inner G (liftM p) := by
  refine of_not_mem (fun m d => ⟨(Adds.lift hp m d).1, fun _ _ => trivial⟩) fun m e he => ?_
  exact absurd he List.not_mem_nil

theorem bind {H : Recorded β → Prop} {p : Recorded α} {f : α → Recorded β}
    (hp : GoesOn c j inner G p) (hf : ∀ a, GoesOn c j inner H (f a))
    (hG : ∀ q, G q → Adds (fun _ => True) q ∧ H (q >>= f)) : GoesOn c j inner H (p >>= f) := by
  have hadds (a : α) (_ : True) : Adds (fun _ => True) (f a) := (hf a).1
  refine ⟨hp.1.bind hadds, fun m later r m' earlier hev => ?_⟩
  cases h : p.execute (startAt m c) with
  | mk o s' =>
    cases o with
    | error e =>
      -- The second computation does not begin, and neither does it when the first one goes on.
      have hrun : (p >>= f).execute (startAt m c) = (.error e, s') := by rw [execute_bind, h]
      rw [hrun] at hev
      obtain ⟨q, hq, hresult, hmachine, hlater⟩ := hp.2 m later r m' earlier (by rw [h]; exact hev)
      rw [h] at hresult hmachine
      have hrun' : (q >>= f).execute (startAt m' c) = (.error e, (q.execute (startAt m' c)).2) := by
        rw [execute_bind]
        cases h' : q.execute (startAt m' c) with
        | mk o' s'' =>
          rw [h'] at hresult
          obtain rfl : Except.error e = o' := hresult
          rfl
      refine ⟨q >>= f, (hG q hq).2, ?_, ?_, ?_⟩
      · rw [hrun, hrun']
      · rw [hrun, hrun']
        exact hmachine
      · rw [hrun']
        exact hlater
    | ok a =>
      have hrun := Adds.bind_ok hadds hp.1 h
      rw [hrun] at hev
      obtain ⟨rest, hev', -⟩ | ⟨front, rfl, hev'⟩ := event_of_append hev
      · obtain ⟨q, hq, hresult, hmachine, hlater⟩ := (hf a).2 s'.1 later r m' rest hev'
        refine ⟨q, hq, ?_, ?_, hlater⟩
        · rw [hrun]
          exact hresult
        · rw [hrun]
          exact hmachine
      · obtain ⟨q, hq, hresult, hmachine, ends, hends, rfl⟩ :=
          hp.2 m front r m' earlier (by rw [h]; exact hev')
        rw [h] at hresult hmachine
        cases h' : q.execute (startAt m' c) with
        | mk o' s'' =>
          rw [h'] at hresult hmachine
          obtain rfl : Except.ok a = o' := hresult
          obtain hmachine : s'.1 = s''.1 := hmachine
          have hrun' := Adds.bind_ok hadds (hG q hq).1 h'
          refine ⟨q >>= f, (hG q hq).2, ?_, ?_, ends, hends, ?_⟩
          · rw [hrun, hrun', hmachine]
          · rw [hrun, hrun', hmachine]
          · rw [hrun', hmachine, List.append_assoc]

theorem bind_never {H : Recorded β → Prop} {p : Recorded α} {f : α → Recorded β}
    (hp : GoesOn c j inner (fun _ => False) p) (hf : ∀ a, GoesOn c j inner H (f a)) :
    GoesOn c j inner H (p >>= f) :=
  hp.bind hf fun _ hq => hq.elim

end GoesOn

/-! ## Jumps out of blocks and conditions -/

/-- The last tree around an evaluation in a context is the one that is evaluated there. -/
theorem record_last {fuel : Nat} {t : Tree} {m : Machine} {e : Event}
    (he : e ∈ ((record fuel t).execute (startAt m c)).2.2.events)
    (hc : e.visit.context = inner ++ c) : (e.visit.tree :: inner).getLast? = some t := by
  have hrun := record_happens fuel t c
    (fun e => ∀ inner, e.visit.context = inner ++ c → (e.visit.tree :: inner).getLast? = some t)
    (fun e he ht inner hi => ?_) (fun e he inner hi => ?_)
  · exact (hrun (startAt m c) ⟨rfl, List.forall_mem_nil _⟩).1.2 e he inner hc
  · obtain rfl : inner = [] := by simpa using (he.symm.trans hi).symm
    rw [ht]
    rfl
  · obtain ⟨inside, hinside⟩ := he
    have hsplit : inner ++ c = (inside ++ [t]) ++ c := by
      rw [← hi, hinside]
      simp
    rw [List.append_cancel_right hsplit, ← List.cons_append, List.getLast?_concat]

theorem GoesOn.record_of_not_mayJump {G : Recorded Value → Prop} (fuel : Nat) {t : Tree}
    (ht : t.mayJump = false) (hj : j.tree.jump? = some k) (hc : j.context = inner ++ c)
    (hinner : ∀ u ∈ inner, u.passes = true) : GoesOn c j inner G (record fuel t) := by
  refine .of_not_mem (record_adds fuel t) fun m e he hej => ?_
  have hlast := record_last he (hej ▸ hc)
  rw [hej] at hlast
  have hjump : t.mayJump = true := by
    obtain rfl | hmem := List.mem_cons.1 (List.mem_of_getLast? hlast)
    · simp [Tree.mayJump, hj]
    · simp [Tree.mayJump, hinner t hmem]
  rw [ht] at hjump
  cases hjump

theorem lift_bind (p : Run α) (f : α → Run β) :
    (liftM (p >>= f) : Recorded β) = (do let a ← p; f a) := by
  funext s
  change (liftM (p >>= f) : Recorded β).execute s = Recorded.execute (do let a ← p; f a) s
  rw [execute_lift, Run.execute_bind, execute_bind, execute_lift]
  cases p.execute s.1 with
  | mk r m => cases r <;> rfl

theorem lift_pure (a : α) : (liftM (pure a : Run α) : Recorded α) = pure a := rfl

def passOn (inner : List Tree) (k : Jump) : Recorded Value := do
  unwind inner
  return .jump k

theorem unwind_keeps (ts : List Tree) :
    (unwind ts).Keeps (fun _ => True) .mild (fun _ => True) := by
  induction ts with
  | nil => exact .pure trivial
  | cons t ts ih =>
    cases t with
    | block => exact .bind Run.popScope_keeps fun _ _ => ih
    | _ => exact ih

theorem passOn_adds (inner : List Tree) (k : Jump) : Adds (fun _ => True) (passOn inner k) :=
  .bind (.lift (unwind_keeps inner)) fun _ _ => .pure trivial

theorem passOn_bind (inner : List Tree) (k : Jump) (f : Value → Recorded α) :
    passOn inner k >>= f = (do unwind inner; f (.jump k)) := by
  simp only [passOn, bind_assoc, pure_bind]

/-- What is done with the jump that a part passes on. -/
theorem GoesOn.bind_jump {P : Prop} {H : Recorded α → Prop} {p : Recorded Value}
    {f : Value → Recorded α} (hp : GoesOn c j inner (fun q => q = passOn inner k ∧ P) p)
    (hf : ∀ v, GoesOn c j inner H (f v)) (hjump : P → H (do unwind inner; f (.jump k))) :
    GoesOn c j inner H (p >>= f) := by
  refine hp.bind hf ?_
  rintro q ⟨rfl, hP⟩
  refine ⟨passOn_adds inner k, ?_⟩
  rw [passOn_bind]
  exact hjump hP

theorem untilJump_goesOn {fuel : Nat} {ts : List Tree}
    (hts : ∀ t ∈ ts, GoesOn c j inner (· = passOn inner k) (record fuel t)) :
    GoesOn c j inner (· = passOn inner k) (Eval.untilJump (record fuel) ts) := by
  induction ts with
  | nil => exact .pure _
  | cons t ts ih =>
    obtain ⟨ht, hts⟩ := List.forall_mem_cons.1 hts
    refine ht.bind (fun v => ?_) fun q hq => ?_
    · split
      · exact .pure _
      · exact ih hts
    · subst hq
      exact ⟨passOn_adds inner k, passOn_bind ..⟩

/-- A block leaves its scope before it passes a jump on. -/
theorem block_goesOn {fuel n : Nat} {ts : List Tree}
    (hts : ∀ t ∈ ts, GoesOn c j inner (· = passOn inner k) (record fuel t)) :
    GoesOn c j inner (· = passOn (inner ++ [.block ts n]) k) (Eval.block (record fuel) ts) := by
  refine .bind_never (.lift Run.pushScope_keeps) fun _ => ?_
  refine (untilJump_goesOn hts).bind (fun v => ?_) fun q hq => ?_
  · exact .bind_never (.lift Run.popScope_keeps) fun _ => .pure v
  · subst hq
    refine ⟨passOn_adds inner k, ?_⟩
    simp only [passOn, unwind_append, unwind, lift_bind, lift_pure, bind_assoc, pure_bind]

theorem ifElse_goesOn {fuel n : Nat} {x a b : Tree}
    (hx : GoesOn c j inner (fun _ => False) (record fuel x))
    (ha : GoesOn c j inner (· = passOn inner k) (record fuel a))
    (hb : GoesOn c j inner (· = passOn inner k) (record fuel b)) :
    GoesOn c j inner (· = passOn (inner ++ [.ifElse x a b n]) k)
      (Eval.ifElse (record fuel) x a b) := by
  have hsame : passOn (inner ++ [.ifElse x a b n]) k = passOn inner k := by
    simp only [passOn, unwind_append, unwind, lift_bind, lift_pure, bind_assoc, pure_bind]
  rw [hsame]
  refine hx.bind_never fun v => ?_
  split
  · exact ha
  · exact hb

theorem passOn_execute (inner : List Tree) (k : Jump) (s : Machine × Journal) :
    (passOn inner k).execute s =
      let o := (unwind inner).execute s.1
      (o.1.map fun _ => .jump k, o.2, s.2) := by
  rw [passOn, execute_bind, execute_lift]
  cases (unwind inner).execute s.1 with
  | mk r m => cases r <;> rfl

theorem GoesOn.record_jump (fuel : Nat) {t : Tree} {k' : Jump} (ht : t.jump? = some k')
    (hj : j.tree.jump? = some k) (hc : j.context = inner ++ c) :
    GoesOn c j inner (· = passOn inner k) (record (fuel + 1) t) := by
  have hrule : Eval.rule (record fuel) fuel t = Pure.pure (.jump k') := by
    cases t with
    | breaking | continuing =>
      obtain rfl := Option.some.inj ht
      rfl
    | _ => cases ht
  refine ⟨record_adds _ t, fun m later r m' earlier hev => ?_⟩
  rw [record_startAt, hrule] at hev
  cases later with
  | nil =>
    obtain ⟨hleave, -⟩ := List.cons.inj hev
    obtain ⟨rfl, rfl, rfl⟩ := Event.leave.inj hleave
    obtain rfl : inner = [] := by simpa using hc.symm
    obtain rfl : k' = k := Option.some.inj (ht.symm.trans hj)
    refine ⟨_, rfl, ?_, ?_, [], rfl, ?_⟩
    · rw [record_startAt, hrule, passOn_execute]
      rfl
    · rw [record_startAt, hrule, passOn_execute]
      rfl
    · rw [passOn_execute]
      rfl
  | cons e later =>
    obtain ⟨-, hrest⟩ := List.cons.inj hev
    cases later with
    | nil => cases hrest
    | cons e later => simp at hrest

/-- What passes a jump on ends when the jump has come out of its parts. -/
theorem GoesOn.record_passes (fuel : Nat) {t : Tree} (ht : t.jump? = none)
    (hj : j.tree.jump? = some k) (hc : j.context = inner ++ c)
    (hinner : ∀ u ∈ inner, u.passes = true)
    (hrule : ∀ inside, j.context = inside ++ t :: c → (∀ u ∈ inside, u.passes = true) →
      GoesOn (t :: c) j inside (· = passOn (inside ++ [t]) k) (Eval.rule (record fuel) fuel t)) :
    GoesOn c j inner (· = passOn inner k) (record (fuel + 1) t) := by
  have hne : j.tree ≠ t := by
    rintro rfl
    rw [ht] at hj
    cases hj
  refine ⟨record_adds _ t, fun m later r m' earlier hev => ?_⟩
  have hmem : .leave j r m' ∈ ((record (fuel + 1) t).execute (startAt m c)).2.2.events := by
    rw [hev]
    exact List.mem_append_right _ (List.mem_cons_self ..)
  have hlast := record_last (e := .leave j r m') hmem hc
  obtain ⟨ys, hys⟩ := List.getLast?_eq_some_iff.1 hlast
  cases ys with
  | nil => exact absurd (List.cons.inj hys).1 hne
  | cons y inside =>
    obtain rfl : inner = inside ++ [t] := (List.cons.inj hys).2
    rw [List.append_assoc] at hc
    have hinside : ∀ u ∈ inside, u.passes = true := fun u hu => hinner u (List.mem_append_left _ hu)
    rw [record_startAt] at hev
    obtain ⟨front, rest, rfl, hfront⟩ := leave_inside hne hev
    obtain ⟨q, rfl, hresult, hmachine, ends, hends, hlater⟩ :=
      (hrule inside hc hinside).2 m front r m' rest hfront
    rw [passOn_execute] at hresult hmachine hlater
    obtain rfl : front = ends := hlater
    refine ⟨_, rfl, ?_, ?_, ?_⟩
    · rw [record_startAt, passOn_execute]
      exact hresult
    · rw [record_startAt, passOn_execute]
      exact hmachine
    · rw [passOn_execute]
      exact ⟨_, hends.leave ⟨c, fuel + 1, t, m⟩ _ _, rfl⟩

theorem record_goesOn (fuel : Nat) {i : Tree.Category} {t : Tree} (ht : t.Grammatical i)
    (hj : j.tree.jump? = some k) (hc : j.context = inner ++ c)
    (hinner : ∀ u ∈ inner, u.passes = true) :
    GoesOn c j inner (· = passOn inner k) (record fuel t) := by
  induction fuel generalizing t c inner i with
  | zero => exact .of_not_mem (record_adds 0 t) fun m e he => absurd he List.not_mem_nil
  | succ fuel ih =>
    by_cases hjump : t.mayJump = false
    · exact .record_of_not_mayJump (fuel + 1) hjump hj hc hinner
    cases hk : t.jump? with
    | some k' => exact .record_jump fuel hk hj hc
    | none =>
      refine .record_passes fuel hk hj hc hinner fun inside hc hinside => ?_
      have hpasses : t.passes = true := by simpa [Tree.mayJump, hk] using hjump
      have hstatement := ht.isStatement (.inl hpasses)
      cases hstatement with
      | block _ hcs => exact block_goesOn fun u hu => ih (hcs u hu) hc hinside
      | ifElse _ hx ha hb =>
        refine ifElse_goesOn ?_ (ih ha hc hinside) (ih hb hc hinside)
        refine .record_of_not_mayJump fuel ?_ hj hc hinside
        exact Tree.Grammatical.optional_not_mayJump (.ofExpression hx)
      | simple he => exact absurd he.optional_not_mayJump hjump
      | _ => cases hpasses

/-! ## Jumps in loops and switches -/

theorem GoesOn.record_last {G : Recorded Value → Prop} {fuel : Nat} {t : Tree}
    (h : GoesOn c j inner G (record fuel t)) (hc : j.context = inner ++ c) :
    GoesOn c j inner (fun q => G q ∧ (j.tree :: inner).getLast? = some t) (record fuel t) := by
  refine ⟨h.1, fun m later r m' earlier hev => ?_⟩
  obtain ⟨q, hq, hcontinues⟩ := h.2 m later r m' earlier hev
  have hmem : .leave j r m' ∈ ((record fuel t).execute (startAt m c)).2.2.events := by
    rw [hev]
    exact List.mem_append_right _ (List.mem_cons_self ..)
  exact ⟨q, ⟨hq, Recorded.record_last (e := .leave j r m') hmem hc⟩, hcontinues⟩

theorem GoesOn.ofExcept {G : Recorded α → Prop} (r : Except Fault α) :
    GoesOn c j inner G (liftM (Run.ofExcept r)) :=
  .lift (R := .quiet) (Q := fun _ => True) (Run.ofExcept_keeps fun _ _ => trivial)

section

variable {condition body follow : Recorded Value} {P : Prop} {H : Recorded Value → Prop}

theorem whileTrue_goesOn (hcondition : GoesOn c j inner (fun _ => False) condition)
    (hbody : GoesOn c j inner (fun q => q = passOn inner k ∧ P) body)
    (hfollow : GoesOn c j inner (fun _ => False) follow)
    (hleave : P → k = .leave → H (do unwind inner; return .nothing))
    (hagain : ∀ turns, P → k = .again →
      H (do unwind inner; let _ ← follow; Eval.whileTrue condition body follow turns))
    (turns : Nat) : GoesOn c j inner H (Eval.whileTrue condition body follow turns) := by
  induction turns with
  | zero => exact .ofExcept (.error .outOfFuel)
  | succ turns ih =>
    refine hcondition.bind_never fun v => ?_
    split
    · refine hbody.bind_jump (fun v => ?_) fun hP => ?_
      · split
        · exact .pure _
        · exact hfollow.bind_never fun _ => ih
      · cases k with
        | leave => exact hleave hP rfl
        | again => exact hagain turns hP rfl
    · exact .pure _

theorem doWhile_goesOn (hcondition : GoesOn c j inner (fun _ => False) condition)
    (hbody : GoesOn c j inner (fun q => q = passOn inner k ∧ P) body)
    (hleave : P → k = .leave → H (do unwind inner; return .nothing))
    (hagain : ∀ turns, P → k = .again → H (do
      unwind inner
      if (← condition).truth then Eval.doWhile condition body turns else return .nothing))
    (turns : Nat) : GoesOn c j inner H (Eval.doWhile condition body turns) := by
  induction turns with
  | zero => exact .ofExcept (.error .outOfFuel)
  | succ turns ih =>
    refine hbody.bind_jump (fun v => ?_) fun hP => ?_
    · split
      · exact .pure _
      · refine hcondition.bind_never fun v => ?_
        split
        · exact ih
        · exact .pure _
    · cases k with
      | leave => exact hleave hP rfl
      | again => exact hagain turns hP rfl

end

/-- The children of a switch. The labels of a switch are compared before a child of it is executed,
and no jump is in them. -/
theorem cases_goesOn {fuel : Nat} {children : List Tree} {P : Tree → Prop}
    {H : Recorded Unit → Prop} (subject : Value)
    (hchildren : ∀ t ∈ children, t.isLabel = false →
      GoesOn c j inner (fun q => q = passOn inner k ∧ P t) (record fuel t))
    (hlabels : ∀ e n, .caseLabel e n ∈ children →
      GoesOn c j inner (fun _ => False) (record fuel e))
    (hleave : ∀ t, P t → k = .leave → H (do unwind inner; return ()))
    (hagain : ∀ front t rest, children = front ++ t :: rest → P t → k = .again →
      H (do unwind inner; Eval.cases (record fuel) subject true rest))
    (front rest : List Tree) (hrest : children = front ++ rest) (found : Bool) :
    GoesOn c j inner H (Eval.cases (record fuel) subject found rest) := by
  induction rest generalizing front found with
  | nil =>
    cases found with
    | false => exact .pure _
    | true => exact .pure _
  | cons t rest ih =>
    have hsplit : children = (front ++ [t]) ++ rest := by simp [hrest]
    have hmem : t ∈ children := by simp [hrest]
    cases found with
    | false =>
      cases t with
      | caseLabel e n =>
        refine (hlabels e n hmem).bind_never fun v => ?_
        exact .bind_never (.ofExcept _) fun w => ih _ hsplit w.truth
      | defaultLabel => exact ih _ hsplit true
      | _ => exact ih _ hsplit false
    | true =>
      rw [Eval.cases]
      split
      · exact ih _ hsplit true
      · next hlabel =>
        refine (hchildren t hmem (Bool.eq_false_iff.2 hlabel)).bind_jump (fun v => ?_) fun hP => ?_
        · split
          · exact .pure _
          · exact ih _ hsplit true
        · cases k with
          | leave => exact hleave t hP rfl
          | again => exact hagain front t rest hrest hP rfl

def Resumption (fuel : Nat) (t : Tree) (j : Visit) (inner : List Tree) (k : Jump)
    (q : Recorded Value) : Prop :=
  ∃ part go, (j.tree :: inner).getLast? = some part ∧ t.Resumes (record fuel) part k go ∧
    q = (do unwind inner; go)

theorem rule_goesOn (fuel : Nat) {t : Tree} (ht : t.Grammatical .statement)
    (hcatch : t.catches = true) (hj : j.tree.jump? = some k) (hc : j.context = inner ++ t :: c)
    (hinner : ∀ u ∈ inner, u.passes = true) :
    GoesOn (t :: c) j inner (Resumption fuel t j inner k) (Eval.rule (record fuel) fuel t) := by
  have hnot {u : Tree} {G : Recorded Value → Prop} (hu : u.Grammatical .optional) :
      GoesOn (t :: c) j inner G (record fuel u) :=
    .record_of_not_mayJump fuel hu.optional_not_mayJump hj hc hinner
  have hpart {i : Tree.Category} {u : Tree} (hu : u.Grammatical i) :=
    (record_goesOn fuel hu hj hc hinner).record_last hc
  have hleave {part : Tree} (hlast : (j.tree :: inner).getLast? = some part) (hk : k = .leave) :
      Resumption fuel t j inner k (do unwind inner; return .nothing) :=
    ⟨part, _, hlast, hk ▸ .leave, rfl⟩
  cases ht with
  | @whileLoop x b n hx hb =>
    refine whileTrue_goesOn (hnot (.ofExpression hx)) (hpart hb) (.pure _) hleave ?_ fuel
    rintro turns hlast rfl
    exact ⟨b, _, hlast, .whileLoop turns, rfl⟩
  | @doWhile x b n hx hb =>
    refine doWhile_goesOn (hnot (.ofExpression hx)) (hpart hb) hleave ?_ fuel
    rintro turns hlast rfl
    exact ⟨b, _, hlast, .doWhile turns, rfl⟩
  | @forLoop s x i b n hs hx hi hb =>
    refine .bind_never (hnot hs) fun _ => ?_
    refine whileTrue_goesOn (hnot hx) (hpart hb) (hnot hi) hleave ?_ fuel
    rintro turns hlast rfl
    exact ⟨b, _, hlast, .forLoop turns, rfl⟩
  | @switch s cs n hs hcs =>
    refine .bind_never (hnot (.ofExpression hs)) fun v => ?_
    refine .bind (G := fun q => Adds (fun _ => True) q ∧
      Resumption fuel (.switch s cs n) j inner k (do q; return .nothing)) ?_ (fun _ => .pure _)
      fun q hq => hq
    have hchild (u : Tree) (hu : u ∈ cs) (_ : u.isLabel = false) := hpart (hcs u hu)
    have hlabel (e : Tree) (i : Nat) (he : .caseLabel e i ∈ cs) :
        GoesOn (.switch s cs n :: c) j inner (fun _ => False) (record fuel e) := by
      cases hcs _ he with
      | caseLabel _ he => exact hnot (.ofExpression he)
      | ofItem hi => cases hi.not_isLabel (by decide)
    have hadds (front : List Tree) (u : Tree) (rest : List Tree)
        (hrest : cs = front ++ u :: rest) :
        Adds (fun _ => True) (Eval.cases (record fuel) v true rest) :=
      (cases_goesOn (H := fun _ => True) v hchild hlabel (fun _ _ _ => trivial)
        (fun _ _ _ _ _ _ => trivial) (front ++ [u]) rest (by simp [hrest]) true).1
    refine cases_goesOn v hchild hlabel (fun u hlast hk => ⟨?_, ?_⟩)
      (fun front u rest hrest hlast hk => ⟨?_, ?_⟩) [] cs rfl false
    · exact .bind (.lift (unwind_keeps inner)) fun _ _ => .pure trivial
    · simpa only [bind_assoc, pure_bind] using hleave hlast hk
    · exact .bind (.lift (unwind_keeps inner)) fun _ _ => hadds front u rest hrest
    · subst hk hrest
      exact ⟨u, _, hlast, .switch v, bind_assoc ..⟩
  | simple he =>
    cases he with
    | absentExpression => cases hcatch
    | ofExpression he => cases he <;> cases hcatch
  | _ => cases hcatch

end Recorded

/-! ## Jumps in a history -/

open Recorded (startAt)

/-- After a jump that ends on a machine, the trees around it end up to a loop or a switch, which goes
on from there to its own end, and has begun before. -/
def Visit.JumpsTo (j target : Visit) (inner : List Tree) (k : Jump) (m : Machine)
    (earlier later : List Event) : Prop :=
  .enter target ∈ earlier ∧ ∃ depth part go r s rest ends, target.fuel = depth + 1 ∧
    (j.tree :: inner).getLast? = some part ∧ target.tree.Resumes (record depth) part k go ∧
    Recorded.execute (do unwind inner; go) (startAt m (target.tree :: target.context)) = (r, s) ∧
    EndInTurn inner ends ∧ later = rest ++ .leave target r s.1 :: (s.2.events ++ ends)

namespace Recorded

variable {α : Type} {c : List Tree}

/-- Every jump to a loop or a switch that is evaluated in a context comes there. -/
def Caught (c : List Tree) (es : List Event) : Prop :=
  ∀ later j r m earlier, es = later ++ .leave j r m :: earlier → ∀ k, j.tree.jump? = some k →
    ∀ inner t outer, j.context = inner ++ t :: (outer ++ c) → (∀ u ∈ inner, u.passes = true) →
      t.catches = true → t.Grammatical .statement →
      ∃ target : Visit, target.tree = t ∧ target.context = outer ++ c ∧
        j.JumpsTo target inner k m earlier later

theorem Caught.nil : Caught c [] := by
  intro later j r m earlier h
  cases later <;> cases h

theorem Caught.append {A B : List Event} (hA : Caught c A) (hB : Caught c B) :
    Caught c (A ++ B) := by
  intro later j r m earlier h k hk inner t outer hc hinner hcatch ht
  obtain ⟨rest, hrest, rfl⟩ | ⟨front, rfl, hfront⟩ := event_of_append h
  · obtain ⟨target, htree, hcontext, hbegun, hgo⟩ :=
      hA later j r m rest hrest k hk inner t outer hc hinner hcatch ht
    exact ⟨target, htree, hcontext, List.mem_append_left _ hbegun, hgo⟩
  · obtain ⟨target, htree, hcontext, hbegun, depth, part, go, w, s, rest, ends, hfuel, hlast, hgo,
      hrun, hends, hlater⟩ := hB front j r m earlier hfront k hk inner t outer hc hinner hcatch ht
    refine ⟨target, htree, hcontext, hbegun, depth, part, go, w, s, A ++ rest, ends, hfuel, hlast,
      hgo, hrun, hends, ?_⟩
    rw [hlater, List.append_assoc]

def Catches (c : List Tree) (Q : α → Prop) (p : Recorded α) : Prop :=
  Adds Q p ∧ ∀ m, Caught c (p.execute (startAt m c)).2.2.events

theorem Catches.lift {R : Change} {Q : α → Prop} {p : Run α} (hp : p.Keeps (fun _ => True) R Q) :
    Catches c Q (liftM p) :=
  ⟨.lift hp, fun _ => .nil⟩

theorem Catches.bind {β : Type} {P : α → Prop} {Q : β → Prop} {p : Recorded α}
    {f : α → Recorded β} (hp : Catches c P p) (hf : ∀ a, P a → Catches c Q (f a)) :
    Catches c Q (p >>= f) := by
  have hadds (a : α) (ha : P a) : Adds Q (f a) := (hf a ha).1
  refine ⟨hp.1.bind hadds, fun m => ?_⟩
  have hfirst := hp.2 m
  have hP := (hp.1 m c).2
  cases h : p.execute (startAt m c) with
  | mk r s' =>
    rw [h] at hfirst hP
    cases r with
    | error e =>
      rw [execute_bind, h]
      exact hfirst
    | ok a =>
      rw [Adds.bind_ok hadds hp.1 h]
      exact ((hf a (hP a rfl)).2 s'.1).append hfirst

def catching (c : List Tree) : MildCorrespondence Recorded Recorded where
  Fine _ := True
  fine _ _ := trivial
  Rel Q p _ := Catches c Q p
  pure ha := ⟨.pure ha, fun _ => .nil⟩
  bind hp hf := hp.bind hf
  quiet hp := .lift hp
  mild hp := .lift hp

theorem Catches.rule {fuel : Nat} (h : ∀ u, Catches c (fun _ => True) (record fuel u)) (t : Tree) :
    Catches c (fun _ => True) (Eval.rule (record fuel) fuel t) := by
  have hcalls : (catching c).Calls (record fuel) (record fuel) := by
    intro type name params body args _ _
    have henter := Eval.enterFunction_keeps (F := fun _ => True) (fun _ _ => trivial) name params
      (fun v (_ : v ∈ args) => trivial)
    refine (Catches.lift henter).bind fun _ _ => (h body).bind fun v _ => ?_
    exact .lift (Eval.leaveFunction_keeps (fun _ _ => trivial) type v)
  have hrule : (catching c).Both (Eval.rule (record fuel) fuel t)
      (Eval.rule (record fuel) fuel t) :=
    (catching c).rule fuel t (fun u _ => h u)
      (fun f _ _ _ => (catching c).call hcalls f fun a _ => h a) fun _ _ _ _ _ _ => trivial
  exact hrule

theorem record_catches (fuel : Nat) (t : Tree) : Catches c (fun _ => True) (record fuel t) := by
  induction fuel generalizing t c with
  | zero => exact ⟨record_adds 0 t, fun _ => .nil⟩
  | succ fuel ih =>
    refine ⟨record_adds _ t, fun m => ?_⟩
    have hrule := Catches.rule (fun u => ih (c := t :: c) u) t
    intro later j r m' earlier hev k hk inner u outer hc hinner hcatch hu
    rw [record_startAt] at hev
    have hne : j ≠ ⟨c, fuel + 1, t, m⟩ := by
      rintro rfl
      have hlength := congrArg List.length hc
      simp at hlength
      omega
    obtain ⟨front, rest, rfl, hfront, rfl⟩ := event_inside hne hev
    obtain ⟨inside, hinside⟩ : Inside t c (.leave j r m') := by
      have h := (rule_inside fuel t c (startAt m (t :: c)) ⟨rfl, List.forall_mem_nil _⟩).1.2
      refine h _ ?_
      rw [hfront]
      exact List.mem_append_right _ (List.mem_cons_self ..)
    obtain rfl | ⟨outer, y, rfl⟩ := List.eq_nil_or_concat' outer
    · -- The loop or switch is the tree itself.
      obtain ⟨-, rfl⟩ := context_unique (hc.symm.trans hinside)
      obtain ⟨q, ⟨part, go, hlast, hgo, rfl⟩, hresult, hmachine, ends, hends, rfl⟩ :=
        (rule_goesOn (c := c) fuel hu hcatch hk hc hinner).2 m front r m' rest hfront
      cases hrun : Recorded.execute (do unwind inner; go) (startAt m' (u :: c)) with
      | mk w s =>
        rw [hrun] at hresult hmachine
        refine ⟨⟨c, fuel + 1, u, m⟩, rfl, rfl, List.mem_append_right _ (List.mem_singleton.2 rfl),
          fuel, part, go, w, s, [], ends, rfl, hlast, hgo, hrun, hends, ?_⟩
        rw [hresult, hmachine]
        rfl
    · -- The loop or switch is inside the tree.
      have hwhole : j.context = (inner ++ u :: outer) ++ y :: c := by simpa using hc
      obtain ⟨-, rfl⟩ := context_unique (hwhole.symm.trans hinside)
      have hc : j.context = inner ++ u :: (outer ++ y :: c) := by simpa using hc
      obtain ⟨target, htree, hcontext, hbegun, depth, part, go, w, s, rest', ends, hfuel, hlast,
        hgo, hrun, hends, rfl⟩ :=
        hrule.2 m front j r m' rest hfront k hk inner u outer hc hinner hcatch hu
      refine ⟨target, htree, by rw [hcontext]; simp, List.mem_append_left _ hbegun, depth, part, go,
        w, s, _ :: rest', ends, hfuel, hlast, hgo, hrun, hends, rfl⟩

theorem executeBy_catches (fuel : Nat) (t : Tree) :
    Catches [] (fun _ => True) (Eval.executeBy (record fuel) t) := by
  refine (record_catches fuel t).bind fun _ _ => ?_
  refine (Catches.lift (Run.pushFrame_keeps "main")).bind fun _ _ => ?_
  refine (record_catches fuel Eval.callMain).bind fun v _ => ?_
  refine (Catches.lift Run.popFrame_keeps).bind fun _ _ => ?_
  exact .lift (R := .free) (Run.ofExcept_keeps fun _ _ => trivial)

end Recorded

/-- In an accepted program, whatever the blocks and conditions around a jump, it comes to the nearest
loop or switch, before anything else is executed. -/
theorem jump_comes_to_nearest {code : String} {program : Tree}
    (hp : Program.parse code = .ok program) (ha : (Analysis.analyze program).1.isOk = true)
    {m m' : Machine} (hm : m.store = Store.empty) {fuel : Nat} {earlier later : List Event}
    {j : Visit} {r : Except Fault Value}
    (hj : history fuel program m = later ++ .leave j r m' :: earlier) {k : Jump}
    (hk : j.tree.jump? = some k) :
    ∃ inner target, j.context = inner ++ target.tree :: target.context ∧
      (∀ t ∈ inner, t.passes = true) ∧ target.tree.catches = true ∧
      j.JumpsTo target inner k m' earlier later := by
  have hgrammatical := Program.parse_grammatical hp
  have hmem : .leave j r m' ∈ history fuel program m := by
    rw [hj]
    exact List.mem_append_right _ (List.mem_cons_self ..)
  have hlinked := history_linked hm hmem
  obtain ⟨inner, t, outer, hc, hinner, hcatch, ht⟩ | hout :=
    hlinked.covered hgrammatical (by simp [Event.visit, Tree.mayJump, hk])
  · have hc' : j.context = inner ++ t :: (outer ++ []) := by rw [List.append_nil]; exact hc
    obtain ⟨target, rfl, hcontext, hjumps⟩ := (Recorded.executeBy_catches fuel program).2 m later j r
      m' earlier hj k hk inner t outer hc' hinner hcatch ht
    rw [List.append_nil] at hcontext
    subst hcontext
    exact ⟨inner, target, hc, hinner, hcatch, hjumps⟩
  · have hnone := hout.not_jump hgrammatical ha
    rw [show j.tree.jump? = none from hnone] at hk
    cases hk

/-- A switch in a loop takes the jump that asks for the next turn of the loop. -/
theorem jump_comes_to_nearest_switch : ∃ program earlier later j r m inner target,
    Program.parse
        "int main()\x7b do switch (1) \x7b case 1: \x7b if (1) continue; \x7d \x7d while (0); return 0; \x7d" =
      .ok program ∧
    (Analysis.analyze program).1.isOk = true ∧
    history 20 program (Machine.start "") = later ++ .leave j r m :: earlier ∧
    j.tree.jump? = some .again ∧
    j.around.map Tree.className = ["IfStmt", "CompoundStmt", "SwitchStmt", "DoWhileStmt"] ∧
    j.context = inner ++ target.tree :: target.context ∧ (∀ t ∈ inner, t.passes = true) ∧
    target.tree.catches = true ∧ j.JumpsTo target inner .again m earlier later := by
  have hrun : ((Program.parse
      "int main()\x7b do switch (1) \x7b case 1: \x7b if (1) continue; \x7d \x7d while (0); return 0; \x7d"
        ).toOption.any fun t =>
          (Analysis.analyze t).1.isOk && (history 20 t (Machine.start "")).any fun e =>
            e.given?.any fun v => v.1.tree.jump? == some .again && v.1.around.map Tree.className ==
              ["IfStmt", "CompoundStmt", "SwitchStmt", "DoWhileStmt"]) = true := by
    decide +kernel
  obtain ⟨program, hp, haccepted, hany⟩ := Program.exists_accepted hrun
  obtain ⟨e, he, hv⟩ := List.any_eq_true.1 hany
  obtain ⟨⟨j, w⟩, hgiven, hcheck⟩ := (Option.any_eq_true ..).1 hv
  obtain ⟨m, rfl⟩ := Event.eq_leave hgiven
  simp only [Bool.and_eq_true, beq_iff_eq] at hcheck
  obtain ⟨later, earlier, hev⟩ := List.append_of_mem he
  obtain ⟨inner, target, hc, hinner, hcatch, hjumps⟩ :=
    jump_comes_to_nearest hp haccepted rfl hev hcheck.1
  exact ⟨program, earlier, later, j, _, m, inner, target, hp, haccepted, hev, hcheck.1, hcheck.2, hc,
    hinner, hcatch, hjumps⟩

end MiniC
