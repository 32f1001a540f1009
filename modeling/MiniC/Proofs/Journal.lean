import MiniC.Proofs.Reached

/-!
# What an evaluation adds to the journal

An evaluation puts its own events before those that are there, and neither its result nor its events
depend on them. So the events of an evaluation can be taken as those that it adds to an empty
journal. The first and the last of them are its own beginning and end; all others happen inside it,
in a context that goes on from its tree.
-/

namespace MiniC

open Eval (Evaluator)

namespace Recorded

variable {α β : Type}

abbrev startAt (m : Machine) (c : List Tree) : Machine × Journal :=
  (m, ⟨c, []⟩)

/-- A computation only adds events, which depend on the machine and the context alone. -/
def Adds (Q : α → Prop) (p : Recorded α) : Prop :=
  ∀ m c, (∀ es, p.execute (m, ⟨c, es⟩) =
      ((p.execute (startAt m c)).1, (p.execute (startAt m c)).2.1,
        ⟨c, (p.execute (startAt m c)).2.2.events ++ es⟩)) ∧
    ∀ a, (p.execute (startAt m c)).1 = .ok a → Q a

namespace Adds

variable {P : α → Prop} {Q : β → Prop}

theorem pure {a : α} (ha : P a) : Adds P (pure a) :=
  fun _ _ => ⟨fun _ => rfl, fun _ hb => Except.ok.inj hb ▸ ha⟩

theorem lift {R : Change} {p : Run α} (hp : p.Keeps (fun _ => True) R P) : Adds P (liftM p) :=
  fun m _ => ⟨fun _ => rfl, (hp m fun _ _ _ => trivial).2.2⟩

theorem bind {p : Recorded α} {f : α → Recorded β} (hp : Adds P p)
    (hf : ∀ a, P a → Adds Q (f a)) : Adds Q (p >>= f) := by
  intro m c
  obtain ⟨hadd, hP⟩ := hp m c
  cases h : p.execute (startAt m c) with
  | mk r s' =>
    rw [h] at hadd hP
    cases r with
    | error e =>
      refine ⟨fun es => ?_, fun b hb => ?_⟩
      · rw [execute_bind, execute_bind, hadd es, h]
      · rw [execute_bind, h] at hb
        cases hb
    | ok a =>
      obtain ⟨hadd', hQ⟩ := hf a (hP a rfl) s'.1 c
      have hself : s' = (s'.1, ⟨c, s'.2.events⟩) := by
        have hs := congrArg Prod.snd ((h.symm.trans (hadd [])))
        rw [List.append_nil] at hs
        exact hs
      have hrest : (p >>= f).execute (startAt m c) = (f a).execute (s'.1, ⟨c, s'.2.events⟩) := by
        rw [execute_bind, h, ← hself]
      rw [hrest, hadd' s'.2.events]
      refine ⟨fun es => ?_, hQ⟩
      rw [execute_bind, hadd es]
      change (f a).execute (s'.1, ⟨c, s'.2.events ++ es⟩) = _
      rw [hadd' (s'.2.events ++ es), List.append_assoc]

end Adds

/-- What a completed computation adds. -/
theorem Adds.ok {P : α → Prop} {p : Recorded α} (hp : Adds P p) {s s' : Machine × Journal} {a : α}
    (h : p.execute s = (.ok a, s')) :
    ∃ s'', p.execute (startAt s.1 s.2.context) = (.ok a, s'') ∧ s'.1 = s''.1 ∧
      s'.2 = ⟨s.2.context, s''.2.events ++ s.2.events⟩ := by
  have hadd := (hp s.1 s.2.context).1 s.2.events
  obtain ⟨hr, rfl⟩ := Prod.mk.inj (hadd.symm.trans h)
  exact ⟨_, Prod.ext hr rfl, rfl, rfl⟩

def adding : MildCorrespondence Recorded Recorded where
  Fine _ := True
  fine _ _ := trivial
  Rel Q p _ := Adds Q p
  pure ha := .pure ha
  bind hp hf := hp.bind hf
  quiet hp := .lift hp
  mild hp := .lift hp

theorem Adds.callFunction {ev : Evaluator Recorded} (h : ∀ t, Adds (fun _ => True) (ev t))
    (type : Tree) (name : String) (params : List Tree) (body : Tree) (args : List Value) :
    Adds (fun _ => True) (Eval.callFunction ev type name params body args) := by
  refine .bind (.lift (Eval.enterFunction_keeps (fun _ _ => trivial) name params ?_)) fun _ _ => ?_
  · exact fun _ _ => trivial
  refine .bind (h body) fun v _ => ?_
  exact .lift (Eval.leaveFunction_keeps (fun _ _ => trivial) type v)

theorem Adds.rule {fuel : Nat} (h : ∀ u, Adds (fun _ => True) (record fuel u)) (t : Tree) :
    Adds (fun _ => True) (Eval.rule (record fuel) fuel t) := by
  have hcalls : adding.Calls (record fuel) (record fuel) := fun type name params body args _ _ =>
    .callFunction h type name params body args
  have hrule : adding.Both (Eval.rule (record fuel) fuel t) (Eval.rule (record fuel) fuel t) :=
    adding.rule fuel t (fun u _ => h u) (fun f _ _ _ => adding.call hcalls f fun a _ => h a)
      fun _ _ _ _ _ _ => trivial
  exact hrule

/-- An evaluation only adds events. -/
theorem record_adds (fuel : Nat) (t : Tree) : Adds (fun _ => True) (record fuel t) := by
  induction fuel generalizing t with
  | zero => exact fun m c => ⟨fun _ => rfl, fun _ _ => trivial⟩
  | succ fuel ih =>
    intro m c
    obtain ⟨hadd, -⟩ := Adds.rule ih t m (t :: c)
    refine ⟨fun es => ?_, fun _ _ => trivial⟩
    simp only [execute_record, entered, left, visitAt]
    rw [hadd (.enter ⟨c, fuel + 1, t, m⟩ :: es), hadd [.enter ⟨c, fuel + 1, t, m⟩]]
    simp only [List.cons_append, List.append_assoc, List.nil_append]

theorem arguments_adds (fuel : Nat) (args : List Tree) :
    Adds (fun _ => True) (Eval.arguments (record fuel) args) := by
  have h : adding.Rel (fun vs => ∀ v ∈ vs, adding.Fine v) (Eval.arguments (record fuel) args)
      (Eval.arguments (record fuel) args) :=
    adding.arguments fun a _ => record_adds fuel a
  exact fun m c => ⟨(h m c).1, fun _ _ => trivial⟩

/-! ## Contexts -/

def Inside (t : Tree) (c : List Tree) (e : Event) : Prop :=
  ∃ inner, e.visit.context = inner ++ t :: c

def Happens (c : List Tree) (E : Event → Prop) (s : Machine × Journal) : Prop :=
  s.2.context = c ∧ ∀ e ∈ s.2.events, E e

theorem Happens.lift {c : List Tree} {E : Event → Prop} {R : Change} {P : α → Prop} {p : Run α}
    (hp : p.Keeps (fun _ => True) R P) : Keeps (Happens c E) P (liftM p) :=
  fun s hs => ⟨hs, (hp s.1 fun _ _ _ => trivial).2.2⟩

def happening (c : List Tree) (E : Event → Prop) : MildCorrespondence Recorded Recorded where
  Fine _ := True
  fine _ _ := trivial
  Rel Q p _ := Keeps (Happens c E) Q p
  pure ha := .pure ha
  bind hp hf := hp.bind hf
  quiet hp := Happens.lift hp
  mild hp := Happens.lift hp

theorem Happens.rule {fuel : Nat} {c : List Tree} {E : Event → Prop}
    (h : ∀ u, Keeps (Happens c E) (fun _ => True) (record fuel u)) (t : Tree) :
    Keeps (Happens c E) (fun _ => True) (Eval.rule (record fuel) fuel t) := by
  have hcalls : (happening c E).Calls (record fuel) (record fuel) := by
    intro type name params body args _ _
    have henter := Eval.enterFunction_keeps (F := fun _ => True) (fun _ _ => trivial) name params
      (fun v (_ : v ∈ args) => trivial)
    refine (Happens.lift henter).bind fun _ _ => (h body).bind fun v _ => ?_
    exact Happens.lift (Eval.leaveFunction_keeps (fun _ _ => trivial) type v)
  have hrule : (happening c E).Both (Eval.rule (record fuel) fuel t)
      (Eval.rule (record fuel) fuel t) :=
    (happening c E).rule fuel t (fun u _ => h u)
      (fun f _ _ _ => (happening c E).call hcalls f fun a _ => h a) fun _ _ _ _ _ _ => trivial
  exact hrule

/-- What happens during the evaluation of a tree is its beginning, its end or inside it. -/
theorem record_happens (fuel : Nat) (t : Tree) (c : List Tree) (E : Event → Prop)
    (hself : ∀ e : Event, e.visit.context = c → e.visit.tree = t → E e)
    (hinside : ∀ e, Inside t c e → E e) :
    Keeps (Happens c E) (fun _ => True) (record fuel t) := by
  induction fuel generalizing t c with
  | zero => exact .throw _
  | succ fuel ih =>
    -- The parts of the tree are evaluated in the context that goes on from it.
    have hpart (u : Tree) : Keeps (Happens (t :: c) E) (fun _ => True) (record fuel u) := by
      refine ih u (t :: c) (fun e he _ => hinside e ⟨[], he⟩) fun e he => hinside e ?_
      obtain ⟨inner, he⟩ := he
      exact ⟨inner ++ [u], by rw [he, List.append_assoc]; rfl⟩
    intro s hs
    obtain ⟨rfl, hE⟩ := hs
    have hin : Happens (t :: s.2.context) E (entered (fuel + 1) t s) :=
      ⟨rfl, List.forall_mem_cons.2 ⟨hself _ rfl rfl, hE⟩⟩
    obtain ⟨⟨-, hE'⟩, hQ⟩ := Happens.rule hpart t _ hin
    rw [execute_record]
    exact ⟨⟨rfl, List.forall_mem_cons.2 ⟨hself _ rfl rfl, hE'⟩⟩, hQ⟩

/-- What the rule for a tree does happens inside the tree. -/
theorem rule_inside (fuel : Nat) (t : Tree) (c : List Tree) :
    Keeps (Happens (t :: c) (Inside t c)) (fun _ => True) (Eval.rule (record fuel) fuel t) := by
  refine Happens.rule (fun u => record_happens fuel u (t :: c) _ ?_ ?_) t
  · exact fun e he _ => ⟨[], he⟩
  · rintro e ⟨inner, he⟩
    exact ⟨inner ++ [u], by rw [he, List.append_assoc]; rfl⟩

/-- An evaluation with a record, told by its rule. -/
theorem record_startAt (fuel : Nat) (t : Tree) (m : Machine) (c : List Tree) :
    (record (fuel + 1) t).execute (startAt m c) =
      let o := (Eval.rule (record fuel) fuel t).execute (startAt m (t :: c))
      (o.1, o.2.1, ⟨c, .leave ⟨c, fuel + 1, t, m⟩ o.1 o.2.1 ::
        (o.2.2.events ++ [.enter ⟨c, fuel + 1, t, m⟩])⟩) := by
  obtain ⟨hadd, -⟩ := Adds.rule (record_adds fuel) t m (t :: c)
  simp only [execute_record, entered, left, visitAt]
  rw [hadd [.enter ⟨c, fuel + 1, t, m⟩]]

/-- The events of a completed evaluation: its end, what happened inside it, and its beginning. -/
theorem record_events {fuel : Nat} {t : Tree} {m : Machine} {c : List Tree} {v : Value}
    {s' : Machine × Journal} (h : (record (fuel + 1) t).execute (startAt m c) = (.ok v, s')) :
    ∃ s₁, (Eval.rule (record fuel) fuel t).execute (startAt m (t :: c)) = (.ok v, s₁) ∧
      s'.1 = s₁.1 ∧
      s'.2.events = .leave ⟨c, fuel + 1, t, m⟩ (.ok v) s₁.1 ::
        (s₁.2.events ++ [.enter ⟨c, fuel + 1, t, m⟩]) ∧
      ∀ e ∈ s₁.2.events, Inside t c e := by
  obtain ⟨⟨-, hinside⟩, -⟩ := rule_inside fuel t c (startAt m (t :: c)) ⟨rfl, List.forall_mem_nil _⟩
  rw [record_startAt] at h
  obtain ⟨hv, rfl⟩ := Prod.mk.inj h
  exact ⟨_, Prod.ext hv rfl, rfl, by rw [hv], hinside⟩

end Recorded

end MiniC
