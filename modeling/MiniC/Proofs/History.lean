import MiniC.Proofs.Correspondence

/-!
# The history of a run

The rules of evaluation are followed once more by computations that keep a record: each evaluation
of a tree is entered in a journal when it begins and when it ends, with the machine at that moment
and with the trees that are being evaluated around it. Forgetting the journal gives the evaluation
itself, so the journal tells the steps of the program that runs.
-/

namespace MiniC

open Eval (Evaluator)

structure Visit where
  /-- The trees that are being evaluated around it, innermost first. -/
  context : List Tree
  fuel : Nat
  tree : Tree
  before : Machine

inductive Event where
  | enter (v : Visit)
  | leave (v : Visit) (result : Except Fault Value) (after : Machine)

def Event.visit : Event → Visit
  | enter v => v
  | leave v _ _ => v

def Event.entered? : Event → Option Visit
  | enter v => some v
  | leave .. => none

def Event.given? : Event → Option (Visit × Value)
  | leave v (.ok w) _ => some (v, w)
  | _ => none

theorem Event.eq_leave {e : Event} {v : Visit} {w : Value} (h : e.given? = some (v, w)) :
    ∃ m, e = .leave v (.ok w) m := by
  cases e with
  | enter => cases h
  | leave v' r m =>
    cases r with
    | error => cases h
    | ok w' =>
      obtain ⟨rfl, rfl⟩ := Prod.mk.inj (Option.some.inj h)
      exact ⟨m, rfl⟩

structure Journal where
  context : List Tree
  events : List Event

def Journal.empty : Journal := ⟨[], []⟩

abbrev Recorded := ExceptT Fault (StateM (Machine × Journal))

instance : MonadLift Run Recorded where
  monadLift p := fun s => ((p.run s.1).1, (p.run s.1).2, s.2)

namespace Recorded

variable {α : Type}

def execute (p : Recorded α) (s : Machine × Journal) : Except Fault α × Machine × Journal :=
  p.run s

def visitAt (fuel : Nat) (t : Tree) (s : Machine × Journal) : Visit :=
  ⟨s.2.context, fuel, t, s.1⟩

def entered (fuel : Nat) (t : Tree) (s : Machine × Journal) : Machine × Journal :=
  (s.1, ⟨t :: s.2.context, .enter (visitAt fuel t s) :: s.2.events⟩)

def left (fuel : Nat) (t : Tree) (s : Machine × Journal) (r : Except Fault Value)
    (s' : Machine × Journal) : Machine × Journal :=
  (s'.1, ⟨s.2.context, .leave (visitAt fuel t s) r s'.1 :: s'.2.events⟩)

def visit (fuel : Nat) (t : Tree) (p : Recorded Value) : Recorded Value := fun s =>
  let r := p.execute (entered fuel t s)
  (r.1, left fuel t s r.1 r.2)

end Recorded

/-- The value of a tree, with a bound on the steps, and with a record of its evaluation. -/
def record : Nat → Evaluator Recorded
  | 0, _ => throw .outOfFuel
  | fuel + 1, t => Recorded.visit (fuel + 1) t (Eval.rule (record fuel) fuel t)

/-- The history of a program that is executed from a machine, the latest event first. -/
def history (fuel : Nat) (t : Tree) (m : Machine) : List Event :=
  ((Eval.executeBy (record fuel) t).execute (m, .empty)).2.2.events

namespace Recorded

variable {α β : Type}

theorem execute_bind (p : Recorded α) (f : α → Recorded β) (s : Machine × Journal) :
    (p >>= f).execute s =
      match p.execute s with
      | (.ok a, s') => (f a).execute s'
      | (.error e, s') => (.error e, s') := by
  unfold execute
  rw [run_bind]
  cases p.run s with
  | mk r s' => cases r <;> rfl

theorem execute_bind_ok {p : Recorded α} {f : α → Recorded β} {s s'' : Machine × Journal} {b : β}
    (h : (p >>= f).execute s = (.ok b, s'')) :
    ∃ a s', p.execute s = (.ok a, s') ∧ (f a).execute s' = (.ok b, s'') := by
  rw [execute_bind] at h
  cases hp : p.execute s with
  | mk r s' =>
    rw [hp] at h
    cases r with
    | error e => cases h
    | ok a => exact ⟨a, s', rfl, h⟩

@[simp] theorem execute_pure (a : α) (s : Machine × Journal) :
    (pure a : Recorded α).execute s = (.ok a, s) := rfl

@[simp] theorem execute_throw (f : Fault) (s : Machine × Journal) :
    (throw f : Recorded α).execute s = (.error f, s) := rfl

@[simp] theorem execute_lift (p : Run α) (s : Machine × Journal) :
    (liftM p : Recorded α).execute s = ((p.execute s.1).1, (p.execute s.1).2, s.2) := rfl

theorem execute_lift_ok {p : Run α} {s s' : Machine × Journal} {a : α}
    (h : (liftM p : Recorded α).execute s = (.ok a, s')) :
    p.execute s.1 = (.ok a, s'.1) ∧ s'.2 = s.2 := by
  rw [execute_lift] at h
  obtain ⟨hr, rfl⟩ := Prod.mk.inj h
  exact ⟨Prod.ext hr rfl, rfl⟩

theorem execute_record (fuel : Nat) (t : Tree) (s : Machine × Journal) :
    (record (fuel + 1) t).execute s =
      let r := (Eval.rule (record fuel) fuel t).execute (entered (fuel + 1) t s)
      (r.1, left (fuel + 1) t s r.1 r.2) := rfl

theorem execute_record_ok {fuel : Nat} {t : Tree} {s s' : Machine × Journal} {v : Value}
    (h : (record (fuel + 1) t).execute s = (.ok v, s')) :
    ∃ s₁, (Eval.rule (record fuel) fuel t).execute (entered (fuel + 1) t s) = (.ok v, s₁) ∧
      s' = left (fuel + 1) t s (.ok v) s₁ := by
  rw [execute_record] at h
  obtain ⟨hr, hs⟩ := Prod.mk.inj h
  rw [hr] at hs
  exact ⟨_, Prod.ext hr rfl, hs.symm⟩

def Keeps (I : Machine × Journal → Prop) (Q : α → Prop) (p : Recorded α) : Prop :=
  ∀ s, I s → I (p.execute s).2 ∧ ∀ a, (p.execute s).1 = .ok a → Q a

namespace Keeps

variable {I : Machine × Journal → Prop} {P : α → Prop} {Q : β → Prop}

theorem pure {a : α} (ha : P a) : Keeps I P (pure a) :=
  fun _ hs => ⟨hs, fun _ hb => Except.ok.inj hb ▸ ha⟩

theorem throw (f : Fault) : Keeps I P (throw f) :=
  fun _ hs => ⟨hs, fun _ hb => by cases hb⟩

theorem bind {p : Recorded α} {f : α → Recorded β} (hp : Keeps I P p)
    (hf : ∀ a, P a → Keeps I Q (f a)) : Keeps I Q (p >>= f) := by
  intro s hs
  obtain ⟨hs', hP⟩ := hp s hs
  rw [execute_bind]
  cases h : p.execute s with
  | mk r s' =>
    rw [h] at hs' hP
    cases r with
    | error e => exact ⟨hs', fun b hb => by cases hb⟩
    | ok a => exact hf a (hP a rfl) s' hs'

/-- The evaluation of a tree keeps what its rule and the entries in the journal keep. -/
theorem record {fuel : Nat} {t : Tree} {P : Value → Prop}
    (hp : Keeps I P (Eval.rule (record fuel) fuel t))
    (hin : ∀ s, I s → I (entered (fuel + 1) t s))
    (hout : ∀ s r s', I s → I s' → I (left (fuel + 1) t s r s')) :
    Keeps I P (record (fuel + 1) t) := by
  intro s hs
  obtain ⟨hs', hP⟩ := hp _ (hin s hs)
  rw [execute_record]
  exact ⟨hout s _ _ hs hs', hP⟩

end Keeps

/-- A recorded computation does what another one does without a record, and its results have a
property. -/
def Erases (Q : α → Prop) (p : Recorded α) (q : Run α) : Prop :=
  ∀ s, q.execute s.1 = ((p.execute s).1, (p.execute s).2.1) ∧ ∀ a, (p.execute s).1 = .ok a → Q a

theorem Erases.bind {P : α → Prop} {Q : β → Prop} {p : Recorded α} {q : Run α}
    {f : α → Recorded β} {g : α → Run β} (hp : Erases P p q) (hf : ∀ a, P a → Erases Q (f a) (g a)) :
    Erases Q (p >>= f) (q >>= g) := by
  intro s
  obtain ⟨hq, hP⟩ := hp s
  rw [execute_bind, Run.execute_bind, hq]
  cases h : p.execute s with
  | mk r s' =>
    rw [h] at hP
    cases r with
    | error e => exact ⟨rfl, fun a ha => by cases ha⟩
    | ok a => exact hf a (hP a rfl) s'

theorem Erases.lift {R : Change} {Q : α → Prop} {p : Run α} (hp : p.Keeps (fun _ => True) R Q) :
    Erases Q (liftM p) p :=
  fun s => ⟨rfl, (hp s.1 fun _ _ _ => trivial).2.2⟩

def erasure : MildCorrespondence Recorded Run where
  Fine _ := True
  fine _ _ := trivial
  Rel Q p q := Erases Q p q
  pure ha _ := ⟨rfl, fun _ hb => Except.ok.inj hb ▸ ha⟩
  bind hp hf := hp.bind hf
  quiet hp := .lift hp
  mild hp := .lift hp

theorem erasure_lift (p : Run α) : erasure.Rel (fun _ => True) (liftM p) p :=
  fun _ => ⟨rfl, fun _ _ => trivial⟩

theorem erasure_calls {ev : Evaluator Recorded} {ev' : Evaluator Run}
    (h : ∀ t, erasure.Both (ev t) (ev' t)) : erasure.Calls ev ev' := by
  intro type name params body args _ _
  refine erasure.bind (erasure_lift _) fun _ _ => erasure.bind (h body) fun v _ => ?_
  exact erasure_lift _

theorem record_erases (fuel : Nat) (t : Tree) : erasure.Both (record fuel t) (Eval.eval fuel t) := by
  induction fuel generalizing t with
  | zero => exact fun s => ⟨rfl, fun _ _ => trivial⟩
  | succ fuel ih =>
    have hrule := erasure.rule fuel t (fun u _ => ih u)
      (fun f _ _ _ => erasure.call (erasure_calls ih) f fun a _ => ih a) fun _ _ _ _ _ _ => trivial
    intro s
    refine ⟨?_, fun _ _ => trivial⟩
    rw [execute_record]
    exact (hrule (entered (fuel + 1) t s)).1

theorem executeBy_erases {ev : Evaluator Recorded} {ev' : Evaluator Run}
    (h : ∀ t, erasure.Both (ev t) (ev' t)) (t : Tree) :
    erasure.Rel (fun _ => True) (Eval.executeBy ev t) (Eval.executeBy ev' t) := by
  refine erasure.bind (h t) fun _ _ => erasure.bind (erasure_lift _) fun _ _ => ?_
  refine erasure.bind (h Eval.callMain) fun v _ => erasure.bind (erasure_lift _) fun _ _ => ?_
  exact erasure_lift _

end Recorded

theorem record_eval (fuel : Nat) (t : Tree) (s : Machine × Journal) :
    (Eval.eval fuel t).execute s.1 = (((record fuel t).execute s).1, ((record fuel t).execute s).2.1) :=
  (Recorded.record_erases fuel t s).1

theorem record_arguments (fuel : Nat) (args : List Tree) (s : Machine × Journal) :
    (Eval.arguments (Eval.eval fuel) args).execute s.1 =
      (((Eval.arguments (record fuel) args).execute s).1,
        ((Eval.arguments (record fuel) args).execute s).2.1) :=
  (Recorded.erasure.arguments (fun a (_ : a ∈ args) => Recorded.record_erases fuel a) s).1

theorem executeBy_record (fuel : Nat) (t : Tree) (s : Machine × Journal) :
    (Eval.execute fuel t).execute s.1 =
      (((Eval.executeBy (record fuel) t).execute s).1,
        ((Eval.executeBy (record fuel) t).execute s).2.1) :=
  (Recorded.executeBy_erases (Recorded.record_erases fuel) t s).1

end MiniC
