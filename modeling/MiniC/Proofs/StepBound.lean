import MiniC.Proofs.Correspondence

/-!
# The bound on the steps

Evaluation is bounded by a number of steps, and runs out of them at any depth: in a call as in the
turn of a loop. But a result that is reached within the bound is the same with every larger one, so
that the results of a tree can be told without a bound. `Ends t m r m'` says that the evaluation of
`t` from the machine `m` ends with the result `r`, be it a value or a fault, and leaves `m'`.
-/

namespace MiniC.Eval

/-- A computation runs out of steps, or another one does the same. The results have a property. -/
def Sustains {α : Type} (Q : α → Prop) (p q : Run α) : Prop :=
  ∀ m, ((p.execute m).1 = .error .outOfFuel ∨ q.execute m = p.execute m) ∧
    ∀ a, (p.execute m).1 = .ok a → Q a

namespace Sustains

variable {α β : Type} {P : α → Prop} {Q : β → Prop}

theorem refl {R : Change} {p : Run α} (hp : p.Keeps (fun _ => True) R P) : Sustains P p p :=
  fun m => ⟨.inr rfl, (hp m fun _ _ _ => trivial).2.2⟩

theorem outOfFuel (q : Run α) : Sustains P (throw .outOfFuel) q :=
  fun _ => ⟨.inl rfl, fun _ h => by cases h⟩

theorem trans {p q r : Run α} (h : Sustains P p q) (h' : Sustains P q r) : Sustains P p r := by
  refine fun m => ⟨?_, (h m).2⟩
  obtain hout | hq := (h m).1
  · exact .inl hout
  · obtain hout | hr := (h' m).1
    · exact .inl (by rw [← hq, hout])
    · exact .inr (hr.trans hq)

theorem bind {p q : Run α} {f g : α → Run β} (hp : Sustains P p q)
    (hf : ∀ a, P a → Sustains Q (f a) (g a)) : Sustains Q (p >>= f) (q >>= g) := by
  intro m
  obtain ⟨hq, hP⟩ := hp m
  rw [Run.execute_bind, Run.execute_bind]
  cases h : p.execute m with
  | mk r m' =>
    rw [h] at hq hP
    cases r with
    | error e =>
      refine ⟨?_, fun b hb => by cases hb⟩
      obtain hout | hq := hq
      · exact .inl (congrArg Except.error (Except.error.inj hout))
      · exact .inr (by rw [hq])
    | ok a =>
      obtain hout | hq := hq
      · cases hout
      · rw [hq]
        exact hf a (hP a rfl) m'

end Sustains

def sustaining : MildCorrespondence Run Run where
  Fine _ := True
  fine _ _ := trivial
  Rel Q p q := Sustains Q p q
  pure ha _ := ⟨.inr rfl, fun _ hb => Except.ok.inj hb ▸ ha⟩
  bind hp hf := hp.bind hf
  quiet hp := .refl hp
  mild hp := .refl hp

/-- A computation of a value does the same as itself. -/
theorem sustaining_self (p : Run Value) : sustaining.Both p p :=
  fun _ => ⟨.inr rfl, fun _ _ => trivial⟩

/-! ## Loops -/

theorem whileTrue_sustains (condition body follow : Run Value) (turns : Nat) :
    sustaining.Both (whileTrue condition body follow turns)
      (whileTrue condition body follow (turns + 1)) := by
  induction turns with
  | zero => exact .outOfFuel _
  | succ turns ih =>
    refine .bind (sustaining_self condition) fun v _ => ?_
    refine sustaining.following.ite (.bind (sustaining_self body) fun w _ => ?_) sustaining.nothing
    split
    · exact sustaining.nothing
    · exact .bind (sustaining_self follow) fun _ _ => ih

theorem doWhile_sustains (condition body : Run Value) (turns : Nat) :
    sustaining.Both (doWhile condition body turns) (doWhile condition body (turns + 1)) := by
  induction turns with
  | zero => exact .outOfFuel _
  | succ turns ih =>
    refine .bind (sustaining_self body) fun w _ => ?_
    split
    · exact sustaining.nothing
    · refine .bind (sustaining_self condition) fun v _ => ?_
      exact sustaining.following.ite ih sustaining.nothing

/-- One more turn for the loops. -/
theorem rule_sustains (ev : Evaluator Run) (fuel : Nat) (t : Tree) :
    sustaining.Both (rule ev fuel t) (rule ev (fuel + 1) t) := by
  cases t with
  | forLoop s c i b =>
    exact .bind (sustaining_self (ev s)) fun _ _ => whileTrue_sustains (ev c) (ev b) (ev i) fuel
  | whileLoop c b => exact whileTrue_sustains (ev c) (ev b) _ fuel
  | doWhile c b => exact doWhile_sustains (ev c) (ev b) fuel
  | _ => exact sustaining_self _

/-! ## Evaluation -/

theorem eval_sustains (fuel : Nat) (t : Tree) :
    sustaining.Both (eval fuel t) (eval (fuel + 1) t) := by
  induction fuel generalizing t with
  | zero => exact .outOfFuel _
  | succ fuel ih =>
    have hcalls : sustaining.Calls (eval fuel) (eval (fuel + 1)) := by
      intro type name params body args _ _
      refine .bind (P := fun _ => True) (fun _ => ⟨.inr rfl, fun _ _ => trivial⟩) fun _ _ => ?_
      exact .bind (ih body) fun v _ => sustaining_self _
    have hparts : sustaining.Both (rule (eval fuel) fuel t) (rule (eval (fuel + 1)) fuel t) :=
      sustaining.rule fuel t (fun u _ => ih u)
        (fun f _ _ _ => sustaining.call hcalls f fun a _ => ih a) fun _ _ _ _ _ _ => trivial
    exact hparts.trans (rule_sustains (eval (fuel + 1)) fuel t)

/-- A result that is reached is the same with more steps. -/
theorem eval_eq_of_le {fuel more : Nat} (hle : fuel ≤ more) {t : Tree} {m m' : Machine}
    {r : Except Fault Value} (h : (eval fuel t).execute m = (r, m'))
    (hr : r ≠ .error .outOfFuel) : (eval more t).execute m = (r, m') := by
  induction hle with
  | refl => exact h
  | step _ ih =>
    obtain hout | hsame := (eval_sustains _ t m).1
    · rw [ih] at hout
      exact absurd hout hr
    · exact hsame.trans ih

/-- The evaluation of a tree ends with a result, given enough steps. -/
def Ends (t : Tree) (m : Machine) (r : Except Fault Value) (m' : Machine) : Prop :=
  r ≠ .error .outOfFuel ∧ ∃ fuel, (eval fuel t).execute m = (r, m')

/-- Trees that are evaluated alike, one with a few more steps than the other, end alike. -/
theorem ends_iff_of_eval {t u : Tree} {m : Machine} (least more : Nat)
    (h : ∀ fuel, least ≤ fuel →
      (eval fuel t).execute m = (eval (fuel + more) u).execute m)
    (r : Except Fault Value) (m' : Machine) : Ends t m r m' ↔ Ends u m r m' := by
  refine ⟨fun ⟨hr, fuel, hrun⟩ => ⟨hr, ?_⟩, fun ⟨hr, fuel, hrun⟩ => ⟨hr, ?_⟩⟩
  · have hmore := eval_eq_of_le (Nat.le_add_right fuel least) hrun hr
    exact ⟨fuel + least + more, (h _ (Nat.le_add_left least fuel)).symm.trans hmore⟩
  · have hle : fuel ≤ fuel + least + more := by omega
    have hmore := eval_eq_of_le hle hrun hr
    exact ⟨fuel + least, (h _ (Nat.le_add_left least fuel)).trans hmore⟩

/-- A tree whose result is the same from some number of steps on ends with it. -/
theorem ends_iff_of_result {t : Tree} {m m₀ : Machine} {r₀ : Except Fault Value} {least : Nat}
    (h : ∀ fuel, least ≤ fuel → (eval fuel t).execute m = (r₀, m₀))
    (hr₀ : r₀ ≠ .error .outOfFuel) (r : Except Fault Value) (m' : Machine) :
    Ends t m r m' ↔ r = r₀ ∧ m' = m₀ := by
  constructor
  · rintro ⟨hr, fuel, hrun⟩
    have hmore := eval_eq_of_le (Nat.le_add_right fuel least) hrun hr
    exact Prod.mk.inj (hmore.symm.trans (h _ (Nat.le_add_left least fuel)))
  · rintro ⟨rfl, rfl⟩
    exact ⟨hr₀, least, h least (Nat.le_refl _)⟩

end MiniC.Eval
