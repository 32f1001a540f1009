import MiniC.Proofs.History
import MiniC.Proofs.Shape

/-!
# What a run reaches

Every tree that the run of a program evaluates stands in the program, apart from the call of `main`
with which the run ends, and every function that a cell ever holds is declared in the program. The
two go together: the body of a function is reached through a cell.
-/

namespace MiniC

open Eval (callMain)

def Value.DeclaredIn (p : Tree) : Value → Prop
  | function type name params body => ∃ n, Tree.Within (.function type name params body n) p
  | _ => True

theorem Value.declaredIn_of_isFunction {p : Tree} (v : Value) (hv : v.isFunction = false) :
    v.DeclaredIn p := by
  cases v with
  | function => cases hv
  | _ => trivial

def Tree.Reachable (p t : Tree) : Prop :=
  t.Within p ∨ t = callMain

theorem Tree.Within.operand {t u p : Tree} (ht : t.Within p) (hu : u ∈ t.operands) : u.Within p := by
  cases t with
  | switch s cs =>
    obtain rfl | hu := List.mem_cons.1 hu
    · exact ht.ofPart (List.mem_cons_self ..)
    obtain ⟨c, hc, hu⟩ := List.mem_flatMap.1 hu
    have hcp : c.Within p := ht.ofPart (List.mem_cons_of_mem _ hc)
    cases c with
    | caseLabel => exact hcp.ofPart hu
    | defaultLabel => exact absurd hu List.not_mem_nil
    | _ =>
      obtain rfl := List.mem_singleton.1 hu
      exact hcp
  | cast | assign => exact ht.ofPart (List.mem_cons_of_mem _ hu)
  | binary | unary | sequence | call | ifElse | forLoop | whileLoop | doWhile | returning | block
  | body | program => exact ht.ofPart hu
  | _ => exact absurd hu List.not_mem_nil

/-- What is evaluated in an expression is an expression. -/
theorem Tree.Grammatical.operand {t u : Tree} (ht : t.Grammatical .expression)
    (hu : u ∈ t.operands) : u.Grammatical .expression := by
  cases ht with
  | binary _ _ _ hl hr =>
    simp only [operands, List.mem_cons, List.not_mem_nil, or_false] at hu
    obtain rfl | rfl := hu
    · exact hl
    · exact hr
  | unary _ _ _ _ he | cast _ _ _ he | assign _ _ _ he => exact List.mem_singleton.1 hu ▸ he
  | sequence _ hc | call _ _ hc => exact hc u hu
  | num | string | var | ternary | field => exact absurd hu List.not_mem_nil

theorem Tree.Grammatical.not_touchesScopes {t : Tree} (ht : t.Grammatical .expression) :
    t.touchesScopes = false := by
  cases ht <;> rfl

theorem Tree.Reachable.operand {p t u : Tree} (ht : p.Reachable t) (hu : u ∈ t.operands) :
    p.Reachable u := by
  obtain ht | rfl := ht
  · exact .inl (ht.operand hu)
  · exact absurd hu List.not_mem_nil

structure Sound (p : Tree) (s : Machine × Journal) : Prop where
  visited : ∀ e ∈ s.2.events,
    p.Reachable e.visit.tree ∧ e.visit.before.store.Holds (Value.DeclaredIn p)
  declared : s.1.store.Holds (Value.DeclaredIn p)

theorem Sound.startAt {p : Tree} {m : Machine} (hm : m.store.Holds (Value.DeclaredIn p))
    (c : List Tree) : Sound p (m, ⟨c, []⟩) :=
  ⟨List.forall_mem_nil _, hm⟩

theorem Sound.entered {p t : Tree} {fuel : Nat} {s : Machine × Journal} (hs : Sound p s)
    (ht : p.Reachable t) : Sound p (Recorded.entered fuel t s) :=
  ⟨List.forall_mem_cons.2 ⟨⟨ht, hs.declared⟩, hs.visited⟩, hs.declared⟩

theorem Sound.left {p t : Tree} {fuel : Nat} {s s' : Machine × Journal} {r : Except Fault Value}
    (hs : Sound p s) (hs' : Sound p s') (ht : p.Reachable t) :
    Sound p (Recorded.left fuel t s r s') :=
  ⟨List.forall_mem_cons.2 ⟨⟨ht, hs.declared⟩, hs'.visited⟩, hs'.declared⟩

theorem Sound.lift {p : Tree} {α : Type} {R : Change} {Q : α → Prop} {q : Run α}
    (hq : q.Keeps (Value.DeclaredIn p) R Q) : Recorded.Keeps (Sound p) Q (liftM q) := by
  intro s hs
  obtain ⟨hd, -, hQ⟩ := hq s.1 hs.declared
  exact ⟨⟨hs.visited, hd⟩, hQ⟩

def soundness (p : Tree) : MildCorrespondence Recorded Recorded where
  Fine := Value.DeclaredIn p
  fine := Value.declaredIn_of_isFunction
  Rel Q q _ := Recorded.Keeps (Sound p) Q q
  pure ha := .pure ha
  bind hp hf := hp.bind hf
  quiet hp := Sound.lift hp
  mild hp := Sound.lift hp

/-- What is reached when a tree of the program is evaluated. -/
theorem record_sound (p : Tree) (fuel : Nat) {t : Tree} (ht : p.Reachable t) :
    Recorded.Keeps (Sound p) (Value.DeclaredIn p) (record fuel t) := by
  induction fuel generalizing t with
  | zero => exact .throw _
  | succ fuel ih =>
    have hcalls : (soundness p).Calls (record fuel) (record fuel) := by
      intro type name params body args hf ha
      obtain ⟨n, hn⟩ := hf
      have hbody : p.Reachable body := .inl (hn.ofPart (by simp [Tree.parts]))
      have hfine := Value.declaredIn_of_isFunction (p := p)
      refine (Sound.lift (Eval.enterFunction_keeps hfine name params ha)).bind fun _ _ => ?_
      exact (ih hbody).bind fun v _ => Sound.lift (Eval.leaveFunction_keeps hfine type v)
    have hrule : (soundness p).Both (Eval.rule (record fuel) fuel t)
        (Eval.rule (record fuel) fuel t) := by
      refine (soundness p).rule fuel t (fun u hu => ih (ht.operand hu)) ?_ ?_
      · rintro f args n rfl
        exact (soundness p).call hcalls f fun a ha => ih (ht.operand ha)
      · rintro type name params body n rfl
        obtain ht | ht := ht
        · exact ⟨n, ht⟩
        · cases ht
    exact Recorded.Keeps.record hrule (fun s hs => hs.entered ht) fun s r s' hs hs' =>
      hs.left hs' ht

/-- Every tree that the run of a program evaluates stands in the program or is the call of `main`,
and is evaluated when the cells hold only functions of the program. -/
theorem history_sound {fuel : Nat} {t : Tree} {m : Machine} (hm : m.store = Store.empty)
    {e : Event} (he : e ∈ history fuel t m) :
    t.Reachable e.visit.tree ∧ e.visit.before.store.Holds (Value.DeclaredIn t) := by
  have hrun : Recorded.Keeps (Sound t) (fun _ => True) (Eval.executeBy (record fuel) t) := by
    refine (record_sound t fuel (.inl (.self t))).bind fun _ _ => ?_
    refine (Sound.lift (Run.pushFrame_keeps "main")).bind fun _ _ => ?_
    refine (record_sound t fuel (.inr rfl)).bind fun v _ => ?_
    refine (Sound.lift Run.popFrame_keeps).bind fun _ _ => ?_
    exact Sound.lift (R := .free) (Run.ofExcept_keeps fun _ _ => trivial)
  have hstart : m.store.Holds (Value.DeclaredIn t) := hm ▸ Store.holds_empty _
  exact (hrun _ (.startAt hstart [])).1.visited e he

end MiniC
