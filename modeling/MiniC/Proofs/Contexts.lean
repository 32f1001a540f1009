import MiniC.Proofs.Accepted
import MiniC.Proofs.Places

/-!
# Evaluations inside evaluations

The trees around an evaluation are linked: each is evaluated by the rule for the next one, as an
operand, or as the body of a function of the program that it calls. So what stands around a tree in
the text of a function is also around it when it is evaluated. In particular every jump of an
accepted program is evaluated inside of a loop or a switch of the same function, with nothing but
blocks and conditions between them.
-/

namespace MiniC

open Eval (callMain)

def Tree.jump? : Tree → Option Jump
  | breaking _ => some .leave
  | continuing _ => some .again
  | _ => none

/-- A jump out of a part of a tree goes on out of the tree: it is a block or a condition. -/
def Tree.passes : Tree → Bool
  | block .. | ifElse .. => true
  | _ => false

/-- A jump out of a part of a tree ends at the tree: it is a loop or a switch. -/
def Tree.catches : Tree → Bool
  | switch .. | forLoop .. | whileLoop .. | doWhile .. => true
  | _ => false

def Tree.mayJump (t : Tree) : Bool :=
  t.jump?.isSome || t.passes

/-! ## Links -/

/-- The rule for a tree evaluates another one: an operand, or the body of a function. -/
inductive Tree.Evaluates (p : Tree) : Tree → Tree → Prop
  | operand {t u : Tree} (hu : u ∈ t.operands) : Evaluates p t u
  | body {f name : String} {args params : List Tree} {type b : Tree} {n i : Nat}
      (h : Within (.function type name params b i) p) : Evaluates p (.call f args n) b

inductive Tree.Linked (p : Tree) : List Tree → Prop
  | program : Linked p [p]
  | main : Linked p [callMain]
  | inside {u t : Tree} {ts : List Tree} (hu : p.Evaluates t u) (ht : Linked p (t :: ts)) :
      Linked p (u :: t :: ts)

namespace Recorded

def SoundLinked (p : Tree) (c : List Tree) (s : Machine × Journal) : Prop :=
  Sound p s ∧ Happens c (fun e => p.Linked (e.visit.tree :: e.visit.context)) s

theorem SoundLinked.lift {p : Tree} {c : List Tree} {α : Type} {R : Change} {Q : α → Prop}
    {q : Run α} (hq : q.Keeps (Value.DeclaredIn p) R Q) :
    Keeps (SoundLinked p c) Q (liftM q) :=
  fun s hs => ⟨⟨(Sound.lift hq s hs.1).1, hs.2⟩, (Sound.lift hq s hs.1).2⟩

def linking (p : Tree) (c : List Tree) : MildCorrespondence Recorded Recorded where
  Fine := Value.DeclaredIn p
  fine := Value.declaredIn_of_isFunction
  Rel Q q _ := Keeps (SoundLinked p c) Q q
  pure ha := .pure ha
  bind hp hf := hp.bind hf
  quiet hp := SoundLinked.lift hp
  mild hp := SoundLinked.lift hp

theorem record_linked (p : Tree) (fuel : Nat) {t : Tree} (hp : p.Reachable t) {c : List Tree}
    (ht : p.Linked (t :: c)) :
    Keeps (SoundLinked p c) (Value.DeclaredIn p) (record fuel t) := by
  induction fuel generalizing t c with
  | zero => exact .throw _
  | succ fuel ih =>
    have hop (u : Tree) (hu : u ∈ t.operands) :
        Keeps (SoundLinked p (t :: c)) (Value.DeclaredIn p) (record fuel u) :=
      ih (hp.operand hu) (.inside (.operand hu) ht)
    have hrule : (linking p (t :: c)).Both (Eval.rule (record fuel) fuel t)
        (Eval.rule (record fuel) fuel t) := by
      refine (linking p (t :: c)).rule fuel t hop ?_ ?_
      · rintro f args n rfl
        refine (linking p _).call ?_ f hop
        intro type name params body args' hf ha
        obtain ⟨i, hi⟩ := hf
        have hfine := Value.declaredIn_of_isFunction (p := p)
        refine (SoundLinked.lift (Eval.enterFunction_keeps hfine name params ha)).bind fun _ _ => ?_
        refine (ih (.inl (hi.ofPart (by simp [Tree.parts]))) (.inside (.body hi) ht)).bind ?_
        exact fun v _ => SoundLinked.lift (Eval.leaveFunction_keeps hfine type v)
      · rintro type name params body n rfl
        obtain hp | hp := hp
        · exact ⟨n, hp⟩
        · cases hp
    intro s hs
    obtain ⟨hsound, rfl, hE⟩ := hs
    have hin : SoundLinked p (t :: s.2.context) (entered (fuel + 1) t s) :=
      ⟨hsound.entered hp, rfl, List.forall_mem_cons.2 ⟨ht, hE⟩⟩
    obtain ⟨⟨hsound', -, hE'⟩, hQ⟩ := hrule _ hin
    rw [execute_record]
    exact ⟨⟨hsound.left hsound' hp, rfl, List.forall_mem_cons.2 ⟨ht, hE'⟩⟩, hQ⟩

end Recorded

/-- In the run of a program, a tree that is evaluated is linked to those around it. -/
theorem history_linked {fuel : Nat} {p : Tree} {m : Machine} (hm : m.store = Store.empty)
    {e : Event} (he : e ∈ history fuel p m) : p.Linked (e.visit.tree :: e.visit.context) := by
  open Recorded in
  have hrun : Keeps (SoundLinked p []) (fun _ => True) (Eval.executeBy (record fuel) p) := by
    refine (record_linked p fuel (.inl (.self p)) .program).bind fun _ _ => ?_
    refine (SoundLinked.lift (Run.pushFrame_keeps "main")).bind fun _ _ => ?_
    refine (record_linked p fuel (.inr rfl) .main).bind fun v _ => ?_
    refine (SoundLinked.lift Run.popFrame_keeps).bind fun _ _ => ?_
    exact SoundLinked.lift (R := .free) (Run.ofExcept_keeps fun _ _ => trivial)
  have hstart : m.store.Holds (Value.DeclaredIn p) := hm ▸ Store.holds_empty _
  exact (hrun (m, .empty) ⟨.startAt hstart [], rfl, List.forall_mem_nil _⟩).1.2.2 e he

namespace Tree

variable {p t u x y : Tree} {ts : List Tree} {k : Category}

theorem Linked.tail (h : p.Linked (x :: y :: ts)) : p.Linked (y :: ts) := by
  cases h with
  | inside _ ht => exact ht

theorem Linked.evaluates (h : p.Linked (x :: y :: ts)) : p.Evaluates y x := by
  cases h with
  | inside hu _ => exact hu

theorem Evaluates.operand_or_body (hp : p.Grammatical k) (h : p.Evaluates y x) :
    x ∈ y.operands ∨ x.isBody = true := by
  cases h with
  | operand hu => exact .inl hu
  | body hw =>
    obtain ⟨j, hj⟩ := hw.grammatical hp
    obtain ⟨cs, i, rfl, -⟩ := hj.function_isBody
    exact .inr rfl

theorem Linked.reachable (h : p.Linked (x :: ts)) : p.Reachable x := by
  generalize hxs : x :: ts = xs at h
  induction h generalizing x ts with
  | program =>
    obtain ⟨rfl, -⟩ := List.cons.inj hxs
    exact .inl (.self x)
  | main =>
    obtain ⟨rfl, -⟩ := List.cons.inj hxs
    exact .inr rfl
  | inside hu _ ih =>
    obtain ⟨rfl, -⟩ := List.cons.inj hxs
    cases hu with
    | operand hu => exact (ih rfl).operand hu
    | body hw => exact .inl (hw.ofPart (by simp [parts]))

/-! ## Jumps in the text -/

theorem mayJump_not_isBody (h : t.mayJump = true) : t.isBody = false := by
  cases t with
  | body => cases h
  | _ => rfl

theorem Grammatical.optional_not_mayJump (ht : t.Grammatical .optional) : t.mayJump = false := by
  cases ht with
  | absentExpression => rfl
  | ofExpression he => cases he <;> rfl

theorem Grammatical.topLevel_not_mayJump (ht : t.Grammatical .topLevel) : t.mayJump = false := by
  cases ht with
  | function | library => rfl
  | declared hd => cases hd <;> rfl

/-- A jump stands in a block, a condition, a loop or a switch, or directly in a body. -/
theorem Grammatical.operand_mayJump (ht : t.Grammatical k) (hu : u ∈ t.operands)
    (hjump : u.mayJump = true) : t.passes = true ∨ t.catches = true ∨ t.isBody = true := by
  have hnot (h : u.Grammatical .optional) : False := by
    rw [h.optional_not_mayJump] at hjump
    cases hjump
  induction ht with
  | ofExpression _ ih | simple _ ih | ofStatement _ ih | ofDeclaration _ ih | ofItem _ ih
  | declared _ ih => exact ih hu
  | block | ifElse => exact .inl rfl
  | switch | forLoop | whileLoop | doWhile => exact .inr (.inl rfl)
  | body => exact .inr (.inr rfl)
  | unary _ _ _ _ he | cast _ _ _ he | assign _ _ _ he | initializer _ _ _ _ he =>
    obtain rfl := List.mem_singleton.1 hu
    exact (hnot (.ofExpression he)).elim
  | returning _ he =>
    obtain rfl := List.mem_singleton.1 hu
    exact (hnot he).elim
  | binary _ _ _ hx hy =>
    simp only [operands, List.mem_cons, List.not_mem_nil, or_false] at hu
    obtain rfl | rfl := hu
    · exact (hnot (.ofExpression hx)).elim
    · exact (hnot (.ofExpression hy)).elim
  | sequence _ hc | call _ _ hc => exact (hnot (.ofExpression (hc u hu))).elim
  | program _ hc =>
    rw [(hc u hu).topLevel_not_mayJump] at hjump
    cases hjump
  | _ => exact absurd hu List.not_mem_nil

theorem Grammatical.isStatement (ht : t.Grammatical k)
    (h : t.passes = true ∨ t.catches = true) : t.Grammatical .statement := by
  cases t with
  | block | ifElse | switch | forLoop | whileLoop | doWhile => exact ht.own
  | _ => exact h.elim (fun h => by cases h) fun h => by cases h

end Tree

/-! ## Jumps of an accepted program -/

def Tree.Outside (p t : Tree) : Prop :=
  ∃ q, (Place.start p).Occurs .executed q ∧ q.tree = t ∧ q.inLoop = false ∧ q.inSwitch = false

namespace Place

variable {o : Order} {q r : Place}

theorem flags_of_mem_each {ts : List Tree} (hr : r ∈ q.each ts) :
    r.inLoop = q.inLoop ∧ r.inSwitch = q.inSwitch := by
  induction ts generalizing q with
  | nil => exact absurd hr List.not_mem_nil
  | cons t ts ih =>
    obtain rfl | hr := List.mem_cons.1 hr
    · exact ⟨rfl, rfl⟩
    · exact ih (q := { q with env := q.env.after t }) hr

theorem flags_of_mem_parts (hr : r ∈ q.parts o) (hcatch : q.tree.catches = false)
    (hl : q.inLoop = false) (hw : q.inSwitch = false) : r.inLoop = false ∧ r.inSwitch = false := by
  obtain ⟨Γ, l, w, t⟩ := q
  obtain rfl : l = false := hl
  obtain rfl : w = false := hw
  cases t with
  | binary | ternary | assign | sequence | call | ifElse | block | body | program =>
    exact flags_of_mem_each hr
  | unary | caseLabel | returning | cast | function =>
    obtain rfl := List.mem_singleton.1 hr
    exact ⟨rfl, rfl⟩
  | switch | forLoop | whileLoop | doWhile => cases hcatch
  | _ => exact absurd hr List.not_mem_nil

end Place

namespace Tree

variable {p t u x : Tree} {ts : List Tree}

theorem operand_mem_parts (ht : t.catches = false) (hu : u ∈ t.operands) : u ∈ t.parts := by
  cases t with
  | cast | assign => exact List.mem_cons_of_mem _ hu
  | switch => cases ht
  | varDecl | param | function | field | ternary | caseLabel => exact absurd hu List.not_mem_nil
  | _ => exact hu

theorem Outside.part {k : Category} (ht : p.Outside t) (hg : t.Grammatical k)
    (hcatch : t.catches = false) (hu : u ∈ t.parts) (hplaced : u.isPlaced = true) :
    p.Outside u := by
  obtain ⟨⟨Γ, l, w, t⟩, hq, rfl, hl, hw⟩ := ht
  obtain ⟨r, hr, htree⟩ := Place.exists_part hg hu hplaced Γ l w
  exact ⟨r, hq.ofPart hr, htree, Place.flags_of_mem_parts hr hcatch hl hw⟩

/-- A jump of an accepted program stands in a loop or a switch of its function. -/
theorem Outside.not_jump (hp : p.Grammatical .program)
    (ha : (Analysis.analyze p).1.isOk = true) (ht : p.Outside t) : t.jump? = none := by
  obtain ⟨⟨Γ, l, w, t⟩, hq, rfl, hl, hw⟩ := ht
  obtain rfl : l = false := hl
  obtain rfl : w = false := hw
  have hfine := (Analysis.accepted_places hp ha hq).1
  cases t with
  | breaking => exact absurd hfine (by simp [Place.Fine])
  | continuing => exact absurd hfine (by simp [Place.Fine])
  | _ => rfl

theorem Within.body_outside {k : Category} (hp : p.Grammatical k) {type b : Tree} {f : String}
    {ps : List Tree} {i : Nat} (h : Within (.function type f ps b i) p) : p.Outside b := by
  obtain ⟨⟨Γ, l, w, t⟩, hq, rfl⟩ := Place.exists_occurs (o := .executed) hp h rfl
  exact ⟨_, hq.ofPart (List.mem_singleton.2 rfl), rfl, rfl, rfl⟩

theorem Linked.body_outside (hp : p.Grammatical .program) (h : p.Linked (x :: ts))
    (hx : x.isBody = true) : p.Outside x := by
  cases h with
  | program =>
    cases hp with
    | program => cases hx
  | main => cases hx
  | inside hu ht =>
    cases hu with
    | body hw => exact hw.body_outside hp
    | operand hu =>
      obtain hw | rfl := ht.reachable
      · obtain ⟨j, hj⟩ := hw.grammatical hp
        rw [hj.operand_not_isBody hu] at hx
        cases hx
      · exact absurd hu List.not_mem_nil

/-- A tree that may jump is evaluated in a loop or a switch with only blocks and conditions between
them, or it stands in no loop and no switch of its function. -/
theorem Linked.covered (hp : p.Grammatical .program) (h : p.Linked (x :: ts))
    (hx : x.mayJump = true) :
    (∃ inner target outer, ts = inner ++ target :: outer ∧ (∀ t ∈ inner, t.passes = true) ∧
      target.catches = true ∧ target.Grammatical .statement) ∨ p.Outside x := by
  induction ts generalizing x with
  | nil =>
    cases h with
    | program => exact .inr ⟨_, .self _, rfl, rfl, rfl⟩
    | main => cases hx
  | cons z ts ih =>
    have hop : x ∈ z.operands := by
      obtain hop | hbody := h.evaluates.operand_or_body hp
      · exact hop
      · rw [mayJump_not_isBody hx] at hbody
        cases hbody
    obtain hw | rfl := h.tail.reachable
    swap
    · exact absurd hop List.not_mem_nil
    obtain ⟨j, hj⟩ := hw.grammatical hp
    have hplaced : x.isPlaced = true := by
      cases x with
      | var | typeName | structName | param => cases hx
      | _ => rfl
    by_cases hcatch : z.catches = true
    · exact .inl ⟨[], z, ts, rfl, List.forall_mem_nil _, hcatch, hj.isStatement (.inr hcatch)⟩
    have hcatch := Bool.eq_false_iff.2 hcatch
    have hout (hz : p.Outside z) : p.Outside x :=
      hz.part hj hcatch (operand_mem_parts hcatch hop) hplaced
    obtain hpass | hz | hbody := hj.operand_mayJump hop hx
    · obtain ⟨inner, target, outer, rfl, hinner, htarget⟩ | hz :=
        ih h.tail (by simp [mayJump, hpass])
      · exact .inl ⟨z :: inner, target, outer, rfl, List.forall_mem_cons.2 ⟨hpass, hinner⟩, htarget⟩
      · exact .inr (hout hz)
    · rw [hcatch] at hz
      cases hz
    · exact .inr (hout (h.tail.body_outside hp hbody))

end Tree

end MiniC
