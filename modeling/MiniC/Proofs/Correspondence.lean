import MiniC.Proofs.Operations
import MiniC.Proofs.Shape

/-!
# Following the rules in two ways

The rules of evaluation can be followed by every kind of computation that is able to do what a run
does. A `Following` relates the computations of two kinds, together with a property of their common
results: it goes through returning and sequencing, and holds of the operations that it allows with
themselves. Then evaluations of the parts of a tree that correspond give evaluations of the tree
that correspond. A `Correspondence` allows every quiet operation. Assignments, calls of functions
and what changes the scopes are left to each of them.
-/

namespace MiniC

variable {cs args : List Tree}

namespace Tree

/-- The trees that the rule for the root of a tree may evaluate. -/
def operands : Tree → List Tree
  | binary l _ r _ => [l, r]
  | unary _ e _ _ => [e]
  | cast _ e _ _ => [e]
  | assign _ _ v _ => [v]
  | sequence cs _ => cs
  | call _ args _ => args
  | switch s cs _ => s :: cs.flatMap unlabelled
  | ifElse c a b _ => [c, a, b]
  | forLoop s c i b _ => [s, c, i, b]
  | whileLoop c b _ => [c, b]
  | doWhile c b _ => [c, b]
  | returning v _ => [v]
  | block cs _ => cs
  | body cs _ => cs
  | program cs _ => cs
  | _ => []

def touchesScopes : Tree → Bool
  | block .. => true
  | varDecl .. => true
  | structDecl .. => true
  | library .. => true
  | function .. => true
  | _ => false

end Tree

open Eval (Evaluator)

/-- A relation between computations of two kinds, with a property of their common results. It goes
through returning and sequencing, and holds of the operations that are allowed with themselves: all
operations of evaluation that write no cell, and the steps of some trees by one. -/
structure Following (M N : Type → Type) [Monad M] [MonadLiftT Run M] [Monad N]
    [MonadLiftT Run N] where
  Fine : Value → Prop
  Target : Tree → Prop
  Allows {α : Type} : (α → Prop) → Run α → Prop
  Rel {α : Type} : (α → Prop) → M α → N α → Prop
  pure {α : Type} {Q : α → Prop} {a : α} : Q a → Rel Q (pure a) (pure a)
  bind {α β : Type} {P : α → Prop} {Q : β → Prop} {p : M α} {q : N α} {f : α → M β}
    {g : α → N β} : Rel P p q → (∀ a, P a → Rel Q (f a) (g a)) → Rel Q (p >>= f) (q >>= g)
  lift {α : Type} {Q : α → Prop} {p : Run α} :
    Allows Q p → Rel Q (liftM p : M α) (liftM p : N α)
  simple (v : Value) : v.isSimple = true → Fine v
  jump (j : Jump) : Fine (.jump j)
  ofExcept {α : Type} {Q : α → Prop} {r : Except Fault α} :
    (∀ a, r = .ok a → Q a) → Allows Q (Run.ofExcept r)
  makeNumber (t : CType) (s : Scalar) : Allows (fun _ => True) (Run.makeNumber t s)
  readName (name : String) : Allows Fine (Run.readName name)
  readAt (a : Scalar) : Allows Fine (Run.readAt a)
  step (f : Value → Value → Except Fault Value) {t : Tree} :
    Target t → Allows (fun r => Fine r.1 ∧ Fine r.2) (Eval.step f t)
  behind {op : Kind} {t : Tree} :
    (op = .incOp ∨ op = .decOp → Target t) → Allows Fine (Eval.behind op t)
  literal (k : Token) : Allows Fine (Eval.literal k)
  convert (t : VarType) (v : Value) : Allows Fine (Eval.convert t v)
  arrow (l r : Tree) : Allows Fine (Eval.arrow l r)
  combine {k : Kind} {f : Store → Value → Value → Except Fault Value} {a : Value} (b : Value) :
    Eval.operator? k = some f → Fine a → Allows Fine (Eval.combine f a b)
  referTo (t : Tree) : Allows Fine (Eval.referTo t)
  dereference (v : Value) : Allows Fine (Eval.dereference v)
  negate (v : Value) : Allows Fine (Eval.negate v)
  assigned (op : Kind) (old given : Value) : Allows Fine (Eval.assigned op old given)
  fieldValue (op : Kind) (base member : Tree) : Allows Fine (Eval.fieldValue op base member)

namespace Following

variable {M N : Type → Type} [Monad M] [MonadLiftT Run M] [Monad N] [MonadLiftT Run N]
  (C : Following M N)

abbrev Both (p : M Value) (q : N Value) : Prop :=
  C.Rel C.Fine p q

theorem ite {α : Type} {Q : α → Prop} {c : Prop} [Decidable c] {p p' : M α} {q q' : N α}
    (h : C.Rel Q p q) (h' : C.Rel Q p' q') :
    C.Rel Q (if c then p else p') (if c then q else q') := by
  split
  · exact h
  · exact h'

theorem nothing : C.Both (Pure.pure Value.nothing) (Pure.pure Value.nothing) :=
  C.pure (C.simple _ rfl)

theorem fail {α : Type} {Q : α → Prop} (f : Fault) :
    C.Rel Q (liftM (Run.fail f : Run α) : M α) (liftM (Run.fail f : Run α) : N α) :=
  C.lift (C.ofExcept (r := .error f) fun _ h => by cases h)

section

variable {ev : Evaluator M} {ev' : Evaluator N}

/-! ## Expressions -/

theorem binary {l r : Tree} (op : Token) (hl : C.Both (ev l) (ev' l)) (hr : C.Both (ev r) (ev' r)) :
    C.Both (Eval.binary ev l op r) (Eval.binary ev' l op r) := by
  unfold Eval.binary
  split
  · exact C.bind hl fun v hv => C.ite hr (C.pure hv)
  · exact C.bind hl fun v hv => C.ite (C.pure hv) hr
  · exact C.lift (C.arrow l r)
  · split
    · next f hf =>
      exact C.bind hl fun a ha => C.bind hr fun b _ => C.lift (C.combine b hf ha)
    · exact C.nothing

theorem before {op : Kind} {e : Tree} (ht : op = .incOp ∨ op = .decOp → C.Target e)
    (he : C.Both (ev e) (ev' e)) : C.Both (Eval.before ev op e) (Eval.before ev' op e) := by
  unfold Eval.before
  split
  · exact C.lift (C.referTo e)
  · exact C.bind he fun v _ => C.lift (C.dereference v)
  · exact C.bind (C.lift (C.step _ (ht (.inl rfl)))) fun r hr => C.pure hr.2
  · exact C.bind (C.lift (C.step _ (ht (.inr rfl)))) fun r hr => C.pure hr.2
  · refine C.bind (C.lift (C.makeNumber _ _)) fun n _ => C.bind he fun v _ => ?_
    exact C.lift (C.ofExcept fun w hw => C.simple w (Value.operate_simple _ _ _ _ w hw))
  · exact he
  · exact C.bind he fun v _ => C.lift (C.negate v)
  · exact C.fail _

theorem cast (t : Tree) {e : Tree} (b : Bool) (he : C.Both (ev e) (ev' e)) :
    C.Both (Eval.cast ev t e b) (Eval.cast ev' t e b) := by
  unfold Eval.cast
  split
  · exact C.bind he fun v _ => C.lift (C.convert _ v)
  · exact C.fail _

/-- An assignment is followed if the addresses of its target may be written. -/
theorem assign {Open : Scalar → Prop} {t : Tree} (hplace : C.Allows Open (Eval.place t))
    (hwrite : ∀ a v, Open a → C.Fine v → C.Allows (fun _ => True) (Run.writeAt a v)) (op : Token)
    {v : Tree} (hv : C.Both (ev v) (ev' v)) :
    C.Both (Eval.assign ev t op v) (Eval.assign ev' t op v) := by
  refine C.bind (C.lift hplace) fun a ha => ?_
  refine C.bind (P := fun r => C.Fine r.2) ?_ fun r hr => C.pure hr
  refine C.bind (C.lift (C.readAt a)) fun old _ => ?_
  refine C.bind (C.bind hv fun w _ => C.lift (C.assigned op.kind old w)) ?_
  exact fun w hw => C.bind (C.lift (hwrite a w ha hw)) fun _ _ => C.pure hw

theorem sequence (hc : ∀ c ∈ cs, C.Both (ev c) (ev' c)) {v : Value} (hv : C.Fine v) :
    C.Both (Eval.sequence ev v cs) (Eval.sequence ev' v cs) := by
  induction cs generalizing v with
  | nil => exact C.pure hv
  | cons c cs ih =>
    have hc := List.forall_mem_cons.1 hc
    exact C.bind hc.1 fun w hw => ih hc.2 hw

/-! ## Statements -/

theorem untilJump (hc : ∀ c ∈ cs, C.Both (ev c) (ev' c)) :
    C.Both (Eval.untilJump ev cs) (Eval.untilJump ev' cs) := by
  induction cs with
  | nil => exact C.nothing
  | cons c cs ih =>
    have hc := List.forall_mem_cons.1 hc
    refine C.bind hc.1 fun v hv => ?_
    split
    · exact C.pure hv
    · exact ih hc.2

theorem body (hc : ∀ c ∈ cs, C.Both (ev c) (ev' c)) :
    C.Both (Eval.body ev cs) (Eval.body ev' cs) := by
  induction cs with
  | nil => exact C.nothing
  | cons c cs ih =>
    have hc := List.forall_mem_cons.1 hc
    exact C.bind hc.1 fun v hv => C.ite (C.pure hv) (ih hc.2)

theorem ifElse {c a b : Tree} (hc : C.Both (ev c) (ev' c)) (ha : C.Both (ev a) (ev' a))
    (hb : C.Both (ev b) (ev' b)) : C.Both (Eval.ifElse ev c a b) (Eval.ifElse ev' c a b) :=
  C.bind hc fun _ _ => C.ite ha hb

theorem cases (subject : Value) (hc : ∀ u ∈ cs.flatMap Tree.unlabelled, C.Both (ev u) (ev' u))
    (found : Bool) :
    C.Rel (fun _ => True) (Eval.cases ev subject found cs) (Eval.cases ev' subject found cs) := by
  induction cs generalizing found with
  | nil => cases found <;> exact C.pure trivial
  | cons c cs ih =>
    rw [List.flatMap_cons] at hc
    obtain ⟨hc, hcs⟩ := List.forall_mem_append.1 hc
    have ih := ih hcs
    cases found with
    | false =>
      simp only [Eval.cases]
      split
      · refine C.bind (hc _ (List.mem_singleton.2 rfl)) fun v _ => ?_
        exact C.bind (C.lift (C.ofExcept fun _ _ => trivial)) fun fits _ => ih fits.truth
      · exact ih true
      · exact ih false
    | true =>
      simp only [Eval.cases]
      split
      · exact ih true
      · next hl =>
        have hu : c ∈ c.unlabelled := by
          rw [Tree.unlabelled_eq (eq_false_of_ne_true hl)]
          exact List.mem_singleton.2 rfl
        refine C.bind (hc c hu) fun v _ => ?_
        split
        · exact C.pure trivial
        · exact ih true

theorem switch {s : Tree} (hs : C.Both (ev s) (ev' s))
    (hc : ∀ u ∈ cs.flatMap Tree.unlabelled, C.Both (ev u) (ev' u)) :
    C.Both (Eval.switch ev s cs) (Eval.switch ev' s cs) :=
  C.bind hs fun v _ => C.bind (C.cases v hc false) fun _ _ => C.nothing

theorem whileTrue {c b f : M Value} {c' b' f' : N Value} (hc : C.Both c c') (hb : C.Both b b')
    (hf : C.Both f f') (fuel : Nat) :
    C.Both (Eval.whileTrue c b f fuel) (Eval.whileTrue c' b' f' fuel) := by
  induction fuel with
  | zero => exact C.fail _
  | succ fuel ih =>
    refine C.bind hc fun v _ => C.ite (C.bind hb fun w _ => ?_) C.nothing
    split
    · exact C.nothing
    · exact C.bind hf fun _ _ => ih

theorem doWhile {c b : M Value} {c' b' : N Value} (hc : C.Both c c') (hb : C.Both b b')
    (fuel : Nat) : C.Both (Eval.doWhile c b fuel) (Eval.doWhile c' b' fuel) := by
  induction fuel with
  | zero => exact C.fail _
  | succ fuel ih =>
    refine C.bind hb fun w _ => ?_
    split
    · exact C.nothing
    · exact C.bind hc fun v _ => C.ite ih C.nothing

/-! ## Calls and programs -/

theorem arguments (ha : ∀ a ∈ args, C.Both (ev a) (ev' a)) :
    C.Rel (fun vs => ∀ v ∈ vs, C.Fine v) (Eval.arguments ev args) (Eval.arguments ev' args) := by
  induction args with
  | nil => exact C.pure (List.forall_mem_nil _)
  | cons a args ih =>
    have ha := List.forall_mem_cons.1 ha
    refine C.bind ha.1 fun v hv => C.bind (ih ha.2) fun vs hvs => C.pure ?_
    exact List.forall_mem_cons.2 ⟨hv, hvs⟩

def Calls (ev : Evaluator M) (ev' : Evaluator N) : Prop :=
  ∀ type name params body args, C.Fine (.function type name params body) →
    (∀ v ∈ args, C.Fine v) →
      C.Both (Eval.callFunction ev type name params body args)
        (Eval.callFunction ev' type name params body args)

def Serves : Prop :=
  ∀ (f : Builtin) (args : List Value), (∀ v ∈ args, C.Fine v) →
    C.Allows C.Fine (Eval.callBuiltin f args)

theorem callName (hf : C.Calls ev ev') (hb : C.Serves) (name : String) {args : List Value}
    (ha : ∀ v ∈ args, C.Fine v) :
    C.Both (Eval.callName ev name args) (Eval.callName ev' name args) := by
  refine C.bind (C.lift (C.readName name)) fun v hv => ?_
  split
  · exact C.lift (hb _ args ha)
  · exact hf _ _ _ _ args hv ha
  · exact C.fail _

theorem call (hf : C.Calls ev ev') (hb : C.Serves) {name : String}
    (hm : Eval.takesMemory name = true → C.Fine .memory) (ha : ∀ a ∈ args, C.Both (ev a) (ev' a)) :
    C.Both (Eval.call ev name args) (Eval.call ev' name args) := by
  refine C.bind (C.arguments ha) fun vs hvs => C.callName hf hb name ?_
  split
  · next hname => exact List.forall_mem_append.2 ⟨hvs, List.forall_mem_singleton.2 (hm hname)⟩
  · exact hvs

theorem program (hc : ∀ c ∈ cs, C.Both (ev c) (ev' c)) :
    C.Both (Eval.program ev cs) (Eval.program ev' cs) := by
  induction cs with
  | nil => exact C.nothing
  | cons c cs ih =>
    have hc := List.forall_mem_cons.1 hc
    exact C.ite (C.bind hc.1 fun _ _ => ih hc.2) (C.fail _)

def Admits : Tree → Prop
  | .unary op e _ _ => op.kind = .incOp ∨ op.kind = .decOp → C.Target e
  | _ => True

/-- Evaluations that correspond on the operands of a tree correspond on the tree, once they do so on
assignments, on calls and on what touches the scopes. -/
theorem rule (fuel : Nat) (t : Tree) (ht : C.Admits t)
    (hop : ∀ u ∈ t.operands, C.Both (ev u) (ev' u))
    (hassign : ∀ target op v n, t = .assign target op v n →
      C.Both (Eval.assign ev target op v) (Eval.assign ev' target op v))
    (hcall : ∀ f args n, t = .call f args n → C.Both (Eval.call ev f args) (Eval.call ev' f args))
    (hs : t.touchesScopes = true → C.Both (Eval.rule ev fuel t) (Eval.rule ev' fuel t)) :
    C.Both (Eval.rule ev fuel t) (Eval.rule ev' fuel t) := by
  cases t with
  | noOp => exact C.nothing
  | num k => exact C.lift (C.literal k)
  | string => exact C.pure (C.simple _ rfl)
  | var k => exact C.lift (C.readName _)
  | binary l op r =>
    simp only [Tree.operands, List.forall_mem_cons] at hop
    obtain ⟨hl, hr, -⟩ := hop
    exact C.binary op hl hr
  | unary op e b =>
    have he := hop e (List.mem_singleton.2 rfl)
    exact C.ite (C.before ht he) (C.lift (C.behind ht))
  | cast t e b => exact C.cast t b (hop e (List.mem_singleton.2 rfl))
  | assign t op v n => exact hassign t op v n rfl
  | sequence cs => exact C.sequence hop (C.simple _ rfl)
  | call f args n => exact hcall f args n rfl
  | field op b m => exact C.lift (C.fieldValue op b m)
  | switch s cs =>
    have hop := List.forall_mem_cons.1 hop
    exact C.switch hop.1 hop.2
  | ifElse c a b =>
    simp only [Tree.operands, List.forall_mem_cons] at hop
    obtain ⟨hc, ha, hb, -⟩ := hop
    exact C.ifElse hc ha hb
  | forLoop s c i b =>
    simp only [Tree.operands, List.forall_mem_cons] at hop
    obtain ⟨hs, hc, hi, hb, -⟩ := hop
    exact C.bind hs fun _ _ => C.whileTrue hc hb hi fuel
  | whileLoop c b =>
    simp only [Tree.operands, List.forall_mem_cons] at hop
    obtain ⟨hc, hb, -⟩ := hop
    exact C.whileTrue hc hb C.nothing fuel
  | doWhile c b =>
    simp only [Tree.operands, List.forall_mem_cons] at hop
    obtain ⟨hc, hb, -⟩ := hop
    exact C.doWhile hc hb fuel
  | returning v => exact hop v (List.mem_singleton.2 rfl)
  | breaking => exact C.pure (C.jump _)
  | continuing => exact C.pure (C.jump _)
  | body cs => exact C.body hop
  | program cs => exact C.program hop
  | block | varDecl | structDecl | library | function => exact hs rfl
  | absent | typeName | structName | ternary | caseLabel | defaultLabel | param => exact C.fail _

end

end Following

/-- A relation as above that holds of every quiet operation with itself. -/
structure Correspondence (M N : Type → Type) [Monad M] [MonadLiftT Run M] [Monad N]
    [MonadLiftT Run N] where
  Fine : Value → Prop
  fine (v : Value) : v.isFunction = false → Fine v
  Rel {α : Type} : (α → Prop) → M α → N α → Prop
  pure {α : Type} {Q : α → Prop} {a : α} : Q a → Rel Q (pure a) (pure a)
  bind {α β : Type} {P : α → Prop} {Q : β → Prop} {p : M α} {q : N α} {f : α → M β}
    {g : α → N β} : Rel P p q → (∀ a, P a → Rel Q (f a) (g a)) → Rel Q (p >>= f) (q >>= g)
  quiet {α : Type} {Q : α → Prop} {p : Run α} :
    p.Keeps Fine .quiet Q → Rel Q (liftM p : M α) (liftM p : N α)

namespace Correspondence

variable {M N : Type → Type} [Monad M] [MonadLiftT Run M] [Monad N] [MonadLiftT Run N]
  (C : Correspondence M N)

def following : Following M N where
  Fine := C.Fine
  Target _ := True
  Allows Q p := p.Keeps C.Fine .quiet Q
  Rel := C.Rel
  pure := C.pure
  bind := C.bind
  lift := C.quiet
  simple v hv := C.fine v (Value.isFunction_of_isSimple hv)
  jump _ := C.fine _ rfl
  ofExcept h := Run.ofExcept_keeps h
  makeNumber := Run.makeNumber_keeps
  readName := (Run.quietly C.fine).readName
  readAt := Run.readAt_keeps C.fine
  step f t _ := Eval.step_keeps C.fine f t
  behind _ := (Run.quietly C.fine).behind fun _ f => Eval.step_keeps C.fine f _
  literal := (Run.quietly C.fine).literal
  convert := (Run.quietly C.fine).convert
  arrow := (Run.quietly C.fine).arrow
  combine := (Run.quietly C.fine).combine
  referTo := (Run.quietly C.fine).referTo
  dereference := (Run.quietly C.fine).dereference
  negate := (Run.quietly C.fine).negate
  assigned := (Run.quietly C.fine).assigned
  fieldValue := (Run.quietly C.fine).fieldValue

abbrev Both (p : M Value) (q : N Value) : Prop :=
  C.Rel C.Fine p q

theorem nothing : C.Both (Pure.pure Value.nothing) (Pure.pure Value.nothing) :=
  C.following.nothing

variable {ev : Evaluator M} {ev' : Evaluator N}

theorem untilJump (hc : ∀ c ∈ cs, C.Both (ev c) (ev' c)) :
    C.Both (Eval.untilJump ev cs) (Eval.untilJump ev' cs) :=
  C.following.untilJump hc

theorem body (hc : ∀ c ∈ cs, C.Both (ev c) (ev' c)) : C.Both (Eval.body ev cs) (Eval.body ev' cs) :=
  C.following.body hc

theorem arguments (ha : ∀ a ∈ args, C.Both (ev a) (ev' a)) :
    C.Rel (fun vs => ∀ v ∈ vs, C.Fine v) (Eval.arguments ev args) (Eval.arguments ev' args) :=
  C.following.arguments ha

abbrev Calls (ev : Evaluator M) (ev' : Evaluator N) : Prop :=
  C.following.Calls ev ev'

theorem call (hf : C.Calls ev ev') (name : String) (ha : ∀ a ∈ args, C.Both (ev a) (ev' a)) :
    C.Both (Eval.call ev name args) (Eval.call ev' name args) :=
  C.following.call hf (fun f args _ => Eval.callBuiltin_keeps C.fine f args)
    (fun _ => C.fine _ rfl) ha

/-- Evaluations that correspond on the operands of a tree correspond on the tree, once they do so on
calls and on what touches the scopes. -/
theorem rule (fuel : Nat) (t : Tree) (hop : ∀ u ∈ t.operands, C.Both (ev u) (ev' u))
    (hcall : ∀ f args n, t = .call f args n → C.Both (Eval.call ev f args) (Eval.call ev' f args))
    (hs : t.touchesScopes = true → C.Both (Eval.rule ev fuel t) (Eval.rule ev' fuel t)) :
    C.Both (Eval.rule ev fuel t) (Eval.rule ev' fuel t) := by
  refine C.following.rule fuel t ?_ hop ?_ hcall hs
  · cases t with
    | unary => exact fun _ => trivial
    | _ => trivial
  · rintro target op v n rfl
    refine C.following.assign ((Run.quietly C.fine).place target) (fun a w _ hw => ?_) op
      (hop v (List.mem_singleton.2 rfl))
    exact Run.writeAt_keeps a hw

end Correspondence

structure MildCorrespondence (M N : Type → Type) [Monad M] [MonadLiftT Run M] [Monad N]
    [MonadLiftT Run N] extends Correspondence M N where
  mild {α : Type} {Q : α → Prop} {p : Run α} :
    p.Keeps Fine .mild Q → Rel Q (liftM p : M α) (liftM p : N α)

namespace MildCorrespondence

variable {M N : Type → Type} [Monad M] [MonadLiftT Run M] [Monad N] [MonadLiftT Run N]
  (C : MildCorrespondence M N) {ev : Evaluator M} {ev' : Evaluator N}

theorem block (hc : ∀ c ∈ cs, C.Both (ev c) (ev' c)) :
    C.Both (Eval.block ev cs) (Eval.block ev' cs) := by
  refine C.bind (C.mild Run.pushScope_keeps) fun _ _ => C.bind (C.untilJump hc) fun v hv => ?_
  exact C.bind (C.mild Run.popScope_keeps) fun _ _ => C.pure hv

/-- Evaluations that correspond on the operands of a tree correspond on the tree, once they do so on
calls and if the functions that it declares are fine. -/
theorem rule (fuel : Nat) (t : Tree) (hop : ∀ u ∈ t.operands, C.Both (ev u) (ev' u))
    (hcall : ∀ f args n, t = .call f args n → C.Both (Eval.call ev f args) (Eval.call ev' f args))
    (hd : ∀ type name params body n, t = .function type name params body n →
      C.Fine (.function type name params body)) :
    C.Both (Eval.rule ev fuel t) (Eval.rule ev' fuel t) := by
  refine C.toCorrespondence.rule fuel t hop hcall fun hs => ?_
  cases t with
  | block cs => exact C.block hop
  | varDecl v type =>
    exact C.bind (C.mild (Eval.declare_keeps C.fine v type)) fun _ _ => C.nothing
  | structDecl s fields =>
    exact C.bind (C.mild (Eval.defineStruct_keeps C.fine s fields)) fun _ _ => C.nothing
  | library l =>
    exact C.bind (C.mild (Eval.includeLibrary_keeps C.fine l)) fun _ _ => C.nothing
  | function type name params body n =>
    have hv := hd type name params body n rfl
    exact C.bind (C.mild (Eval.define_keeps name C.fine hv)) fun _ _ => C.nothing
  | _ => cases hs

end MildCorrespondence

end MiniC
