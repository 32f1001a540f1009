import MiniC.Proofs.Pointers

/-!
# Logical operators

An expression is built from operands by negations, conjunctions and disjunctions. Its operands are
evaluated from left to right, and the right side of a conjunction or a disjunction only if the left
side does not decide it. The value is the number of the side that decides, of whatever type it is.
A negation gives the truth value of its operand as it is, so that an expression is as true as if it
had no negations.
-/

namespace MiniC

namespace Number

def ofBool (b : Bool) : Number :=
  ⟨.int, .int (if b then 1 else 0), _, rfl, rfl, by cases b <;> decide, by cases b <;> decide⟩

@[simp] theorem truth_ofBool (b : Bool) : (ofBool b).truth = b := by
  cases b <;> rfl

theorem logNeg_eq (a : Number) : a.logNeg = .ok (ofBool a.truth) :=
  ofScalar_of_has (ofBool a.truth).fits

theorem truth_eq_false_iff (a : Number) :
    a.truth = false ↔ a.value = .int 0 ∨ ∃ x, a.value = .real x ∧ (x == 0) = true := by
  unfold truth Num.truth
  cases a.value <;> simp [Num.toScalar, Scalar.truth]

end Number

namespace Eval

/-- The operator that needs its right operand if the left one has a truth value. -/
def connective : Bool → Kind
  | true => .logAndOp
  | false => .logOrOp

inductive Logical where
  | operand (t : Tree)
  | negated (op : { k : Token // k.kind = .logNeg }) (e : Logical) (i : Nat)
  | joined (needed : Bool) (l : Logical) (op : { k : Token // k.kind = connective needed })
      (r : Logical) (i : Nat)

namespace Logical

def tree : Logical → Tree
  | operand t => t
  | negated op e i => .unary op e.tree true i
  | joined _ l op r i => .binary l.tree op r.tree i

def operands : Logical → List Tree
  | operand t => [t]
  | negated _ e _ => e.operands
  | joined _ l _ r _ => l.operands ++ r.operands

def plain : Logical → Logical
  | operand t => operand t
  | negated _ e _ => e.plain
  | joined needed l op r i => joined needed l.plain op r.plain i

end Logical

/-- What a negation makes of the number of its operand, and a conjunction or a disjunction of the
number of the side that decides. -/
structure Meaning where
  negated : Number → Number
  joined : Number → Number

def Meaning.actual : Meaning := ⟨fun n => .ofBool n.truth, id⟩

def Meaning.boolean : Meaning := ⟨fun n => .ofBool !n.truth, fun n => .ofBool n.truth⟩

/-- The course of an evaluation: the operands that are evaluated with their numbers, the number of
the expression and the machine at the end. -/
inductive Course (M : Meaning) :
    Logical → Machine → List (Tree × Number) → Number → Machine → Prop
  | operand {t m v n m'} (h : Ends t m (.ok v) m') (hv : v.number? = some n) :
      Course M (.operand t) m [(t, n)] n m'
  | negated {e m read n m' op i} (h : Course M e m read n m') :
      Course M (.negated op e i) m read (M.negated n) m'
  | decided {needed l op r i m read n m'} (h : Course M l m read n m') (hn : n.truth ≠ needed) :
      Course M (.joined needed l op r i) m read (M.joined n) m'
  | both {needed l op r i m read n m₁ read' n' m'} (h : Course M l m read n m₁)
      (hn : n.truth = needed) (h' : Course M r m₁ read' n' m') :
      Course M (.joined needed l op r i) m (read ++ read') (M.joined n') m'

variable {t l r : Tree} {m m₁ m' : Machine} {v w : Value} {n : Number} {op : Token} {needed : Bool}

/-! ## One operator -/

theorem binary_connective {M : Type → Type} [Monad M] [MonadLiftT Run M] (ev : Evaluator M)
    (hop : op.kind = connective needed) (l r : Tree) :
    binary ev l op r = (do let v ← ev l; if v.truth = needed then ev r else return v) := by
  cases needed with
  | true => simp only [binary, hop, connective]
  | false =>
    simp only [binary, hop, connective]
    refine bind_congr fun v => ?_
    cases v.truth <;> rfl

theorem Ends.negated (h : Ends t m (.ok v) m') (hv : v.number? = some n)
    (hop : op.kind = .logNeg) (i : Nat) :
    Ends (.unary op t true i) m (.ok (.number (.ofBool n.truth))) m' := by
  obtain ⟨-, fuel, h⟩ := h
  refine .of_eval (fuel + 1) ?_
  have hrule : eval (fuel + 1) (.unary op t true i) = (do negate (← eval fuel t)) := by
    simp only [eval, rule, before, hop]
    rfl
  rw [hrule, Run.execute_bind, h]
  simp only [negate, Run.execute_bind, Run.execute_ofExcept, asNumber_eq hv, Number.logNeg_eq,
    Run.execute_pure]

theorem Ends.decided (h : Ends l m (.ok v) m') (hv : v.truth ≠ needed)
    (hop : op.kind = connective needed) (r : Tree) (i : Nat) :
    Ends (.binary l op r i) m (.ok v) m' := by
  obtain ⟨-, fuel, h⟩ := h
  refine .of_eval (fuel + 1) ?_
  rw [eval, rule, binary_connective (eval fuel) hop, Run.execute_bind, h]
  simp only [if_neg hv, Run.execute_pure]

theorem Ends.both (h : Ends l m (.ok v) m₁) (hv : v.truth = needed) (h' : Ends r m₁ (.ok w) m')
    (hop : op.kind = connective needed) (i : Nat) : Ends (.binary l op r i) m (.ok w) m' := by
  obtain ⟨hne, fuel, h⟩ := h
  obtain ⟨hne', fuel', h'⟩ := h'
  refine .of_eval (fuel + fuel' + 1) ?_
  rw [eval, rule, binary_connective (eval (fuel + fuel')) hop, Run.execute_bind,
    eval_eq_of_le (Nat.le_add_right fuel fuel') h hne]
  simp only [if_pos hv, eval_eq_of_le (Nat.le_add_left fuel' fuel) h' hne']

/-! ## Expressions -/

theorem Course.ends {e : Logical} {read : List (Tree × Number)}
    (h : Course .actual e m read n m') :
    ∃ v, Ends e.tree m (.ok v) m' ∧ v.number? = some n := by
  induction h with
  | operand h hv => exact ⟨_, h, hv⟩
  | @negated _ _ _ _ _ op i _ ih =>
    obtain ⟨v, h, hv⟩ := ih
    exact ⟨_, h.negated hv op.2 i, rfl⟩
  | @decided _ _ op r i _ _ _ _ _ hn ih =>
    obtain ⟨v, h, hv⟩ := ih
    exact ⟨v, h.decided (truth_of_number hv ▸ hn) op.2 r.tree i, hv⟩
  | @both _ _ op _ i _ _ _ _ _ _ _ _ hn _ ih ih' =>
    obtain ⟨v, h, hv⟩ := ih
    obtain ⟨w, h', hw⟩ := ih'
    exact ⟨w, h.both ((truth_of_number hv).trans hn) h' op.2 i, hw⟩

/-- Without the negations the truth values take the same course, and the same one comes out. -/
theorem Course.plain {e : Logical} {read : List (Tree × Number)}
    (h : Course .actual e m read n m') :
    ∃ k, Course .boolean e.plain m read k m' ∧ n.truth = k.truth := by
  induction h with
  | operand h hv => exact ⟨_, .operand h hv, rfl⟩
  | negated _ ih =>
    obtain ⟨k, h, hk⟩ := ih
    exact ⟨k, h, (Number.truth_ofBool _).trans hk⟩
  | decided _ hn ih =>
    obtain ⟨k, h, hk⟩ := ih
    exact ⟨_, h.decided (hk ▸ hn), hk.trans (Number.truth_ofBool _).symm⟩
  | both _ hn _ ih ih' =>
    obtain ⟨k, h, hk⟩ := ih
    obtain ⟨k', h', hk'⟩ := ih'
    exact ⟨_, h.both (hk ▸ hn) h', hk'.trans (Number.truth_ofBool _).symm⟩

/-- Every expression takes a course if its operands give numbers, as long as an invariant holds. -/
theorem exists_course (M : Meaning) {I : Machine → Prop} {e : Logical}
    (hnumbers : ∀ t ∈ e.operands, ∀ m, I m →
      ∃ v n m', Ends t m (.ok v) m' ∧ v.number? = some n ∧ I m') (hm : I m) :
    ∃ read n m', Course M e m read n m' ∧ I m' := by
  induction e generalizing m with
  | operand t =>
    obtain ⟨v, n, m', h, hv, hm'⟩ := hnumbers t (List.mem_singleton_self t) m hm
    exact ⟨_, n, m', .operand h hv, hm'⟩
  | negated op e i ih =>
    obtain ⟨read, n, m', h, hm'⟩ := ih hnumbers hm
    exact ⟨read, _, m', h.negated, hm'⟩
  | joined needed l op r i ihl ihr =>
    obtain ⟨read, n, m₁, h, hm₁⟩ := ihl (fun t ht => hnumbers t (List.mem_append_left _ ht)) hm
    by_cases hn : n.truth = needed
    · obtain ⟨read', n', m', h', hm'⟩ :=
        ihr (fun t ht => hnumbers t (List.mem_append_right _ ht)) hm₁
      exact ⟨_, _, m', h.both hn h', hm'⟩
    · exact ⟨read, _, m₁, h.decided hn, hm₁⟩

/-! ## What is evaluated -/

def begunAt (depth : Nat) (es : List Event) : List Tree :=
  ((es.reverse.filterMap Event.entered?).filter (·.context.length = depth)).map (·.tree)

theorem begunAt_append (depth : Nat) (es es' : List Event) :
    begunAt depth (es ++ es') = begunAt depth es' ++ begunAt depth es := by
  simp [begunAt]

/-- What happens inside a tree is deeper than the tree. -/
theorem begunAt_inside {c : List Tree} {es : List Event}
    (h : ∀ e ∈ es, Recorded.Inside t c e) : begunAt c.length es = [] := by
  unfold begunAt
  rw [List.map_eq_nil_iff, List.filter_eq_nil_iff]
  intro visit hvisit
  obtain ⟨e, he, hentered⟩ := List.mem_filterMap.1 hvisit
  obtain ⟨inner, hinner⟩ := h e (List.mem_reverse.1 he)
  cases e with
  | leave => cases hentered
  | enter v =>
    obtain rfl : v = visit := Option.some.inj hentered
    simp only [Event.visit] at hinner
    simp [hinner]
    omega

theorem begunAt_startAt (depth fuel : Nat) (t : Tree) (m : Machine) (c : List Tree) :
    begunAt depth ((record (fuel + 1) t).execute (Recorded.startAt m c)).2.2.events =
      (if c.length = depth then [t] else []) ++ begunAt depth
        ((rule (record fuel) fuel t).execute (Recorded.startAt m (t :: c))).2.2.events := by
  rw [Recorded.record_startAt]
  by_cases hdepth : c.length = depth <;> simp [begunAt, Event.entered?, hdepth]

theorem begunAt_record (fuel : Nat) (t : Tree) (m : Machine) (c : List Tree) :
    begunAt c.length ((record (fuel + 1) t).execute (Recorded.startAt m c)).2.2.events = [t] := by
  obtain ⟨⟨-, hinside⟩, -⟩ :=
    Recorded.rule_inside fuel t c (Recorded.startAt m (t :: c)) ⟨rfl, List.forall_mem_nil _⟩
  rw [begunAt_startAt, begunAt_inside hinside, if_pos rfl, List.append_nil]

def Gives (fuel : Nat) (t : Tree) (m : Machine) (b : Bool) : Prop :=
  ∃ v, ((eval fuel t).execute m).1 = .ok v ∧ v.truth = b

/-- The left operand is evaluated, and after it the right one exactly if it is needed. -/
theorem begunAt_connective (hop : op.kind = connective needed) (l r : Tree) (i fuel : Nat)
    (m : Machine) (c : List Tree) :
    let es := ((record (fuel + 2) (.binary l op r i)).execute (Recorded.startAt m c)).2.2.events
    Gives (fuel + 1) l m needed ∧ begunAt (c.length + 1) es = [l, r] ∨
      ¬Gives (fuel + 1) l m needed ∧ begunAt (c.length + 1) es = [l] := by
  have hrule : rule (record (fuel + 1)) (fuel + 1) (.binary l op r i) = _ :=
    binary_connective (record (fuel + 1)) hop l r
  have hl := begunAt_record fuel l m (.binary l op r i :: c)
  have heval := record_eval (fuel + 1) l (Recorded.startAt m (.binary l op r i :: c))
  simp only [Gives, begunAt_startAt, heval]
  rw [if_neg (by omega), List.nil_append, hrule, Recorded.execute_bind]
  cases h : (record (fuel + 1) l).execute (Recorded.startAt m (.binary l op r i :: c)) with
  | mk result s =>
    rw [h] at hl
    cases result with
    | error e => exact .inr ⟨by rintro ⟨_, ⟨⟩, -⟩, hl⟩
    | ok v =>
      by_cases hv : v.truth = needed
      · refine .inl ⟨⟨v, rfl, hv⟩, ?_⟩
        -- The events of the right operand come before those of the left one, as the later ones.
        obtain ⟨_, -, -, hs⟩ := (Recorded.record_adds (fuel + 1) l).ok h
        have hadd := ((Recorded.record_adds (fuel + 1) r) s.1 (.binary l op r i :: c)).1 s.2.events
        have hself : (s.1, (⟨.binary l op r i :: c, s.2.events⟩ : Journal)) = s := by
          rw [hs, ← hs]
        rw [hself] at hadd
        simp only [if_pos hv, hadd, begunAt_append]
        exact congrArg₂ (· ++ ·) hl (begunAt_record fuel r s.1 (.binary l op r i :: c))
      · refine .inr ⟨?_, ?_⟩
        · rintro ⟨_, ⟨⟩, hv'⟩
          exact hv hv'
        · simp only [if_neg hv, Recorded.execute_pure]
          exact hl

/-- If the operands of an expression give numbers, its evaluation gives one. The operands are
evaluated from left to right, the right side of a conjunction or a disjunction exactly if the left
one is true or false, and the value is the number of the side that decides. It is as true as the
Boolean value of the expression without its negations, which has the same course, for a negation
gives the truth value of its operand and not the other one. -/
theorem logical_values {I : Machine → Prop} {e : Logical}
    (hnumbers : ∀ t ∈ e.operands, ∀ m, I m →
      ∃ v n m', Ends t m (.ok v) m' ∧ v.number? = some n ∧ I m') {m : Machine} (hm : I m) :
    (∃ v n k read m', Ends e.tree m (.ok v) m' ∧ v.number? = some n ∧ I m' ∧
      Course .actual e m read n m' ∧ Course .boolean e.plain m read k m' ∧ n.truth = k.truth ∧
      ∀ op i, op.kind = .logNeg →
        Ends (.unary op e.tree true i) m (.ok (.number (.ofBool n.truth))) m') ∧
    (∀ n : Number,
      n.truth = false ↔ n.value = .int 0 ∨ ∃ x, n.value = .real x ∧ (x == 0) = true) ∧
    ∀ needed op, op.kind = connective needed → ∀ l r i fuel m c,
      let es := ((record (fuel + 2) (.binary l op r i)).execute (Recorded.startAt m c)).2.2.events
      Gives (fuel + 1) l m needed ∧ begunAt (c.length + 1) es = [l, r] ∨
        ¬Gives (fuel + 1) l m needed ∧ begunAt (c.length + 1) es = [l] := by
  obtain ⟨read, n, m', h, hm'⟩ := exists_course .actual hnumbers hm
  obtain ⟨v, hends, hv⟩ := h.ends
  obtain ⟨k, hplain, hk⟩ := h.plain
  refine ⟨⟨v, n, k, read, m', hends, hv, hm', h, hplain, hk, ?_⟩, Number.truth_eq_false_iff, ?_⟩
  · exact fun op i hop => hends.negated hv hop i
  · exact fun _ _ hop => begunAt_connective hop

/-- The negation of a conjunction that is true is one. -/
theorem logical_values_negated : ∃ e : Logical,
    e.tree = .unary (.ofKind .logNeg) (.binary (.num ⟨.integerConst, .int 2⟩ 1) (.ofKind .logAndOp)
      (.num ⟨.integerConst, .int 3⟩ 1) 1) true 1 ∧
    ∃ n k read m', Ends e.tree (Machine.start "") (.ok (.number n)) m' ∧ n.ctype = .int ∧
      n.value = .int 1 ∧ Course .actual e (Machine.start "") read n m' ∧
      Course .boolean e.plain (Machine.start "") read k m' ∧ k.truth = true := by
  let e : Logical := .negated ⟨.ofKind .logNeg, rfl⟩ (.joined true
    (.operand (.num ⟨.integerConst, .int 2⟩ 1)) ⟨.ofKind .logAndOp, rfl⟩
    (.operand (.num ⟨.integerConst, .int 3⟩ 1)) 1) 1
  have hnumbers : ∀ t ∈ e.operands, ∀ m, True →
      ∃ v n m', Ends t m (.ok v) m' ∧ v.number? = some n ∧ True := by
    intro t ht m _
    obtain rfl | rfl : t = .num ⟨.integerConst, .int 2⟩ 1 ∨ t = .num ⟨.integerConst, .int 3⟩ 1 := by
      simpa [e, Logical.operands] using ht
    all_goals exact ⟨_, _, m, .of_eval 1 rfl, rfl, trivial⟩
  obtain ⟨⟨v, n, k, read, m', hends, hv, -, hactual, hplain, hk, -⟩, -⟩ :=
    logical_values (m := Machine.start "") hnumbers trivial
  have hresult : ∀ fuel, 3 ≤ fuel → (eval fuel e.tree).execute (Machine.start "") =
      (.ok (.number (.ofBool true)), Machine.start "") := by
    intro fuel hfuel
    obtain ⟨fuel, rfl⟩ := Nat.exists_eq_add_of_le' hfuel
    rfl
  obtain ⟨hresult, -⟩ := (ends_iff_of_result hresult (by rintro ⟨⟩) _ _).1 hends
  obtain rfl := Except.ok.inj hresult
  obtain rfl := Option.some.inj hv
  exact ⟨e, rfl, _, k, read, m', hends, rfl, rfl, hactual, hplain, hk.symm⟩

end Eval

end MiniC
