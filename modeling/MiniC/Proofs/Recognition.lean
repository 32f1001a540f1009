import MiniC.Proofs.Derivations
import MiniC.Proofs.OneLine
import MiniC.Proofs.Rereading

/-!
# Reading what is derived

The rules for expressions choose by what stands next, and by looking a few tokens ahead for an
assignment and for a conversion. Here they are shown to read whatever is derived by the grammar that
is kept to, and to stop behind it. `Recognized n w` says of each nonterminal what its rule does on
tokens derived from it, with any tokens behind them that do not go on with it; it is shown by
induction on the derivation. `Operand` and `Primary` also say what is found when one looks ahead
from such tokens. On a text, the end of the tokens is the end of the text.
-/

namespace MiniC

variable {k : Token} {ts : List Token}

namespace Grammar

open MiniC.Parser

/-! ## How an expression starts -/

def StartsExpression (w : List Token) : Prop :=
  ∃ k ts, w = k :: ts ∧ Tree.startsExpression k.kind = true

theorem StartsExpression.cons (hk : Tree.startsExpression k.kind = true) (ts : List Token) :
    StartsExpression (k :: ts) :=
  ⟨k, ts, rfl, hk⟩

theorem StartsExpression.append {w : List Token} (h : StartsExpression w) (v : List Token) :
    StartsExpression (w ++ v) := by
  obtain ⟨k, ts, rfl, hk⟩ := h
  exact .cons hk (ts ++ v)

theorem StartsExpression.ne_nil {w : List Token} (h : StartsExpression w) : w ≠ [] := by
  obtain ⟨k, ts, rfl, -⟩ := h
  exact List.cons_ne_nil k ts

def Nonterminal.isTail : Nonterminal → Bool
  | commas | operands _ => true
  | _ => false

theorem Derives.starts {g : Reading} {n : Nonterminal} {w : List Token} (h : Derives g n w)
    (hn : n.isTail = false) : StartsExpression w := by
  induction h with
  | noComma | comma | noOperand | operand => cases hn
  | expression _ _ hw | arguments _ _ hw => exact (hw rfl).append _
  | assign _ _ _ _ hw | stepped _ _ hw | field _ _ _ _ hw | call _ _ _ _ hw =>
    exact (hw rfl).append _
  | conditional _ _ _ _ _ hw => exact (hw rfl).append _
  | binary _ _ _ hw => exact (hw rfl).append _
  | callWith _ _ _ _ _ hw => exact (hw rfl).append _
  | assignment _ hw | unassigned _ _ hw | unchanged _ hw | condition _ hw | tightest _ hw
  | unconverted _ hw | unprefixed _ hw | bare _ _ hw => exact hw rfl
  | cast hl | enclosed hl | enclosedField hl => exact .cons (by rw [hl]; rfl) _
  | step ho => exact .cons (by obtain ho | ho := ho <;> rw [ho] <;> rfl) _
  | address ho => exact .cons (by rw [ho]; rfl) _
  | prefixed ho =>
    have hstarts : ∀ k ∈ [Kind.asterisk, .plus, .minus, .logNeg],
        Tree.startsExpression k = true := by decide
    exact .cons (hstarts _ ho) _
  | constant hk => exact .cons (by obtain hk | hk := hk <;> rw [hk] <;> rfl) _
  | string hk | name hk => exact .cons (by rw [hk]; rfl) _
  | pointed ho => exact .cons (by rw [ho]; rfl) _
  | member hb => exact .cons (by rw [hb]; rfl) _

/-! ## Looking for an assignment -/

def endsTarget (k : Kind) : Bool :=
  !k.isAssignment && k != .dot && k != .arrow

def NamesAhead (w : List Token) : Prop :=
  ∀ ⦃j⦄, endsTarget (firstKind j) = true →
    ampersandBehindName ((w ++ j).map Token.kind) = false →
    ∃ o, Gives namesAhead (w ++ j) o (· = false)

def Ahead (w : List Token) : Prop :=
  ∀ ⦃j⦄, endsTarget (firstKind j) = true →
    ampersandBehindTarget ((w ++ j).map Token.kind) = false →
    Gives assignmentAhead (w ++ j) (w ++ j) (· = false)

section

variable {w v : List Token}

theorem endsTarget_append (hv : v = [] ∨ endsTarget (firstKind v) = true) {j : List Token}
    (hj : endsTarget (firstKind j) = true) : endsTarget (firstKind (v ++ j)) = true := by
  cases v with
  | nil => exact hj
  | cons k ts => exact hv.resolve_left (List.cons_ne_nil _ _)

theorem NamesAhead.append (h : NamesAhead w) (hv : v = [] ∨ endsTarget (firstKind v) = true) :
    NamesAhead (w ++ v) := by
  intro j hj hamp
  rw [List.append_assoc] at hamp ⊢
  exact h (endsTarget_append hv hj) hamp

theorem Ahead.append (h : Ahead w) (hv : v = [] ∨ endsTarget (firstKind v) = true) :
    Ahead (w ++ v) := by
  intro j hj hamp
  rw [List.append_assoc] at hamp ⊢
  exact h (endsTarget_append hv hj) hamp

theorem NamesAhead.none (hk : k.kind ≠ .id) (ts : List Token) : NamesAhead (k :: ts) :=
  fun _ _ _ => ⟨_, namesAhead_none hk⟩

/-- Behind a target that nothing is assigned to. -/
theorem not_goesOnTarget {k : Kind} (hk : endsTarget k = true) (hamp : k ≠ .ampersand) :
    goesOnTarget k = false ∧ k.isAssignment = false := by
  simp only [endsTarget, Bool.and_eq_true, Bool.not_eq_true', bne_iff_ne] at hk
  refine ⟨?_, hk.1.1⟩
  unfold goesOnTarget
  split
  · exact absurd rfl hk.1.2
  · exact absurd rfl hk.2
  · exact absurd rfl hamp
  · rfl

/-- A target that the names at the start make up. -/
theorem NamesAhead.target (hamp : ∀ a j, a.kind = .ampersand →
      ampersandBehindName ((w ++ a :: j).map Token.kind) = true)
    (h : ∀ j, goesOnTarget (firstKind j) = false →
      Gives namesAhead (w ++ j) j (· = (firstKind j).isAssignment)) : NamesAhead w := by
  intro j hj hnone
  have hne : firstKind j ≠ .ampersand := by
    intro hfirst
    cases j with
    | nil => cases hfirst
    | cons a j => exact Bool.false_ne_true (hnone.symm.trans (hamp a j hfirst))
  obtain ⟨htarget, hassign⟩ := not_goesOnTarget hj hne
  exact ⟨j, hassign ▸ h j htarget⟩

theorem NamesAhead.name (hk : k.kind = .id) : NamesAhead [k] :=
  .target (fun a j ha => by simp [hk, ha, ampersandBehindName, Grammar.names])
    fun _ h => namesAhead_name hk h

theorem NamesAhead.member {b o m : Token} (hb : b.kind = .id)
    (ho : o.kind = .dot ∨ o.kind = .arrow) (hm : m.kind = .id) : NamesAhead [b, o, m] := by
  refine .target (fun a j ha => ?_) fun _ h => namesAhead_field hb hm ho h
  obtain ho | ho := ho <;> simp [hb, ho, hm, ha, ampersandBehindName, Grammar.names]

theorem ampersandBehindTarget_of_ne {ks : List Kind} (h : ks.head? ≠ some .asterisk) :
    ampersandBehindTarget ks = ampersandBehindName ks := by
  cases ks with
  | nil => rfl
  | cons k ks =>
    rw [ampersandBehindTarget]
    exact fun js hjs => h (congrArg List.head? hjs)

theorem Ahead.ofNames (hk : k.kind ≠ .asterisk) (h : NamesAhead (k :: ts)) : Ahead (k :: ts) := by
  intro j hj hamp
  rw [ampersandBehindTarget_of_ne (by simpa using hk)] at hamp
  obtain ⟨o, ho⟩ := h hj hamp
  exact assignmentAhead_of_names hk ho

/-- Whether a list starts in a way is not changed by what stands behind it, if that cannot go on. -/
theorem isPrefixOf_append {p ks js : List Kind} (h : ∀ k ∈ js.head?, k ∉ p) :
    p.isPrefixOf (ks ++ js) = p.isPrefixOf ks := by
  induction p generalizing ks with
  | nil => simp
  | cons a p ih =>
    have htail : ∀ k ∈ js.head?, k ∉ p := fun k hk hp => h k hk (List.mem_cons_of_mem a hp)
    cases ks with
    | cons b ks => simp only [List.cons_append, List.isPrefixOf_cons_cons, ih htail]
    | nil =>
      cases js with
      | nil => rfl
      | cons b js =>
        have hb : a ≠ b := fun hab => h b rfl (hab ▸ List.mem_cons_self)
        rw [List.nil_append, List.isPrefixOf_cons_cons, beq_false_of_ne hb]
        rfl

theorem ampersandBehindName_append {ks js : List Kind}
    (h : ∀ k ∈ js.head?, k ∉ [Kind.id, .dot, .arrow, .ampersand]) :
    ampersandBehindName (ks ++ js) = ampersandBehindName ks := by
  have hnames : ∀ name ∈ names, name ++ [Kind.ampersand] ⊆ [.id, .dot, .arrow, .ampersand] := by
    decide
  rw [Bool.eq_iff_iff]
  simp only [ampersandBehindName, List.any_eq_true]
  refine exists_congr fun name => and_congr_right fun hname => ?_
  rw [isPrefixOf_append fun k hk hmem => h k hk (hnames name hname hmem)]

theorem ampersandBehindTarget_append {i : List Token} (hi : endsAssignment (firstKind i) = true) :
    ampersandBehindTarget ((w ++ i).map Token.kind) =
      ampersandBehindTarget (w.map Token.kind) := by
  have hkinds : ∀ k, k ∈ [Kind.asterisk, .id, .dot, .arrow, .ampersand] →
      endsAssignment k = false := by decide
  have hhead : ∀ k ∈ (i.map Token.kind).head?,
      k ∉ [Kind.asterisk, .id, .dot, .arrow, .ampersand] := by
    cases i with
    | nil => exact fun k hk => (by cases hk)
    | cons t i =>
      rintro k ⟨⟩ hk
      rw [firstKind_cons, hkinds _ hk] at hi
      cases hi
  have hnames : ∀ k ∈ (i.map Token.kind).head?, k ∉ [Kind.id, .dot, .arrow, .ampersand] :=
    fun k hk hmem => hhead k hk (List.mem_cons_of_mem _ hmem)
  rw [List.map_append]
  cases w with
  | nil =>
    rw [ampersandBehindTarget_of_ne, ampersandBehindTarget_of_ne, ampersandBehindName_append hnames]
    · exact fun h => (by cases h)
    · exact fun h => hhead _ h List.mem_cons_self
  | cons k w =>
    by_cases hk : k.kind = .asterisk
    · simp only [List.map_cons, List.cons_append, hk, ampersandBehindTarget,
        ampersandBehindName_append hnames]
    · have hne (ks : List Kind) : (k.kind :: ks).head? ≠ some .asterisk := by simpa using hk
      rw [List.map_cons, List.cons_append, ampersandBehindTarget_of_ne (hne _),
        ampersandBehindTarget_of_ne (hne _), ← List.cons_append, ampersandBehindName_append hnames]

theorem endsTarget_of_endsAssignment {k : Kind} (h : endsAssignment k = true) :
    endsTarget k = true := by
  cases k <;> first | rfl | cases h

/-- At the end of an assignment. -/
theorem Ahead.atEnd {i : List Token} (h : Ahead w)
    (hamp : ampersandBehindTarget (w.map Token.kind) = false)
    (hi : endsAssignment (firstKind i) = true) :
    Gives assignmentAhead (w ++ i) (w ++ i) (· = false) :=
  h (endsTarget_of_endsAssignment hi) ((ampersandBehindTarget_append hi).trans hamp)

theorem Ahead.ofStar {o : Token} (ho : o.kind = .asterisk) (h : NamesAhead w) :
    Ahead (o :: w) := by
  intro j hj hamp
  simp only [List.cons_append, List.map_cons, ho, ampersandBehindTarget] at hamp
  obtain ⟨i, hi⟩ := h hj hamp
  exact assignmentAhead_of_star ho hi

end

/-! ## Operands -/

def Accepts {α : Type} (p : Parser α) (w i : List Token) : Prop :=
  Gives p (w ++ i) i fun _ => True

/-- A rule reads the tokens up to where an expression ends, if it may nest as deep as there are
tokens. -/
def AcceptsAll {α : Type} (rule : (Nested → Parser Tree) → Parser α) (w : List Token) : Prop :=
  ∀ ⦃d i⦄, w.length ≤ d → endsExpression (firstKind i) = true → Accepts (rule (nestedAt d)) w i

def AcceptsPrimary (w : List Token) : Prop :=
  ∀ ⦃d i⦄, w.length ≤ d + 1 → firstKind i ≠ .dot ∧ firstKind i ≠ .arrow →
    Accepts (primaryOf (nestedAt d)) w i

structure Operand (w : List Token) : Prop where
  ne_nil : w ≠ []
  names : NamesAhead w
  ahead : Ahead w
  reads : ∀ ⦃d i⦄, w.length ≤ d + 1 → goesOnOperand (firstKind i) = false →
    Accepts (castOf (nestedAt d)) w i

def StartsPlain (w : List Token) : Prop :=
  ∃ k ts, w = k :: ts ∧ Tree.isPrefixOperator k.kind = false ∧
    (k.kind = .lparen → ∃ k' ts', ts = k' :: ts' ∧ k'.kind.isTypeSpecifier = false)

structure Plain (w : List Token) : Prop where
  starts : StartsPlain w
  names : NamesAhead w
  reads : AcceptsPrimary w

section

variable {w v i j o : List Token} {d : Nat} {nested : Nested → Parser Tree} {P : Tree → Prop}

theorem StartsPlain.ne_nil (h : StartsPlain w) : w ≠ [] := by
  obtain ⟨k, ts, rfl, -⟩ := h
  exact List.cons_ne_nil k ts

theorem StartsPlain.append (h : StartsPlain w) (v : List Token) : StartsPlain (w ++ v) := by
  obtain ⟨k, ts, rfl, hk, hparen⟩ := h
  refine ⟨k, ts ++ v, rfl, hk, fun hl => ?_⟩
  obtain ⟨k', ts', rfl, hk'⟩ := hparen hl
  exact ⟨k', ts' ++ v, rfl, hk'⟩

theorem castOf_of_startsPlain (hw : StartsPlain w) (h : Gives (postfixOf nested) w o P) :
    Gives (castOf nested) w o P := by
  obtain ⟨k, ts, rfl, hk, hparen⟩ := hw
  -- A parenthesis may open a conversion; the token behind it decides.
  by_cases hl : k.kind = .lparen
  · obtain ⟨k', ts', rfl, hk'⟩ := hparen hl
    refine .bind (castAhead_of_second hl hk') fun b hb => .ifFalse (by simp [hb]) (.token ?_)
    simp only [first_cons, hl]
    exact h
  · exact castOf_of_postfixOf hl hk h

theorem StartsPlain.ahead (hw : StartsPlain w) (hnames : NamesAhead w) : Ahead w := by
  obtain ⟨k, ts, rfl, hk, -⟩ := hw
  refine .ofNames ?_ hnames
  rintro h
  rw [h] at hk
  cases hk

theorem Operand.ofPostfix (hw : StartsPlain w) (hnames : NamesAhead w)
    (hreads : ∀ ⦃d i⦄, w.length ≤ d + 1 → goesOnOperand (firstKind i) = false →
      Accepts (postfixOf (nestedAt d)) w i) : Operand w := by
  refine ⟨hw.ne_nil, hnames, hw.ahead hnames, fun d i hd hi => ?_⟩
  exact castOf_of_startsPlain (hw.append i) (hreads hd hi)

theorem Plain.bare (h : Plain w) : Operand w :=
  .ofPostfix h.starts h.names fun _ _ hd hi =>
    postfixOf_of_primaryOf (h.reads hd (ne_dot_arrow_of_goesOnOperand hi)) hi

theorem endsTarget_step {k : Kind} (hk : k = .incOp ∨ k = .decOp) :
    endsTarget k = true ∧ k ≠ .dot ∧ k ≠ .arrow := by
  obtain rfl | rfl := hk <;> decide

theorem Plain.stepped {o : Token} (h : Plain w) (ho : o.kind = .incOp ∨ o.kind = .decOp) :
    Operand (w ++ [o]) := by
  obtain ⟨hends, hdots⟩ := endsTarget_step ho
  refine .ofPostfix (h.starts.append _) (h.names.append (.inr hends)) fun d i hd hi => ?_
  rw [List.length_append] at hd
  unfold Accepts
  rw [List.append_assoc]
  refine .bind (h.reads (by omega) hdots) fun e _ => .token ?_
  rw [List.singleton_append, first_cons]
  obtain ho | ho := ho
  all_goals
    simp only [ho]
    exact .advance (.line (.pure trivial))

theorem Plain.constant (hk : k.kind = .integerConst ∨ k.kind = .realConst) : Plain [k] := by
  have hkinds : Tree.isConstant k.kind = true ∧ Tree.isPrefixOperator k.kind = false ∧
      k.kind ≠ .lparen ∧ k.kind ≠ .id := by
    obtain h | h := hk <;> rw [h] <;> decide
  obtain ⟨hconstant, hop, hparen, hid⟩ := hkinds
  refine ⟨⟨k, [], rfl, hop, fun h => absurd h hparen⟩, .none hid [], fun d i _ _ => ?_⟩
  exact (primaryOf_constant hconstant).weaken fun _ _ => trivial

theorem Plain.string (hk : k.kind = .string) : Plain [k] := by
  have hkinds : Tree.isPrefixOperator k.kind = false ∧ k.kind ≠ .lparen ∧ k.kind ≠ .id := by
    rw [hk]
    decide
  obtain ⟨hop, hparen, hid⟩ := hkinds
  refine ⟨⟨k, [], rfl, hop, fun h => absurd h hparen⟩, .none hid [], fun d i _ _ => ?_⟩
  exact (primaryOf_string hk).weaken fun _ _ => trivial

theorem startsPlain_name (hk : k.kind = .id) (ts : List Token) : StartsPlain (k :: ts) := by
  refine ⟨k, ts, rfl, by rw [hk]; rfl, fun h => ?_⟩
  rw [hk] at h
  cases h

theorem Plain.name (hk : k.kind = .id) : Plain [k] :=
  ⟨startsPlain_name hk [], .name hk, fun _ _ _ hi =>
    (primaryOf_name hk (variableOrField_var hk hi)).weaken fun _ _ => trivial⟩

theorem Plain.member {b o m : Token} (hb : b.kind = .id) (ho : o.kind = .dot ∨ o.kind = .arrow)
    (hm : m.kind = .id) : Plain [b, o, m] :=
  ⟨startsPlain_name hb _, .member hb ho hm, fun _ _ _ _ =>
    (primaryOf_name hb (variableOrField_field hb hm ho)).weaken fun _ _ => trivial⟩

end

/-! ## Parentheses -/

section

variable {l r o m : Token} {w i : List Token} {d : Nat} {nested : Nested → Parser Tree}
  {P : Tree → Prop}

theorem endsExpression_rparen (hr : r.kind = .rparen) (i : List Token) :
    endsExpression (firstKind (r :: i)) = true := by
  rw [firstKind_cons, hr]
  rfl

theorem primaryOf_parenField (hl : l.kind = .lparen) (hr : r.kind = .rparen) (ho : o.kind = .dot)
    (hm : m.kind = .id)
    (hw : Gives (expressionOf nested) (w ++ r :: o :: m :: i) (r :: o :: m :: i) P) :
    Gives (primaryOf nested) (l :: (w ++ r :: o :: m :: i)) i P := by
  refine .token ?_
  simp only [first_cons, hl]
  refine .eat hl (.bind hw fun e he => .eat hr (.kind ?_))
  refine .ifTrue (by simp [ho]) (.advance (.bind (variableName_gives hm) fun _ _ => .pure he))

theorem ne_dot_arrow_of_endsExpression (hi : endsExpression (firstKind i) = true) :
    firstKind i ≠ .dot ∧ firstKind i ≠ .arrow :=
  ne_dot_arrow_of_goesOnOperand (of_endsAssignment (endsAssignment_of_endsExpression hi).1).1

theorem startsPlain_paren (hl : l.kind = .lparen) (v : List Token)
    (hw : StartsExpression w) : StartsPlain (l :: (w ++ v)) := by
  obtain ⟨k, ts, rfl, hk⟩ := hw
  refine ⟨l, _, rfl, by rw [hl]; rfl, fun _ => ⟨k, ts ++ v, rfl, ?_⟩⟩
  exact isTypeSpecifier_of_startsExpression hk

theorem no_ampersand_paren (hl : l.kind = .lparen) (w : List Token) :
    ampersandBehindTarget ((l :: w).map Token.kind) = false := by
  rw [List.map_cons, hl]
  rfl

theorem namesAhead_paren (hl : l.kind = .lparen) (w : List Token) : NamesAhead (l :: w) :=
  .none (by rw [hl]; exact fun h => (by cases h)) w

theorem Plain.paren (hl : l.kind = .lparen) (hr : r.kind = .rparen)
    (hstarts : StartsExpression w) (hw : AcceptsAll expressionOf w) :
    Plain (l :: (w ++ [r])) := by
  refine ⟨startsPlain_paren hl _ hstarts, namesAhead_paren hl _, fun d i hd hi => ?_⟩
  simp only [List.length_cons, List.length_append, List.length_nil] at hd
  unfold Accepts
  rw [List.cons_append, List.append_assoc, List.singleton_append]
  exact primaryOf_paren hl hr (hw (by omega) (endsExpression_rparen hr i)) hi.1

theorem Plain.parenField (hl : l.kind = .lparen) (hr : r.kind = .rparen) (ho : o.kind = .dot)
    (hm : m.kind = .id) (hstarts : StartsExpression w) (hw : AcceptsAll expressionOf w) :
    Plain (l :: (w ++ [r, o, m])) := by
  refine ⟨startsPlain_paren hl _ hstarts, namesAhead_paren hl _, fun d i hd _ => ?_⟩
  simp only [List.length_cons, List.length_append, List.length_nil] at hd
  unfold Accepts
  rw [List.cons_append, List.append_assoc]
  exact primaryOf_parenField hl hr ho hm (hw (by omega) (endsExpression_rparen hr _))

end

/-! ## Names in parentheses -/

def IsVar (t : Tree) : Prop :=
  ∃ k n, t = .var k n

namespace Named

variable {w i : List Token} {d : Nat}

theorem starts (h : Named w) : StartsExpression w := by
  cases h with
  | name hk => exact .cons (by rw [hk]; rfl) _
  | enclosed hl | enclosedField hl => exact .cons (by rw [hl]; rfl) _

theorem startsPlain (h : Named w) : StartsPlain w := by
  cases h with
  | name hk => exact startsPlain_name hk []
  | enclosed hl hw | enclosedField hl hw => exact startsPlain_paren hl _ hw.starts

theorem names (h : Named w) : NamesAhead w := by
  cases h with
  | name hk => exact .name hk
  | enclosed hl | enclosedField hl => exact namesAhead_paren hl _

theorem no_ampersand (h : Named w) : ampersandBehindTarget (w.map Token.kind) = false := by
  cases h with
  | name hk =>
    rw [List.map_singleton, hk]
    rfl
  | enclosed hl | enclosedField hl => exact no_ampersand_paren hl _

/-- What is read as a primary expression is read as an expression. -/
theorem expressionOf_of_primaryOf (h : Named w) (hd : w.length < d)
    (hi : endsExpression (firstKind i) = true)
    (hprimary : ∀ ⦃d⦄, w.length ≤ d + 1 → Gives (primaryOf (nestedAt d)) (w ++ i) i IsVar) :
    Gives (expressionOf (nestedAt d)) (w ++ i) i IsVar := by
  obtain ⟨hassign, -⟩ := endsAssignment_of_endsExpression hi
  obtain ⟨hgo, -⟩ := of_endsAssignment hassign
  cases d with
  | zero => cases hd
  | succ d =>
    have hcast := castOf_of_startsPlain (h.startsPlain.append i)
      (postfixOf_of_primaryOf (hprimary (d := d) (by omega)) hgo)
    have hahead := (h.startsPlain.ahead h.names).atEnd h.no_ampersand hassign
    refine expressionOf_of_assignment (assignmentOf_of_conditionalOf hahead ?_) hi
    exact conditionalOf_of_castOf hcast hassign

/-- A name is read as a name, also in parentheses. -/
theorem gives (h : Named w) (hd : w.length ≤ d + 1)
    (hi : firstKind i ≠ .dot ∧ firstKind i ≠ .arrow) :
    Gives (primaryOf (nestedAt d)) (w ++ i) i IsVar := by
  induction h generalizing d i with
  | name hk =>
    refine (primaryOf_name hk (variableOrField_var hk hi)).weaken fun t ht => ?_
    exact ⟨_, _, ht⟩
  | @enclosed l r w hl hw hr ih =>
    simp only [List.length_cons, List.length_append, List.length_nil] at hd
    rw [List.cons_append, List.append_assoc, List.singleton_append]
    have hends := endsExpression_rparen hr i
    refine primaryOf_paren hl hr (hw.expressionOf_of_primaryOf (by omega) hends ?_) hi.1
    exact fun d hd => ih hd (ne_dot_arrow_of_endsExpression hends)
  | @enclosedField l r o m w hl hw hr ho hm ih =>
    simp only [List.length_cons, List.length_append, List.length_nil] at hd
    simp only [List.cons_append, List.append_assoc, List.nil_append]
    have hends := endsExpression_rparen hr (o :: m :: i)
    refine primaryOf_parenField hl hr ho hm (hw.expressionOf_of_primaryOf (by omega) hends ?_)
    exact fun d hd => ih hd (ne_dot_arrow_of_endsExpression hends)

theorem expression (h : Named w) (hd : w.length < d) (hi : endsExpression (firstKind i) = true) :
    Gives (expressionOf (nestedAt d)) (w ++ i) i IsVar := by
  exact h.expressionOf_of_primaryOf hd hi fun d hd => h.gives hd (ne_dot_arrow_of_endsExpression hi)

end Named

/-! ## Calls and fields -/

section

variable {l r o m : Token} {w v : List Token}

theorem endsTarget_paren (hl : l.kind = .lparen) (v : List Token) :
    endsTarget (firstKind (l :: v)) = true ∧ firstKind (l :: v) ≠ .dot ∧
      firstKind (l :: v) ≠ .arrow := by
  rw [firstKind_cons, hl]
  decide

theorem Named.call (h : Named w) (hl : l.kind = .lparen) (hr : r.kind = .rparen) :
    Operand (w ++ [l, r]) := by
  obtain ⟨hends, hdots⟩ := endsTarget_paren hl [r]
  refine .ofPostfix (h.startsPlain.append _) (h.names.append (.inr hends)) fun d i hd _ => ?_
  rw [List.length_append] at hd
  unfold Accepts
  rw [List.append_assoc]
  refine .bind (h.gives (by omega) hdots) fun t ht => .token ?_
  obtain ⟨k, n, rfl⟩ := ht
  simp only [List.cons_append, List.nil_append, first_cons, hl]
  refine .advance (.kind (.ifTrue (by simp [hr]) (.bind (.pure (P := fun _ => True) trivial) ?_)))
  exact fun args _ => .eat hr (.line (.pure trivial))

theorem Named.callWith (h : Named w) (hl : l.kind = .lparen) (hr : r.kind = .rparen)
    (hstarts : StartsExpression v) (hv : AcceptsAll argumentsOf v) :
    Operand (w ++ l :: (v ++ [r])) := by
  obtain ⟨hends, hdots⟩ := endsTarget_paren hl (v ++ [r])
  refine .ofPostfix (h.startsPlain.append _) (h.names.append (.inr hends)) fun d i hd _ => ?_
  simp only [List.length_cons, List.length_append, List.length_nil] at hd
  unfold Accepts
  rw [List.append_assoc]
  refine .bind (h.gives (by omega) (endsTarget_paren hl _).2) fun t ht => .token ?_
  obtain ⟨k, n, rfl⟩ := ht
  simp only [List.cons_append, List.append_assoc, List.nil_append, first_cons, hl]
  have hends := endsExpression_rparen hr i
  refine .advance (.kind (.ifFalse ?_ (.bind (hv (by omega) hends) fun args _ => ?_)))
  · obtain ⟨k, ts, rfl, hk⟩ := hstarts
    rw [List.cons_append, firstKind_cons, beq_iff_eq]
    rintro hrparen
    rw [hrparen] at hk
    cases hk
  · exact .eat hr (.line (.pure trivial))

/-- A field of a name that stands in parentheses with another field behind them. -/
theorem Operand.fieldBehindField (hl : l.kind = .lparen) (hw : Named w) (hr : r.kind = .rparen)
    {a b : Token} (ha : a.kind = .dot) (hb : b.kind = .id) (ho : o.kind = .dot)
    (hm : m.kind = .id) : Operand (l :: (w ++ [r, a, b]) ++ [o, m]) := by
  refine .ofPostfix ((startsPlain_paren hl _ hw.starts).append _) (namesAhead_paren hl _)
    fun d i hd _ => ?_
  simp only [List.length_cons, List.length_append, List.length_nil] at hd
  unfold Accepts
  simp only [List.cons_append, List.append_assoc, List.nil_append]
  have hinside := hw.expression (d := d) (by omega)
    (endsExpression_rparen hr (a :: b :: o :: m :: i))
  refine .bind (primaryOf_parenField hl hr ha hb hinside) fun t ht => .token ?_
  obtain ⟨k, n, rfl⟩ := ht
  simp only [first_cons, ho]
  exact .advance (.bind (variableName_gives hm) fun _ _ => .line (.pure trivial))

end

/-! ## Operators in front -/

section

variable {o l r : Token} {w ts : List Token}

theorem Operand.ofUnary (hop : Tree.isPrefixOperator o.kind = true) (hahead : Ahead (o :: w))
    (hreads : ∀ ⦃d i⦄, (o :: w).length ≤ d + 1 → goesOnOperand (firstKind i) = false →
      Accepts (unaryOf (nestedAt d)) (o :: w) i) : Operand (o :: w) := by
  have hkinds : o.kind ≠ .id ∧ o.kind ≠ .lparen := by
    constructor
    all_goals
      rintro h
      rw [h] at hop
      cases hop
  refine ⟨List.cons_ne_nil _ _, .none hkinds.1 w, hahead, fun d i hd hi => ?_⟩
  refine .bind (castAhead_of_first (i := o :: w ++ i) (by simpa using hkinds.2)) fun b hb => ?_
  exact .ifFalse (by simp [hb]) (hreads hd hi)

theorem Operand.prefixed (ho : o.kind ∈ [.asterisk, .plus, .minus, .logNeg]) (hw : Operand w) :
    Operand (o :: w) := by
  have hkinds : ∀ k ∈ [Kind.asterisk, .plus, .minus, .logNeg],
      Tree.isPrefixOperator k = true ∧ k ≠ .id := by decide
  obtain ⟨hop, hid⟩ := hkinds _ ho
  -- Behind an asterisk, the names with which the operand starts may be the target of an assignment.
  have hahead : Ahead (o :: w) := by
    by_cases hstar : o.kind = .asterisk
    · exact .ofStar hstar hw.names
    · exact .ofNames hstar (.none hid w)
  refine .ofUnary hop hahead fun d i hd hi => .token ?_
  have hpos := List.length_pos_iff.2 hw.ne_nil
  rw [List.length_cons] at hd
  cases d with
  | zero => omega
  | succ d =>
    have hcast : Gives (nestedAt (d + 1) .cast) (w ++ i) i fun _ => True := hw.reads (by omega) hi
    simp only [List.mem_cons, List.not_mem_nil, or_false] at ho
    rw [List.cons_append, first_cons]
    obtain ho | ho | ho | ho := ho
    all_goals
      simp only [ho]
      exact .advance (.bind hcast fun _ _ => .line (.pure trivial))

theorem Operand.address (ho : o.kind = .ampersand) (hk : k.kind = .id) : Operand [o, k] := by
  have hkinds : Tree.isPrefixOperator o.kind = true ∧ o.kind ≠ .id ∧ o.kind ≠ .asterisk := by
    rw [ho]
    decide
  obtain ⟨hop, hid, hstar⟩ := hkinds
  refine .ofUnary hop (.ofNames hstar (.none hid [k])) fun d i _ _ => .token ?_
  simp only [List.cons_append, List.nil_append, first_cons, ho]
  exact .advance (.bind (variableName_gives hk) fun _ _ => .line (.pure trivial))

theorem Operand.step (ho : o.kind = .incOp ∨ o.kind = .decOp) (hw : AcceptsPrimary w) :
    Operand (o :: w) := by
  have hkinds : Tree.isPrefixOperator o.kind = true ∧ o.kind ≠ .id ∧ o.kind ≠ .asterisk := by
    obtain h | h := ho <;> rw [h] <;> decide
  obtain ⟨hop, hid, hstar⟩ := hkinds
  refine .ofUnary hop (.ofNames hstar (.none hid w)) fun d i hd hi => .token ?_
  rw [List.length_cons] at hd
  have hprimary := hw (d := d) (i := i) (by omega) (ne_dot_arrow_of_goesOnOperand hi)
  rw [List.cons_append, first_cons]
  obtain ho | ho := ho
  all_goals
    simp only [ho]
    exact .advance (.bind hprimary fun _ _ => .line (.pure trivial))

theorem Spells.isTypeSpecifier (hts : Spells ts) : ∀ t ∈ ts, t.kind.isTypeSpecifier = true := by
  have hwords : ∀ k ∈ typeWords, k.isTypeSpecifier = true := by decide
  exact fun t ht => hwords _ (hts.1 t ht)

theorem castAhead_of_spells {i : List Token} (hl : l.kind = .lparen) (hne : ts ≠ [])
    (hts : Spells ts) (hr : r.kind = .rparen) :
    Gives castAhead (l :: (ts ++ r :: i)) (l :: (ts ++ r :: i)) (· = true) := by
  have hrparen : (firstKind (r :: i)).isTypeSpecifier = false := by rw [firstKind_cons, hr]; rfl
  refine .lookahead (j := r :: i) (.kind (.ifTrue (by simp [hl]) (.advance (.kind ?_))))
  have hwords := specifiers_gives hts.isTypeSpecifier hrparen
  refine .ifFalse ?_ (.bind hwords fun _ _ => .kind (.pure ?_))
  · cases ts with
    | nil => exact absurd rfl hne
    | cons t ts => simp [hts.isTypeSpecifier t List.mem_cons_self]
  · simp [hr]

theorem typeSpecifier_of_spells {i : List Token} (hne : ts ≠ []) (hts : Spells ts)
    (hr : r.kind = .rparen) : Gives typeSpecifier (ts ++ r :: i) (r :: i) fun _ => True := by
  have hrparen : (firstKind (r :: i)).isTypeSpecifier = false := by rw [firstKind_cons, hr]; rfl
  have hstar : (firstKind (r :: i) == .asterisk) = false := by rw [firstKind_cons, hr]; rfl
  refine .kind (.ifFalse ?_ ?_)
  · cases ts with
    | nil => exact absurd rfl hne
    | cons t ts =>
      have ht := hts.isTypeSpecifier t List.mem_cons_self
      rw [List.cons_append, firstKind_cons, beq_iff_eq]
      rintro h
      rw [h] at ht
      cases ht
  refine .bind (specifiers_gives hts.isTypeSpecifier hrparen) fun words hwords => .kind ?_
  subst hwords
  rw [hstar]
  refine .ifFalse Bool.false_ne_true ?_
  have hok := hts.2
  simp only [Bool.false_eq_true, if_false]
  split
  · exact .line (.pure trivial)
  · next e he =>
    rw [he] at hok
    cases hok

/-- The words of a type in parentheses in front. -/
theorem Operand.cast (hl : l.kind = .lparen) (hne : ts ≠ []) (hts : Spells ts)
    (hr : r.kind = .rparen) (hw : Operand w) : Operand (l :: (ts ++ r :: w)) := by
  have hstar : l.kind ≠ .asterisk := by
    rw [hl]
    exact fun h => (by cases h)
  have hnames := namesAhead_paren hl (ts ++ r :: w)
  refine ⟨List.cons_ne_nil _ _, hnames, .ofNames hstar hnames, fun d i hd hi => ?_⟩
  have hpos := List.length_pos_iff.2 hw.ne_nil
  simp only [List.length_cons, List.length_append] at hd
  cases d with
  | zero => omega
  | succ d =>
    have hcast : Gives (nestedAt (d + 1) .cast) (w ++ i) i fun _ => True := hw.reads (by omega) hi
    unfold Accepts
    rw [List.cons_append, List.append_assoc, List.cons_append]
    refine .bind (castAhead_of_spells hl hne hts hr) fun b hb => .ifTrue hb (.eat hl ?_)
    refine .bind (typeSpecifier_of_spells hne hts hr) fun t _ => .eat hr ?_
    exact .bind hcast fun _ _ => .line (.pure trivial)

end

/-! ## Primary expressions -/

/-- What a name points to, or tokens that are read without an operator in front. If they stand in
parentheses, a field may stand behind them. -/
structure Primary (w : List Token) : Prop where
  form : (∃ o k, w = [o, k] ∧ o.kind = .asterisk ∧ k.kind = .id) ∨ Plain w
  no_ampersand : ampersandBehindTarget (w.map Token.kind) = false
  field : Enclosed w → ∀ ⦃o m⦄, o.kind = .dot → m.kind = .id → Plain (w ++ [o, m])

theorem enclosed_paren {l r : Token} (hl : l.kind = .lparen) (hr : r.kind = .rparen)
    (w : List Token) : Enclosed (l :: (w ++ [r])) := by
  refine ⟨by simp [hl], ?_⟩
  rw [← List.cons_append, List.getLast?_concat, Option.map_some, hr]

namespace Primary

variable {w : List Token} {o : Token}

theorem reads (h : Primary w) : AcceptsPrimary w := by
  obtain ⟨o, k, rfl, ho, hk⟩ | hplain := h.form
  · refine fun d i _ _ => .token ?_
    simp only [List.cons_append, List.nil_append, first_cons, ho]
    exact .advance (.bind (variableName_gives hk) fun _ _ => .line (.pure trivial))
  · exact hplain.reads

theorem bare (h : Primary w) : Operand w := by
  obtain ⟨o, k, rfl, ho, hk⟩ | hplain := h.form
  · -- The asterisk is read as an operator before a primary expression is looked for.
    exact .prefixed (by simp [ho]) (Plain.name hk).bare
  · exact hplain.bare

theorem stepped (h : Primary w) (ho : o.kind = .incOp ∨ o.kind = .decOp) : Operand (w ++ [o]) := by
  obtain ⟨p, k, rfl, hp, hk⟩ | hplain := h.form
  · exact .prefixed (w := [k, o]) (by simp [hp]) ((Plain.name hk).stepped ho)
  · exact hplain.stepped ho

theorem fieldBehind {m : Token} (h : Primary w) (ho : o.kind = .dot) (hm : m.kind = .id)
    (hbase : Named w ∨ Enclosed w) : Operand (w ++ [o, m]) := by
  obtain hname | hparen := hbase
  · cases hname with
    | name hk => exact (Plain.member hk (.inl ho) hm).bare
    | enclosed hl _ hr => exact (h.field (enclosed_paren hl hr _) ho hm).bare
    | enclosedField hl hw hr ha hb => exact .fieldBehindField hl hw hr ha hb ho hm
  · exact (h.field hparen ho hm).bare

theorem ofPlain (h : Plain w) (hamp : ampersandBehindTarget (w.map Token.kind) = false)
    (hparen : ¬ Enclosed w) : Primary w :=
  ⟨.inr h, hamp, fun hw => absurd hw hparen⟩

theorem not_enclosed (hk : k.kind ≠ .lparen) :
    ¬ Enclosed (k :: ts) := fun h => hk (by simpa using h.1)

theorem constant (hk : k.kind = .integerConst ∨ k.kind = .realConst) : Primary [k] := by
  refine .ofPlain (.constant hk) ?_ (not_enclosed ?_)
  · rw [List.map_singleton]
    obtain h | h := hk <;> rw [h] <;> rfl
  · obtain h | h := hk <;> rw [h] <;> exact fun h => (by cases h)

theorem string (hk : k.kind = .string) : Primary [k] := by
  refine .ofPlain (.string hk) ?_ (not_enclosed ?_)
  · rw [List.map_singleton, hk]
    rfl
  · rw [hk]
    exact fun h => (by cases h)

theorem name (hk : k.kind = .id) : Primary [k] := by
  refine .ofPlain (.name hk) ?_ (not_enclosed ?_)
  · rw [List.map_singleton, hk]
    rfl
  · rw [hk]
    exact fun h => (by cases h)

theorem pointed (ho : o.kind = .asterisk) (hk : k.kind = .id) : Primary [o, k] := by
  refine ⟨.inl ⟨o, k, rfl, ho, hk⟩, ?_, fun h => absurd h (not_enclosed ?_)⟩
  · simp only [List.map_cons, List.map_nil, ho, hk]
    rfl
  · rw [ho]
    exact fun h => (by cases h)

theorem member {b : Token} (hb : b.kind = .id) (ho : o.kind = .dot ∨ o.kind = .arrow)
    (hk : k.kind = .id) : Primary [b, o, k] := by
  refine .ofPlain (.member hb ho hk) ?_ (not_enclosed ?_)
  · simp only [List.map_cons, List.map_nil, hb, hk]
    obtain ho | ho := ho <;> rw [ho] <;> rfl
  · rw [hb]
    exact fun h => (by cases h)

theorem paren {l r : Token} (hl : l.kind = .lparen) (hr : r.kind = .rparen)
    (hstarts : StartsExpression w) (hw : AcceptsAll expressionOf w) :
    Primary (l :: (w ++ [r])) := by
  refine ⟨.inr (.paren hl hr hstarts hw), no_ampersand_paren hl _, fun _ o m ho hm => ?_⟩
  rw [List.cons_append, List.append_assoc]
  exact .parenField hl hr ho hm hstarts hw

theorem parenField {l r m : Token} (hl : l.kind = .lparen) (hr : r.kind = .rparen)
    (ho : o.kind = .dot) (hm : m.kind = .id) (hstarts : StartsExpression w)
    (hw : AcceptsAll expressionOf w) : Primary (l :: (w ++ [r, o, m])) := by
  refine .ofPlain (.parenField hl hr ho hm hstarts hw) (no_ampersand_paren hl _) fun h => ?_
  have hlast : (l :: (w ++ [r, o, m])).getLast? = some m := by
    rw [← List.cons_append, List.getLast?_append]
    rfl
  rw [Enclosed, hlast, Option.map_some, hm] at h
  cases h.2

end Primary

/-! ## Binary operators -/

theorem drop_levels {level : Nat} (h : level < 10) :
    levels.drop level = operators level :: levels.drop (level + 1) := by
  have hall : ∀ n : Fin 10, levels.drop n = operators n :: levels.drop (n + 1) := by decide
  exact hall ⟨level, h⟩

theorem lt_of_mem_operators {level : Nat} {k : Kind} (h : k ∈ operators level) : level < 10 := by
  by_contra hlevel
  unfold operators at h
  split at h
  case h_11 => cases h
  all_goals omega

theorem mem_levels_drop {level : Nat} {k : Kind} (h : k ∈ operators level) :
    k ∈ (levels.drop level).flatten := by
  rw [drop_levels (lt_of_mem_operators h), List.flatten_cons]
  exact List.mem_append_left _ h

theorem of_mem_operators {level : Nat} {k : Kind} (h : k ∈ operators level) :
    k ∉ (levels.drop (level + 1)).flatten ∧ goesOnOperand k = false ∧ endsTarget k = true := by
  have hall : ∀ n : Fin 10, ∀ k ∈ operators n,
      k ∉ (levels.drop (n + 1)).flatten ∧ goesOnOperand k = false ∧ endsTarget k = true := by
    decide
  exact hall ⟨level, lt_of_mem_operators h⟩ k h

theorem levels_drop_subset (level : Nat) :
    (levels.drop (level + 1)).flatten ⊆ (levels.drop level).flatten := by
  intro k hk
  obtain ⟨ks, hks, hk⟩ := List.mem_flatten.1 hk
  rw [← List.drop_drop] at hks
  exact List.mem_flatten.2 ⟨ks, List.mem_of_mem_drop hks, hk⟩

/-! ## Reading what was derived -/

/-- The rule for a nonterminal reads the tokens, up to a token that does not go on with them. -/
def Recognized : Nonterminal → List Token → Prop
  | .expression, w => AcceptsAll expressionOf w
  | .arguments, w => AcceptsAll argumentsOf w
  | .commas, w => (w = [] ∨ firstKind w = .comma) ∧
      ∀ ⦃d i fuel⦄, w.length ≤ d → w.length < fuel → endsExpression (firstKind i) = true →
        Accepts (itemsWhile (· == .comma) (do eat .comma; nestedAt d .assignment) fuel) w i
  | .assignment, w | .assigned, w => ∀ ⦃d i⦄, w.length ≤ d + 1 →
      endsAssignment (firstKind i) = true → Accepts (assignmentOf (nestedAt d)) w i
  | .conditional, w => Ahead w ∧ ∀ ⦃d i⦄, w.length ≤ d + 1 →
      endsAssignment (firstKind i) = true → Accepts (conditionalOf (nestedAt d)) w i
  | .binary level, w => Ahead w ∧ ∀ ⦃d i⦄, w.length ≤ d + 1 →
      goesOnOperand (firstKind i) = false → firstKind i ∉ (levels.drop level).flatten →
      Accepts (binaryOf (levels.drop level) (castOf (nestedAt d))) w i
  | .operands level, w => (w = [] ∨ firstKind w ∈ operators level) ∧
      ∀ ⦃d i fuel left⦄, w.length ≤ d + 1 → w.length < fuel →
        goesOnOperand (firstKind i) = false → firstKind i ∉ (levels.drop level).flatten →
        Accepts (chainFrom (fun k => (operators level).contains k)
          (binaryOf (levels.drop (level + 1)) (castOf (nestedAt d))) fuel left) w i
  | .cast, w | .unary, w | .suffixed, w => Operand w
  | .primary, w => Primary w

section

variable {d level : Nat} {w v i : List Token} {o q c : Token}

theorem endsAssignment_commas (hv : v = [] ∨ firstKind v = .comma)
    (hi : endsExpression (firstKind i) = true) : endsAssignment (firstKind (v ++ i)) = true := by
  cases v with
  | nil => exact (endsAssignment_of_endsExpression hi).1
  | cons k ts =>
    have hk : k.kind = .comma := hv.resolve_left (List.cons_ne_nil _ _)
    rw [List.cons_append, firstKind_cons, hk]
    rfl

theorem noComma_recognized : Recognized .commas [] := by
  refine ⟨.inl rfl, fun d i fuel _ hfuel hi => ?_⟩
  cases fuel with
  | zero => cases hfuel
  | succ fuel =>
    refine .kind (.ifFalse ?_ (.pure trivial))
    simpa using (endsAssignment_of_endsExpression hi).2

theorem commas_recognized (hc : c.kind = .comma) (hne : w ≠ []) (hw : Recognized .assignment w)
    (hv : Recognized .commas v) : Recognized .commas (c :: (w ++ v)) := by
  refine ⟨.inr hc, fun d i fuel hd hfuel hi => ?_⟩
  have hpos := List.length_pos_iff.2 hne
  simp only [List.length_cons, List.length_append] at hd hfuel
  unfold Accepts
  rw [List.cons_append, List.append_assoc]
  cases fuel with
  | zero => cases hfuel
  | succ fuel =>
    cases d with
    | zero => cases hd
    | succ d =>
      -- The item nests one level deeper, and there is one token less, the comma.
      have hitem : Gives (nestedAt (d + 1) .assignment) (w ++ (v ++ i)) (v ++ i) fun _ => True :=
        hw (by omega) (endsAssignment_commas hv.1 hi)
      refine .kind (.ifTrue (by simp [hc]) (.bind (.eat hc hitem) fun a _ => ?_))
      exact .bind (hv.2 (by omega) (by omega) hi) fun as _ => .pure trivial

theorem commaList_accepts (hne : w ≠ []) (hw : Recognized .assignment w) (hv : Recognized .commas v)
    (hd : (w ++ v).length ≤ d) (hi : endsExpression (firstKind i) = true) :
    Accepts (commaList (nestedAt d .assignment)) (w ++ v) i := by
  have hpos := List.length_pos_iff.2 hne
  rw [List.length_append] at hd
  unfold Accepts
  rw [List.append_assoc]
  cases d with
  | zero => omega
  | succ d =>
    have hitem : Gives (nestedAt (d + 1) .assignment) (w ++ (v ++ i)) (v ++ i) fun _ => True :=
      hw (by omega) (endsAssignment_commas hv.1 hi)
    refine .bind hitem fun a _ => .bind (.left (hv.2 (by omega) ?_ hi)) fun as _ => .pure trivial
    rw [List.length_append]
    omega

theorem expression_recognized (hne : w ≠ []) (hw : Recognized .assignment w)
    (hv : Recognized .commas v) : Recognized .expression (w ++ v) := by
  intro d i hd hi
  refine .bind (commaList_accepts hne hw hv hd hi) fun es _ => ?_
  split
  · exact .pure trivial
  · exact .line (.pure trivial)

theorem assignment_of_conditional (hw : Recognized .conditional w)
    (hamp : ampersandBehindTarget (w.map Token.kind) = false) : Recognized .assignment w :=
  fun _ _ hd hi => assignmentOf_of_conditionalOf (hw.1.atEnd hamp hi) (hw.2 hd hi)

theorem assigned_of_primary (hw : Primary w) : Recognized .assigned w := by
  intro d i hd hi
  have hoperand := hw.bare
  refine assignmentOf_of_conditionalOf (hoperand.ahead.atEnd hw.no_ampersand hi) ?_
  exact conditionalOf_of_castOf (hoperand.reads hd (of_endsAssignment hi).1) hi

theorem of_mem_assignOperators {k : Kind} (h : k ∈ assignOperators) :
    k.isAssignment = true ∧ goesOnTarget k = false ∧ k ≠ .dot ∧ k ≠ .arrow := by
  have hall : ∀ k ∈ assignOperators,
      k.isAssignment = true ∧ goesOnTarget k = false ∧ k ≠ .dot ∧ k ≠ .arrow := by decide
  exact hall k h

theorem Target.ahead (hw : Target w) (ho : o.kind ∈ assignOperators) :
    Gives assignmentAhead (w ++ o :: i) (w ++ o :: i) (· = true) := by
  obtain ⟨hassign, htarget, -⟩ := of_mem_assignOperators ho
  have htarget : goesOnTarget (firstKind (o :: i)) = false := htarget
  have hassign : (firstKind (o :: i)).isAssignment = true := hassign
  cases hw with
  | name hk => exact assignmentAhead_of_names (by simp [hk]) (hassign ▸ namesAhead_name hk htarget)
  | pointed hp hk => exact assignmentAhead_of_star hp (hassign ▸ namesAhead_name hk htarget)
  | field hb hp hm =>
    exact assignmentAhead_of_names (by simp [hb]) (hassign ▸ namesAhead_field hb hm hp htarget)

theorem Target.primary (hw : Target w) : Primary w := by
  cases hw with
  | name hk => exact .name hk
  | pointed ho hk => exact .pointed ho hk
  | field hb ho hm => exact .member hb ho hm

/-- An assignment to a target. -/
theorem assigned_recognized (hw : Target w) (ho : o.kind ∈ assignOperators) (hne : v ≠ [])
    (hv : Recognized .assignment v) : Recognized .assigned (w ++ o :: v) := by
  intro d i hd hi
  obtain ⟨hassign, -, hdots⟩ := of_mem_assignOperators ho
  have hpos := List.length_pos_iff.2 hne
  rw [List.length_append, List.length_cons] at hd
  unfold Accepts
  rw [List.append_assoc, List.cons_append]
  refine .bind (hw.ahead ho) fun b hb => .ifTrue hb ?_
  refine .bind (hw.primary.reads (by omega) hdots) fun t _ => .token (.ifTrue hassign (.advance ?_))
  cases d with
  | zero => omega
  | succ d =>
    have hvalue : Gives (nestedAt (d + 1) .assignment) (v ++ i) i fun _ => True := hv (by omega) hi
    exact .bind hvalue fun _ _ => .line (.pure trivial)

theorem noOperand_recognized : Recognized (.operands level) [] := by
  refine ⟨.inl rfl, fun d i fuel left _ hfuel _ hi => ?_⟩
  cases fuel with
  | zero => cases hfuel
  | succ fuel =>
    refine .token (.ifFalse ?_ (.pure trivial))
    rw [List.contains_iff_mem]
    exact fun h => hi (mem_levels_drop h)

/-- What follows an operand does not go on with it. -/
theorem behind_operand (hv : v = [] ∨ firstKind v ∈ operators level)
    (hgo : goesOnOperand (firstKind i) = false) (hi : firstKind i ∉ (levels.drop level).flatten) :
    goesOnOperand (firstKind (v ++ i)) = false ∧
      firstKind (v ++ i) ∉ (levels.drop (level + 1)).flatten := by
  cases v with
  | nil => exact ⟨hgo, fun h => hi (levels_drop_subset level h)⟩
  | cons k ts =>
    obtain ⟨hnot, hgo, -⟩ := of_mem_operators (hv.resolve_left (List.cons_ne_nil _ _))
    exact ⟨hgo, hnot⟩

theorem operands_recognized (ho : o.kind ∈ operators level)
    (hw : Recognized (.binary (level + 1)) w) (hv : Recognized (.operands level) v) :
    Recognized (.operands level) (o :: (w ++ v)) := by
  refine ⟨.inr ho, fun d i fuel left hd hfuel hgo hi => ?_⟩
  simp only [List.length_cons, List.length_append] at hd hfuel
  obtain ⟨hgo', hi'⟩ := behind_operand hv.1 hgo hi
  unfold Accepts
  rw [List.cons_append, List.append_assoc]
  cases fuel with
  | zero => cases hfuel
  | succ fuel =>
    refine .token (.ifTrue (by simpa using ho) (.advance ?_))
    refine .bind (hw.2 (by omega) hgo' hi') fun r _ => .line ?_
    exact hv.2 (by omega) (by omega) hgo hi

theorem binary_recognized (hl : level < 10) (hw : Recognized (.binary (level + 1)) w)
    (hv : Recognized (.operands level) v) : Recognized (.binary level) (w ++ v) := by
  refine ⟨hw.1.append (hv.1.imp_right fun h => (of_mem_operators h).2.2), fun d i hd hgo hi => ?_⟩
  obtain ⟨hgo', hi'⟩ := behind_operand hv.1 hgo hi
  rw [List.length_append] at hd
  unfold Accepts
  rw [drop_levels hl, List.append_assoc]
  refine .bind (hw.2 (by omega) hgo' hi') fun first _ => .left (hv.2 (by omega) ?_ hgo hi)
  rw [List.length_append]
  omega

theorem binary_of_operand (hw : Operand w) : Recognized (.binary 10) w :=
  ⟨hw.ahead, fun _ _ hd hgo _ => hw.reads hd hgo⟩

theorem conditional_of_binary (hw : Recognized (.binary 0) w) : Recognized .conditional w := by
  refine ⟨hw.1, fun d i hd hi => ?_⟩
  obtain ⟨hgo, hlevels, hmark⟩ := of_endsAssignment hi
  refine .bind (hw.2 hd hgo hlevels) fun t _ => .kind (.ifFalse ?_ (.pure trivial))
  simpa using hmark

theorem conditional_recognized {u : List Token} (hw : Recognized (.binary 0) w)
    (hq : q.kind = .questionMark) (hu : Recognized .expression u) (hc : c.kind = .colon)
    (hne : v ≠ []) (hv : Recognized .conditional v) :
    Recognized .conditional (w ++ q :: (u ++ c :: v)) := by
  have hmark : goesOnOperand q.kind = false ∧ endsTarget q.kind = true ∧
      q.kind ∉ levels.flatten := by
    rw [hq]
    decide
  obtain ⟨hgo, hends, hlevels⟩ := hmark
  refine ⟨hw.1.append (.inr hends), fun d i hd hi => ?_⟩
  have hpos := List.length_pos_iff.2 hne
  simp only [List.length_append, List.length_cons] at hd
  unfold Accepts
  simp only [List.append_assoc, List.cons_append]
  refine .bind (hw.2 (by omega) hgo hlevels) fun t _ => .kind (.ifTrue (by simp [hq]) (.advance ?_))
  refine .bind (hu (by omega) (by rw [firstKind_cons, hc]; rfl)) fun t _ => .eat hc ?_
  cases d with
  | zero => omega
  | succ d =>
    have hother : Gives (nestedAt (d + 1) .conditional) (v ++ i) i fun _ => True :=
      hv.2 (by omega) hi
    exact .bind hother fun _ _ => .line (.pure trivial)

end

theorem TypeTokens.ne_nil (h : TypeTokens ts) : ts ≠ [] := by
  cases h with
  | words hne => exact hne
  | pointer => exact List.append_ne_nil_of_right_ne_nil _ (List.cons_ne_nil _ _)
  | tag | tagPointer => exact List.cons_ne_nil _ _

/-- What is derived by the rules that are kept to is read. -/
theorem Derives.recognized {n : Nonterminal} {w : List Token} (h : Derives .kept n w) :
    Recognized n w := by
  induction h with
  | expression dw _ hw hv => exact expression_recognized (dw.starts rfl).ne_nil hw hv
  | arguments dw _ hw hv =>
    exact fun d i hd hi => commaList_accepts (dw.starts rfl).ne_nil hw hv hd hi
  | noComma => exact noComma_recognized
  | comma hc dw _ hw hv => exact commas_recognized hc (dw.starts rfl).ne_nil hw hv
  | assignment _ hw => exact hw
  | unassigned _ hamp hw => exact assignment_of_conditional hw (hamp rfl)
  | unchanged _ hw => exact assigned_of_primary hw
  | assign _ ho dv htarget _ hv =>
    exact assigned_recognized (htarget rfl) ho (dv.starts rfl).ne_nil hv
  | condition _ hw => exact conditional_of_binary hw
  | conditional _ hq _ hc dv hw hu hv =>
    exact conditional_recognized hw hq hu hc (dv.starts rfl).ne_nil hv
  | binary hl _ _ hw hv => exact binary_recognized hl hw hv
  | noOperand => exact noOperand_recognized
  | operand ho _ _ hw hv => exact operands_recognized ho hw hv
  | tightest _ hw => exact binary_of_operand hw
  | cast hl hts hr _ hspells hw => exact .cast hl hts.ne_nil (hspells rfl) hr hw
  | unconverted _ hw | unprefixed _ hw => exact hw
  | step ho _ hw => exact .step ho hw.reads
  | address ho _ hname =>
    -- Only a name is read here, not what the rule for conversions would read.
    obtain ⟨k, rfl, hk⟩ := hname rfl
    exact .address ho hk
  | prefixed ho _ hw => exact .prefixed ho hw
  | bare _ _ hw => exact hw.bare
  | stepped _ ho hw => exact hw.stepped ho
  | field _ ho hm hbase hw => exact hw.fieldBehind ho hm (hbase rfl)
  | call _ hl hr hname => exact (hname rfl).call hl hr
  | callWith _ hl dv hr hname _ hv => exact (hname rfl).callWith hl hr (dv.starts rfl) hv
  | enclosed hl dw hr hw => exact Primary.paren hl hr (dw.starts rfl) hw
  | enclosedField hl dw hr ho hm hw => exact Primary.parenField hl hr ho hm (dw.starts rfl) hw
  | constant hk => exact Primary.constant hk
  | string hk => exact Primary.string hk
  | name hk => exact Primary.name hk
  | pointed ho hk => exact Primary.pointed ho hk
  | member hb ho hm => exact Primary.member hb ho hm

/-! ## Expressions in texts -/

theorem Derives.gives (h : Derives .kept .expression ts) :
    Gives Grammar.expression ts [] fun _ => True := by
  refine .left ?_
  have hread := h.recognized (d := ts.length + 1) (i := []) (by omega) rfl
  rwa [Accepts, List.append_nil] at hread

end Grammar

namespace Stream

@[simp] theorem tokens_ofTokens (ts : List Token) :
    (ofTokens ts).tokens = .ok (ts ++ [Token.eof]) := by
  induction ts with
  | nil => rfl
  | cons t ts ih => rw [ofTokens, tokens_more, ih, List.cons_append]; rfl

@[simp] theorem oneLine_ofTokens (ts : List Token) : (ofTokens ts).oneLine = ofTokens ts := by
  induction ts with
  | nil => rfl
  | cons t ts ih => rw [ofTokens, oneLine, ih]

theorem eq_done_of_oneLine {s : Stream} {n : Nat} (h : s.oneLine = done n) : ∃ m, s = done m := by
  cases s with
  | done m => exact ⟨m, rfl⟩
  | stuck | more => cases h

end Stream

/-- What is read to the end on one line is read to the end on the lines of a text, and it is the
same but for the lines. -/
theorem Parser.Gives.start_oneLine {α : Type} {f : α → α} {p : Parser α} {P : α → Prop}
    (hp : Gives p ts [] P) (hmirror : Mirrors f p p) {s : Stream}
    (hs : s.tokens = .ok (ts ++ [Token.eof])) :
    ∃ a n, Parser.start p s = .ok (a, .done n) ∧ P (f a) := by
  obtain ⟨b, hb, hP⟩ := hp
  -- On one line, the stream is the list of its tokens.
  have hone : Parser.start p s.oneLine = .ok (b, .done 1) := by
    rw [Stream.oneLine_eq_of_tokens hs (Stream.tokens_ofTokens ts), Stream.oneLine_ofTokens]
    cases ts with
    | nil => exact hb
    | cons t ts => exact hb
  rw [hmirror.start] at hone
  cases hread : Parser.start p s with
  | error e =>
    rw [hread] at hone
    cases hone
  | ok r =>
    rw [hread] at hone
    obtain ⟨hr, hdone⟩ := Prod.mk.inj (Except.ok.inj hone)
    obtain ⟨n, hn⟩ := Stream.eq_done_of_oneLine hdone
    exact ⟨r.1, n, by rw [← hn], hr ▸ hP⟩

theorem Parser.Gives.start {α : Type} {f : α → α} {p : Parser α} {P : α → Prop}
    (hp : Gives p ts [] P) (hmirror : Mirrors f p p) {s : Stream}
    (hs : s.tokens = .ok (ts ++ [Token.eof])) : ∃ a n, Parser.start p s = .ok (a, .done n) := by
  obtain ⟨a, n, hread, -⟩ := hp.start_oneLine hmirror hs
  exact ⟨a, n, hread⟩

/-- A text whose tokens are derived from the grammar of expressions, as it is kept to, is read to
its end, and it is an expression. -/
theorem derived_expression_read {code : String} {ts : List Token}
    (hcode : (Stream.ofText code).tokens = .ok (ts ++ [Token.eof]))
    (hts : Grammar.Derives .kept .expression ts) :
    ∃ t n, Parser.start Grammar.expression (Stream.ofText code) = .ok (t, .done n) :=
  hts.gives.start Grammar.expression_mirrors hcode

/-- A conversion, a call and a sum in the condition of a choice between what a name points to and
a negated name, assigned to a field. -/
theorem derived_expression_read_choice : ∃ ts : List Token,
    (Stream.ofText "s.m = (int) f(x) + 2 ? *p : -y").tokens = .ok (ts ++ [Token.eof]) ∧
    Grammar.Derives .kept .expression ts ∧ ∃ t n,
    Parser.start Grammar.expression (Stream.ofText "s.m = (int) f(x) + 2 ? *p : -y") =
      .ok (t, .done n) := by
  have htokens : (Stream.ofText "s.m = (int) f(x) + 2 ? *p : -y").tokens =
      .ok (([.ofName "s", .ofKind .dot, .ofName "m", .ofKind .assign, .ofKind .lparen,
        .ofKind .kwInt, .ofKind .rparen, .ofName "f", .ofKind .lparen, .ofName "x",
        .ofKind .rparen, .ofKind .plus, ⟨.integerConst, .int 2⟩, .ofKind .questionMark,
        .ofKind .asterisk, .ofName "p", .ofKind .colon, .ofKind .minus, .ofName "y"] :
        List Token) ++ [Token.eof]) := rfl
  have hcall : Grammar.Derives .kept .cast [.ofName "f", .ofKind .lparen, .ofName "x",
      .ofKind .rparen] := by
    have hx : Grammar.Derives .kept .arguments [.ofName "x"] :=
      .arguments (.assignment (.unchanged (.name rfl))) .noComma
    exact .unconverted (.unprefixed (.callWith (.name rfl) rfl hx rfl fun _ => .name rfl))
  have hcast : Grammar.Derives .kept .cast [.ofKind .lparen, .ofKind .kwInt, .ofKind .rparen,
      .ofName "f", .ofKind .lparen, .ofName "x", .ofKind .rparen] := by
    have hwords : ∀ t ∈ [Token.ofKind .kwInt], t.kind ∈ Grammar.typeWords := by decide
    exact .cast rfl (.words (List.cons_ne_nil _ _) hwords) rfl hcall fun _ => ⟨hwords, rfl⟩
  have htwo : Grammar.Derives .kept (.operands 8) [.ofKind .plus, ⟨.integerConst, .int 2⟩] := by
    have hconst : Grammar.Derives .kept .cast [⟨.integerConst, .int 2⟩] :=
      .unconverted (.unprefixed (.bare rfl (.constant (.inl rfl))))
    exact .operand (by decide) (.binary_of_le (.tightest hconst) (by decide) (by decide)) .noOperand
  have hsum := Grammar.Derives.binary (by decide)
    (.binary_of_le (.tightest hcast) (by decide) (by decide)) htwo
  have hpointed : Grammar.Derives .kept .expression [.ofKind .asterisk, .ofName "p"] :=
    .expression_of_assignment (.assignment (.unchanged (.pointed rfl rfl)))
  have hminus : Grammar.Derives .kept .cast [.ofKind .minus, .ofName "y"] :=
    .unconverted (.prefixed (by decide) (.unconverted (.unprefixed (.bare rfl (.name rfl)))))
  have hchoice := Grammar.Derives.conditional (q := .ofKind .questionMark) (c := .ofKind .colon)
    (hsum.binary_of_le (by decide) (by decide)) rfl hpointed rfl hminus.conditional_of_cast
  have htarget : Grammar.Derives .kept .assigned [.ofName "s", .ofKind .dot, .ofName "m"] :=
    .unchanged (.member rfl (.inl rfl) rfl)
  have hassign := htarget.assign (o := .ofKind .assign) (by decide)
    (.unassigned hchoice fun _ => rfl) fun _ => .field rfl (.inl rfl) rfl
  have hts := Grammar.Derives.expression_of_assignment (.assignment hassign)
  exact ⟨_, htokens, hts, derived_expression_read htokens hts⟩

/-- The address of what a call gives can be derived as the grammar is written, but what is read ends
before the parentheses. -/
theorem address_of_call_cut : ∃ ts : List Token,
    (Stream.ofText "&f()").tokens = .ok (ts ++ [Token.eof]) ∧
    Grammar.Derives .written .expression ts ∧
    ¬ ∃ t n, Parser.start Grammar.expression (Stream.ofText "&f()") = .ok (t, .done n) := by
  have htokens : (Stream.ofText "&f()").tokens = .ok ([.ofKind .ampersand, .ofName "f",
      .ofKind .lparen, .ofKind .rparen] ++ [Token.eof]) := rfl
  have hcall : Grammar.Derives .written .cast [.ofName "f", .ofKind .lparen, .ofKind .rparen] :=
    .unconverted (.unprefixed (.call (.name rfl) rfl rfl fun h => (by cases h)))
  have hcast : Grammar.Derives .written .cast [.ofKind .ampersand, .ofName "f", .ofKind .lparen,
      .ofKind .rparen] := .unconverted (.address rfl hcall fun h => (by cases h))
  have hread : Parser.start Grammar.expression (Stream.ofText "&f()") =
      .ok (.unary (.ofKind .ampersand) (.var (.ofName "f") 1) true 1,
        .more (.ofKind .lparen) 1 (.more (.ofKind .rparen) 1 (.done 1))) := rfl
  refine ⟨_, htokens, .expression_of_assignment ?_, ?_⟩
  · exact .unassigned hcast.conditional_of_cast fun h => (by cases h)
  · rintro ⟨t, n, h⟩
    rw [hread] at h
    cases h

end MiniC
