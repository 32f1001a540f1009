import MiniC.Program
import MiniC.Proofs.Progress
import MiniC.Proofs.Spelling

/-!
# The trees that rules read

Each rule of the grammar is followed with `Reads`: it ends, and what it gives is a tree of its
category that is `Proper` in all its parts. Its operators, names and literals are tokens of the kinds
that the rule looks for, its types have a spelling, and the initial values at the top of a program
stand behind their variables. A rule that is entered again from inside itself is given the bound `d`
on the tokens below which it is known to end, and ends itself one token further; so the depth that
the tokens allow for always suffices.
-/

namespace MiniC

variable {s : Stream}

/-! ## Names and words -/

/-- The token of a name is known from its text. -/
theorem Token.isName_of_lexed {k : Token} (hk : k.Lexed) (hid : k.kind = .id) :
    IsName k.value.render := by
  have hne : k.kind ≠ .eof := by simp [hid]
  obtain ⟨w, hmatch⟩ := Source.exists_match hk hne
  cases hmatch with
  | @word c cs =>
    have hname : ofWord (String.ofList (c :: cs)) = ofName (String.ofList (c :: cs)) :=
      congrArg (fun k => (⟨k, .text (String.ofList (c :: cs))⟩ : Token)) hid
    rw [hname] at hk
    exact hk
  | operator ho =>
    have hkinds : ∀ o ∈ operators, o.kind ≠ .id := by decide
    exact absurd hid (hkinds _ ho)
  | integer | real | string | char | newline => cases hid

/-- The words of types are known from their kinds. -/
theorem Token.eq_ofKind_of_lexed {k : Token} (hk : k.Lexed) (ht : k.kind.isTypeSpecifier = true) :
    k = ofKind k.kind := by
  have hne : k.kind ≠ .eof := by
    rintro h
    rw [h] at ht
    cases ht
  obtain ⟨w, hmatch⟩ := Source.exists_match hk hne
  cases hmatch with
  | @word c cs =>
    have hkeywords : ∀ p ∈ keywords, ofKind p.2 = ⟨p.2, .text p.1⟩ := by decide
    rw [ofWord] at ht ⊢
    cases hl : keywords.lookup (String.ofList (c :: cs)) with
    | none =>
      rw [hl] at ht
      cases ht
    | some j =>
      obtain ⟨p, q, hpq, -⟩ := List.lookup_eq_some_iff.1 hl
      have hmem : (String.ofList (c :: cs), j) ∈ keywords := by
        rw [hpq]
        exact List.mem_append_right p List.mem_cons_self
      exact (hkeywords _ hmem).symm
  | operator ho =>
    have hkinds : ∀ o ∈ operators, o.kind.isTypeSpecifier = false := by decide
    exact absurd ht (by simp [hkinds _ ho])
  | integer | real | string | char | newline => cases ht

namespace Tree

theorem Writable.of_parts {t : Tree} (ht : t.Proper) (hparts : ∀ u ∈ t.parts, u.Writable) :
    t.Writable := by
  intro u hu
  have hcases : u = t ∨ ∃ v ∈ t.parts, Within u v := by
    induction hu with
    | self => exact .inl rfl
    | part hu _ ih =>
      obtain rfl | ⟨v, hv, hw⟩ := ih ht hparts
      · exact .inr ⟨_, hu, .self _⟩
      · exact .inr ⟨v, hv, .part hu hw⟩
  obtain rfl | ⟨v, hv, hu⟩ := hcases
  · exact ht
  · exact hparts v hv u hu

namespace Built

variable {j k : Category} {t : Tree} {ts : List Tree}

theorem imp (h : t.Built k) (hg : Grammatical k t → Grammatical j t) : t.Built j :=
  ⟨hg h.grammatical, h.writable⟩

theorem leaf (hg : Grammatical k t) (ht : t.Proper) (hparts : t.parts = []) : t.Built k :=
  ⟨hg, .of_parts ht (hparts ▸ List.forall_mem_nil _)⟩

theorem grammatical_all (h : ∀ t ∈ ts, t.Built k) : ∀ t ∈ ts, Grammatical k t :=
  fun t ht => (h t ht).grammatical

theorem writable_all (h : ∀ t ∈ ts, t.Built k) : ∀ t ∈ ts, t.Writable :=
  fun t ht => (h t ht).writable

end Built

end Tree

namespace Grammar

open MiniC.Parser Tree Token

def IsVariable (t : Tree) : Prop :=
  ∃ k n, t = .var k n ∧ k.Lexed ∧ k.kind = .id

theorem IsVariable.built {t : Tree} (h : IsVariable t) : t.Built .expression := by
  obtain ⟨k, n, rfl, hlexed, hid⟩ := h
  exact .leaf (.var k n) ⟨hlexed, hid⟩ rfl

theorem variableName_reads (s : Stream) : Reads 1 variableName s IsVariable :=
  .token fun hlexed => .line fun n => .eat rfl fun hid _ _ => .pure ⟨_, n, rfl, hlexed, hid⟩

theorem stringLiteral_reads (s : Stream) : Reads 1 stringLiteral s (Built .expression) :=
  .token fun hlexed => .line fun n => .eat rfl fun hk _ _ =>
    .pure (.leaf (.string _ n) ⟨hlexed, hk⟩ rfl)

theorem constant_reads (s : Stream) : Reads 1 constant s (Built .expression) := by
  refine .token fun hlexed => ?_
  split
  case h_1 hk | h_2 hk | h_3 hk =>
    refine .take hk rfl fun _ _ => .line fun n => .pure (.leaf (.num _ n) ⟨hlexed, ?_⟩ rfl)
    rw [hk]
    rfl
  case h_4 => exact .unfit rfl

/-! ## Types -/

theorem specifiers_reads (s : Stream) :
    Reads 0 specifiers s fun ws => ∀ w ∈ ws, ∃ k : Kind, k.isTypeSpecifier = true ∧ w = word k := by
  refine manyWhile_reads fun s _ hk => .token fun hlexed => ?_
  have hne : s.head.kind ≠ .eof := fun h => by simp [h, Kind.isTypeSpecifier] at hk
  refine .advance hne fun _ _ => .pure ⟨s.head.kind, hk, ?_⟩
  rw [word, ← eq_ofKind_of_lexed hlexed hk]

theorem typeSpecifier_reads (s : Stream) : Reads 0 typeSpecifier s (Built .typeName) := by
  -- A star may follow.
  have hstar {s : Stream} {p : Parser Tree} (hp : ∀ s, Reads 0 p s (Built .typeName)) :
      Reads 0 (if (s.head.kind == .asterisk) = true then (do advance; p) else p) s
        (Built .typeName) :=
    .ite (fun h => .take (eq_of_beq h) rfl fun s' _ => hp s') fun _ => hp s
  refine .kind (.ite (fun h => .left ?_) fun _ => ?_)
  · refine .take (eq_of_beq h) rfl fun s₁ _ => .token fun hlexed => .eat rfl fun hid s₂ _ => ?_
    refine .kind (hstar fun _ => .line fun n => .pure ?_)
    exact .leaf (.structName _ n) (isName_of_lexed hlexed hid) rfl
  · refine .after (specifiers_reads s) fun words s₁ _ _ => .kind (hstar fun _ => ?_)
    split
    · next ht =>
      refine .line fun n => .pure (.leaf (.typeName _ n) ?_ rfl)
      exact (CType.ofWords_eq_ok_iff.1 ht).1
    · exact .line fun n => .unfit rfl

def CastAt (s : Stream) : Prop :=
  ∃ words s', specifiers s = .ok (words, s') ∧ s.head.kind.isTypeSpecifier = true ∧
    s'.head.kind = .rparen

/-- The type of a cast is arithmetic, and no pointer. -/
theorem typeSpecifier_cast (h : CastAt s) :
    Reads 0 typeSpecifier s fun t =>
      t.Built .typeName ∧ ∃ ty n, t = .typeName (.number ty) n ∧ ty.pointer = false := by
  refine (typeSpecifier_reads s).also fun hs t s' ht => ?_
  obtain ⟨words, s₁, hwords, hk, hparen⟩ := h
  have hstruct : ¬(s.head.kind == .kwStruct) = true := by
    rw [beq_iff_eq]
    rintro h
    rw [h] at hk
    cases hk
  have hstar : (s₁.head.kind == .asterisk) = false := by
    rw [hparen]
    rfl
  have hkind := kind_ok ht
  rw [if_neg hstruct] at hkind
  obtain ⟨words', s₂, hwords', hrest⟩ := bind_ok hkind
  obtain ⟨rfl, rfl⟩ := Prod.mk.inj (Except.ok.inj (hwords.symm.trans hwords'))
  have hrest := kind_ok hrest
  simp only [hstar, Bool.false_eq_true, if_false] at hrest
  have hspelled := specifiers_reads s hs
  rw [hwords] at hspelled
  cases htext : CType.ofText (" ".intercalate words) with
  | error cause =>
    rw [htext] at hrest
    obtain ⟨n, s₂, -, hthrow⟩ := bind_ok hrest
    cases hthrow
  | ok ty =>
    rw [htext] at hrest
    obtain ⟨n, s₂, -, hdone⟩ := bind_ok hrest
    obtain ⟨rfl, -⟩ := Prod.mk.inj (Except.ok.inj hdone)
    exact ⟨ty, n, rfl, pointer_of_words hspelled.2.2 htext⟩

/-! ## Expressions -/

theorem chainFrom_reads {ops : List Kind} (hops : ∀ k ∈ ops, k ∈ levels.flatten)
    {operand : Parser Tree} {fuel : Nat}
    (ho : ∀ s' : Stream, s'.size ≤ s.size → Reads 1 operand s' (Built .expression))
    (hf : s.size < fuel) {left : Tree} (hl : left.Built .expression) :
    Reads 0 (chainFrom (fun k => ops.contains k) operand fuel left) s (Built .expression) := by
  have hlevels : ∀ k ∈ levels.flatten, k ≠ .eof ∧ k ≠ .arrow := by decide
  induction fuel generalizing s left with
  | zero => omega
  | succ fuel ih =>
    refine .token fun hlexed => .ite (fun hop => ?_) fun _ => .pure hl
    have hmem := hops _ (by simpa using hop)
    refine .advance (hlevels _ hmem).1 fun s₁ hs₁ => ?_
    refine .next (ho s₁ (by omega)) fun r s₂ hs₂ hr => .line fun n => ?_
    refine ih (fun s' hs' => ho s' (by omega)) (by omega) ⟨?_, .of_parts ⟨hlexed, hmem⟩ ?_⟩
    · exact .binary _ n (hlevels _ hmem).2 hl.grammatical hr.grammatical
    · simpa [parts] using ⟨hl.writable, hr.writable⟩

theorem binaryOf_reads {ops : List (List Kind)} (hops : ∀ ks ∈ ops, ∀ k ∈ ks, k ∈ levels.flatten)
    {operand : Parser Tree}
    (ho : ∀ s' : Stream, s'.size ≤ s.size → Reads 1 operand s' (Built .expression)) :
    Reads 1 (binaryOf ops operand) s (Built .expression) := by
  induction ops generalizing s with
  | nil => exact ho s (Nat.le_refl _)
  | cons ks ops ih =>
    obtain ⟨hks, hops⟩ := List.forall_mem_cons.1 hops
    refine .next (ih hops ho) fun a s₁ hs₁ ha => .left ?_
    refine chainFrom_reads hks (fun s' hs' => ?_) (Nat.lt_succ_self _) ha
    exact ih hops fun s'' hs'' => ho s'' (by omega)

theorem variableOrField_reads (s : Stream) :
    Reads 1 variableOrField s fun t => t.Built .expression ∧ IsTarget t := by
  refine .next (variableName_reads s) fun v s₁ _ hv => .kind (.ite (fun hk => ?_) fun _ => ?_)
  · have hne : s₁.head.kind ≠ .eof := fun h => by simp [h] at hk
    refine .advance hne fun s₂ _ => .next (variableName_reads s₂) fun m s₃ _ hm => .line fun n => ?_
    have hwritable := And.intro hv.built.writable hm.built.writable
    obtain ⟨k, i, rfl, -, -⟩ := hv
    obtain ⟨l, j, rfl, -, -⟩ := hm
    have hop : s₁.head.kind = .dot ∨ s₁.head.kind = .arrow := by simpa using hk
    refine .pure ⟨⟨.field _ k l i j n, .of_parts hop ?_⟩, .field _ k l i j n⟩
    simpa [parts] using hwritable
  · have hbuilt := hv.built
    obtain ⟨k, i, rfl, -, -⟩ := hv
    exact .pure ⟨hbuilt, .var k i⟩

theorem castAhead_ends (s : Stream) : Reads 0 (do
    if (← kind) == .lparen then
      advance
      if !(← kind).isTypeSpecifier then return false
      let _ ← specifiers
      return (← kind) == .rparen
    else return false : Parser Bool) s fun _ => True := by
  refine .kind (.ite (fun hk => .take (eq_of_beq hk) rfl fun s₁ _ => .kind ?_) fun _ => .pure trivial)
  refine .ite (fun _ => .pure trivial) fun _ => .after (specifiers_reads s₁) fun _ _ _ _ => ?_
  exact .kind (.pure trivial)

theorem castAt_of_ahead {s₁ : Stream} (h : castAhead s = .ok (true, s))
    (hadvance : eat .lparen s = .ok ((), s₁)) : CastAt s₁ := by
  obtain ⟨-, s₂, hinner⟩ := lookahead_ok h
  have hinner := kind_ok hinner
  have hadvance := kind_ok hadvance
  split at hinner
  · next hk =>
    rw [if_pos (eq_of_beq hk)] at hadvance
    obtain ⟨⟨⟩, s₃, hs₃, hinner⟩ := bind_ok hinner
    obtain rfl : s₁ = s₃ := congrArg Prod.snd (Except.ok.inj (hadvance.symm.trans hs₃))
    have hinner := kind_ok hinner
    split at hinner
    · cases hinner
    · next hk =>
      obtain ⟨words, s₄, hwords, hinner⟩ := bind_ok hinner
      obtain ⟨hparen, -⟩ := Prod.mk.inj (Except.ok.inj (kind_ok hinner))
      exact ⟨words, s₄, hwords, by simpa using hk, by simpa using hparen⟩
  · cases hinner

def behindName (p : Parser Bool) : Parser Bool := do
  if (← kind) != .id then return false
  advance
  p

def behindMember (k : Kind) (p : Parser Bool) : Parser Bool := do
  if (← kind) == k then
    advance
    behindName p
  else p

def assignmentBehind : Parser Bool := do
  let k ← kind
  if k == .ampersand then throw .ampersandBehindTarget
  return k.isAssignment

def namesAhead : Parser Bool := do
  if (← kind) != .id then return false
  advance
  if (← kind) == .dot then
    advance
    if (← kind) != .id then return false
    advance
  if (← kind) == .arrow then
    advance
    if (← kind) != .id then return false
    advance
  let k ← kind
  if k == .ampersand then throw .ampersandBehindTarget
  return k.isAssignment

theorem namesAhead_eq : namesAhead =
    behindName (behindMember .dot (behindMember .arrow assignmentBehind)) := rfl

theorem assignmentAhead_eq : assignmentAhead = lookahead (do
    if (← kind) == .asterisk then advance
    namesAhead) := rfl

theorem behindName_reads {p : Parser Bool} (hp : ∀ s, Reads 0 p s fun _ => True) (s : Stream) :
    Reads 0 (behindName p) s fun _ => True := by
  refine .kind (.ite (fun _ => .pure trivial) fun h => ?_)
  exact .take (by simpa using h) rfl fun s' _ => hp s'

theorem behindMember_reads {k : Kind} (hk : (k == .eof) = false) {p : Parser Bool}
    (hp : ∀ s, Reads 0 p s fun _ => True) (s : Stream) :
    Reads 0 (behindMember k p) s fun _ => True := by
  refine .kind (.ite (fun h => ?_) fun _ => hp s)
  exact .take (eq_of_beq h) hk fun s' _ => behindName_reads hp s'

/-- An ampersand is in the way of an assignment operator. -/
theorem assignmentBehind_reads (s : Stream) : Reads 0 assignmentBehind s fun _ => True := by
  refine .kind (.ite (fun hk _ => ?_) fun _ => .pure trivial)
  have hk : s.head.kind = .ampersand := eq_of_beq hk
  obtain ⟨n, hm⟩ := Stream.head_mem (s := s) (by simp [hk])
  exact Stream.Cause.ampersand hm hk

theorem namesAhead_reads (s : Stream) : Reads 0 namesAhead s fun _ => True := by
  rw [namesAhead_eq]
  refine behindName_reads (behindMember_reads rfl ?_) s
  exact behindMember_reads rfl assignmentBehind_reads

theorem starredNames_reads (s : Stream) : Reads 0 (do
    if (← kind) == .asterisk then advance
    namesAhead : Parser Bool) s fun _ => True := by
  refine .kind (.ite (fun h => ?_) fun _ => namesAhead_reads s)
  exact .take (eq_of_beq h) rfl fun s' _ => namesAhead_reads s'

theorem target_of_ahead (h : assignmentAhead s = .ok (true, s)) :
    s.head.kind = .asterisk ∨ s.head.kind = .id := by
  obtain ⟨-, s₁, hinner⟩ := lookahead_ok h
  by_cases hstar : s.head.kind = .asterisk
  · exact .inl hstar
  · right
    have hinner := kind_ok hinner
    rw [if_neg (by simpa using hstar)] at hinner
    have hinner := kind_ok hinner
    split at hinner
    · cases hinner
    · next hk => simpa using hk

theorem built_call {v : Token} {i : Nat} (hv : (Tree.var v i).Built .expression) {args : List Tree}
    (hargs : ∀ a ∈ args, a.Built .expression) (n : Nat) :
    (Tree.call v.value.render args n).Built .expression := by
  obtain ⟨hlexed, hid⟩ := hv.writable _ (.self _)
  refine ⟨.call _ n (Built.grammatical_all hargs), .of_parts ?_ (Built.writable_all hargs)⟩
  exact isName_of_lexed hlexed hid

section

variable {d : Nat} {nested : Nested → Parser Tree}
  (hn : ∀ (r : Nested) (s : Stream), s.size < d → Reads 1 (nested r) s (Built .expression))

include hn

theorem argumentsOf_reads (hs : s.size < d) :
    Reads 1 (argumentsOf nested) s fun es => es ≠ [] ∧ ∀ e ∈ es, e.Built .expression :=
  commaList_reads fun s' hs' => hn .assignment s' (by omega)

theorem expressionOf_reads (hs : s.size < d) :
    Reads 1 (expressionOf nested) s (Built .expression) := by
  refine .next (argumentsOf_reads hn hs) fun es s₁ _ hes => ?_
  obtain ⟨hne, hes⟩ := hes
  split
  · exact .pure (hes _ List.mem_cons_self)
  · next h =>
    refine .line fun n => .pure ⟨.sequence n (Built.grammatical_all hes), .of_parts ?_ ?_⟩
    · match es with
      | [] => exact absurd rfl hne
      | [e] => exact absurd rfl (h e)
      | a :: b :: es => exact Nat.le_add_left 2 es.length
    · exact Built.writable_all hes

theorem parenthesized_reads (hs : s.size ≤ d) :
    Reads 1 (parenthesized nested) s (Built .expression) := by
  refine .eat rfl fun _ s₁ hs₁ => .next (expressionOf_reads hn (by omega)) fun e s₂ _ he => ?_
  refine .eat rfl fun _ s₃ _ => .kind (.ite (fun h => ?_) fun _ => .pure he)
  exact .take (eq_of_beq h) rfl fun s₄ _ => .next (variableName_reads s₄) fun _ _ _ _ => .pure he

/-- Behind a star or a name, what is read can be assigned to. -/
theorem primaryOf_reads (hs : s.size ≤ d) :
    Reads 1 (primaryOf nested) s fun t =>
      t.Built .expression ∧ (s.head.kind = .asterisk ∨ s.head.kind = .id → IsTarget t) := by
  refine .token fun hlexed => ?_
  split
  case h_1 hk => exact (parenthesized_reads hn hs).imp fun t ht => ⟨ht, by simp [hk]⟩
  case h_2 hk | h_3 hk | h_4 hk => exact (constant_reads s).imp fun t ht => ⟨ht, by simp [hk]⟩
  case h_5 hk => exact (stringLiteral_reads s).imp fun t ht => ⟨ht, by simp [hk]⟩
  case h_6 hk =>
    refine .take hk rfl fun s₁ _ => .next (variableName_reads s₁) fun v s₂ _ hv => .line fun n => ?_
    have hbuilt := hv.built
    obtain ⟨k, i, rfl, -, -⟩ := hv
    refine .pure ⟨⟨?_, .of_parts ⟨hlexed, by rw [hk]; rfl⟩ ?_⟩, fun _ => .pointed _ k i n hk⟩
    · exact .unary _ true n (fun _ => ⟨k, i, rfl⟩) hbuilt.grammatical
    · simpa [parts] using hbuilt.writable
  case h_7 => exact (variableOrField_reads s).imp fun t ht => ⟨ht.1, fun _ => ht.2⟩

theorem postfixOf_reads (hs : s.size ≤ d) : Reads 1 (postfixOf nested) s (Built .expression) := by
  refine .next (primaryOf_reads hn hs) fun node s₁ hs₁ hnode => .token fun hlexed => ?_
  have hnode := hnode.1
  split
  case h_1 hk | h_2 hk =>
    refine .take hk rfl fun s₂ _ => .line fun n => .pure ⟨?_, .of_parts ⟨hlexed, by rw [hk]; rfl⟩ ?_⟩
    · exact .unary _ false n (by simp [hk]) hnode.grammatical
    · simpa [parts] using hnode.writable
  case h_3 hk =>
    refine .take hk rfl fun s₂ hs₂ => .kind (.ite (fun _ => ?_) fun _ => ?_)
    · refine .after (.pure (P := (· = [])) rfl) fun args s₃ _ hargs => .eat rfl fun _ s₄ _ => ?_
      split
      · exact .line fun n => .pure (built_call hnode (hargs ▸ List.forall_mem_nil _) n)
      · exact .unfit rfl
    · refine .next (argumentsOf_reads hn (by omega)) fun args s₃ _ hargs => .eat rfl fun _ s₄ _ => ?_
      split
      · exact .line fun n => .pure (built_call hnode hargs.2 n)
      · exact .unfit rfl
  case h_4 hk | h_5 hk =>
    refine .take hk rfl fun s₂ _ => ?_
    split
    · refine .next (variableName_reads s₂) fun m s₃ _ hm => .line fun n => .pure ?_
      have hbuilt := hm.built
      obtain ⟨l, j, rfl, -, -⟩ := hm
      refine ⟨.field _ _ l _ j n, .of_parts (by simp [Proper, hk]) ?_⟩
      simpa [parts] using ⟨hnode.writable, hbuilt.writable⟩
    · exact .unfit rfl
  case h_6 => exact .pure hnode

theorem unaryOf_reads (hs : s.size ≤ d) : Reads 1 (unaryOf nested) s (Built .expression) := by
  refine .token fun hlexed => ?_
  have hdone (hop : isPrefixOperator s.head.kind = true) {e : Tree} (he : e.Built .expression)
      (hvar : s.head.kind = .ampersand → ∃ k i, e = .var k i) (n : Nat) :
      (Tree.unary s.head e true n).Built .expression := by
    refine ⟨.unary _ true n hvar he.grammatical, .of_parts ⟨hlexed, hop⟩ ?_⟩
    simpa [parts] using he.writable
  split
  case h_1 hk | h_2 hk =>
    refine .take hk rfl fun s₁ hs₁ => .next (primaryOf_reads hn (by omega)) fun e s₂ _ he => ?_
    exact .line fun n => .pure (hdone (by rw [hk]; rfl) he.1 (by simp [hk]) n)
  case h_3 hk =>
    refine .take hk rfl fun s₁ _ => .next (variableName_reads s₁) fun e s₂ _ he => .line fun n => ?_
    refine .pure (hdone (by rw [hk]; rfl) he.built (fun _ => ?_) n)
    obtain ⟨k, i, rfl, -, -⟩ := he
    exact ⟨k, i, rfl⟩
  case h_4 hk | h_5 hk | h_6 hk | h_7 hk =>
    refine .take hk rfl fun s₁ hs₁ => .next (hn .cast s₁ (by omega)) fun e s₂ _ he => ?_
    exact .line fun n => .pure (hdone (by rw [hk]; rfl) he (by simp [hk]) n)
  case h_8 => exact postfixOf_reads hn hs

theorem castOf_reads (hs : s.size ≤ d) : Reads 1 (castOf nested) s (Built .expression) := by
  refine .lookahead (castAhead_ends s) fun b hb => .ite (fun hcast => ?_) fun _ => unaryOf_reads hn hs
  subst hcast
  refine .bindAt (j := 0) (.ofEat (w := .lparen) rfl s) fun _ s₁ heat hs₁ _ => ?_
  refine .after (typeSpecifier_cast (castAt_of_ahead hb heat)) ?_
  rintro t s₂ hs₂ ⟨ht, hnumber⟩
  refine .eat rfl fun _ s₃ hs₃ => .next (hn .cast s₃ (by omega)) fun e s₄ _ he => .line fun n => ?_
  refine .pure ⟨.cast true n ht.grammatical he.grammatical, .of_parts ⟨rfl, hnumber⟩ ?_⟩
  simpa [parts] using ⟨ht.writable, he.writable⟩

theorem conditionalOf_reads (hs : s.size ≤ d) :
    Reads 1 (conditionalOf nested) s (Built .expression) := by
  have hlevels : ∀ ks ∈ levels, ∀ k ∈ ks, k ∈ levels.flatten :=
    fun ks hks k hk => List.mem_flatten.2 ⟨ks, hks, hk⟩
  have hbinary : Reads 1 (binaryOf levels (castOf nested)) s (Built .expression) :=
    binaryOf_reads hlevels fun s' hs' => castOf_reads hn (by omega)
  refine .next hbinary fun c s₁ hs₁ hc => .kind (.ite (fun hk => ?_) fun _ => .pure hc)
  refine .take (eq_of_beq hk) rfl fun s₂ hs₂ => ?_
  refine .next (expressionOf_reads hn (by omega)) fun a s₃ hs₃ ha => .eat rfl fun _ s₄ hs₄ => ?_
  refine .next (hn .conditional s₄ (by omega)) fun b s₅ _ hb => .line fun n => .pure ⟨?_, ?_⟩
  · exact .ternary n hc.grammatical ha.grammatical hb.grammatical
  · refine .of_parts trivial ?_
    simpa [parts] using ⟨hc.writable, ha.writable, hb.writable⟩

theorem assignmentOf_reads (hs : s.size ≤ d) :
    Reads 1 (assignmentOf nested) s (Built .expression) := by
  refine .lookahead (starredNames_reads s) fun b hb => .ite (fun hassign => ?_) fun _ =>
    conditionalOf_reads hn hs
  subst hassign
  refine .next (primaryOf_reads hn hs) ?_
  rintro t s₁ hs₁ ⟨ht, htarget⟩
  refine .token fun hlexed => .ite (fun hop => ?_) fun _ => (conditionalOf_reads hn (by omega)).any
  have hne : s₁.head.kind ≠ .eof := fun h => by simp [h, Kind.isAssignment] at hop
  refine .advance hne fun s₂ hs₂ => .next (hn .assignment s₂ (by omega)) fun v s₃ _ hv => ?_
  refine .line fun n => .pure ⟨.assign _ n ht.grammatical hv.grammatical, .of_parts ?_ ?_⟩
  · exact ⟨hlexed, hop, htarget (target_of_ahead hb)⟩
  · simpa [parts] using ⟨ht.writable, hv.writable⟩

end

/-- The rules that can be entered again end at any depth above the number of tokens. -/
theorem nestedAt_reads {depth : Nat} (r : Nested) (hs : s.size < depth) :
    Reads 1 (nestedAt depth r) s (Built .expression) := by
  induction depth generalizing r s with
  | zero => omega
  | succ depth ih =>
    have hn (r : Nested) (s : Stream) (hs : s.size < depth) :
        Reads 1 (nestedAt depth r) s (Built .expression) := ih r hs
    cases r with
    | assignment => exact assignmentOf_reads hn (by omega)
    | conditional => exact conditionalOf_reads hn (by omega)
    | cast => exact castOf_reads hn (by omega)

theorem assignmentExpression_reads (s : Stream) :
    Reads 1 assignmentExpression s (Built .expression) :=
  .left (assignmentOf_reads (fun r _ => nestedAt_reads r) (Nat.le_succ _))

theorem expression_reads (s : Stream) : Reads 1 expression s (Built .expression) :=
  .left (expressionOf_reads (fun r _ => nestedAt_reads r) (Nat.lt_succ_self _))

/-! ## Declarations -/

/-- Trees of a category, each initial value among them behind its variable. -/
def Listed (k : Category) (ts : List Tree) : Prop :=
  (∀ t ∈ ts, t.Built k) ∧ Attached ts

theorem attached_append {ts us : List Tree} (h : Attached ts) (h' : Attached us) :
    Attached (ts ++ us) := by
  induction h with
  | nil => exact h'
  | initialized ho _ ih => exact .initialized ho ih
  | cons ht _ ih => exact .cons ht ih

theorem Listed.flatten {k : Category} {tss : List (List Tree)} (h : ∀ ts ∈ tss, Listed k ts) :
    Listed k tss.flatten := by
  induction tss with
  | nil => exact ⟨nofun, .nil⟩
  | cons ts tss ih =>
    obtain ⟨⟨hts, hatt⟩, htss⟩ := List.forall_mem_cons.1 h
    obtain ⟨hrest, hatts⟩ := ih htss
    exact ⟨List.forall_mem_append.2 ⟨hts, hrest⟩, attached_append hatt hatts⟩

theorem Listed.single {k : Category} {t : Tree} (ht : t.Built k ∧ t.isTopLevel = true) :
    Listed k [t] :=
  ⟨List.forall_mem_singleton.2 ht.1, .cons ht.2 .nil⟩

theorem built_varDecl {v ty : Tree} (hv : IsVariable v) (hty : ty.Built .typeName) (n : Nat) :
    (Tree.varDecl v ty n).Built .declaration := by
  have hwritable := hv.built.writable
  obtain ⟨k, i, rfl, -, -⟩ := hv
  refine ⟨.varDecl k i n hty.grammatical, .of_parts trivial ?_⟩
  simpa [parts] using ⟨hwritable, hty.writable⟩

/-- Whatever the type of the variables is, they are declared with it. -/
theorem initDeclarator_reads (s : Stream) : Reads 1 initDeclarator s fun ts =>
    ∀ ty n, ty.Built .typeName → Listed .declaration (declareVariables ty n ts) := by
  refine .next (variableName_reads s) fun v s₁ _ hv => .token fun hlexed => ?_
  have hdecl (ty : Tree) (n : Nat) (hty : ty.Built .typeName) := built_varDecl hv hty n
  have hwritable := hv.built.writable
  obtain ⟨k, i, rfl, -, -⟩ := hv
  refine .ite (fun hop => ?_) fun _ => .pure fun ty n hty => ⟨?_, .cons rfl .nil⟩
  · have hassign : s₁.head.kind = .assign := eq_of_beq hop
    refine .take hassign rfl fun s₂ _ => .next (assignmentExpression_reads s₂) fun e s₃ _ he => ?_
    refine .line fun m => .pure fun ty n hty => ⟨?_, .initialized hassign .nil⟩
    have hvalue : (Tree.assign (.var k i) s₁.head e m).Built .declaration := by
      refine ⟨.initializer k _ i m he.grammatical, .of_parts ⟨hlexed, ?_, .var k i⟩ ?_⟩
      · rw [hassign]
        rfl
      · simpa [parts] using ⟨hwritable, he.writable⟩
    simpa [declareVariables] using ⟨hdecl ty n hty, hvalue⟩
  · simpa [declareVariables] using hdecl ty n hty

theorem varDeclaration_reads (s : Stream) : Reads 1 varDeclaration s (Listed .declaration) := by
  refine .after (typeSpecifier_reads s) fun ty s₁ _ hty => ?_
  have hnodes : Reads 1 initDeclarators s₁ fun ts =>
      ∀ n, Listed .declaration (declareVariables ty n ts) := by
    refine .map (commaList_reads fun s' _ => initDeclarator_reads s') fun tss htss n => ?_
    have hmap : declareVariables ty n tss.flatten = (tss.map (declareVariables ty n)).flatten := by
      simp only [declareVariables, List.map_flatten]
      rfl
    rw [hmap]
    refine .flatten fun ts hts => ?_
    obtain ⟨us, hus, rfl⟩ := List.mem_map.1 hts
    exact htss.2 us hus ty n hty
  exact .next hnodes fun ts s₂ _ hts => .line fun n => .eat rfl fun _ _ _ => .pure (hts n)

/-- The table of a list of pairs has each name once, and no other pairs. -/
theorem ofList_nodup {α : Type} (ps : List (String × α)) :
    ((Table.ofList ps).map Prod.fst).Nodup ∧ ∀ f ∈ Table.ofList ps, f ∈ ps := by
  have hfold (t : Table α) (ht : (t.map Prod.fst).Nodup) :
      ((ps.foldl (fun t p => t.put p.1 p.2) t).map Prod.fst).Nodup ∧
        ∀ f ∈ ps.foldl (fun t p => t.put p.1 p.2) t, f ∈ t ∨ f ∈ ps := by
    induction ps generalizing t with
    | nil => exact ⟨ht, fun f hf => .inl hf⟩
    | cons p ps ih =>
      obtain ⟨hnodup, hmem⟩ := ih (t.put p.1 p.2) (Table.nodup_put ht p.1 p.2)
      refine ⟨hnodup, fun f hf => ?_⟩
      obtain hf | hf := hmem f hf
      · exact (Table.mem_put hf).imp id fun h => by simp [h]
      · exact .inr (.tail _ hf)
  obtain ⟨hnodup, hmem⟩ := hfold [] List.nodup_nil
  exact ⟨hnodup, fun f hf => (hmem f hf).resolve_left List.not_mem_nil⟩

def fieldPairs (decls : List Tree) : List (String × VarType) :=
  decls.filterMap fun d =>
    match d with
    | .varDecl v ty _ => do return (← v.name?, ← ty.type?)
    | _ => none

def IsField (t : Tree) : Prop :=
  ∃ v ty n, t = .varDecl v ty n ∧ IsVariable v ∧ ty.Writable

theorem fieldDeclaration_reads (s : Stream) :
    Reads 1 fieldDeclaration s fun ts => ∀ t ∈ ts, IsField t := by
  refine .after (typeSpecifier_reads s) fun ty s₁ _ hty => ?_
  have hvars : Reads 1 structDeclarators s₁ fun vs => vs ≠ [] ∧ ∀ v ∈ vs, IsVariable v :=
    commaList_reads fun s' _ => variableName_reads s'
  refine .next hvars fun vs s₂ _ hvs => .line fun n => .eat rfl fun _ s₃ _ => .pure fun t ht => ?_
  obtain ⟨v, hv, rfl⟩ := List.mem_map.1 ht
  have hvar := hvs.2 v hv
  obtain ⟨k, i, rfl, -, -⟩ := hvs.2 v hv
  exact ⟨_, ty, n, rfl, hvar, hty.writable⟩

theorem fieldPairs_proper {ts : List Tree} (h : ∀ t ∈ ts, IsField t) :
    ∀ f ∈ fieldPairs ts, IsName f.1 ∧ f.2.Proper := by
  intro f hf
  obtain ⟨t, ht, hpair⟩ := List.mem_filterMap.1 hf
  obtain ⟨v, ty, n, rfl, ⟨k, i, rfl, hlexed, hid⟩, hty⟩ := h t ht
  have hself := hty _ (.self _)
  cases ty with
  | typeName ty m | structName ty m =>
    obtain rfl : (k.value.render, ty) = f := Option.some.inj hpair
    exact ⟨isName_of_lexed hlexed hid, hself⟩
  | _ => cases hpair

theorem structDeclaration_reads (s : Stream) :
    Reads 1 structDeclaration s fun t => t.Built .declaration ∧ t.isTopLevel = true := by
  refine .left (.eat rfl fun _ s₁ _ => .token fun hlexed => .eat rfl fun hid s₂ _ => ?_)
  refine .eat rfl fun _ s₃ _ => ?_
  refine .after (manyWhile_reads fun s' _ _ => fieldDeclaration_reads s') fun tss s₄ _ htss => ?_
  refine .eat rfl fun _ s₅ _ => .eat rfl fun _ s₆ _ => .line fun n => .pure ⟨?_, rfl⟩
  have hfields : ∀ t ∈ tss.flatten, IsField t := List.forall_mem_flatten.2 htss
  obtain ⟨hnodup, hmem⟩ := ofList_nodup (fieldPairs tss.flatten)
  refine .leaf (.structDecl _ _ _ n) ⟨isName_of_lexed hlexed hid, hnodup, ?_⟩ rfl
  exact fun f hf => fieldPairs_proper hfields f (hmem f hf)

theorem structAhead_ends (s : Stream) : Reads 0 (do
    if (← kind) != .kwStruct then return false
    advance
    if (← kind) != .id then return false
    advance
    return (← kind) == .lbracket : Parser Bool) s fun _ => True := by
  refine .kind (.ite (fun _ => .pure trivial) fun h => .take (by simpa using h) rfl fun s₁ _ => ?_)
  refine .kind (.ite (fun _ => .pure trivial) fun h => .take (by simpa using h) rfl fun s₂ _ => ?_)
  exact .kind (.pure trivial)

theorem declaration_reads (s : Stream) : Reads 1 declaration s (Listed .declaration) := by
  refine .lookahead (structAhead_ends s) fun b _ => .ite (fun _ => ?_) fun _ => varDeclaration_reads s
  exact .next (structDeclaration_reads s) fun t s₁ _ ht => .pure (.single ht)

/-! ## Statements -/

theorem expressionStatement_reads (s : Stream) :
    Reads 1 expressionStatement s (Built .optional) := by
  refine .kind (.ite (fun h => .take (eq_of_beq h) rfl fun s₁ _ => ?_) fun _ => ?_)
  · exact .line fun n => .pure (.leaf (.absentExpression n) trivial rfl)
  · refine .next (expression_reads s) fun e s₁ _ he => .eat rfl fun _ s₂ _ => ?_
    exact .pure (he.imp .ofExpression)

theorem empty_reads (s : Stream) : Reads 0 empty s (Built .optional) :=
  .line fun n => .pure (.leaf (.absentExpression n) trivial rfl)

/-- A jump takes its word, where one stands. -/
theorem jumpStatement_reads (hj : isJump s.head.kind = true) :
    Reads 1 jumpStatement s (Built .statement) := by
  refine .kind ?_
  split
  case h_1 hk =>
    refine .take hk rfl fun s₁ _ => .after (empty_reads s₁) fun nothing s₂ _ hnothing => .kind ?_
    have hdone (v : Tree) (hv : v.Built .optional) (s' : Stream) : Reads 0 (do
        eat .semicolon
        return .returning v (← line) : Parser Tree) s' (Built .statement) := by
      refine .eat rfl fun _ s₃ _ => .line fun n => .pure ⟨.returning n hv.grammatical, ?_⟩
      refine .of_parts trivial ?_
      simpa [parts] using hv.writable
    refine .ite (fun _ => .after (.pure hnothing) fun v s₃ _ hv => hdone v hv s₃) fun _ => ?_
    exact .next (expression_reads s₂) fun v s₃ _ hv => hdone v (hv.imp .ofExpression) s₃
  case h_2 hk =>
    refine .take hk rfl fun s₁ _ => .eat rfl fun _ s₂ _ => .line fun n => .pure ?_
    exact .leaf (.breaking n) trivial rfl
  case h_3 hk =>
    refine .take hk rfl fun s₁ _ => .eat rfl fun _ s₂ _ => .line fun n => .pure ?_
    exact .leaf (.continuing n) trivial rfl
  case h_4 hr hb hc => simp_all [isJump]

theorem switchLabel_reads (s : Stream) : Reads 1 switchLabel s (Built .switchItem) := by
  refine .kind (.ite (fun h => .take (eq_of_beq h) rfl fun s₁ _ => ?_) fun _ => ?_)
  · refine .next (expression_reads s₁) fun v s₂ _ hv => .eat rfl fun _ s₃ _ => .line fun n => ?_
    refine .pure ⟨.caseLabel n hv.grammatical, .of_parts trivial ?_⟩
    simpa [parts] using hv.writable
  · refine .eat rfl fun _ s₁ _ => .eat rfl fun _ s₂ _ => .line fun n => .pure ?_
    exact .leaf (.defaultLabel n) trivial rfl

section

variable {d : Nat} {statement : Parser Tree}
  (hst : ∀ s : Stream, s.size < d → Reads 1 statement s (Built .statement))

include hst

theorem itemOf_reads (hs : s.size < d) :
    Reads 1 (itemOf statement) s fun ts => ∀ t ∈ ts, t.Built .item := by
  refine .kind (.ite (fun _ => ?_) fun _ => ?_)
  · exact (declaration_reads s).imp fun ts hts t ht => (hts.1 t ht).imp .ofDeclaration
  · refine .next (hst s hs) fun t s₁ _ ht => .pure ?_
    exact List.forall_mem_singleton.2 (ht.imp .ofStatement)

theorem itemsOf_reads (hs : s.size ≤ d) :
    Reads 1 (itemsOf statement) s fun ts => ∀ t ∈ ts, t.Built .item := by
  refine .eat rfl fun _ s₁ hs₁ => ?_
  refine .after (manyWhile_reads fun s' hs' _ => itemOf_reads hst (by omega)) fun tss s₂ _ htss => ?_
  exact .eat rfl fun _ s₃ _ => .pure (List.forall_mem_flatten.2 htss)

theorem compoundOf_reads (hs : s.size ≤ d) :
    Reads 1 (compoundOf statement) s (Built .statement) := by
  refine .next (itemsOf_reads hst hs) fun ts _ _ hts => .line fun n => .pure ?_
  exact ⟨.block n (Built.grammatical_all hts), .of_parts trivial (Built.writable_all hts)⟩

theorem ifOf_reads (hs : s.size ≤ d) : Reads 1 (ifOf statement) s (Built .statement) := by
  refine .eat rfl fun _ s₁ hs₁ => .eat rfl fun _ s₂ hs₂ => ?_
  refine .next (expression_reads s₂) fun c s₃ hs₃ hc => .eat rfl fun _ s₄ hs₄ => ?_
  refine .next (hst s₄ (by omega)) fun a s₅ hs₅ ha => ?_
  have hdone (b : Tree) (hb : b.Built .statement) (n : Nat) :
      (Tree.ifElse c a b n).Built .statement := by
    refine ⟨.ifElse n hc.grammatical ha.grammatical hb.grammatical, .of_parts trivial ?_⟩
    simpa [parts] using ⟨hc.writable, ha.writable, hb.writable⟩
  refine .after (empty_reads s₅) fun nothing s₆ hs₆ hnothing => .kind (.ite (fun hk => ?_) fun _ => ?_)
  · refine .take (eq_of_beq hk) rfl fun s₇ hs₇ => .next (hst s₇ (by omega)) fun b s₈ _ hb => ?_
    exact .line fun n => .pure (hdone b hb n)
  · exact .line fun n => .pure (hdone nothing (hnothing.imp .simple) n)

theorem switchOf_reads (hs : s.size ≤ d) : Reads 1 (switchOf statement) s (Built .statement) := by
  refine .eat rfl fun _ s₁ hs₁ => .eat rfl fun _ s₂ hs₂ => ?_
  refine .next (expression_reads s₂) fun c s₃ hs₃ hc => .eat rfl fun _ s₄ hs₄ => ?_
  refine .eat rfl fun _ s₅ hs₅ => ?_
  refine .after (manyWhile_reads (P := fun ts => ∀ t ∈ ts, t.Built .switchItem) ?_) ?_
  · refine fun s' hs' _ => .kind (.ite (fun _ => ?_) fun _ => ?_)
    · refine .next (switchLabel_reads s') fun t _ _ ht => .pure ?_
      exact List.forall_mem_singleton.2 ht
    · exact (itemOf_reads hst (by omega)).imp fun ts hts t ht => (hts t ht).imp .ofItem
  · intro tss s₆ _ htss
    have hall := List.forall_mem_flatten.2 htss
    refine .eat rfl fun _ s₇ _ => .line fun n => .pure ⟨?_, .of_parts trivial ?_⟩
    · exact .switch n hc.grammatical (Built.grammatical_all hall)
    · exact List.forall_mem_cons.2 ⟨hc.writable, Built.writable_all hall⟩

/-- A selection takes its word, where one stands. -/
theorem selectionOf_reads (hs : s.size ≤ d) (hk : isSelection s.head.kind = true) :
    Reads 1 (selectionOf statement) s (Built .statement) := by
  refine .kind ?_
  split
  · exact ifOf_reads hst hs
  · exact switchOf_reads hst hs
  · simp_all [isSelection]

theorem whileOf_reads (hs : s.size ≤ d) : Reads 1 (whileOf statement) s (Built .statement) := by
  refine .eat rfl fun _ s₁ hs₁ => .eat rfl fun _ s₂ hs₂ => ?_
  refine .next (expression_reads s₂) fun c s₃ hs₃ hc => .eat rfl fun _ s₄ hs₄ => ?_
  refine .next (hst s₄ (by omega)) fun b s₅ _ hb => .line fun n => .pure ⟨?_, ?_⟩
  · exact .whileLoop n hc.grammatical hb.grammatical
  · refine .of_parts trivial ?_
    simpa [parts] using ⟨hc.writable, hb.writable⟩

theorem doWhileOf_reads (hs : s.size ≤ d) : Reads 1 (doWhileOf statement) s (Built .statement) := by
  refine .eat rfl fun _ s₁ hs₁ => .next (hst s₁ (by omega)) fun b s₂ _ hb => ?_
  refine .eat rfl fun _ s₃ _ => .eat rfl fun _ s₄ _ => .next (expression_reads s₄) fun c s₅ _ hc => ?_
  refine .eat rfl fun _ s₆ _ => .eat rfl fun _ s₇ _ => .line fun n => .pure ⟨?_, ?_⟩
  · exact .doWhile n hc.grammatical hb.grammatical
  · refine .of_parts trivial ?_
    simpa [parts] using ⟨hc.writable, hb.writable⟩

theorem forOf_reads (hs : s.size ≤ d) : Reads 1 (forOf statement) s (Built .statement) := by
  refine .eat rfl fun _ s₁ hs₁ => .eat rfl fun _ s₂ hs₂ => ?_
  refine .next (expressionStatement_reads s₂) fun a s₃ hs₃ ha => ?_
  refine .next (expressionStatement_reads s₃) fun c s₄ hs₄ hc => ?_
  have hdone (e : Tree) (he : e.Built .optional) (s' : Stream) (hs' : s'.size ≤ d) : Reads 0 (do
      eat .rparen
      let body ← statement
      return .forLoop a c e body (← line) : Parser Tree) s' (Built .statement) := by
    refine .eat rfl fun _ s₆ hs₆ => .next (hst s₆ (by omega)) fun b s₇ _ hb => .line fun n => ?_
    refine .pure ⟨?_, .of_parts trivial ?_⟩
    · exact .forLoop n ha.grammatical hc.grammatical he.grammatical hb.grammatical
    · simpa [parts] using ⟨ha.writable, hc.writable, he.writable, hb.writable⟩
  refine .after (empty_reads s₄) fun nothing s₅ hs₅ hnothing => .kind (.ite (fun _ => ?_) fun _ => ?_)
  · exact .after (.pure hnothing) fun e s₆ hs₆ he => hdone e he s₆ (by omega)
  · refine .next (expression_reads s₅) fun e s₆ hs₆ he => ?_
    exact hdone e (he.imp .ofExpression) s₆ (by omega)

theorem iterationOf_reads (hs : s.size ≤ d) :
    Reads 1 (iterationOf statement) s (Built .statement) := by
  refine .kind ?_
  split
  · exact whileOf_reads hst hs
  · exact doWhileOf_reads hst hs
  · exact forOf_reads hst hs

theorem statementOf_reads (hs : s.size ≤ d) :
    Reads 1 (statementOf statement) s (Built .statement) := by
  refine .kind (.ite (fun _ => iterationOf_reads hst hs) fun _ => ?_)
  refine .ite (fun hk => selectionOf_reads hst hs hk) fun _ => ?_
  refine .ite (fun hk => jumpStatement_reads hk) fun _ => ?_
  refine .ite (fun _ => compoundOf_reads hst hs) fun _ => ?_
  exact (expressionStatement_reads s).imp fun t ht => ht.imp .simple

end

/-- Statements end at any depth above the number of tokens. -/
theorem statementAt_reads {depth : Nat} (hs : s.size < depth) :
    Reads 1 (statementAt depth) s (Built .statement) := by
  induction depth generalizing s with
  | zero => omega
  | succ depth ih => exact statementOf_reads (fun s => ih) (by omega)

/-! ## Programs -/

theorem functionBody_reads (s : Stream) : Reads 1 functionBody s (Built .functionBody) := by
  have hitems : Reads 1 (withStatements itemsOf) s fun ts => ∀ t ∈ ts, t.Built .item :=
    .left (itemsOf_reads (fun s => statementAt_reads) (Nat.le_refl _))
  refine .next hitems fun ts _ _ hts => .line fun n => .pure ?_
  exact ⟨.body n (Built.grammatical_all hts), .of_parts trivial (Built.writable_all hts)⟩

theorem parameter_reads (s : Stream) : Reads 1 parameter s (Built .parameter) := by
  refine .after (typeSpecifier_reads s) fun ty s₁ _ hty => ?_
  refine .next (variableName_reads s₁) fun v s₂ _ hv => .line fun n => .pure ?_
  have hwritable := hv.built.writable
  obtain ⟨k, i, rfl, -, -⟩ := hv
  refine ⟨.param k i n hty.grammatical, .of_parts trivial ?_⟩
  simpa [parts] using ⟨hwritable, hty.writable⟩

theorem parameters_reads (s : Stream) :
    Reads 0 parameters s fun ts => ∀ t ∈ ts, t.Built .parameter := by
  refine .kind (.ite (fun _ => .pure (List.forall_mem_nil _)) fun _ => ?_)
  exact (commaList_reads fun s' _ => parameter_reads s').any.imp fun ts hts => hts.2

theorem functionDeclaration_reads (s : Stream) :
    Reads 1 functionDeclaration s fun t => t.Built .topLevel ∧ t.isTopLevel = true := by
  refine .after (typeSpecifier_reads s) fun ty s₁ _ hty => .token fun hlexed => ?_
  refine .eat rfl fun hid s₂ _ => .eat rfl fun _ s₃ _ => ?_
  refine .after (parameters_reads s₃) fun ps s₄ _ hps => .eat rfl fun _ s₅ _ => ?_
  refine .next (functionBody_reads s₅) fun b s₆ _ hb => .line fun n => .pure ⟨⟨?_, ?_⟩, rfl⟩
  · exact .function _ n hty.grammatical (Built.grammatical_all hps) hb.grammatical
  · refine .of_parts (isName_of_lexed hlexed hid) ?_
    exact List.forall_mem_cons.2
      ⟨hty.writable, List.forall_mem_cons.2 ⟨hb.writable, Built.writable_all hps⟩⟩

theorem functionAhead_ends (s : Stream) : Reads 0 (do
    let _ ← typeSpecifier
    if (← kind) != .id then return false
    advance
    return (← kind) == .lparen : Parser Bool) s fun _ => True := by
  refine .after (typeSpecifier_reads s) fun _ s₁ _ _ => .kind (.ite (fun _ => .pure trivial) fun h => ?_)
  exact .take (by simpa using h) rfl fun _ _ => .kind (.pure trivial)

theorem libraryInclude_reads (s : Stream) :
    Reads 1 libraryInclude s fun t => t.Built .topLevel ∧ t.isTopLevel = true := by
  refine .eat rfl fun _ s₁ _ => .token fun _ => .ite (fun _ => .line fun _ => .unfit rfl) fun _ => ?_
  refine .eat rfl fun _ s₂ _ => .eat rfl fun _ s₃ _ => .token fun hlexed => .eat rfl fun hid s₄ _ => ?_
  refine .eat rfl fun _ s₅ _ => .token fun _ => .ite (fun _ => .line fun _ => .unfit rfl) fun _ => ?_
  refine .eat rfl fun _ s₆ _ => .eat rfl fun _ s₇ _ => .line fun n => .pure ⟨?_, rfl⟩
  exact .leaf (.library _ n) (isName_of_lexed hlexed hid) rfl

theorem topLevelItem_reads (s : Stream) : Reads 1 topLevelItem s (Listed .topLevel) := by
  refine .kind (.ite (fun _ => ?_) fun _ => .lookahead (functionAhead_ends s) fun b _ => ?_)
  · exact .next (libraryInclude_reads s) fun t _ _ ht => .pure (.single ht)
  refine .ite (fun _ => ?_) fun _ => ?_
  · exact .next (functionDeclaration_reads s) fun t _ _ ht => .pure (.single ht)
  · refine (declaration_reads s).imp fun ts hts => ⟨fun t ht => ?_, hts.2⟩
    exact (hts.1 t ht).imp .declared

theorem program_reads (s : Stream) : Reads 0 program s (Built .program) := by
  have hdecls : Reads 0 declarations s (Listed .topLevel) :=
    .map (manyWhile_reads fun s' _ _ => topLevelItem_reads s') fun tss htss => .flatten htss
  refine .after hdecls fun ts s₁ _ hts => .line fun n => .pure ?_
  exact ⟨.program n (Built.grammatical_all hts.1), .of_parts hts.2 (Built.writable_all hts.1)⟩

theorem wholeProgram_reads (s : Stream) : Reads 0 wholeProgram s (Built .program) := by
  refine .after (program_reads s) fun t s₁ _ ht => .kind (.ite (fun _ => .pure ht) fun _ => ?_)
  exact .unfit rfl

end Grammar

namespace Program

/-- Every program that is read is a program of the grammar, and can be written. -/
theorem built_of_parse {code : String} {t : Tree} (h : parse code = .ok t) : t.Built .program := by
  unfold parse at h
  split at h
  · cases h
  split at h
  · next ht =>
    obtain rfl := Except.ok.inj h
    unfold Grammar.parseStream at ht
    have hreads := (Grammar.wholeProgram_reads (Stream.ofText code)).start
      (Stream.ofText_of code).legible
    cases hs : Parser.start Grammar.wholeProgram (Stream.ofText code) with
    | error e =>
      rw [hs] at ht
      cases ht
    | ok r =>
      rw [hs] at ht hreads
      obtain rfl := Except.ok.inj ht
      exact hreads.2.2
  · cases h

theorem parse_grammatical {code : String} {t : Tree} (h : parse code = .ok t) :
    Tree.Grammatical .program t :=
  (built_of_parse h).grammatical

/-- A program with a property that is found by reading it. -/
theorem exists_parsed {code : String} {P : Tree → Bool}
    (h : (parse code).toOption.any P = true) : ∃ t, parse code = .ok t ∧ P t = true := by
  cases hp : parse code with
  | error e =>
    rw [hp] at h
    cases h
  | ok t =>
    rw [hp] at h
    exact ⟨t, rfl, h⟩

/-- A program with a property that is found by reading and checking it. -/
theorem exists_accepted {code : String} {P : Tree → Bool}
    (h : ((parse code).toOption.any fun t => (Analysis.analyze t).1.isOk && P t) = true) :
    ∃ t, parse code = .ok t ∧ (Analysis.analyze t).1.isOk = true ∧ P t = true := by
  obtain ⟨t, hp, hboth⟩ := exists_parsed h
  exact ⟨t, hp, Bool.and_eq_true_iff.1 hboth⟩

end Program

end MiniC
