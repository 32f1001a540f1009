import MiniC.Proofs.Recognition

/-!
# Expressions in parentheses

An expression that is read to the end of the tokens is read as the same tree if a closing
parenthesis stands behind it. The rules take the end of the tokens and a closing parenthesis for the
same, except where they ask for the latter, and there they fail at the end. `Carries c i p q` says
that what `p` gives on the tokens `i` is given by `q` if the tokens `c` stand behind them; it is
shown for each rule, where the rules that are entered again may be so at a greater depth in `q`. In
one place a rule looks ahead and decides otherwise: the words of a type in an open parenthesis at
the end are no conversion, but nothing else either. `Refuses` says that a rule fails, as all do on
tokens that do not start as an expression.
-/

namespace MiniC

namespace Parser

variable {α β : Type}

/-! ## Single steps -/

section

variable (i : List Token)

theorem bind_token (f : Token → Parser β) :
    (token >>= f) (Stream.ofTokens i) = f (first i) (Stream.ofTokens i) := by
  cases i <;> rfl

theorem bind_kind (f : Kind → Parser β) :
    (kind >>= f) (Stream.ofTokens i) = f (firstKind i) (Stream.ofTokens i) := by
  cases i <;> rfl

theorem bind_line (f : Nat → Parser β) :
    (line >>= f) (Stream.ofTokens i) = f 1 (Stream.ofTokens i) := by
  cases i <;> rfl

theorem bind_left (f : Nat → Parser β) :
    (left >>= f) (Stream.ofTokens i) = f i.length (Stream.ofTokens i) := by
  rw [← Stream.size_ofTokens]
  rfl

theorem bind_advance (t : Token) (f : Unit → Parser β) :
    (advance >>= f) (Stream.ofTokens (t :: i)) = f () (Stream.ofTokens i) := by
  cases i <;> rfl

variable {i} in
theorem bind_eat {t : Token} {k : Kind} (ht : t.kind = k) (f : Unit → Parser β) :
    (eat k >>= f) (Stream.ofTokens (t :: i)) = f () (Stream.ofTokens i) := by
  rw [eat, bind_assoc, bind_kind]
  change ((if t.kind = k then _ else _ : Parser Unit) >>= f) _ = _
  rw [if_pos ht, bind_advance]

end

/-! ## Failing -/

def Refuses (p : Parser α) (i : List Token) : Prop :=
  ∃ e, p (Stream.ofTokens i) = .error e

namespace Refuses

variable {p : Parser α} {i j : List Token}

theorem bind (h : Refuses p i) (f : α → Parser β) : Refuses (p >>= f) i := by
  obtain ⟨e, he⟩ := h
  refine ⟨e, ?_⟩
  change (p (Stream.ofTokens i) >>= fun r => f r.1 r.2) = _
  rw [he]
  rfl

/-- The second of two rules fails. -/
theorem after {P : α → Prop} {f : α → Parser β} (hp : Gives p i j P)
    (hf : ∀ a, P a → Refuses (f a) j) : Refuses (p >>= f) i := by
  obtain ⟨a, hpa, ha⟩ := hp
  obtain ⟨e, he⟩ := hf a ha
  refine ⟨e, ?_⟩
  change (p (Stream.ofTokens i) >>= fun r => f r.1 r.2) = _
  rw [hpa]
  exact he

theorem ifFalse {c : Prop} [Decidable c] {q : Parser α} (hc : ¬c) (hq : Refuses q i) :
    Refuses (if c then p else q) i := by
  rwa [if_neg hc]

theorem token {f : Token → Parser β} (h : Refuses (f (first i)) i) :
    Refuses (Parser.token >>= f) i := by
  rwa [Refuses, bind_token]

theorem line {f : Nat → Parser β} (h : Refuses (f 1) i) : Refuses (Parser.line >>= f) i := by
  rwa [Refuses, bind_line]

theorem eatCons {t : Token} {k : Kind} {f : Unit → Parser β} (ht : t.kind = k)
    (h : Refuses (f ()) i) : Refuses (Parser.eat k >>= f) (t :: i) := by
  rwa [Refuses, bind_eat ht]

theorem eat {k : Kind} (h : firstKind i ≠ k) (f : Unit → Parser β) :
    Refuses (Parser.eat k >>= f) i := by
  refine bind ⟨.expected k (firstKind i) 1, ?_⟩ f
  rw [Parser.eat, bind_kind, if_neg h, bind_line]
  rfl

end Refuses

/-! ## Reading on with more tokens behind -/

/-- What a rule gives on some tokens, another one gives if further tokens stand behind them. -/
def Carries (c i : List Token) (p q : Parser α) : Prop :=
  ∀ a s, p (Stream.ofTokens i) = .ok (a, s) →
    ∃ o, s = Stream.ofTokens o ∧ q (Stream.ofTokens (i ++ c)) = .ok (a, Stream.ofTokens (o ++ c))

/-- What is decided on the kind of the next token, if it makes no difference whether that is the end
or a closing parenthesis. -/
theorem firstKind_append (f : Kind → α) {c : List Token} (hc : firstKind c = .rparen)
    (hf : f .rparen = f .eof) (i : List Token) : f (firstKind (i ++ c)) = f (firstKind i) := by
  cases i with
  | nil => rw [List.nil_append, hc, hf, firstKind_nil]
  | cons => rfl

namespace Carries

variable {c i : List Token} {p q p' q' : Parser α}

theorem pure (a : α) : Carries c i (pure a) (pure a) := by
  rintro b s ⟨⟩
  exact ⟨i, rfl, rfl⟩

theorem refused (h : Refuses p i) : Carries c i p q := by
  intro a s hp
  obtain ⟨e, he⟩ := h
  rw [he] at hp
  cases hp

theorem throw (e : SyntaxError) (q : Parser α) : Carries c i (throw e) q :=
  refused ⟨e, rfl⟩

theorem bind {f g : α → Parser β} (hp : Carries c i p q)
    (hf : ∀ a o, Carries c o (f a) (g a)) : Carries c i (p >>= f) (q >>= g) := by
  intro b s h
  change (p (Stream.ofTokens i) >>= fun r => f r.1 r.2) = _ at h
  cases hpi : p (Stream.ofTokens i) with
  | error e =>
    rw [hpi] at h
    cases h
  | ok r =>
    rw [hpi] at h
    obtain ⟨o, ho, hq⟩ := hp r.1 r.2 hpi
    have hfo : f r.1 (Stream.ofTokens o) = .ok (b, s) := ho ▸ h
    obtain ⟨o', rfl, hg⟩ := hf r.1 o b s hfo
    refine ⟨o', rfl, ?_⟩
    change (q (Stream.ofTokens (i ++ c)) >>= fun r => g r.1 r.2) = _
    rw [hq]
    exact hg

/-- Both rules find the same when they look ahead. -/
theorem found {f g : α → Parser β} {b : α} (hp : Gives p i i (· = b))
    (hq : Gives q (i ++ c) (i ++ c) (· = b)) (h : Carries c i (f b) (g b)) :
    Carries c i (p >>= f) (q >>= g) := by
  obtain ⟨_, hpb, rfl⟩ := hp
  obtain ⟨_, hqb, rfl⟩ := hq
  intro a s hfa
  change (p (Stream.ofTokens i) >>= fun r => f r.1 r.2) = _ at hfa
  rw [hpb] at hfa
  obtain ⟨o, ho, hga⟩ := h a s hfa
  refine ⟨o, ho, ?_⟩
  change (q (Stream.ofTokens (i ++ c)) >>= fun r => g r.1 r.2) = _
  rw [hqb]
  exact hga

theorem ite {b : Prop} [Decidable b] (h : b → Carries c i p q) (h' : ¬b → Carries c i p' q') :
    Carries c i (if b then p else p') (if b then q else q') := by
  split
  · exact h ‹_›
  · exact h' ‹_›

theorem token {f g : Token → Parser β} (h : Carries c i (f (first i)) (g (first (i ++ c)))) :
    Carries c i (Parser.token >>= f) (Parser.token >>= g) := by
  intro a s
  rw [bind_token, bind_token]
  exact h a s

theorem kind {f g : Kind → Parser β}
    (h : Carries c i (f (firstKind i)) (g (firstKind (i ++ c)))) :
    Carries c i (Parser.kind >>= f) (Parser.kind >>= g) := by
  intro a s
  rw [bind_kind, bind_kind]
  exact h a s

theorem line {f g : Nat → Parser β} (h : Carries c i (f 1) (g 1)) :
    Carries c i (Parser.line >>= f) (Parser.line >>= g) := by
  intro a s
  rw [bind_line, bind_line]
  exact h a s

theorem left {f g : Nat → Parser β} (h : ∀ m n, m ≤ n → Carries c i (f m) (g n)) :
    Carries c i (Parser.left >>= f) (Parser.left >>= g) := by
  intro a s
  rw [bind_left, bind_left]
  exact h _ _ (by simp) a s

theorem advance {t : Token} {f g : Unit → Parser β} (h : Carries c i (f ()) (g ())) :
    Carries c (t :: i) (Parser.advance >>= f) (Parser.advance >>= g) := by
  intro a s
  rw [List.cons_append, bind_advance, bind_advance]
  exact h a s

theorem eatCons {t : Token} {k : Kind} {f g : Unit → Parser β} (ht : t.kind = k)
    (h : Carries c i (f ()) (g ())) :
    Carries c (t :: i) (Parser.eat k >>= f) (Parser.eat k >>= g) := by
  intro a s
  rw [List.cons_append, bind_eat ht, bind_eat ht]
  exact h a s

theorem eat {k : Kind} {f g : Unit → Parser β} (hk : k ≠ .eof)
    (h : ∀ o, Carries c o (f ()) (g ())) :
    Carries c i (Parser.eat k >>= f) (Parser.eat k >>= g) := by
  by_cases hi : firstKind i = k
  · cases i with
    | nil => exact absurd hi.symm hk
    | cons t i => exact eatCons hi (h i)
  · exact refused (.eat hi f)

theorem lookahead (h : Carries c i p q) :
    Carries c i (Parser.lookahead p) (Parser.lookahead q) := by
  intro a s hl
  change (p (Stream.ofTokens i) >>= fun r => .ok (r.1, Stream.ofTokens i)) = _ at hl
  cases hpi : p (Stream.ofTokens i) with
  | error e =>
    rw [hpi] at hl
    cases hl
  | ok r =>
    rw [hpi] at hl
    obtain ⟨rfl, rfl⟩ := Prod.mk.inj (Except.ok.inj hl)
    obtain ⟨o, -, hq⟩ := h r.1 r.2 hpi
    refine ⟨i, rfl, ?_⟩
    change (q (Stream.ofTokens (i ++ c)) >>= fun r => .ok (r.1, Stream.ofTokens (i ++ c))) = _
    rw [hq]
    rfl

/-- A decision to go on, which is not made at the end of the tokens and before a closing
parenthesis. -/
theorem ifKind (hc : firstKind c = .rparen) {P : Kind → Bool} (hend : P .eof = false)
    (hparen : P .rparen = false)
    (hyes : ∀ t j, i = t :: j → P t.kind = true → Carries c (t :: j) p q)
    (hno : Carries c i p' q') :
    Carries c i (if P (firstKind i) then p else p') (if P (firstKind (i ++ c)) then q else q') := by
  cases i with
  | nil =>
    change Carries c [] (if P .eof then p else p') (if P (firstKind c) then q else q')
    rw [hc, hend, hparen]
    exact hno
  | cons t j => exact ite (hyes t j rfl) fun _ => hno

section

variable (hc : firstKind c = .rparen)

include hc

theorem itemsWhile {goesOn : Kind → Bool} (hend : goesOn .eof = false)
    (hparen : goesOn .rparen = false) (h : ∀ t o, Carries c (t :: o) p q) {fuel more : Nat}
    (hmore : fuel ≤ more) (i : List Token) :
    Carries c i (itemsWhile goesOn p fuel) (Parser.itemsWhile goesOn q more) := by
  induction fuel generalizing more i with
  | zero => exact throw _ _
  | succ fuel ih =>
    obtain ⟨more, rfl⟩ := Nat.exists_eq_succ_of_ne_zero (Nat.ne_zero_of_lt hmore)
    refine kind (ifKind hc hend hparen (fun t j _ _ => ?_) (pure _))
    exact bind (h t j) fun a o => bind (ih (Nat.le_of_succ_le_succ hmore) o) fun as o => pure _

theorem manyWhile {goesOn : Kind → Bool} (hend : goesOn .eof = false)
    (hparen : goesOn .rparen = false) (h : ∀ t o, Carries c (t :: o) p q) (i : List Token) :
    Carries c i (manyWhile goesOn p) (Parser.manyWhile goesOn q) :=
  left fun _ _ hle => itemsWhile hc hend hparen h (Nat.succ_le_succ hle) i

theorem commaList (h : ∀ o, Carries c o p q) (i : List Token) :
    Carries c i (commaList p) (Parser.commaList q) := by
  have hitem (t : Token) (o : List Token) :
      Carries c (t :: o) (do Parser.eat .comma; p) (do Parser.eat .comma; q) :=
    eat (by decide) h
  exact bind (h i) fun _ o => bind (manyWhile hc rfl rfl hitem o) fun _ _ => pure _

theorem chainFrom {ops : Kind → Bool} (hend : ops .eof = false) (hparen : ops .rparen = false)
    {p q : Parser Tree} (h : ∀ o, Carries c o p q) {fuel more : Nat} (hmore : fuel ≤ more)
    (t : Tree) (i : List Token) :
    Carries c i (chainFrom ops p fuel t) (Parser.chainFrom ops q more t) := by
  induction fuel generalizing more t i with
  | zero => exact throw _ _
  | succ fuel ih =>
    obtain ⟨more, rfl⟩ := Nat.exists_eq_succ_of_ne_zero (Nat.ne_zero_of_lt hmore)
    refine token ?_
    cases i with
    | nil =>
      change Carries c [] (if ops .eof then _ else _) (if ops (firstKind c) then _ else _)
      rw [hc, hend, hparen]
      exact pure t
    | cons u j =>
      refine ite (fun _ => advance (bind (h j) fun a o => line ?_)) fun _ => pure t
      exact ih (Nat.le_of_succ_le_succ hmore) _ o

theorem chain {ops : Kind → Bool} (hend : ops .eof = false) (hparen : ops .rparen = false)
    {p q : Parser Tree} (h : ∀ o, Carries c o p q) (i : List Token) :
    Carries c i (chain ops p) (Parser.chain ops q) :=
  bind (h i) fun t o => left fun _ _ hle =>
    chainFrom hc hend hparen h (Nat.succ_le_succ hle) t o

end

end Carries

end Parser

namespace Grammar

open MiniC.Parser Tree

/-! ## Tokens that do not start an expression -/

section

variable {nested : Nested → Parser Tree} {i : List Token}

theorem variableName_refuses (h : firstKind i ≠ .id) : Refuses variableName i :=
  .token (.line (.eat h _))

theorem binaryOf_refuses {operand : Parser Tree} (h : Refuses operand i) (ls : List (List Kind)) :
    Refuses (binaryOf ls operand) i := by
  induction ls with
  | nil => exact h
  | cons ops ls ih => exact ih.bind _

/-- A parenthesis is open, and what follows is no expression. -/
theorem unaryOf_refuses_paren {l : Token} (hl : l.kind = .lparen)
    (h : Refuses (nested .assignment) i) : Refuses (unaryOf nested) (l :: i) := by
  refine .token ?_
  simp only [first_cons, hl]
  refine .bind (.token ?_) _
  simp only [first_cons, hl]
  exact .eatCons hl (((h.bind _).bind _).bind _)

variable (h : startsExpression (firstKind i) = false)

include h

theorem ne_of_not_startsExpression {k : Kind} (hk : startsExpression k = true) :
    firstKind i ≠ k := by
  rintro rfl
  rw [hk] at h
  cases h

theorem primaryOf_refuses : Refuses (primaryOf nested) i := by
  refine .token ?_
  split
  case h_7 => exact (variableName_refuses (ne_of_not_startsExpression h rfl)).bind _
  all_goals next hk => exact absurd hk (ne_of_not_startsExpression h rfl)

theorem unaryOf_refuses : Refuses (unaryOf nested) i := by
  refine .token ?_
  split
  case h_8 => exact (primaryOf_refuses h).bind _
  all_goals next hk => exact absurd hk (ne_of_not_startsExpression h rfl)

theorem castOf_refuses : Refuses (castOf nested) i := by
  have hahead := castAhead_of_first (ne_of_not_startsExpression h rfl)
  exact .after hahead fun b hb => .ifFalse (by simp [hb]) (unaryOf_refuses h)

theorem conditionalOf_refuses : Refuses (conditionalOf nested) i :=
  (binaryOf_refuses (castOf_refuses h) levels).bind _

theorem assignmentOf_refuses : Refuses (assignmentOf nested) i := by
  have hahead := assignmentAhead_of_first (ne_of_not_startsExpression h rfl)
    (ne_of_not_startsExpression h rfl)
  exact .after hahead fun b hb => .ifFalse (by simp [hb]) (conditionalOf_refuses h)

theorem nestedAt_refuses (d : Nat) (r : Nested) : Refuses (nestedAt d r) i := by
  cases d with
  | zero => exact ⟨_, rfl⟩
  | succ d =>
    cases r with
    | assignment => exact assignmentOf_refuses h
    | conditional => exact conditionalOf_refuses h
    | cast => exact castOf_refuses h

theorem expressionOf_refuses (d : Nat) : Refuses (expressionOf (nestedAt d)) i :=
  ((nestedAt_refuses h d .assignment).bind _).bind _

end

/-! ## The rules with a closing parenthesis behind the tokens -/

/-- The words of a type with which the tokens begin. -/
theorem exists_words (i : List Token) : ∃ ws o, i = ws ++ o ∧
    (∀ w ∈ ws, w.kind.isTypeSpecifier = true) ∧ (firstKind o).isTypeSpecifier = false := by
  induction i with
  | nil => exact ⟨[], [], rfl, List.forall_mem_nil _, rfl⟩
  | cons t i ih =>
    by_cases ht : t.kind.isTypeSpecifier = true
    · obtain ⟨ws, o, rfl, hws, ho⟩ := ih
      exact ⟨t :: ws, o, rfl, List.forall_mem_cons.2 ⟨ht, hws⟩, ho⟩
    · exact ⟨[], t :: i, rfl, List.forall_mem_nil _, Bool.eq_false_iff.2 ht⟩

theorem not_startsExpression_words {w : Token} {ws : List Token}
    (hws : ∀ u ∈ w :: ws, u.kind.isTypeSpecifier = true) (o : List Token) :
    startsExpression (firstKind (w :: ws ++ o)) = false := by
  refine Bool.eq_false_iff.2 fun (h : startsExpression w.kind = true) => ?_
  have hword := hws w List.mem_cons_self
  rw [isTypeSpecifier_of_startsExpression h] at hword
  cases hword

section

variable {l : Token} {ws o : List Token} (hl : l.kind = .lparen)
  (ho : (firstKind o).isTypeSpecifier = false)

include hl ho

theorem castAhead_of_behind : Gives castAhead (l :: o) (l :: o) (· = false) := by
  refine .lookahead (j := o) (.kind (.ifTrue (by simp [hl]) (.advance (.kind ?_))))
  exact .ifTrue (by simpa using ho) (.pure rfl)

/-- Behind the words of a type, the parenthesis has to be closed. -/
theorem castAhead_of_words (hne : ws ≠ []) (hws : ∀ w ∈ ws, w.kind.isTypeSpecifier = true) :
    Gives castAhead (l :: (ws ++ o)) (l :: (ws ++ o)) (· = (firstKind o == .rparen)) := by
  refine .lookahead (j := o) (.kind (.ifTrue (by simp [hl]) (.advance (.kind ?_))))
  refine .ifFalse ?_ (.bind (specifiers_gives hws ho) fun _ _ => .kind (.pure rfl))
  obtain ⟨w, ws, rfl⟩ := List.exists_cons_of_ne_nil hne
  simp [hws w List.mem_cons_self]

end

section

variable {c : List Token} (hc : firstKind c = .rparen) (i : List Token)

theorem variableName_carries : Carries c i variableName variableName := by
  cases i with
  | nil => exact .refused (variableName_refuses nofun)
  | cons t i => exact .token (.line (.eat nofun fun _ => .pure _))

theorem stringLiteral_carries : Carries c i stringLiteral stringLiteral := by
  cases i with
  | nil => exact .refused ⟨_, rfl⟩
  | cons t i => exact .token (.line (.eat nofun fun _ => .pure _))

theorem constant_carries : Carries c i constant constant := by
  cases i with
  | nil => exact .refused ⟨_, rfl⟩
  | cons t i =>
    refine .token ?_
    simp only [List.cons_append, first_cons]
    split
    case h_1 | h_2 | h_3 => exact .advance (.line (.pure _))
    case h_4 => exact .throw _ _

include hc

theorem specifiers_carries : Carries c i specifiers specifiers :=
  .manyWhile hc rfl rfl (fun t _ => .token (.advance (.pure t.value.render))) i

theorem variableOrField_carries : Carries c i variableOrField variableOrField := by
  refine .bind (variableName_carries i) fun v o => .kind ?_
  cases o with
  | nil =>
    rw [List.nil_append, hc]
    exact .pure v
  | cons t o =>
    refine .ite (fun _ => .advance (.bind (variableName_carries o) fun m o => ?_)) fun _ => .pure v
    exact .line (.pure _)

theorem behindName_carries {p : Parser Bool} (h : ∀ o, Carries c o p p) :
    Carries c i (behindName p) (behindName p) := by
  refine .kind ?_
  cases i with
  | nil =>
    rw [List.nil_append, hc]
    exact .pure false
  | cons t i => exact .ite (fun _ => .pure false) fun _ => .advance (h i)

theorem behindMember_carries {k : Kind} (hend : (Kind.eof == k) = false)
    (hparen : (Kind.rparen == k) = false) {p : Parser Bool} (h : ∀ o, Carries c o p p) :
    Carries c i (behindMember k p) (behindMember k p) := by
  refine .kind (.ifKind hc (P := (· == k)) hend hparen (fun t j _ _ => ?_) (h i))
  exact .advance (behindName_carries hc j h)

theorem assignmentBehind_carries : Carries c i assignmentBehind assignmentBehind := by
  refine .kind ?_
  cases i with
  | nil =>
    rw [List.nil_append, hc]
    exact .pure false
  | cons t i => exact .ite (fun _ => .throw _ _) fun _ => .pure _

theorem namesAhead_carries : Carries c i namesAhead namesAhead := by
  rw [namesAhead_eq]
  refine behindName_carries hc i fun o => behindMember_carries hc o rfl rfl fun o => ?_
  exact behindMember_carries hc o rfl rfl (assignmentBehind_carries hc)

theorem assignmentAhead_carries : Carries c i assignmentAhead assignmentAhead := by
  rw [assignmentAhead_eq]
  refine .lookahead (.kind (.ifKind hc (P := (· == .asterisk)) rfl rfl (fun t j _ _ => ?_) ?_))
  · exact .advance (namesAhead_carries hc j)
  · exact namesAhead_carries hc i

/-- A type that is spelled by words. -/
theorem typeSpecifier_carries (hi : firstKind i ≠ .kwStruct) :
    Carries c i typeSpecifier typeSpecifier := by
  refine .kind (.ifKind hc (P := (· == .kwStruct)) rfl rfl ?_ ?_)
  · rintro t j rfl h
    exact absurd (eq_of_beq h) hi
  refine .bind (specifiers_carries hc i) fun words o => .kind ?_
  rw [firstKind_append (· == .asterisk) hc rfl]
  refine .ite (fun h => ?_) fun _ => ?_
  · cases o with
    | nil => cases h
    | cons t o =>
      refine .advance ?_
      split
      · exact .line (.pure _)
      · exact .line (.throw _ _)
  · split
    · exact .line (.pure _)
    · exact .line (.throw _ _)

variable {nested nested' : Nested → Parser Tree}
  (hn : ∀ r o, Carries c o (nested r) (nested' r))

include hn

theorem expressionOf_carries : Carries c i (expressionOf nested) (expressionOf nested') := by
  refine .bind (.commaList hc (hn .assignment) i) fun es o => ?_
  cases es with
  | nil => exact .line (.pure _)
  | cons e es =>
    cases es with
    | nil => exact .pure e
    | cons => exact .line (.pure _)

theorem parenthesized_carries : Carries c i (parenthesized nested) (parenthesized nested') := by
  refine .eat nofun fun o => .bind (expressionOf_carries hc o hn) fun e o => .eat nofun fun o => ?_
  refine .kind (.ifKind hc (P := (· == .dot)) rfl rfl (fun t j _ _ => ?_) (.pure e))
  exact .advance (.bind (variableName_carries j) fun _ _ => .pure e)

theorem primaryOf_carries : Carries c i (primaryOf nested) (primaryOf nested') := by
  cases i with
  | nil => exact .refused (primaryOf_refuses rfl)
  | cons t i =>
    refine .token ?_
    simp only [List.cons_append, first_cons]
    split
    case h_1 => exact parenthesized_carries hc _ hn
    case h_2 | h_3 | h_4 => exact constant_carries _
    case h_5 => exact stringLiteral_carries _
    case h_6 => exact .advance (.bind (variableName_carries i) fun _ _ => .line (.pure _))
    case h_7 => exact variableOrField_carries hc _

variable (hr : ∀ o, startsExpression (firstKind o) = false → Refuses (nested .assignment) o)

include hr

theorem postfixOf_carries : Carries c i (postfixOf nested) (postfixOf nested') := by
  refine .bind (primaryOf_carries hc i hn) fun node o => .token ?_
  cases o with
  | nil =>
    simp only [List.nil_append, first_kind, firstKind_nil, hc]
    exact .pure node
  | cons t o =>
    simp only [List.cons_append, first_cons]
    split
    case h_1 | h_2 => exact .advance (.line (.pure _))
    case h_3 =>
      refine .advance (.kind ?_)
      cases o with
      | nil =>
        -- the arguments are missing
        exact .refused (((hr [] rfl).bind _).bind _)
      | cons u o =>
        refine .ite (fun _ => .bind (.pure []) fun args o => .eat nofun fun o => ?_) fun _ =>
          .bind (.commaList hc (hn .assignment) _) fun args o => .eat nofun fun o => ?_
        all_goals
          cases node with
          | var v n => exact .line (.pure _)
          | _ => exact .throw _ _
    case h_4 | h_5 =>
      refine .advance ?_
      cases node with
      | var v n => exact .bind (variableName_carries o) fun _ _ => .line (.pure _)
      | _ => exact .throw _ _
    case h_6 => exact .pure node

theorem unaryOf_carries : Carries c i (unaryOf nested) (unaryOf nested') := by
  cases i with
  | nil => exact .refused (unaryOf_refuses rfl)
  | cons t i =>
    refine .token ?_
    simp only [List.cons_append, first_cons]
    split
    case h_1 | h_2 =>
      exact .advance (.bind (primaryOf_carries hc i hn) fun _ _ => .line (.pure _))
    case h_3 => exact .advance (.bind (variableName_carries i) fun _ _ => .line (.pure _))
    case h_4 | h_5 | h_6 | h_7 => exact .advance (.bind (hn .cast i) fun _ _ => .line (.pure _))
    case h_8 => exact postfixOf_carries hc _ hn hr

/-- Behind an open parenthesis stand the words of a type. They are a conversion if the parenthesis
is closed behind them. At the end they are none, although `c` would close the parenthesis; but then
they are no expression either. -/
theorem castOf_carries_words {l w : Token} {ws o : List Token} (hl : l.kind = .lparen)
    (hws : ∀ u ∈ w :: ws, u.kind.isTypeSpecifier = true)
    (ho : (firstKind o).isTypeSpecifier = false) :
    Carries c (l :: (w :: ws ++ o)) (castOf nested) (castOf nested') := by
  have hne : w :: ws ≠ [] := List.cons_ne_nil w ws
  have hahead := castAhead_of_words hl ho hne hws
  cases o with
  | nil =>
    have hrest := unaryOf_refuses_paren hl (hr _ (not_startsExpression_words hws []))
    exact .refused (.after hahead fun b hb => .ifFalse (by simp [hb]) hrest)
  | cons u o =>
    have hahead' := castAhead_of_words (o := u :: o ++ c) hl ho hne hws
    rw [← List.append_assoc, ← List.cons_append] at hahead'
    refine .found hahead hahead' (.ite (fun _ => .eatCons hl ?_) fun _ => ?_)
    · refine .bind (typeSpecifier_carries hc _ ?_) fun _ _ => .eat nofun fun o => ?_
      · rintro (hw : w.kind = .kwStruct)
        have hword := hws w List.mem_cons_self
        rw [hw] at hword
        cases hword
      · exact .bind (hn .cast o) fun _ _ => .line (.pure _)
    · exact unaryOf_carries hc _ hn hr

theorem castOf_carries : Carries c i (castOf nested) (castOf nested') := by
  by_cases hi : firstKind i = .lparen
  · cases i with
    | nil => cases hi
    | cons l j =>
      obtain ⟨ws, o, rfl, hws, ho⟩ := exists_words j
      cases ws with
      | nil =>
        have ho' : (firstKind (o ++ c)).isTypeSpecifier = false := by
          rw [firstKind_append Kind.isTypeSpecifier hc rfl, ho]
        exact .found (castAhead_of_behind hi ho) (castAhead_of_behind hi ho')
          (unaryOf_carries hc _ hn hr)
      | cons w ws => exact castOf_carries_words hc hn hr hi hws ho
  · have hi' : firstKind (i ++ c) ≠ .lparen := by
      rwa [firstKind_append (· ≠ .lparen) hc (by simp)]
    exact .found (castAhead_of_first hi) (castAhead_of_first hi') (unaryOf_carries hc i hn hr)

theorem binaryOf_carries : Carries c i (binaryOf levels (castOf nested))
    (binaryOf levels (castOf nested')) := by
  have hbinary (ls : List (List Kind)) (hls : ∀ ops ∈ ls, Kind.eof ∉ ops ∧ Kind.rparen ∉ ops)
      (i : List Token) :
      Carries c i (binaryOf ls (castOf nested)) (binaryOf ls (castOf nested')) := by
    induction ls generalizing i with
    | nil => exact castOf_carries hc i hn hr
    | cons ops ls ih =>
      obtain ⟨⟨hend, hparen⟩, hls⟩ := List.forall_mem_cons.1 hls
      exact .chain hc (by simpa using hend) (by simpa using hparen) (ih hls) i
  exact hbinary levels (by decide) i

theorem conditionalOf_carries : Carries c i (conditionalOf nested) (conditionalOf nested') := by
  refine .bind (binaryOf_carries hc i hn hr) fun node o => .kind ?_
  refine .ifKind hc (P := (· == .questionMark)) rfl rfl (fun t j _ _ => ?_) (.pure node)
  refine .advance (.bind (expressionOf_carries hc j hn) fun _ o => .eat nofun fun o => ?_)
  exact .bind (hn .conditional o) fun _ _ => .line (.pure _)

theorem assignmentOf_carries : Carries c i (assignmentOf nested) (assignmentOf nested') := by
  refine .bind (assignmentAhead_carries hc i) fun b o => .ite (fun _ => ?_) fun _ =>
    conditionalOf_carries hc o hn hr
  refine .bind (primaryOf_carries hc o hn) fun target o => .token ?_
  cases o with
  | nil => exact .refused (conditionalOf_refuses rfl)
  | cons t o =>
    refine .ite (fun _ => .advance ?_) fun _ => conditionalOf_carries hc _ hn hr
    exact .bind (hn .assignment o) fun _ _ => .line (.pure _)

end

/-- At a greater depth, the rules read the same. -/
theorem nestedAt_carries {c : List Token} (hc : firstKind c = .rparen) {d e : Nat} (hd : d ≤ e)
    (r : Nested) (i : List Token) : Carries c i (nestedAt d r) (nestedAt e r) := by
  induction d generalizing e r i with
  | zero => exact .throw _ _
  | succ d ih =>
    obtain ⟨e, rfl⟩ := Nat.exists_eq_succ_of_ne_zero (Nat.ne_zero_of_lt hd)
    have hn (r : Nested) (o : List Token) := ih (Nat.le_of_succ_le_succ hd) r o
    have hr (o : List Token) (ho : startsExpression (firstKind o) = false) :=
      nestedAt_refuses ho d .assignment
    cases r with
    | assignment => exact assignmentOf_carries hc i hn hr
    | conditional => exact conditionalOf_carries hc i hn hr
    | cast => exact castOf_carries hc i hn hr

/-- What is read to the end of the tokens as an expression is read as the same one if a parenthesis
is closed behind it, at every depth that the tokens allow for. -/
theorem expression_enclosed {w : List Token} {e : Tree} (hw : Gives expression w [] (· = e))
    {c : List Token} (hc : firstKind c = .rparen) {d : Nat} (hd : w.length < d) :
    Gives (expressionOf (nestedAt d)) (w ++ c) c (· = e) := by
  obtain ⟨_, hw, rfl⟩ := hw
  rw [expression, entering, bind_left] at hw
  obtain ⟨o, ho, hread⟩ := expressionOf_carries hc w (nestedAt_carries hc hd) _ _ hw
  cases o with
  | nil => exact ⟨_, hread, rfl⟩
  | cons => cases ho

theorem startsExpression_of_gives {w : List Token} {P : Tree → Prop}
    (hw : Gives expression w [] P) : StartsExpression w := by
  obtain ⟨e, hw, -⟩ := hw
  rw [expression, entering, bind_left] at hw
  have hstarts : startsExpression (firstKind w) = true := by
    by_contra h
    obtain ⟨_, hfails⟩ := expressionOf_refuses (Bool.eq_false_iff.2 h) (w.length + 1)
    rw [hfails] at hw
    cases hw
  cases w with
  | nil => cases hstarts
  | cons k ts => exact .cons hstarts ts

end Grammar

end MiniC
