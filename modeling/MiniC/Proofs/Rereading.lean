import MiniC.Proofs.Parsed

/-!
# Reading expressions that were written

`Gives p i o P` says that a rule, applied to a list of tokens, takes the tokens before `o` and gives
something with a property. An expression in parentheses is read by each rule of the grammar in which
an operand can stand, up to a token that does not go on with an operand. From this follows, by
induction on the expression, that what was written is read as the same expression, whatever stands
behind it, as long as that ends an expression.
-/

namespace MiniC

variable {k op : Token} {i o ts : List Token}

namespace Parser

variable {α β : Type}

def Gives (p : Parser α) (i o : List Token) (P : α → Prop) : Prop :=
  ∃ a, p (Stream.ofTokens i) = .ok (a, Stream.ofTokens o) ∧ P a

def first (i : List Token) : Token :=
  (Stream.ofTokens i).head

def firstKind (i : List Token) : Kind :=
  (first i).kind

@[simp] theorem first_cons (t : Token) (i : List Token) : first (t :: i) = t := rfl

@[simp] theorem first_kind (i : List Token) : (first i).kind = firstKind i := rfl

@[simp] theorem firstKind_cons (t : Token) (i : List Token) : firstKind (t :: i) = t.kind := rfl

@[simp] theorem firstKind_nil : firstKind [] = .eof := rfl

@[simp] theorem ofKind_kind (k : Kind) : (Token.ofKind k).kind = k := rfl

@[simp] theorem ofName_kind (w : String) : (Token.ofName w).kind = .id := rfl

namespace Gives

variable {P : α → Prop} {Q : β → Prop} {i j o : List Token}

variable {p : Parser α}

theorem pure {a : α} (ha : P a) : Gives (pure a) i i P :=
  ⟨a, rfl, ha⟩

theorem bind {f : α → Parser β} (hp : Gives p i j P) (hf : ∀ a, P a → Gives (f a) j o Q) :
    Gives (p >>= f) i o Q := by
  obtain ⟨a, hpa, ha⟩ := hp
  obtain ⟨b, hfb, hb⟩ := hf a ha
  refine ⟨b, ?_, hb⟩
  change (p (Stream.ofTokens i) >>= fun r => f r.1 r.2) = _
  rw [hpa]
  exact hfb

theorem weaken {P' : α → Prop} (hp : Gives p i o P) (h : ∀ a, P a → P' a) : Gives p i o P' := by
  obtain ⟨a, hpa, ha⟩ := hp
  exact ⟨a, hpa, h a ha⟩

theorem map {f : α → β} (hp : Gives p i o P) (h : ∀ a, P a → Q (f a)) : Gives (f <$> p) i o Q := by
  obtain ⟨a, hpa, ha⟩ := hp
  refine ⟨f a, ?_, h a ha⟩
  change (p (Stream.ofTokens i) >>= fun r => Except.ok (f r.1, r.2)) = _
  rw [hpa]
  rfl

theorem ifTrue {c : Prop} [Decidable c] {q : Parser α} (hc : c) (hp : Gives p i o P) :
    Gives (if c then p else q) i o P := by
  rwa [if_pos hc]

theorem ifFalse {c : Prop} [Decidable c] {q : Parser α} (hc : ¬c) (hq : Gives q i o P) :
    Gives (if c then p else q) i o P := by
  rwa [if_neg hc]

theorem token {f : Token → Parser β} (hf : Gives (f (first i)) i o Q) :
    Gives (Parser.token >>= f) i o Q := by
  cases i with
  | nil => exact hf
  | cons t i => exact hf

theorem kind {f : Kind → Parser β} (hf : Gives (f (firstKind i)) i o Q) :
    Gives (Parser.kind >>= f) i o Q := by
  cases i with
  | nil => exact hf
  | cons t i => exact hf

theorem line {f : Nat → Parser β} (hf : Gives (f 1) i o Q) : Gives (Parser.line >>= f) i o Q := by
  cases i with
  | nil => exact hf
  | cons t i => exact hf

theorem left {f : Nat → Parser β} (hf : Gives (f i.length) i o Q) :
    Gives (Parser.left >>= f) i o Q := by
  rw [← Stream.size_ofTokens] at hf
  exact hf

theorem advance {t : Token} {f : Unit → Parser β} (hf : Gives (f ()) i o Q) :
    Gives (Parser.advance >>= f) (t :: i) o Q := by
  cases i with
  | nil => exact hf
  | cons u i => exact hf

theorem eat {t : Token} {k : Kind} {f : Unit → Parser β} (ht : t.kind = k)
    (hf : Gives (f ()) i o Q) : Gives (Parser.eat k >>= f) (t :: i) o Q := by
  have heat : Parser.eat k (Stream.ofTokens (t :: i)) = .ok ((), Stream.ofTokens i) := by
    change (if t.kind = k then Parser.advance else _) (Stream.ofTokens (t :: i)) = _
    rw [if_pos ht]
    cases i with
    | nil => rfl
    | cons u i => rfl
  exact bind (P := fun _ => True) ⟨(), heat, trivial⟩ fun _ _ => hf

theorem lookahead (hp : Gives p i j P) : Gives (Parser.lookahead p) i i P := by
  obtain ⟨a, hpa, ha⟩ := hp
  refine ⟨a, ?_, ha⟩
  change (p (Stream.ofTokens i) >>= fun r => .ok (r.1, Stream.ofTokens i)) = _
  rw [hpa]
  rfl

end Gives

/-! ## Loops -/

section

variable {γ : Type} {goesOn : Kind → Bool} {item : Parser α} {R : γ → α → Prop}
  {w : γ → List Token} {F : Kind → Prop} {o : List Token}

/-- Items that were written one behind the other. `F` is what an item needs to know about the token
behind it. -/
theorem itemsWhile_gives {xs : List γ} {fuel : Nat}
    (hitem : ∀ x ∈ xs, ∀ i, F (firstKind i) → Gives item (w x ++ i) i (R x))
    (hw : ∀ x ∈ xs, ∃ t ts, w x = t :: ts ∧ goesOn t.kind = true ∧ F t.kind)
    (hstop : goesOn (firstKind o) = false) (ho : F (firstKind o)) (hf : xs.length < fuel) :
    Gives (itemsWhile goesOn item fuel) (xs.flatMap w ++ o) o (List.Forall₂ R xs) := by
  induction xs generalizing fuel with
  | nil =>
    cases fuel with
    | zero => cases hf
    | succ fuel => exact .kind (.ifFalse (by simpa using hstop) (.pure .nil))
  | cons x xs ih =>
    cases fuel with
    | zero => cases hf
    | succ fuel =>
      obtain ⟨hx, hxs⟩ := List.forall_mem_cons.1 hitem
      obtain ⟨⟨t, ts, hts, hgo, hF⟩, hws⟩ := List.forall_mem_cons.1 hw
      have hnext : F (firstKind (xs.flatMap w ++ o)) := by
        cases xs with
        | nil => exact ho
        | cons y ys =>
          obtain ⟨u, us, hus, -, hu⟩ := hws y List.mem_cons_self
          simpa [hus] using hu
      rw [List.flatMap_cons, List.append_assoc]
      refine .kind (.ifTrue (by simp [hts, hgo]) ?_)
      refine .bind (hx _ hnext) fun a ha => ?_
      refine .bind (ih hxs hws (Nat.lt_of_succ_lt_succ hf)) fun as has => ?_
      exact .pure (.cons ha has)

theorem length_le_flatMap {xs : List γ} (hw : ∀ x ∈ xs, w x ≠ []) :
    xs.length ≤ (xs.flatMap w).length := by
  induction xs with
  | nil => rfl
  | cons x xs ih =>
    obtain ⟨hx, hxs⟩ := List.forall_mem_cons.1 hw
    have hpos := List.length_pos_iff.2 hx
    have hlen := ih hxs
    simp only [List.flatMap_cons, List.length_append, List.length_cons]
    omega

theorem manyWhile_gives {xs : List γ}
    (hitem : ∀ x ∈ xs, ∀ i, F (firstKind i) → Gives item (w x ++ i) i (R x))
    (hw : ∀ x ∈ xs, ∃ t ts, w x = t :: ts ∧ goesOn t.kind = true ∧ F t.kind)
    (hstop : goesOn (firstKind o) = false) (ho : F (firstKind o)) :
    Gives (manyWhile goesOn item) (xs.flatMap w ++ o) o (List.Forall₂ R xs) := by
  refine .left (itemsWhile_gives hitem hw hstop ho ?_)
  have hlen : xs.length ≤ (xs.flatMap w).length := by
    refine length_le_flatMap fun x hx => ?_
    obtain ⟨t, ts, hts, -⟩ := hw x hx
    simp [hts]
  rw [List.length_append]
  omega

end

theorem commas_cons (ts : List Token) (tss : List (List Token)) :
    Token.commas (ts :: tss) = ts ++ tss.flatMap fun us => Token.ofKind .comma :: us := by
  induction tss generalizing ts with
  | nil => simp [Token.commas]
  | cons us tss ih => rw [Token.commas, ih, List.flatMap_cons, List.cons_append]; simp

/-- One item without a comma behind it. -/
theorem commaList_single {item : Parser α} {P : α → Prop} (h : Gives item i o P)
    (ho : firstKind o ≠ .comma) : Gives (commaList item) i o fun as => ∃ a, as = [a] ∧ P a := by
  refine .bind h fun a ha => .bind (P := (· = [])) ?_ fun as has => .pure ⟨a, ?_, ha⟩
  · exact .left (.kind (.ifFalse (by simpa using ho) (.pure rfl)))
  · rw [has]

theorem length_le_commas {tss : List (List Token)} (h : ts ∈ tss) :
    ts.length ≤ (Token.commas tss).length := by
  cases tss with
  | nil => cases h
  | cons us tss =>
    rw [commas_cons, List.length_append]
    obtain rfl | h := List.mem_cons.1 h
    · omega
    · have hsub : (Token.ofKind .comma :: ts).Sublist
          (tss.flatMap fun us => Token.ofKind .comma :: us) := by
        rw [List.flatMap_def]
        exact List.sublist_flatten_of_mem (List.mem_map_of_mem h)
      have hlen := hsub.length_le
      rw [List.length_cons] at hlen
      omega

theorem commaList_gives {γ : Type} {item : Parser α} {R : γ → α → Prop} {w : γ → List Token}
    {F : Kind → Prop} {x : γ} {xs : List γ}
    (hitem : ∀ y ∈ x :: xs, ∀ i, F (firstKind i) → Gives item (w y ++ i) i (R y))
    (hcomma : F .comma) (hstop : firstKind o ≠ .comma) (ho : F (firstKind o)) :
    Gives (commaList item) (Token.commas ((x :: xs).map w) ++ o) o (List.Forall₂ R (x :: xs)) := by
  obtain ⟨hx, hxs⟩ := List.forall_mem_cons.1 hitem
  rw [List.map_cons, commas_cons, List.append_assoc, List.flatMap_map]
  have hnext : F (firstKind (xs.flatMap (fun y => Token.ofKind .comma :: w y) ++ o)) := by
    cases xs with
    | nil => exact ho
    | cons y ys => exact hcomma
  refine .bind (hx _ hnext) fun a ha => ?_
  refine .bind (manyWhile_gives (R := R) (F := F) (fun y hy i hi => ?_) (fun y hy => ?_) ?_ ho)
    fun as has => .pure (.cons ha has)
  · exact .eat rfl (hxs y hy i hi)
  · exact ⟨_, _, rfl, rfl, hcomma⟩
  · simpa using hstop

end Parser

namespace Tree

/-- Two trees are the same but for the places where they were read. -/
def Alike (t u : Tree) : Prop :=
  u.erased = t.erased

def startsExpression : Kind → Bool
  | .id | .charConst | .integerConst | .realConst | .string | .lparen | .incOp | .decOp
  | .ampersand | .asterisk | .plus | .minus | .logNeg => true
  | _ => false

def Starts (t : Tree) : Prop :=
  ∃ k ts, t.tokens = k :: ts ∧ startsExpression k.kind = true

end Tree

namespace Grammar

open MiniC.Parser Tree Token

def goesOnOperand : Kind → Bool
  | .dot | .arrow | .lparen | .incOp | .decOp => true
  | _ => false

def endsExpression : Kind → Bool
  | .rparen | .semicolon | .colon | .eof => true
  | _ => false

def endsAssignment : Kind → Bool
  | .rparen | .semicolon | .colon | .comma | .eof => true
  | _ => false

def Inner (nested : Nested → Parser Tree) (t : Tree) : Prop :=
  ∀ i, endsExpression (firstKind i) = true →
    Gives (expressionOf nested) (t.tokens ++ i) i (Alike t)

/-! ## Operands -/

theorem enclose_append (ts i : List Token) :
    enclose ts ++ i = ofKind .lparen :: (ts ++ ofKind .rparen :: i) := by
  simp [enclose]

theorem castAhead_of_first (hi : firstKind i ≠ .lparen) : Gives castAhead i i (· = false) := by
  refine .lookahead (j := i) (.kind (.ifFalse ?_ (.pure rfl)))
  simpa using hi

theorem castAhead_of_second {l : Token} (hl : l.kind = .lparen)
    (hk : k.kind.isTypeSpecifier = false) :
    Gives castAhead (l :: k :: i) (l :: k :: i) (· = false) := by
  refine .lookahead (j := k :: i) (.kind (.ifTrue (by simp [hl]) (.advance (.kind ?_))))
  exact .ifTrue (by simpa using hk) (.pure rfl)

theorem isTypeSpecifier_of_startsExpression {k : Kind} (h : startsExpression k = true) :
    k.isTypeSpecifier = false := by
  cases k <;> first | rfl | cases h

theorem primaryOf_paren {nested : Nested → Parser Tree} {l r : Token} {w : List Token}
    {P : Tree → Prop} (hl : l.kind = .lparen) (hr : r.kind = .rparen)
    (hw : Gives (expressionOf nested) (w ++ r :: i) (r :: i) P) (hi : firstKind i ≠ .dot) :
    Gives (primaryOf nested) (l :: (w ++ r :: i)) i P := by
  refine .token ?_
  simp only [first_cons, hl]
  refine .eat hl (.bind hw fun e he => .eat hr (.kind ?_))
  exact .ifFalse (by simpa using hi) (.pure he)

theorem postfixOf_of_primaryOf {nested : Nested → Parser Tree} {P : Tree → Prop}
    (h : Gives (primaryOf nested) i o P) (ho : goesOnOperand (firstKind o) = false) :
    Gives (postfixOf nested) i o P := by
  refine .bind h fun e he => .token ?_
  split
  case h_1 hk | h_2 hk | h_3 hk | h_4 hk | h_5 hk =>
    rw [firstKind, hk] at ho
    cases ho
  case h_6 => exact .pure he

section

variable {nested : Nested → Parser Tree} {t : Tree} (ht : Inner nested t) (hs : t.Starts)
  {i : List Token}

include ht

theorem primaryOf_enclosed (hi : firstKind i ≠ .dot) :
    Gives (primaryOf nested) (enclose t.tokens ++ i) i (Alike t) := by
  rw [enclose_append]
  exact primaryOf_paren rfl rfl (ht _ rfl) hi

theorem postfixOf_enclosed (hi : goesOnOperand (firstKind i) = false) :
    Gives (postfixOf nested) (enclose t.tokens ++ i) i (Alike t) := by
  refine postfixOf_of_primaryOf (primaryOf_enclosed ht fun h => ?_) hi
  rw [h] at hi
  cases hi

include hs

theorem castOf_enclosed (hi : goesOnOperand (firstKind i) = false) :
    Gives (castOf nested) (enclose t.tokens ++ i) i (Alike t) := by
  obtain ⟨k, ts, hts, hk⟩ := hs
  have hahead : Gives castAhead (enclose t.tokens ++ i) (enclose t.tokens ++ i) (· = false) := by
    rw [enclose_append, hts]
    exact castAhead_of_second rfl (isTypeSpecifier_of_startsExpression hk)
  refine .bind hahead fun b hb => .ifFalse (by simp [hb]) (.token ?_)
  exact postfixOf_enclosed ht hi

end

/-! ## Binary operators -/

/-- An operand that no operator of the levels follows. -/
theorem binaryOf_operand {ops : List (List Kind)} {operand : Parser Tree} {P : Tree → Prop}
    (hoper : Gives operand i o P) (ho : firstKind o ∉ ops.flatten) :
    Gives (binaryOf ops operand) i o P := by
  induction ops with
  | nil => exact hoper
  | cons ks ops ih =>
    simp only [List.flatten_cons, List.mem_append, not_or] at ho
    refine .bind (ih ho.2) fun a ha => .left (.token (.ifFalse ?_ (.pure ha)))
    simpa using ho.1

/-- Two operands with an operator of one of the levels between them. -/
theorem binaryOf_binary {ops : List (List Kind)} {operand : Parser Tree} {P Q : Tree → Prop}
    {j : List Token} (hops : ops.flatten.Nodup) (hop : op.kind ∈ ops.flatten)
    (hl : Gives operand i (op :: j) P) (hr : Gives operand j o Q) (ho : firstKind o ∉ ops.flatten) :
    Gives (binaryOf ops operand) i o fun t => ∃ a b, P a ∧ Q b ∧ t = .binary a op b 1 := by
  induction ops with
  | nil => cases hop
  | cons ks ops ih =>
    simp only [List.flatten_cons, List.mem_append, not_or] at hop ho
    rw [List.flatten_cons, List.nodup_append] at hops
    obtain ⟨-, hnodup, hdisjoint⟩ := hops
    by_cases hk : op.kind ∈ ks
    · have hnot : op.kind ∉ ops.flatten := fun h => hdisjoint _ hk _ h rfl
      refine .bind (binaryOf_operand hl hnot) fun a ha => .left (.token (.ifTrue ?_ ?_))
      · simpa using hk
      refine .advance (.bind (binaryOf_operand hr ho.2) fun b hb => .line (.token (.ifFalse ?_ ?_)))
      · simpa using ho.1
      · exact .pure ⟨a, b, ha, hb, rfl⟩
    · refine .bind (ih hnodup (hop.resolve_left hk) ho.2) fun a ha => .left (.token (.ifFalse ?_ ?_))
      · simpa using ho.1
      · exact .pure ha

theorem levels_nodup : levels.flatten.Nodup := by decide

/-! ## From operands to expressions -/

theorem of_endsAssignment {k : Kind} (h : endsAssignment k = true) :
    goesOnOperand k = false ∧ k ∉ levels.flatten ∧ k ≠ .questionMark := by
  cases k <;> first | decide | cases h

theorem endsAssignment_of_endsExpression {k : Kind} (h : endsExpression k = true) :
    endsAssignment k = true ∧ k ≠ .comma := by
  cases k <;> first | decide | cases h

section

variable {nested : Nested → Parser Tree} {i o : List Token} {P : Tree → Prop}

theorem conditionalOf_of_castOf (hc : Gives (castOf nested) i o P)
    (ho : endsAssignment (firstKind o) = true) : Gives (conditionalOf nested) i o P := by
  obtain ⟨-, hlevels, hmark⟩ := of_endsAssignment ho
  refine .bind (binaryOf_operand hc hlevels) fun a ha => .kind (.ifFalse ?_ (.pure ha))
  simpa using hmark

theorem assignmentOf_of_conditionalOf (ha : Gives assignmentAhead i i (· = false))
    (hc : Gives (conditionalOf nested) i o P) : Gives (assignmentOf nested) i o P :=
  .bind ha fun b hb => .ifFalse (by simp [hb]) hc

theorem expressionOf_of_assignment (h : Gives (nested .assignment) i o P)
    (ho : endsExpression (firstKind o) = true) : Gives (expressionOf nested) i o P := by
  obtain ⟨-, hcomma⟩ := endsAssignment_of_endsExpression ho
  refine .bind (commaList_single h hcomma) fun es hes => ?_
  obtain ⟨e, rfl, he⟩ := hes
  exact .pure he

end

/-! ## Looking for an assignment -/

def goesOnTarget : Kind → Bool
  | .dot | .arrow | .ampersand => true
  | _ => false

section

variable {i o : List Token} {P : Bool → Prop}

theorem namesAhead_end (hi : goesOnTarget (firstKind i) = false) :
    Gives (do
      if (← kind) == .arrow then
        advance
        if (← kind) != .id then return false
        advance
      let k ← kind
      if k == .ampersand then throw .ampersandBehindTarget
      return k.isAssignment : Parser Bool) i i (· = (firstKind i).isAssignment) := by
  have hne (k : Kind) (hk : goesOnTarget k = true) : ¬(firstKind i == k) = true := by
    rw [beq_iff_eq]
    rintro h
    rw [h, hk] at hi
    cases hi
  exact .kind (.ifFalse (hne _ rfl) (.kind (.ifFalse (hne _ rfl) (.pure rfl))))

theorem namesAhead_name (hk : k.kind = .id) (hi : goesOnTarget (firstKind i) = false) :
    Gives namesAhead (k :: i) i (· = (firstKind i).isAssignment) := by
  refine .kind (.ifFalse (by simp [hk]) (.advance (.kind (.ifFalse ?_ (namesAhead_end hi)))))
  rw [beq_iff_eq]
  rintro h
  rw [h] at hi
  cases hi

theorem namesAhead_field {b o m : Token} (hb : b.kind = .id) (hm : m.kind = .id)
    (ho : o.kind = .dot ∨ o.kind = .arrow) (hi : goesOnTarget (firstKind i) = false) :
    Gives namesAhead (b :: o :: m :: i) i (· = (firstKind i).isAssignment) := by
  refine .kind (.ifFalse (by simp [hb]) (.advance (.kind ?_)))
  obtain ho | ho := ho
  · refine .ifTrue (by simp [ho]) (.advance (.kind (.ifFalse (by simp [hm]) ?_)))
    exact .advance (namesAhead_end hi)
  · refine .ifFalse (by simp [ho]) (.kind (.ifTrue (by simp [ho]) (.advance (.kind ?_))))
    refine .ifFalse (by simp [hm]) ?_
    refine .advance (.kind (.ifFalse ?_ (.pure rfl)))
    rw [beq_iff_eq]
    rintro h
    rw [h] at hi
    cases hi

/-- No star in front. -/
theorem assignmentAhead_of_names (h : firstKind i ≠ .asterisk) (hn : Gives namesAhead i o P) :
    Gives assignmentAhead i i P := by
  rw [assignmentAhead_eq]
  exact .lookahead (.kind (.ifFalse (by simpa using h) hn))

theorem assignmentAhead_of_star (h : op.kind = .asterisk) (hn : Gives namesAhead i o P) :
    Gives assignmentAhead (op :: i) (op :: i) P := by
  rw [assignmentAhead_eq]
  exact .lookahead (.kind (.ifTrue (by simp [h]) (.advance hn)))

theorem namesAhead_none (h : firstKind i ≠ .id) : Gives namesAhead i i (· = false) :=
  .kind (.ifTrue (by simpa using h) (.pure rfl))

theorem assignmentAhead_of_first (h : firstKind i ≠ .asterisk) (h' : firstKind i ≠ .id) :
    Gives assignmentAhead i i (· = false) :=
  assignmentAhead_of_names h (namesAhead_none h')

end

/-- An operand in parentheses is read by all rules that can be entered again. -/
theorem nestedAt_enclosed {d : Nat} (r : Nested) {t : Tree} (ht : Inner (nestedAt d) t)
    (hs : t.Starts) (hi : endsAssignment (firstKind i) = true) :
    Gives (nestedAt (d + 1) r) (enclose t.tokens ++ i) i (Alike t) := by
  have hcast := castOf_enclosed ht hs (of_endsAssignment hi).1
  cases r with
  | cast => exact hcast
  | conditional => exact conditionalOf_of_castOf hcast hi
  | assignment =>
    refine assignmentOf_of_conditionalOf (assignmentAhead_of_first ?_ ?_)
      (conditionalOf_of_castOf hcast hi)
    · exact nofun
    · exact nofun

/-! ## Types -/

section

open CType

theorem specifiers_gives (hts : ∀ t ∈ ts, t.kind.isTypeSpecifier = true)
    (ho : (firstKind o).isTypeSpecifier = false) :
    Gives specifiers (ts ++ o) o (· = ts.map fun t => t.value.render) := by
  have hitem (t : Token) (i : List Token) : Gives (do
      let t ← token
      advance
      return t.value.render : Parser String) ([t] ++ i) i (· = t.value.render) :=
    .token (.advance (.pure rfl))
  have hmany := manyWhile_gives (F := fun _ => True) (o := o) (fun t _ i _ => hitem t i)
    (fun t ht => ⟨_, _, rfl, hts t ht, trivial⟩) ho trivial
  rw [List.flatMap_singleton'] at hmany
  refine hmany.weaken fun as has => ?_
  clear hts hmany
  induction has with
  | nil => rfl
  | cons h _ ih => rw [h, ih, List.map_cons]

theorem specifiers_kinds {ks : List Kind} (hks : ∀ k ∈ ks, k.isTypeSpecifier = true)
    (ho : (firstKind o).isTypeSpecifier = false) :
    Gives specifiers (ks.map ofKind ++ o) o (· = ks.map word) := by
  refine (specifiers_gives (by simpa using hks) ho).weaken fun words hwords => ?_
  rw [hwords, List.map_map]
  rfl

theorem tokens_number {t : CType} (ht : t.Spelled) :
    ∃ k ts, (VarType.number t).tokens = k :: ts ∧ k.kind.isTypeSpecifier = true := by
  cases hks : t.kinds with
  | nil => exact absurd hks (kinds_ne_nil ht)
  | cons k ks =>
    have hk := CType.isTypeSpecifier_of_mem_kinds (hks ▸ List.mem_cons_self)
    have htokens : (VarType.number t).tokens = ofKind k :: (ks.map ofKind ++
        if (VarType.number t).isPointer then [ofKind .asterisk] else []) := by
      simp [VarType.tokens, hks]
    exact ⟨_, _, htokens, hk⟩

theorem numberType_gives {t : CType} (ht : t.Spelled) (ho : (firstKind o).isTypeSpecifier = false)
    (hstar : firstKind o ≠ .asterisk) :
    Gives typeSpecifier ((VarType.number t).tokens ++ o) o (· = .typeName (.number t) 1) := by
  have hkinds : ∀ k ∈ t.kinds, k.isTypeSpecifier = true := fun k => isTypeSpecifier_of_mem_kinds
  have hspelled := ofText_kinds ht
  have hfirst : firstKind ((VarType.number t).tokens ++ o) ≠ .kwStruct := by
    obtain ⟨k, ts, hts, hk⟩ := tokens_number ht
    rw [hts]
    rintro (h : k.kind = .kwStruct)
    simp [h, Kind.isTypeSpecifier] at hk
  cases hpointer : t.pointer with
  | true =>
    simp only [hpointer, if_true] at hspelled
    simp only [VarType.tokens, VarType.isPointer, hpointer, if_true, List.append_assoc] at hfirst ⊢
    refine .kind (.ifFalse (by simpa using hfirst) ?_)
    refine .bind (specifiers_kinds hkinds rfl) fun words hwords => .kind (.ifTrue rfl (.advance ?_))
    subst hwords
    have hstar : (firstKind ([ofKind .asterisk] ++ o) == .asterisk) = true := rfl
    simp only [hstar, if_true, hspelled]
    exact .line (.pure rfl)
  | false =>
    simp only [hpointer, Bool.false_eq_true, if_false, List.append_nil] at hspelled
    simp only [VarType.tokens, VarType.isPointer, hpointer, Bool.false_eq_true, if_false,
      List.append_nil] at hfirst ⊢
    refine .kind (.ifFalse (by simpa using hfirst) ?_)
    refine .bind (specifiers_kinds hkinds ho) fun words hwords => .kind (.ifFalse ?_ ?_)
    · simpa using hstar
    subst hwords
    have hne : (firstKind o == .asterisk) = false := by simpa using hstar
    simp only [hne, Bool.false_eq_true, if_false, hspelled]
    exact .line (.pure rfl)

theorem structType_gives (t : StructType) (hstar : firstKind o ≠ .asterisk) :
    Gives typeSpecifier ((VarType.struct t).tokens ++ o) o
      fun u => ∃ mark, u = .structName (.struct ⟨t.name, t.pointer, mark⟩) 1 := by
  cases hpointer : t.pointer with
  | true =>
    have htokens : (VarType.struct t).tokens ++ o =
        ofKind .kwStruct :: ofName t.name :: ofKind .asterisk :: o := by
      simp [VarType.tokens, VarType.isPointer, hpointer]
    rw [htokens]
    refine .kind (.ifTrue rfl (.left (.advance (.token (.eat rfl (.kind (.ifTrue rfl ?_)))))))
    exact .advance (.line (.pure ⟨_, rfl⟩))
  | false =>
    have htokens : (VarType.struct t).tokens ++ o =
        ofKind .kwStruct :: ofName t.name :: o := by
      simp [VarType.tokens, VarType.isPointer, hpointer]
    have hne : (firstKind o == .asterisk) = false := by simpa using hstar
    rw [htokens]
    refine .kind (.ifTrue rfl (.left (.advance (.token (.eat rfl (.kind ?_))))))
    rw [hne]
    exact .ifFalse nofun (.line (.pure ⟨_, rfl⟩))

theorem typeSpecifier_gives {t : Tree} (ht : Grammatical .typeName t) (hp : t.Proper)
    (ho : (firstKind o).isTypeSpecifier = false) (hstar : firstKind o ≠ .asterisk) :
    Gives typeSpecifier (t.typeTokens ++ o) o (Alike t) := by
  cases ht with
  | typeName t n =>
    refine (numberType_gives hp ho hstar).weaken fun u hu => ?_
    rw [hu]
    rfl
  | structName t n =>
    refine (structType_gives t hstar).weaken fun u hu => ?_
    obtain ⟨mark, rfl⟩ := hu
    rfl

end

/-! ## Expressions -/

section

variable {nested : Nested → Parser Tree} {i o : List Token} {P : Tree → Prop}

/-- An operand that starts with neither a prefix operator nor a parenthesis. -/
theorem castOf_of_postfixOf (hk : k.kind ≠ .lparen) (hop : isPrefixOperator k.kind = false)
    (h : Gives (postfixOf nested) (k :: i) o P) : Gives (castOf nested) (k :: i) o P := by
  refine .bind (castAhead_of_first (by simpa using hk)) fun b hb => .ifFalse (by simp [hb]) ?_
  refine .token ?_
  split
  case h_1 h | h_2 h | h_3 h | h_4 h | h_5 h | h_6 h | h_7 h =>
    rw [first_cons] at h
    rw [h] at hop
    cases hop
  case h_8 => exact h

theorem variableName_gives (hk : k.kind = .id) : Gives variableName (k :: i) i (· = .var k 1) :=
  .token (.line (.eat hk (.pure rfl)))

theorem isConstant_cases {k : Kind} (h : isConstant k = true) :
    k = .charConst ∨ k = .integerConst ∨ k = .realConst := by
  unfold isConstant at h
  split at h
  · exact .inl rfl
  · exact .inr (.inl rfl)
  · exact .inr (.inr rfl)
  · cases h

theorem constant_gives (hk : isConstant k.kind = true) :
    Gives constant (k :: i) i (· = .num k 1) := by
  refine .token ?_
  split
  case h_1 | h_2 | h_3 => exact .advance (.line (.pure rfl))
  case h_4 h₁ h₂ h₃ =>
    obtain h | h | h := isConstant_cases hk
    · exact absurd h h₁
    · exact absurd h h₂
    · exact absurd h h₃

theorem primaryOf_constant (hk : isConstant k.kind = true) :
    Gives (primaryOf nested) (k :: i) i (· = .num k 1) := by
  refine .token ?_
  obtain h | h | h := isConstant_cases hk
  all_goals
    simp only [first_cons, h]
    exact constant_gives hk

theorem primaryOf_string (hk : k.kind = .string) :
    Gives (primaryOf nested) (k :: i) i (· = .string k 1) := by
  refine .token ?_
  simp only [first_cons, hk]
  exact .token (.line (.eat hk (.pure rfl)))

theorem primaryOf_name (hk : k.kind = .id) (h : Gives variableOrField (k :: i) o P) :
    Gives (primaryOf nested) (k :: i) o P := by
  refine .token ?_
  simp only [first_cons, hk]
  exact h

theorem ne_dot_arrow_of_goesOnOperand {k : Kind} (h : goesOnOperand k = false) :
    k ≠ .dot ∧ k ≠ .arrow := by
  constructor <;> rintro rfl <;> cases h

theorem variableOrField_var (hk : k.kind = .id) (hi : firstKind i ≠ .dot ∧ firstKind i ≠ .arrow) :
    Gives variableOrField (k :: i) i (· = .var k 1) := by
  refine .bind (variableName_gives hk) fun v hv => .kind (.ifFalse ?_ (.pure hv))
  simpa using hi

theorem variableOrField_field {b o m : Token} (hb : b.kind = .id) (hm : m.kind = .id)
    (ho : o.kind = .dot ∨ o.kind = .arrow) :
    Gives variableOrField (b :: o :: m :: i) i (· = .field o.kind (.var b 1) (.var m 1) 1) := by
  refine .bind (variableName_gives hb) fun v hv => .kind (.ifTrue ?_ (.advance ?_))
  · simpa using ho
  · refine .bind (variableName_gives hm) fun w hw => .line (.pure ?_)
    rw [hv, hw]
    rfl

end

/-- What was written for an expression is read as the expression, at every depth that its tokens
allow for. -/
structure Reread (t : Tree) : Prop where
  starts : t.Starts
  inner : ∀ d, t.tokens.length ≤ d → Inner (nestedAt d) t

namespace Reread

variable {t : Tree} {d : Nat} {i : List Token}

theorem nested (h : Reread t) (r : Nested) (hd : t.tokens.length < d)
    (hi : endsAssignment (firstKind i) = true) :
    Gives (nestedAt d r) (enclose t.tokens ++ i) i (Alike t) := by
  cases d with
  | zero => cases hd
  | succ d => exact nestedAt_enclosed r (h.inner d (Nat.le_of_lt_succ hd)) h.starts hi

theorem castOf (h : Reread t) (hd : t.tokens.length ≤ d)
    (hi : goesOnOperand (firstKind i) = false) :
    Gives (Grammar.castOf (nestedAt d)) (enclose t.tokens ++ i) i (Alike t) :=
  castOf_enclosed (h.inner d hd) h.starts hi

/-- It is enough to read it as an assignment. -/
theorem of_assignmentOf (hs : t.Starts)
    (h : ∀ d i, t.tokens.length ≤ d + 1 → endsAssignment (firstKind i) = true →
      Gives (assignmentOf (nestedAt d)) (t.tokens ++ i) i (Alike t)) : Reread t := by
  refine ⟨hs, fun d hd i hi => ?_⟩
  cases d with
  | zero =>
    obtain ⟨k, ts, hts, -⟩ := hs
    simp [hts] at hd
  | succ d =>
    exact expressionOf_of_assignment (h d i hd (endsAssignment_of_endsExpression hi).1) hi

theorem of_castOf (hs : t.Starts)
    (hahead : ∀ i, endsAssignment (firstKind i) = true →
      Gives assignmentAhead (t.tokens ++ i) (t.tokens ++ i) (· = false))
    (h : ∀ d i, t.tokens.length ≤ d + 1 → endsAssignment (firstKind i) = true →
      Gives (Grammar.castOf (nestedAt d)) (t.tokens ++ i) i (Alike t)) : Reread t :=
  of_assignmentOf hs fun d i hd hi =>
    assignmentOf_of_conditionalOf (hahead i hi) (conditionalOf_of_castOf (h d i hd hi) hi)

theorem of_primaryOf (htokens : t.tokens = k :: ts) (hstarts : startsExpression k.kind = true)
    (hparen : k.kind ≠ .lparen) (hfront : isPrefixOperator k.kind = false)
    (hahead : ∀ i, endsAssignment (firstKind i) = true →
      Gives assignmentAhead (k :: ts ++ i) (k :: ts ++ i) (· = false))
    (h : ∀ d i, t.tokens.length ≤ d + 1 → endsAssignment (firstKind i) = true →
      Gives (primaryOf (nestedAt d)) (k :: ts ++ i) i (Alike t)) : Reread t := by
  refine of_castOf ⟨k, ts, htokens, hstarts⟩ (htokens ▸ hahead) fun d i hd hi => ?_
  rw [htokens]
  refine castOf_of_postfixOf hparen hfront (postfixOf_of_primaryOf (h d i hd hi) ?_)
  exact (of_endsAssignment hi).1

theorem num (n : Nat) (hk : isConstant k.kind = true) : Reread (.num k n) := by
  have hkinds : startsExpression k.kind = true ∧ k.kind ≠ .asterisk ∧ k.kind ≠ .id ∧
      k.kind ≠ .lparen ∧ isPrefixOperator k.kind = false := by
    obtain h | h | h := isConstant_cases hk <;> rw [h] <;> decide
  obtain ⟨hstarts, hstar, hid, hparen, hfront⟩ := hkinds
  refine of_primaryOf rfl hstarts hparen hfront (fun i _ => assignmentAhead_of_first hstar hid)
    fun d i _ _ => (primaryOf_constant hk).weaken ?_
  rintro u rfl
  rfl

theorem string (n : Nat) (hk : k.kind = .string) : Reread (.string k n) := by
  refine of_primaryOf rfl (by rw [hk]; rfl) (by rw [hk]; nofun) (by rw [hk]; rfl)
    (fun i _ => assignmentAhead_of_first (by simp [hk]) (by simp [hk]))
    fun d i _ _ => (primaryOf_string hk).weaken ?_
  rintro u rfl
  rfl

theorem of_endsAssignment_target {k : Kind} (h : endsAssignment k = true) :
    goesOnTarget k = false ∧ k.isAssignment = false := by
  cases k <;> first | decide | cases h

theorem var (n : Nat) (hk : k.kind = .id) : Reread (.var k n) := by
  refine of_primaryOf rfl (by rw [hk]; rfl) (by rw [hk]; nofun) (by rw [hk]; rfl) (fun i hi => ?_)
    fun d i _ hi => primaryOf_name hk ((variableOrField_var hk ?_).weaken ?_)
  · obtain ⟨htarget, hassign⟩ := of_endsAssignment_target hi
    have hnames := namesAhead_name hk htarget
    rw [hassign] at hnames
    exact assignmentAhead_of_names (by simp [hk]) hnames
  · exact ne_dot_arrow_of_goesOnOperand (of_endsAssignment hi).1
  · rintro u rfl
    rfl

theorem field {op : Kind} {b m : Token} (i j n : Nat) (hb : b.kind = .id) (hm : m.kind = .id)
    (hop : op = .dot ∨ op = .arrow) : Reread (.field op (.var b i) (.var m j) n) := by
  refine of_primaryOf rfl (by rw [hb]; rfl) (by rw [hb]; nofun) (by rw [hb]; rfl) (fun i hi => ?_)
    fun d i _ hi => primaryOf_name hb ((variableOrField_field hb hm hop).weaken ?_)
  · obtain ⟨htarget, hassign⟩ := of_endsAssignment_target hi
    have hnames := namesAhead_field (o := ofKind op) hb hm hop htarget
    rw [hassign] at hnames
    exact assignmentAhead_of_names (by simp [hb]) hnames
  · rintro u rfl
    rfl

theorem starts_enclose {us : List Token} (h : t.tokens = enclose ts ++ us) : t.Starts :=
  ⟨ofKind .lparen, _, h, rfl⟩

theorem assignmentAhead_enclose (ts i : List Token) :
    Gives assignmentAhead (enclose ts ++ i) (enclose ts ++ i) (· = false) :=
  assignmentAhead_of_first nofun nofun

theorem length_enclose (ts : List Token) : (enclose ts).length = ts.length + 2 := by
  simp [enclose]

theorem of_mem_levels {k : Kind} (h : k ∈ levels.flatten) : goesOnOperand k = false := by
  have hall : ∀ k ∈ levels.flatten, goesOnOperand k = false := by decide
  exact hall k h

theorem binary {l r : Tree} (n : Nat) (hl : Reread l) (hr : Reread r)
    (hop : op.kind ∈ levels.flatten) : Reread (.binary l op r n) := by
  refine of_assignmentOf (starts_enclose rfl) fun d i hd hi => ?_
  simp only [tokens, List.length_append, List.length_cons, length_enclose] at hd
  simp only [tokens, List.append_assoc, List.cons_append]
  obtain ⟨hgo, hlevels, hmark⟩ := of_endsAssignment hi
  have hleft := hl.castOf (d := d) (i := op :: (enclose r.tokens ++ i)) (by omega)
    (of_mem_levels hop)
  have hright := hr.castOf (d := d) (i := i) (by omega) hgo
  refine assignmentOf_of_conditionalOf (assignmentAhead_enclose _ _) ?_
  refine .bind (binaryOf_binary levels_nodup hop hleft hright hlevels) fun u hu => .kind ?_
  obtain ⟨a, b, ha, hb, rfl⟩ := hu
  refine .ifFalse (by simpa using hmark) (.pure ?_)
  simp only [Alike, erased] at ha hb ⊢
  rw [ha, hb]

/-- An operator before a variable or an expression in parentheses. -/
theorem of_unaryOf (htokens : t.tokens = op :: ts) (hop : isPrefixOperator op.kind = true)
    (hts : ∀ i, firstKind (ts ++ i) ≠ .id ∨ op.kind ≠ .asterisk)
    (h : ∀ d i, t.tokens.length ≤ d + 1 → endsAssignment (firstKind i) = true →
      Gives (unaryOf (nestedAt d)) (op :: ts ++ i) i (Alike t)) : Reread t := by
  have hkinds : startsExpression op.kind = true ∧ op.kind ≠ .id ∧ op.kind ≠ .lparen := by
    revert hop
    cases op.kind <;> first | decide | exact nofun
  obtain ⟨hstarts, hid, hparen⟩ := hkinds
  refine of_castOf ⟨op, ts, htokens, hstarts⟩ (fun i _ => ?_) fun d i hd hi => ?_
  · rw [htokens]
    by_cases hstar : op.kind = .asterisk
    · exact assignmentAhead_of_star hstar (namesAhead_none ((hts i).resolve_right (absurd hstar)))
    · exact assignmentAhead_of_first (by simpa using hstar) (by simpa using hid)
  · rw [htokens]
    refine .bind (castAhead_of_first (by simpa using hparen)) fun b hb => .ifFalse (by simp [hb]) ?_
    exact h d i hd hi

theorem prefixed {e : Tree} (n : Nat) (he : Reread e) (hop : isPrefixOperator op.kind = true)
    (hamp : op.kind = .ampersand → ∃ k j, e = .var k j ∧ k.kind = .id) :
    Reread (.unary op e true n) := by
  have hdone {a : Tree} (ha : Alike e a) : Alike (.unary op e true n) (.unary op a true 1) := by
    simp only [Alike, erased] at ha ⊢
    rw [ha]
  refine of_unaryOf rfl hop (fun i => ?_) fun d i hd hi => ?_
  · by_cases h : op.kind = .ampersand
    · right
      simp [h]
    · left
      simp only [h, if_false]
      exact nofun
  refine .token ?_
  simp only [tokens, List.length_cons] at hd
  simp only [List.cons_append, first_cons]
  split
  case h_1 hk | h_2 hk =>
    simp only [hk, reduceCtorEq, if_false, length_enclose] at hd ⊢
    refine .advance (.bind (primaryOf_enclosed (he.inner d (by omega)) ?_) fun a ha => ?_)
    · rintro h
      simp [h, endsAssignment] at hi
    · exact .line (.pure (hdone ha))
  case h_3 hk =>
    obtain ⟨k, j, rfl, hid⟩ := hamp hk
    simp only [hk, if_true]
    refine .advance (.bind (variableName_gives hid) fun a ha => .line (.pure (hdone ?_)))
    rw [ha]
    rfl
  case h_4 hk | h_5 hk | h_6 hk | h_7 hk =>
    simp only [hk, reduceCtorEq, if_false, length_enclose] at hd ⊢
    refine .advance (.bind (he.nested .cast (by omega) hi) fun a ha => ?_)
    exact .line (.pure (hdone ha))
  case h_8 h₁ h₂ h₃ h₄ h₅ h₆ h₇ =>
    revert hop
    cases hk : op.kind <;> first | contradiction | exact nofun

theorem postfixed {e : Tree} (n : Nat) (he : Reread e) (hop : isPostfixOperator op.kind = true) :
    Reread (.unary op e false n) := by
  refine of_castOf (starts_enclose rfl) (fun i _ => ?_) fun d i hd hi => ?_
  · rw [tokens, List.append_assoc]
    exact assignmentAhead_enclose _ _
  simp only [tokens, List.length_append, length_enclose, List.length_singleton] at hd
  rw [tokens, List.append_assoc, List.singleton_append]
  have hahead : Gives castAhead (enclose e.tokens ++ op :: i) (enclose e.tokens ++ op :: i)
      (· = false) := by
    obtain ⟨k, ts, hts, hk⟩ := he.starts
    rw [enclose_append, hts]
    exact castAhead_of_second rfl (isTypeSpecifier_of_startsExpression hk)
  refine .bind hahead fun b hb => .ifFalse (by simp [hb]) (.token ?_)
  have hdot : firstKind (op :: i) ≠ .dot := by
    rintro h
    rw [firstKind_cons] at h
    simp [h, isPostfixOperator] at hop
  refine .bind (primaryOf_enclosed (he.inner d (by omega)) hdot) fun a ha => .token ?_
  rw [first_cons]
  split
  case h_1 | h_2 =>
    refine .advance (.line (.pure ?_))
    simp only [Alike, erased] at ha ⊢
    rw [ha]
  case h_3 hk | h_4 hk | h_5 hk =>
    rw [hk] at hop
    cases hop
  case h_6 h₁ h₂ _ _ _ =>
    revert hop
    cases hk : op.kind <;> first | contradiction | exact nofun

theorem castAhead_of_words {ty : CType} (hty : ty.Spelled) (hpointer : ty.pointer = false)
    (i : List Token) :
    Gives castAhead (enclose (VarType.number ty).tokens ++ i)
      (enclose (VarType.number ty).tokens ++ i) (· = true) := by
  have htype : (VarType.number ty).tokens = ty.kinds.map ofKind := by
    simp [VarType.tokens, VarType.isPointer, hpointer]
  have hkinds : ∀ k ∈ ty.kinds, k.isTypeSpecifier = true := fun k => CType.isTypeSpecifier_of_mem_kinds
  obtain ⟨k, ts, hts, hk⟩ := tokens_number hty
  rw [enclose_append]
  refine .lookahead (j := ofKind .rparen :: i) ?_
  refine .kind (.ifTrue rfl (.advance (.kind (.ifFalse ?_ ?_))))
  · simp [hts, hk]
  · rw [htype]
    exact .bind (specifiers_kinds hkinds rfl) fun _ _ => .kind (.pure rfl)

theorem cast {e : Tree} {ty : CType} (m n : Nat) (hty : ty.Spelled) (hpointer : ty.pointer = false)
    (he : Reread e) : Reread (.cast (.typeName (.number ty) m) e true n) := by
  refine of_castOf (starts_enclose rfl) (fun i _ => ?_) fun d i hd hi => ?_
  · rw [tokens, List.append_assoc]
    exact assignmentAhead_enclose _ _
  simp only [tokens, List.length_append, length_enclose] at hd
  rw [tokens, List.append_assoc, typeTokens]
  refine .bind (castAhead_of_words hty hpointer _) fun b hb => .ifTrue hb ?_
  rw [enclose_append]
  refine .eat rfl ?_
  refine .bind (numberType_gives hty rfl nofun) fun u hu => .eat rfl ?_
  refine .bind (he.nested .cast (by omega) hi) fun a ha => .line (.pure ?_)
  rw [hu]
  simp only [Alike, erased] at ha ⊢
  rw [ha]

theorem ternary {c a b : Tree} (n : Nat) (hc : Reread c) (ha : Reread a) (hb : Reread b) :
    Reread (.ternary c a b n) := by
  refine of_assignmentOf (starts_enclose rfl) fun d i hd hi => ?_
  simp only [tokens, List.length_append, List.length_cons, length_enclose] at hd
  simp only [tokens, List.append_assoc, List.cons_append]
  refine assignmentOf_of_conditionalOf (assignmentAhead_enclose _ _) ?_
  have hmark : (ofKind .questionMark).kind ∉ levels.flatten := by decide
  refine .bind (binaryOf_operand (hc.castOf (by omega) rfl) hmark) fun u hu => ?_
  refine .kind (.ifTrue rfl (.advance ?_))
  refine .bind (expressionOf_of_assignment (ha.nested .assignment (by omega) rfl) rfl) fun v hv => ?_
  refine .eat rfl (.bind (hb.nested .conditional (by omega) hi) fun w hw => .line (.pure ?_))
  simp only [Alike, erased] at hu hv hw ⊢
  rw [hu, hv, hw]

theorem of_isAssignment {k : Kind} (h : k.isAssignment = true) :
    goesOnTarget k = false ∧ goesOnOperand k = false := by
  cases k <;> first | decide | cases h

theorem assignmentAhead_target (ht : IsTarget t) (hp : t.Writable)
    (hop : op.kind.isAssignment = true) :
    Gives assignmentAhead (t.targetTokens ++ op :: i) (t.targetTokens ++ op :: i) (· = true) := by
  have htarget : goesOnTarget (firstKind (op :: i)) = false := (of_isAssignment hop).1
  cases ht with
  | var k n =>
    have hk := (hp _ (.self _)).2
    exact assignmentAhead_of_names (by simp [hk, targetTokens])
      (hop ▸ namesAhead_name hk htarget)
  | pointed o k j n ho =>
    have hk := (lexed_of_var hp List.mem_cons_self).2
    exact assignmentAhead_of_star ho (hop ▸ namesAhead_name hk htarget)
  | field o b m j l n =>
    have hb := (lexed_of_var hp List.mem_cons_self).2
    have hm := (lexed_of_var hp (.tail _ List.mem_cons_self)).2
    exact assignmentAhead_of_names (by simp [hb, targetTokens])
      (hop ▸ namesAhead_field (o := ofKind o) hb hm (hp _ (.self _)) htarget)

theorem primaryOf_target {nested : Nested → Parser Tree} (ht : IsTarget t) (hp : t.Writable)
    (hop : op.kind.isAssignment = true) :
    Gives (primaryOf nested) (t.targetTokens ++ op :: i) (op :: i) (Alike t) := by
  cases ht with
  | var k n =>
    have hk := (hp _ (.self _)).2
    refine primaryOf_name hk ((variableOrField_var hk ?_).weaken ?_)
    · exact ne_dot_arrow_of_goesOnOperand (of_isAssignment hop).2
    · rintro u rfl
      rfl
  | pointed o k j n ho =>
    have hk := (lexed_of_var hp List.mem_cons_self).2
    refine .token ?_
    simp only [targetTokens, List.cons_append, List.nil_append, first_cons, ho]
    refine .advance (.bind (variableName_gives hk) fun v hv => .line (.pure ?_))
    rw [hv]
    rfl
  | field o b m j l n =>
    have hb := (lexed_of_var hp List.mem_cons_self).2
    have hm := (lexed_of_var hp (.tail _ List.mem_cons_self)).2
    refine primaryOf_name hb
      ((variableOrField_field (o := ofKind o) hb hm (hp _ (.self _))).weaken ?_)
    rintro u rfl
    rfl

theorem starts_target (ht : IsTarget t) (hp : t.Writable) :
    ∃ k ts, t.targetTokens = k :: ts ∧ startsExpression k.kind = true := by
  cases ht with
  | var k n =>
    have hk := (hp _ (.self _)).2
    exact ⟨k, _, rfl, by rw [hk]; rfl⟩
  | pointed o k j n ho => exact ⟨o, _, rfl, by rw [ho]; rfl⟩
  | field o b m j l n =>
    have hb := (lexed_of_var hp List.mem_cons_self).2
    exact ⟨b, _, rfl, by rw [hb]; rfl⟩

theorem assign {v : Tree} (n : Nat) (ht : IsTarget t) (hp : t.Writable)
    (hop : op.kind.isAssignment = true) (hv : Reread v) : Reread (.assign t op v n) := by
  obtain ⟨k, ts, hts, hk⟩ := starts_target ht hp
  refine of_assignmentOf ⟨k, ts ++ op :: enclose v.tokens, by rw [tokens, hts]; rfl, hk⟩
    fun d i hd hi => ?_
  simp only [tokens, List.length_append, List.length_cons, length_enclose] at hd
  rw [tokens, List.append_assoc, List.cons_append]
  refine .bind (assignmentAhead_target ht hp hop) fun b hb => .ifTrue hb ?_
  refine .bind (primaryOf_target ht hp hop) fun u hu => .token (.ifTrue hop (.advance ?_))
  refine .bind (hv.nested .assignment (by omega) hi) fun w hw => .line (.pure ?_)
  simp only [Alike, erased] at hu hw ⊢
  rw [hu, hw, first_cons]

/-- Arguments, or the parts of a sequence. -/
theorem commaList {e : Tree} {es : List Tree} (hes : ∀ a ∈ e :: es, Reread a)
    (hd : (commas (tokensEach (e :: es))).length ≤ d) (hi : endsExpression (firstKind i) = true) :
    Gives (Parser.commaList (nestedAt d .assignment)) (commas (tokensEach (e :: es)) ++ i) i
      (List.Forall₂ Alike (e :: es)) := by
  obtain ⟨hends, hcomma⟩ := endsAssignment_of_endsExpression hi
  rw [tokensEach_eq] at hd ⊢
  refine commaList_gives (F := fun k => endsAssignment k = true) (fun a ha j hj => ?_) rfl hcomma
    hends
  refine (hes a ha).nested .assignment ?_ hj
  have hmem : enclose a.tokens ∈ (e :: es).map fun a => enclose a.tokens :=
    List.mem_map_of_mem ha
  have hlen := length_le_commas hmem
  rw [length_enclose] at hlen
  omega

theorem erasedAll_of_alike {ts us : List Tree} (h : List.Forall₂ Alike ts us) :
    erasedAll us = erasedAll ts := by
  induction h with
  | nil => rfl
  | cons h _ ih => rw [erasedAll, erasedAll, h, ih]

theorem sequence {cs : List Tree} (n : Nat) (hcs : ∀ c ∈ cs, Reread c) (hlen : 2 ≤ cs.length) :
    Reread (.sequence cs n) := by
  obtain ⟨a, b, cs, rfl⟩ : ∃ a b cs', cs = a :: b :: cs' := by
    match cs, hlen with
    | a :: b :: cs', _ => exact ⟨a, b, cs', rfl⟩
  refine ⟨⟨ofKind .lparen, _, rfl, rfl⟩, fun d hd i hi => ?_⟩
  rw [tokens] at hd ⊢
  refine .bind (commaList hcs hd hi) fun us hus => ?_
  have herased := erasedAll_of_alike hus
  cases hus with
  | cons _ hus =>
    cases hus with
    | cons _ _ =>
      refine .line (.pure ?_)
      simp only [Alike, erased]
      rw [herased]

theorem call {f : String} {args : List Tree} (n : Nat) (hargs : ∀ a ∈ args, Reread a) :
    Reread (.call f args n) := by
  refine of_castOf ⟨ofName f, _, rfl, rfl⟩ (fun i _ => ?_) fun d i hd hi => ?_
  · exact assignmentAhead_of_names (by rintro ⟨⟩) (namesAhead_name rfl rfl)
  simp only [tokens, List.length_cons, length_enclose] at hd
  rw [tokens, List.cons_append, enclose_append]
  refine castOf_of_postfixOf (by rintro ⟨⟩) rfl ?_
  refine .bind (primaryOf_name rfl (variableOrField_var rfl ⟨nofun, nofun⟩)) fun v hv => ?_
  subst hv
  refine .token (.advance ?_)
  cases args with
  | nil =>
    refine .kind (.ifTrue rfl (.bind (.pure (P := (· = [])) rfl) fun as has => .eat rfl ?_))
    subst has
    exact .line (.pure rfl)
  | cons a args =>
    refine .kind (.ifFalse ?_ (.bind (commaList hargs (by omega) rfl) fun us hus => ?_))
    · rw [tokensEach, commas_cons]
      rintro ⟨⟩
    · refine .eat rfl (.line (.pure ?_))
      simp only [Alike, erased]
      rw [erasedAll_of_alike hus]
      rfl

end Reread

theorem reread {t : Tree} (ht : Grammatical .expression t) (hp : t.Writable) :
    Reread t := by
  generalize hk : Category.expression = k at ht
  induction ht with
  | num _ n => exact .num n (hp _ (.self _)).2
  | string _ n => exact .string n (hp _ (.self _)).2
  | var _ n => exact .var n (hp _ (.self _)).2
  | field _ _ _ i j n =>
    exact .field i j n (lexed_of_var hp List.mem_cons_self).2
      (lexed_of_var hp (.tail _ List.mem_cons_self)).2 (hp _ (.self _))
  | binary _ n _ _ _ hl hr =>
    have hop := (hp _ (.self _)).2
    exact .binary n (hl (hp.part List.mem_cons_self) hk)
      (hr (hp.part (.tail _ List.mem_cons_self)) hk) hop
  | unary op b n ho _ he =>
    have hop := (hp _ (.self _))
    have he := he (hp.part List.mem_cons_self) hk
    cases b with
    | false => exact .postfixed n he hop.2
    | true =>
      refine .prefixed n he hop.2 fun h => ?_
      obtain ⟨k, i, rfl⟩ := ho h
      exact ⟨k, i, rfl, (lexed_of_var hp List.mem_cons_self).2⟩
  | cast b n _ _ _ he =>
    obtain ⟨rfl, ty, m, rfl, hpointer⟩ := hp _ (.self _)
    have hty : ty.Spelled := hp (.typeName (.number ty) m) (.part List.mem_cons_self (.self _))
    exact .cast m n hty hpointer (he (hp.part (.tail _ List.mem_cons_self)) hk)
  | ternary n _ _ _ hc ha hb =>
    exact .ternary n (hc (hp.part List.mem_cons_self) hk)
      (ha (hp.part (.tail _ List.mem_cons_self)) hk)
      (hb (hp.part (.tail _ (.tail _ List.mem_cons_self))) hk)
  | assign op n _ _ _ hv =>
    obtain ⟨-, hop, htarget⟩ := hp _ (.self _)
    exact .assign n htarget (hp.part List.mem_cons_self) hop
      (hv (hp.part (.tail _ List.mem_cons_self)) hk)
  | sequence n _ hc => exact .sequence n (fun c h => hc c h (hp.part h) hk) (hp _ (.self _))
  | call f n _ ha => exact .call n fun a h => ha a h (hp.part h) hk
  | _ => cases hk

end Grammar

end MiniC
