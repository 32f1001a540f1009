import MiniC.Proofs.Enclosing

/-!
# Precedence of binary operators

A chain of operands with binary operators between them can be grouped in many ways. One of them
keeps to the levels: what stands to the left of an operator has none that is looser, and what stands
to the right has only tighter ones. There is no other such grouping, since its topmost operator is
the last one of the loosest level in the chain. The rules of the ten levels find it. Each of them
reads operands that belong to tighter levels, and groups to the left what it finds between them; the
induction goes from the tightest level to the loosest, and at each level along the chain.
-/

namespace MiniC.Grammar

open MiniC.Parser Tree

/-! ## Chains and their groupings -/

/-- An integer constant, or an expression in parentheses, and the tree as which it is read. -/
inductive Atom : List Token → Tree → Prop
  | constant {k : Token} (hk : k.kind = .integerConst) : Atom [k] (.num k 1)
  | enclosed {l r : Token} {w : List Token} {e : Tree} (hl : l.kind = .lparen)
      (hw : Gives expression w [] (· = e)) (hr : r.kind = .rparen) : Atom (l :: (w ++ [r])) e

structure ChainOperand where
  tokens : List Token
  tree : Tree
  atom : Atom tokens tree

structure ChainOperator where
  token : Token
  level : Nat
  mem : token.kind ∈ operators level

abbrev Links := List (ChainOperator × ChainOperand)

structure Chain where
  first : ChainOperand
  rest : Links

def Links.tokens (links : Links) : List Token :=
  links.flatMap fun x => x.1.token :: x.2.tokens

def Chain.tokens (c : Chain) : List Token :=
  c.first.tokens ++ Links.tokens c.rest

inductive Grouping where
  | leaf (e : ChainOperand)
  | node (left : Grouping) (op : ChainOperator) (right : Grouping)

namespace Grouping

def reading : Grouping → Chain
  | leaf e => ⟨e, []⟩
  | node l op r => ⟨l.reading.first, l.reading.rest ++ (op, r.reading.first) :: r.reading.rest⟩

def tree : Grouping → Tree
  | leaf e => e.tree
  | node l op r => .binary l.tree op.token r.tree 1

/-- It is an operand, or the operator at its top is of the level or of a tighter one. -/
def AtLeast (level : Nat) : Grouping → Prop
  | leaf _ => True
  | node _ op _ => level ≤ op.level

/-- The left side of each operator is an operand or has an operator of the same or a tighter level
at its top, and the right side is an operand or has one of a tighter level there. -/
def Grouped : Grouping → Prop
  | leaf _ => True
  | node l op r => l.AtLeast op.level ∧ r.AtLeast (op.level + 1) ∧ l.Grouped ∧ r.Grouped

variable {g g' : Grouping}

/-- In a grouping by levels, the topmost operator is a loosest one. -/
theorem Grouped.le_of_mem (h : g.Grouped) {level : Nat} (hl : g.AtLeast level)
    {x : ChainOperator × ChainOperand} (hx : x ∈ g.reading.rest) : level ≤ x.1.level := by
  induction g generalizing level with
  | leaf e => cases hx
  | node l op r ihl ihr =>
    obtain ⟨hleft, hright, hgl, hgr⟩ := h
    have hl : level ≤ op.level := hl
    obtain hx | hx := List.mem_append.1 hx
    · exact hl.trans (ihl hgl hleft hx)
    · obtain rfl | hx := List.mem_cons.1 hx
      · exact hl
      · have hlt := ihr hgr hright hx
        omega

end Grouping

/-- Only one operator of a chain has none that is looser to its left, and only tighter ones to its
right. -/
theorem Links.split_unique {l l' r r' : Links} {x x' : ChainOperator × ChainOperand}
    (h : l ++ x :: r = l' ++ x' :: r') (hl : ∀ y ∈ l, x.1.level ≤ y.1.level)
    (hr : ∀ y ∈ r, x.1.level < y.1.level) (hl' : ∀ y ∈ l', x'.1.level ≤ y.1.level)
    (hr' : ∀ y ∈ r', x'.1.level < y.1.level) : l = l' ∧ x = x' ∧ r = r' := by
  -- An operator between the two would have to be both looser and not looser than the other.
  have hbetween {l r : Links} {x x' : ChainOperator × ChainOperand} {as r' : Links}
      (hcut : x :: r = as ++ x' :: r') (hr : ∀ y ∈ r, x.1.level < y.1.level)
      (hl' : ∀ y ∈ l ++ as, x'.1.level ≤ y.1.level) : as = [] := by
    cases as with
    | nil => rfl
    | cons y as =>
      obtain ⟨rfl, rfl⟩ := List.cons.inj hcut
      have h₁ := hr x' (by simp)
      have h₂ := hl' x (by simp)
      omega
  obtain ⟨as, rfl, hcut⟩ | ⟨as, rfl, hcut⟩ := List.append_eq_append_iff.1 h
  · obtain rfl := hbetween hcut hr hl'
    obtain ⟨rfl, rfl⟩ := List.cons.inj hcut
    simp
  · obtain rfl := hbetween hcut hr' hl
    obtain ⟨rfl, rfl⟩ := List.cons.inj hcut
    simp

/-- A chain can be grouped by levels in one way only. -/
theorem Grouping.eq_of_reading {g g' : Grouping} (hg : g.Grouped) (hg' : g'.Grouped)
    (h : g.reading = g'.reading) : g = g' := by
  induction g generalizing g' with
  | leaf e =>
    cases g' with
    | leaf e' => rw [(Chain.mk.inj h).1]
    | node l' op' r' => simp [reading] at h
  | node l op r ihl ihr =>
    cases g' with
    | leaf e' => simp [reading] at h
    | node l' op' r' =>
      obtain ⟨hleft, hright, hgl, hgr⟩ := hg
      obtain ⟨hleft', hright', hgl', hgr'⟩ := hg'
      obtain ⟨hfirst, hrest⟩ := Chain.mk.inj h
      obtain ⟨hl, hx, hr⟩ := Links.split_unique hrest (fun y hy => hgl.le_of_mem hleft hy)
        (fun y hy => hgr.le_of_mem hright hy) (fun y hy => hgl'.le_of_mem hleft' hy)
        (fun y hy => hgr'.le_of_mem hright' hy)
      obtain ⟨rfl, he⟩ := Prod.mk.inj hx
      rw [ihl hgl hgl' (congrArg₂ Chain.mk hfirst hl), ihr hgr hgr' (congrArg₂ Chain.mk he hr)]

/-! ## The rules of the levels -/

theorem Links.exists_split {level : Nat} {links : Links} (h : ∀ x ∈ links, level ≤ x.1.level) :
    ∃ tight more, links = tight ++ more ∧ (∀ x ∈ tight, level + 1 ≤ x.1.level) ∧
      ∀ x ∈ more.head?, x.1.level = level := by
  induction links with
  | nil => exact ⟨[], [], rfl, List.forall_mem_nil _, by simp⟩
  | cons x links ih =>
    obtain ⟨hx, hlinks⟩ := List.forall_mem_cons.1 h
    obtain heq | hlt := hx.eq_or_lt
    · exact ⟨[], x :: links, rfl, List.forall_mem_nil _, by simp [heq]⟩
    · obtain ⟨tight, more, rfl, htight, hmore⟩ := ih hlinks
      exact ⟨x :: tight, more, rfl, List.forall_mem_cons.2 ⟨hlt, htight⟩, hmore⟩

theorem Links.tokens_start {level : Nat} {links : Links}
    (h : ∀ x ∈ links.head?, x.1.level = level) :
    links.tokens = [] ∨ firstKind links.tokens ∈ operators level := by
  cases links with
  | nil => exact .inl rfl
  | cons x links =>
    obtain rfl : x.1.level = level := h x rfl
    exact .inr x.1.mem

theorem Links.tokens_cons_append (x : ChainOperator × ChainOperand) (tight more : Links)
    (i : List Token) : Links.tokens (x :: (tight ++ more)) ++ i =
      x.1.token :: (Chain.tokens ⟨x.2, tight⟩ ++ (more.tokens ++ i)) := by
  simp [Links.tokens, Chain.tokens]

theorem Chain.tokens_append (e : ChainOperand) (tight more : Links) (i : List Token) :
    Chain.tokens ⟨e, tight ++ more⟩ ++ i = Chain.tokens ⟨e, tight⟩ ++ (more.tokens ++ i) := by
  simp [Links.tokens, Chain.tokens]

theorem Links.length_le_tokens (links : Links) : links.length ≤ links.tokens.length :=
  length_le_flatMap fun _ _ => List.cons_ne_nil _ _

def ChainOperand.ReadBy (operand : Parser Tree) (e : ChainOperand) : Prop :=
  ∀ i, goesOnOperand (firstKind i) = false → Gives operand (e.tokens ++ i) i (· = e.tree)

/-- The tree of a grouping of a chain by levels, of which the given one may be the loosest. -/
def IsGrouping (level : Nat) (c : Chain) (t : Tree) : Prop :=
  ∃ g : Grouping, g.Grouped ∧ g.AtLeast level ∧ g.reading = c ∧ t = g.tree

/-- A rule reads the chains of the levels from one on, up to a token that does not go on with them.
-/
def ReadsFrom (level : Nat) (operand p : Parser Tree) : Prop :=
  ∀ c : Chain, (∀ x ∈ c.rest, level ≤ x.1.level) → c.first.ReadBy operand →
    (∀ x ∈ c.rest, x.2.ReadBy operand) →
    ∀ i, goesOnOperand (firstKind i) = false → firstKind i ∉ (levels.drop level).flatten →
      Gives p (c.tokens ++ i) i (IsGrouping level c)

theorem Grouping.AtLeast.weaken {g : Grouping} {level tighter : Nat} (h : g.AtLeast tighter)
    (hl : level ≤ tighter) : g.AtLeast level := by
  cases g with
  | leaf => trivial
  | node l op r => exact hl.trans h

section

variable {operand p : Parser Tree} {level : Nat} {i : List Token}

/-- The loop of a level, behind what has been grouped already. -/
theorem chainFrom_grouped (hl : level < 10) (hp : ReadsFrom (level + 1) operand p)
    (hgo : goesOnOperand (firstKind i) = false) (hi : firstKind i ∉ (levels.drop level).flatten)
    {links : Links} (hstart : ∀ x ∈ links.head?, x.1.level = level)
    (hlinks : ∀ x ∈ links, level ≤ x.1.level) (hread : ∀ x ∈ links, x.2.ReadBy operand)
    {fuel : Nat} (hfuel : links.length < fuel) {g : Grouping} (hg : g.Grouped)
    (hlevel : g.AtLeast level) :
    Gives (chainFrom (fun k => (operators level).contains k) p fuel g.tree) (links.tokens ++ i) i
      (IsGrouping level ⟨g.reading.first, g.reading.rest ++ links⟩) := by
  induction fuel generalizing links g with
  | zero => cases hfuel
  | succ fuel ih =>
    cases links with
    | nil =>
      refine .token (.ifFalse ?_ (.pure ⟨g, hg, hlevel, by simp, rfl⟩))
      rw [List.contains_iff_mem]
      exact fun h => hi (mem_levels_drop h)
    | cons x links =>
      obtain rfl : x.1.level = level := hstart x rfl
      obtain ⟨-, hlinks⟩ := List.forall_mem_cons.1 hlinks
      obtain ⟨hx, hread⟩ := List.forall_mem_cons.1 hread
      obtain ⟨tight, more, rfl, htight, hmore⟩ := Links.exists_split hlinks
      rw [List.forall_mem_append] at hlinks hread
      rw [List.length_cons, List.length_append] at hfuel
      obtain ⟨hgo', hi'⟩ := behind_operand (Links.tokens_start hmore) hgo hi
      have hright := hp ⟨x.2, tight⟩ htight hx hread.1 (more.tokens ++ i) hgo' hi'
      rw [Links.tokens_cons_append]
      refine .token (.ifTrue ?_ (.advance (.bind hright fun t ht => .line ?_)))
      · exact List.contains_iff_mem.2 x.1.mem
      obtain ⟨r, hr, htighter, hreading, rfl⟩ := ht
      have hnode : (Grouping.node g x.1 r).Grouped := ⟨hlevel, htighter, hg, hr⟩
      have hrest := ih hmore hlinks.2 hread.2 (by omega) hnode (Nat.le_refl x.1.level)
      simp only [Grouping.reading, hreading, List.append_assoc, List.cons_append] at hrest
      exact hrest

/-- The rules of the levels from one on group their chains by levels. -/
theorem binaryOf_grouped (hl : level ≤ 10) :
    ReadsFrom level operand (binaryOf (levels.drop level) operand) := by
  induction hl using Nat.decreasingInduction with
  | self =>
    rintro ⟨e, rest⟩ hlevels he - i hgo -
    obtain rfl : rest = [] := List.eq_nil_iff_forall_not_mem.2 fun x hx => by
      have hge := hlevels x hx
      have hlt := lt_of_mem_operators x.1.mem
      omega
    have hsingle : Chain.tokens ⟨e, []⟩ = e.tokens := List.append_nil _
    rw [hsingle]
    exact (he i hgo).weaken fun t ht => ⟨.leaf e, trivial, trivial, rfl, ht⟩
  | of_succ level hl ih =>
    rintro ⟨e, rest⟩ hlevels he hread i hgo hi
    obtain ⟨tight, more, rfl, htight, hmore⟩ := Links.exists_split hlevels
    rw [List.forall_mem_append] at hlevels hread
    obtain ⟨hgo', hi'⟩ := behind_operand (Links.tokens_start hmore) hgo hi
    rw [drop_levels hl, Chain.tokens_append]
    refine .bind (ih ⟨e, tight⟩ htight he hread.1 _ hgo' hi') fun t ht => .left ?_
    obtain ⟨g, hg, htighter, hreading, rfl⟩ := ht
    have hfuel : more.length < (more.tokens ++ i).length + 1 := by
      have hlen := more.length_le_tokens
      rw [List.length_append]
      omega
    have hloop := chainFrom_grouped hl ih hgo hi hmore hlevels.2 hread.2 hfuel hg
      (htighter.weaken (Nat.le_succ level))
    rwa [hreading] at hloop

end

/-! ## Chains as expressions -/

theorem Atom.starts {w : List Token} {e : Tree} (h : Atom w e) (i : List Token) :
    firstKind (w ++ i) ≠ .asterisk ∧ firstKind (w ++ i) ≠ .id := by
  cases h with
  | constant hk => simp [hk]
  | enclosed hl => simp [hl]

/-- An operand is read by the rule for operands, at every depth that its tokens allow for. -/
theorem ChainOperand.readBy (e : ChainOperand) {d : Nat} (hd : e.tokens.length ≤ d + 1) :
    e.ReadBy (castOf (nestedAt d)) := by
  obtain ⟨w, e, hatom⟩ := e
  intro i hi
  cases hatom with
  | constant hk =>
    refine castOf_of_postfixOf (by simp [hk]) (by simp [hk, isPrefixOperator]) ?_
    exact postfixOf_of_primaryOf (primaryOf_constant (by simp [hk, isConstant])) hi
  | @enclosed l r w _ hl hw hr =>
    simp only [List.length_cons, List.length_append, List.length_nil] at hd
    have hinner := expression_enclosed hw (c := r :: i) hr (d := d) (by omega)
    have htokens : l :: (w ++ [r]) ++ i = l :: (w ++ r :: i) := by simp
    rw [htokens]
    refine castOf_of_startsPlain (startsPlain_paren hl _ (startsExpression_of_gives hw)) ?_
    refine postfixOf_of_primaryOf (primaryOf_paren hl hr hinner ?_) hi
    exact (ne_dot_arrow_of_goesOnOperand hi).1

theorem Links.length_le_of_mem {links : Links} {x : ChainOperator × ChainOperand} (hx : x ∈ links) :
    x.2.tokens.length ≤ links.tokens.length := by
  have hsub : (x.1.token :: x.2.tokens).Sublist links.tokens := by
    rw [Links.tokens, List.flatMap_def]
    exact List.sublist_flatten_of_mem (List.mem_map_of_mem hx)
  have hlen := hsub.length_le
  rw [List.length_cons] at hlen
  omega

/-- A chain is read to its end, and it is grouped by levels. -/
theorem Chain.gives (c : Chain) : Gives expression c.tokens [] (IsGrouping 0 c) := by
  refine .left ?_
  have hlen : c.tokens.length = c.first.tokens.length + c.rest.tokens.length :=
    List.length_append
  have hfirst : c.first.ReadBy (castOf (nestedAt c.tokens.length)) :=
    c.first.readBy (by omega)
  have hrest (x : ChainOperator × ChainOperand) (hx : x ∈ c.rest) :
      x.2.ReadBy (castOf (nestedAt c.tokens.length)) := by
    have hle := Links.length_le_of_mem hx
    exact x.2.readBy (by omega)
  have hchain := binaryOf_grouped (Nat.zero_le 10) c (fun _ _ => Nat.zero_le _) hfirst hrest [] rfl
    (by decide)
  rw [List.append_nil] at hchain
  have hassignment : Gives (nestedAt (c.tokens.length + 1) .assignment) c.tokens []
      (IsGrouping 0 c) := by
    obtain ⟨hstar, hid⟩ := c.first.atom.starts c.rest.tokens
    refine assignmentOf_of_conditionalOf (assignmentAhead_of_first hstar hid) ?_
    exact .bind hchain fun t ht => .kind (.ifFalse nofun (.pure ht))
  exact expressionOf_of_assignment hassignment rfl

end MiniC.Grammar

namespace MiniC

open Grammar

/-- A text that is a chain of operands with binary operators between them is read to its end, as the
tree of the only grouping of the chain in which the levels are kept to. -/
theorem chain_grouped_by_levels {code : String} {c : Chain}
    (hcode : (Stream.ofText code).tokens = .ok (c.tokens ++ [Token.eof])) :
    ∃ t n g, Parser.start Grammar.expression (Stream.ofText code) = .ok (t, .done n) ∧
      t.oneLine = g.tree ∧ g.Grouped ∧ g.reading = c ∧
      ∀ g' : Grouping, g'.Grouped → g'.reading = c → g' = g := by
  obtain ⟨t, n, hread, g, hg, -, hreading, htree⟩ := c.gives.start_oneLine expression_mirrors hcode
  refine ⟨t, n, g, hread, htree, hg, hreading, fun g' hg' hreading' => ?_⟩
  exact Grouping.eq_of_reading hg' hg (hreading'.trans hreading.symm)

def Grammar.ChainOperand.ofInt (n : Int) : ChainOperand :=
  ⟨[⟨.integerConst, .int n⟩], .num ⟨.integerConst, .int n⟩ 1, .constant rfl⟩

/-- Operators of five levels, one of them twice, and a sequence in parentheses. -/
theorem chain_grouped_by_levels_mixed : ∃ (c : Chain) (t : Tree) (n : Nat),
    (Stream.ofText "1 && 2 || (x = 3, 4) - 5 - 6 * 7 < 8").tokens = .ok (c.tokens ++ [Token.eof]) ∧
    Parser.start Grammar.expression (Stream.ofText "1 && 2 || (x = 3, 4) - 5 - 6 * 7 < 8") =
      .ok (t, .done n) ∧
    t.oneLine = .binary (ChainOperand.ofInt 1).tree (.ofKind .logAndOp)
      (.binary (ChainOperand.ofInt 2).tree (.ofKind .logOrOp)
        (.binary
          (.binary
            (.binary
              (.sequence
                [.assign (.var (.ofName "x") 1) (.ofKind .assign) (ChainOperand.ofInt 3).tree 1,
                  (ChainOperand.ofInt 4).tree] 1)
              (.ofKind .minus) (ChainOperand.ofInt 5).tree 1)
            (.ofKind .minus)
            (.binary (ChainOperand.ofInt 6).tree (.ofKind .asterisk) (ChainOperand.ofInt 7).tree
              1) 1)
          (.ofKind .ltOp) (ChainOperand.ofInt 8).tree 1) 1) 1 := by
  have hatom : Atom (.ofKind .lparen :: ([.ofName "x", .ofKind .assign, ⟨.integerConst, .int 3⟩,
      .ofKind .comma, ⟨.integerConst, .int 4⟩] ++ [.ofKind .rparen])) _ :=
    .enclosed rfl ⟨_, rfl, rfl⟩ rfl
  let g : Grouping := .node (.leaf (.ofInt 1)) ⟨.ofKind .logAndOp, 0, by decide⟩
    (.node (.leaf (.ofInt 2)) ⟨.ofKind .logOrOp, 1, by decide⟩
      (.node
        (.node (.node (.leaf ⟨_, _, hatom⟩) ⟨.ofKind .minus, 8, by decide⟩ (.leaf (.ofInt 5)))
          ⟨.ofKind .minus, 8, by decide⟩
          (.node (.leaf (.ofInt 6)) ⟨.ofKind .asterisk, 9, by decide⟩ (.leaf (.ofInt 7))))
        ⟨.ofKind .ltOp, 6, by decide⟩ (.leaf (.ofInt 8))))
  have hgrouped : g.Grouped := by simp [g, Grouping.Grouped, Grouping.AtLeast]
  have hcode : (Stream.ofText "1 && 2 || (x = 3, 4) - 5 - 6 * 7 < 8").tokens =
      .ok (g.reading.tokens ++ [Token.eof]) := rfl
  obtain ⟨t, n, g', hread, htree, -, -, hunique⟩ := chain_grouped_by_levels hcode
  refine ⟨g.reading, t, n, hcode, hread, ?_⟩
  rw [htree, ← hunique g hgrouped rfl]
  rfl

end MiniC
