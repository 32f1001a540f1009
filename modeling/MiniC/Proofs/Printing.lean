import MiniC.Grammar.Expression
import MiniC.Proofs.Lexemes
import MiniC.Proofs.Shape

/-!
# Writing programs

A program tree is written as a list of tokens, and a list of tokens as a text. Operands of operators
and casts, arguments, initial values and conditions are put in parentheses; assignment targets, the
variable behind an ampersand and the two names of a field are not. Every `if` has an `else`, every
variable a declaration of its own, and types are spelled with all their words. `Built` collects what
the grammar gives to the trees that it builds, beyond the categories of their parts: the kinds of
their tokens, the names, and the types that can be spelled. `erased` forgets where a tree was read:
the lines, and the marks by which structure types written at different places are told apart.
-/

namespace MiniC

namespace Token

def ofKind (k : Kind) : Token :=
  ⟨k, .text (((operators.find? (·.kind == k)).map (·.value)).getD
    (((keywords.find? (·.2 == k)).map Prod.fst).getD ""))⟩

def ofName (w : String) : Token := ⟨.id, .text w⟩

def IsName (w : String) : Prop := (ofName w).Lexed

def enclose (ts : List Token) : List Token :=
  ofKind .lparen :: (ts ++ [ofKind .rparen])

def commas : List (List Token) → List Token
  | [] => []
  | [ts] => ts
  | ts :: tss => ts ++ ofKind .comma :: commas tss

def fixedKinds : List Kind :=
  operators.map (·.kind) ++ keywords.map Prod.snd

end Token

/-! ## Types -/

def Sign.kinds : Option Sign → List Kind
  | some signed => [.kwSigned]
  | some unsigned => [.kwUnsigned]
  | none => []

def Length.kinds : Option Length → List Kind
  | some short => [.kwShort]
  | some long => [.kwLong]
  | some longLong => [.kwLong, .kwLong]
  | none => []

def Base.kinds : Option Base → List Kind
  | some char => [.kwChar]
  | some int => [.kwInt]
  | some float => [.kwFloat]
  | some double => [.kwDouble]
  | none => []

def CType.kinds (t : CType) : List Kind :=
  Sign.kinds t.sign ++ (Length.kinds t.length ++ Base.kinds t.base)

theorem CType.isTypeSpecifier_of_mem_kinds {t : CType} {k : Kind} (hk : k ∈ t.kinds) :
    k.isTypeSpecifier = true := by
  have hsign (s : Option Sign) : ∀ k ∈ Sign.kinds s, k.isTypeSpecifier = true := by
    rcases s with _ | s
    · decide
    · cases s <;> decide
  have hlength (l : Option Length) : ∀ k ∈ Length.kinds l, k.isTypeSpecifier = true := by
    rcases l with _ | l
    · decide
    · cases l <;> decide
  have hbase (b : Option Base) : ∀ k ∈ Base.kinds b, k.isTypeSpecifier = true := by
    rcases b with _ | b
    · decide
    · cases b <;> decide
  simp only [CType.kinds, List.mem_append] at hk
  obtain hk | hk | hk := hk
  · exact hsign _ k hk
  · exact hlength _ k hk
  · exact hbase _ k hk

/-- Types that can be spelled: there is a base or a length, and a base to point to. -/
def CType.Spelled (t : CType) : Prop :=
  (t.length.isSome ∨ t.base.isSome) ∧ (t.pointer = true → t.base.isSome)

namespace VarType

def isPointer : VarType → Bool
  | number t => t.pointer
  | struct t => t.pointer

def tokens (t : VarType) : List Token :=
  (match t with
    | number t => t.kinds.map Token.ofKind
    | struct t => [Token.ofKind .kwStruct, Token.ofName t.name]) ++
  if t.isPointer then [Token.ofKind .asterisk] else []

def Proper : VarType → Prop
  | number t => t.Spelled
  | struct t => Token.IsName t.name

def erased : VarType → VarType
  | number t => number t
  | struct t => struct ⟨t.name, t.pointer, 0⟩

end VarType

namespace Tree

open Token

/-! ## Trees without places -/

mutual

@[simp]
def erased : Tree → Tree
  | absent => absent
  | noOp _ => noOp 0
  | num t _ => num t 0
  | string t _ => string t 0
  | var t _ => var t 0
  | typeName t _ => typeName t.erased 0
  | structName t _ => structName t.erased 0
  | binary l op r _ => binary l.erased op r.erased 0
  | unary op e b _ => unary op e.erased b 0
  | cast t e b _ => cast t.erased e.erased b 0
  | ternary c a b _ => ternary c.erased a.erased b.erased 0
  | assign t op v _ => assign t.erased op v.erased 0
  | sequence cs _ => sequence (erasedAll cs) 0
  | call f args _ => call f (erasedAll args) 0
  | field op b m _ => field op b.erased m.erased 0
  | switch s cs _ => switch s.erased (erasedAll cs) 0
  | caseLabel v _ => caseLabel v.erased 0
  | defaultLabel _ => defaultLabel 0
  | ifElse c a b _ => ifElse c.erased a.erased b.erased 0
  | forLoop s c i b _ => forLoop s.erased c.erased i.erased b.erased 0
  | whileLoop c b _ => whileLoop c.erased b.erased 0
  | doWhile c b _ => doWhile c.erased b.erased 0
  | returning v _ => returning v.erased 0
  | breaking _ => breaking 0
  | continuing _ => continuing 0
  | block cs _ => block (erasedAll cs) 0
  | body cs _ => body (erasedAll cs) 0
  | program cs _ => program (erasedAll cs) 0
  | varDecl v t _ => varDecl v.erased t.erased 0
  | param t v _ => param t.erased v.erased 0
  | structDecl s fields _ _ => structDecl s (fields.map fun f => (f.1, f.2.erased)) 0 0
  | library l _ => library l 0
  | function t f ps b _ => function t.erased f (erasedAll ps) b.erased 0

@[simp]
def erasedAll : List Tree → List Tree
  | [] => []
  | t :: ts => t.erased :: erasedAll ts

end

/-! ## Expressions -/

def typeTokens : Tree → List Token
  | typeName t _ => t.tokens
  | structName t _ => t.tokens
  | _ => []

def targetTokens : Tree → List Token
  | var t _ => [t]
  | unary op (var t _) _ _ => [op, t]
  | field op (var b _) (var m _) _ => [b, ofKind op, m]
  | _ => []

mutual

/-- The tokens of an expression; there are none where no expression stands. -/
@[simp]
def tokens : Tree → List Token
  | num t _ => [t]
  | string t _ => [t]
  | var t _ => [t]
  | binary l op r _ => enclose l.tokens ++ op :: enclose r.tokens
  | unary op e true _ => op :: if op.kind = .ampersand then e.tokens else enclose e.tokens
  | unary op e false _ => enclose e.tokens ++ [op]
  | cast t e _ _ => enclose t.typeTokens ++ enclose e.tokens
  | ternary c a b _ =>
    enclose c.tokens ++ ofKind .questionMark ::
      (enclose a.tokens ++ ofKind .colon :: enclose b.tokens)
  | assign t op v _ => t.targetTokens ++ op :: enclose v.tokens
  | sequence cs _ => commas (tokensEach cs)
  | call f args _ => ofName f :: enclose (commas (tokensEach args))
  | field op b m n => targetTokens (field op b m n)
  | _ => []

@[simp]
def tokensEach : List Tree → List (List Token)
  | [] => []
  | t :: ts => enclose t.tokens :: tokensEach ts

end

theorem tokensEach_eq (ts : List Tree) : tokensEach ts = ts.map fun t => enclose t.tokens := by
  induction ts with
  | nil => rfl
  | cons t ts ih => rw [tokensEach, ih, List.map_cons]

/-! ## Statements and declarations -/

def conditionTokens : Tree → List Token
  | noOp _ => []
  | c => enclose c.tokens

def fieldTokens (f : String × VarType) : List Token :=
  f.2.tokens ++ [ofName f.1, ofKind .semicolon]

def paramTokens : Tree → List Token
  | param t v _ => t.typeTokens ++ v.tokens
  | _ => []

def braces (ts : List Token) : List Token :=
  ofKind .lbracket :: (ts ++ [ofKind .rbracket])

mutual

def sentence : Tree → List Token
  | ifElse c a b _ =>
    ofKind .kwIf :: (enclose c.tokens ++ (a.sentence ++ ofKind .kwElse :: b.sentence))
  | switch s cs _ => ofKind .kwSwitch :: (enclose s.tokens ++ braces (sentences cs))
  | forLoop s c i b _ =>
    ofKind .kwFor :: (enclose (s.tokens ++ ofKind .semicolon ::
      (c.conditionTokens ++ ofKind .semicolon :: i.tokens)) ++ b.sentence)
  | whileLoop c b _ => ofKind .kwWhile :: (enclose c.tokens ++ b.sentence)
  | doWhile c b _ =>
    ofKind .kwDo :: (b.sentence ++ ofKind .kwWhile :: (enclose c.tokens ++ [ofKind .semicolon]))
  | returning v _ => ofKind .kwReturn :: (v.tokens ++ [ofKind .semicolon])
  | breaking _ => [ofKind .kwBreak, ofKind .semicolon]
  | continuing _ => [ofKind .kwContinue, ofKind .semicolon]
  | block cs _ => braces (sentences cs)
  | body cs _ => braces (sentences cs)
  | caseLabel v _ => ofKind .kwCase :: (v.tokens ++ [ofKind .colon])
  | defaultLabel _ => [ofKind .kwDefault, ofKind .colon]
  | varDecl v t _ => t.typeTokens ++ (v.tokens ++ [ofKind .semicolon])
  | structDecl s fields _ _ =>
    ofKind .kwStruct :: ofName s :: (braces (fields.flatMap fieldTokens) ++ [ofKind .semicolon])
  | library l _ =>
    [ofKind .hash, ofName "include", ofKind .ltOp, ofName l, ofKind .dot, ofName "h", ofKind .gtOp]
  | function t f ps b _ =>
    t.typeTokens ++ ofName f :: (enclose (commas (ps.map paramTokens)) ++ b.sentence)
  | t => t.tokens ++ [ofKind .semicolon]

def sentences : List Tree → List Token
  | [] => []
  | t :: ts => t.sentence ++ sentences ts

end

theorem sentences_eq (ts : List Tree) : sentences ts = ts.flatMap sentence := by
  induction ts with
  | nil => rfl
  | cons t ts ih => rw [sentences, ih, List.flatMap_cons]

/-! ## Programs -/

/-- The declarations at the top of a program, each variable together with its initial value. -/
def groups : List Tree → List (List Tree)
  | [] => []
  | varDecl v t n :: assign w op e m :: ts => [varDecl v t n, assign w op e m] :: groups ts
  | t :: ts => [t] :: groups ts

def groupTokens : List Tree → List Token
  | [varDecl v t _, assign _ op e _] =>
    t.typeTokens ++ (v.tokens ++ op :: (enclose e.tokens ++ [ofKind .semicolon]))
  | ts => ts.flatMap sentence

def programTokens : Tree → List Token
  | program cs _ => (groups cs).flatMap groupTokens
  | _ => []

def render (numeral : Float → List Char) (t : Tree) : String :=
  String.ofList (Token.text numeral t.programTokens)

theorem flatten_groups (ts : List Tree) : (groups ts).flatten = ts := by
  fun_induction groups ts with
  | case1 => rfl
  | case2 v t n w op e m ts ih => simp [ih]
  | case3 t ts _ ih => simp [ih]

theorem mem_of_mem_groups {cs ts : List Tree} {t : Tree} (hts : ts ∈ groups cs) (ht : t ∈ ts) :
    t ∈ cs := by
  rw [← flatten_groups cs]
  exact List.mem_flatten.2 ⟨ts, hts, ht⟩

/-! ## The trees that the grammar builds -/

inductive IsTarget : Tree → Prop where
  | var (t : Token) (n : Nat) : IsTarget (.var t n)
  | pointed (op t : Token) (i n : Nat) (ho : op.kind = .asterisk) :
      IsTarget (.unary op (.var t i) true n)
  | field (op : Kind) (b m : Token) (i j n : Nat) : IsTarget (.field op (.var b i) (.var m j) n)

/-- At the top of a program, an assignment stands behind the declaration of its variable. -/
inductive Attached : List Tree → Prop where
  | nil : Attached []
  | initialized {v op : Token} {t e : Tree} {i j m n : Nat} {ts : List Tree}
      (ho : op.kind = .assign) (hts : Attached ts) :
      Attached (varDecl (.var v i) t m :: assign (.var v j) op e n :: ts)
  | cons {t : Tree} {ts : List Tree} (ht : t.isTopLevel = true) (hts : Attached ts) :
      Attached (t :: ts)

def isPrefixOperator : Kind → Bool
  | .incOp | .decOp | .ampersand | .asterisk | .plus | .minus | .logNeg => true
  | _ => false

def isPostfixOperator : Kind → Bool
  | .incOp | .decOp => true
  | _ => false

def isConstant : Kind → Bool
  | .charConst | .integerConst | .realConst => true
  | _ => false

/-- What the grammar gives to a node beyond the categories of its parts. -/
def Proper : Tree → Prop
  | num t _ => t.Lexed ∧ isConstant t.kind = true
  | string t _ => t.Lexed ∧ t.kind = .string
  | var t _ => t.Lexed ∧ t.kind = .id
  | binary _ op _ _ => op.Lexed ∧ op.kind ∈ Grammar.levels.flatten
  | unary op _ true _ => op.Lexed ∧ isPrefixOperator op.kind = true
  | unary op _ false _ => op.Lexed ∧ isPostfixOperator op.kind = true
  | cast t _ b _ => b = true ∧ ∃ ty n, t = typeName (.number ty) n ∧ ty.pointer = false
  | assign t op _ _ => op.Lexed ∧ op.kind.isAssignment = true ∧ IsTarget t
  | sequence cs _ => 2 ≤ cs.length
  | call f _ _ => IsName f
  | field op _ _ _ => op = .dot ∨ op = .arrow
  | typeName t _ => t.Proper
  | structName t _ => t.Proper
  | structDecl s fields _ _ =>
    IsName s ∧ (fields.map Prod.fst).Nodup ∧ ∀ f ∈ fields, IsName f.1 ∧ f.2.Proper
  | library l _ => IsName l
  | function _ f _ _ _ => IsName f
  | program cs _ => Attached cs
  | _ => True

def Writable (t : Tree) : Prop :=
  ∀ u, Within u t → u.Proper

structure Built (k : Category) (t : Tree) : Prop where
  grammatical : Grammatical k t
  writable : t.Writable

end Tree

/-! ## The tokens that are written can be read -/

namespace Token

/-- All tokens of a list are read from some text, and none of them ends it. -/
def Legible (ts : List Token) : Prop :=
  ∀ t ∈ ts, t.Lexed ∧ t.kind ≠ .eof

theorem lexed_of_readsAs {cs : List Char} {t : Token} (h : ReadsAs cs t) : t.Lexed :=
  ⟨_, _, h [] 1⟩

theorem lexed_ofKind {k : Kind} (hk : k ∈ fixedKinds) : (ofKind k).Lexed := by
  have hoperators : ∀ o ∈ operators, ofKind o.kind = ⟨o.kind, .text o.value⟩ := by decide +kernel
  have hwords : ∀ w ∈ keywords, ofKind w.2 = ofWord (String.ofList w.1.toList) ∧
      (w.1.toList.head?.any fun c => !Text.isBlank c && Text.isLetter c) = true ∧
        w.1.toList.all Source.isWordChar = true := by decide +kernel
  obtain h | h := List.mem_append.1 hk
  · obtain ⟨o, ho, rfl⟩ := List.mem_map.1 h
    rw [hoperators o ho]
    exact lexed_of_readsAs (Source.operator_readsAs ho)
  · obtain ⟨w, hw, rfl⟩ := List.mem_map.1 h
    obtain ⟨hof, hstart, hchars⟩ := hwords w hw
    obtain ⟨c, hc, hletter⟩ := (Option.any_eq_true ..).1 hstart
    obtain ⟨cs, hcs⟩ := List.head?_eq_some_iff.1 hc
    rw [hcs] at hof hchars
    rw [Bool.and_eq_true, Bool.not_eq_true'] at hletter
    rw [hof]
    exact lexed_of_readsAs
      (Source.word_readsAs hletter.2 (List.all_eq_true.1 hchars))

theorem isName_of_letters {c : Char} {cs : List Char} (hl : Text.isLetter c = true)
    (hw : ∀ d ∈ c :: cs, Source.isWordChar d = true)
    (hword : keywords.lookup (String.ofList (c :: cs)) = none) : IsName (String.ofList (c :: cs)) := by
  have h := lexed_of_readsAs (Source.word_readsAs hl hw)
  rwa [ofWord, hword] at h

theorem isName_include : IsName "include" :=
  @isName_of_letters 'i' ['n', 'c', 'l', 'u', 'd', 'e'] (by decide)
    (List.all_eq_true.1 (by decide)) (by decide)

theorem isName_h : IsName "h" :=
  @isName_of_letters 'h' [] (by decide) (List.all_eq_true.1 (by decide)) (by decide)

theorem mem_fixedKinds {k : Kind} (hk : k.isTypeSpecifier = true) : k ∈ fixedKinds := by
  cases k <;> first | decide | cases hk

theorem ne_eof_of_fixed {k : Kind} (hk : k ∈ fixedKinds) : k ≠ .eof := by
  rintro rfl
  exact absurd hk (by decide)

namespace Legible

variable {ts us : List Token} {t : Token}

theorem nil : Legible [] :=
  List.forall_mem_nil _

theorem cons (ht : t.Lexed) (hk : t.kind ≠ .eof) (hts : Legible ts) : Legible (t :: ts) :=
  List.forall_mem_cons.2 ⟨⟨ht, hk⟩, hts⟩

theorem ofClass {P : Kind → Bool} (ht : t.Lexed) (hk : P t.kind = true) (heof : P .eof = false)
    (hts : Legible ts) : Legible (t :: ts) := by
  refine .cons ht (fun h => ?_) hts
  rw [h, heof] at hk
  cases hk

theorem kind {k : Kind} (hk : k ∈ fixedKinds) (hts : Legible ts) : Legible (ofKind k :: ts) :=
  .cons (lexed_ofKind hk) (ne_eof_of_fixed hk) hts

theorem name {w : String} (hw : IsName w) (hts : Legible ts) : Legible (ofName w :: ts) :=
  .cons hw nofun hts

theorem append (hts : Legible ts) (hus : Legible us) : Legible (ts ++ us) :=
  List.forall_mem_append.2 ⟨hts, hus⟩

theorem enclose (hts : Legible ts) : Legible (enclose ts) :=
  .kind (by decide) (hts.append (.kind (by decide) .nil))

theorem braces (hts : Legible ts) : Legible (Tree.braces ts) :=
  .kind (by decide) (hts.append (.kind (by decide) .nil))

theorem flatMap {γ : Type} {xs : List γ} {w : γ → List Token} (h : ∀ x ∈ xs, Legible (w x)) :
    Legible (xs.flatMap w) := by
  intro t ht
  obtain ⟨x, hx, ht⟩ := List.mem_flatMap.1 ht
  exact h x hx t ht

theorem commas {tss : List (List Token)} (h : ∀ ts ∈ tss, Legible ts) : Legible (commas tss) := by
  fun_induction Token.commas tss with
  | case1 => exact .nil
  | case2 ts => exact h ts List.mem_cons_self
  | case3 ts tss _ ih =>
    obtain ⟨hts, htss⟩ := List.forall_mem_cons.1 h
    exact hts.append (.kind (by decide) (ih htss))

end Legible

end Token

open Token

theorem VarType.legible_tokens {t : VarType} (ht : t.Proper) : Legible t.tokens := by
  have hstar : Legible (if t.isPointer then [ofKind .asterisk] else []) := by
    split
    · exact .kind (by decide) .nil
    · exact .nil
  cases t with
  | struct t => exact .append (.kind (by decide) (.name ht .nil)) hstar
  | number t =>
    refine .append (fun u hu => ?_) hstar
    obtain ⟨k, hk, rfl⟩ := List.mem_map.1 hu
    have hfixed := mem_fixedKinds (CType.isTypeSpecifier_of_mem_kinds hk)
    exact ⟨lexed_ofKind hfixed, ne_eof_of_fixed hfixed⟩

namespace Tree

variable {t : Tree} (hp : t.Writable)

include hp

theorem Writable.part {u : Tree} (hu : u ∈ t.parts) : u.Writable :=
  fun w hw => hp w (hw.trans (.part hu (.self t)))

theorem lexed_of_var {k : Token} {n : Nat} (hk : .var k n ∈ t.parts) : k.Lexed ∧ k.kind = .id :=
  hp (.var k n) (.part hk (.self t))

theorem legible_var {k : Token} {n : Nat} (hk : .var k n ∈ t.parts) {ts : List Token}
    (hts : Legible ts) : Legible (k :: ts) := by
  obtain ⟨hlexed, hid⟩ := lexed_of_var hp hk
  exact .cons hlexed (by simp [hid]) hts

theorem legible_typeTokens : Legible t.typeTokens := by
  have ht := hp t (.self t)
  unfold typeTokens
  split
  · exact VarType.legible_tokens ht
  · exact VarType.legible_tokens ht
  · exact .nil

theorem legible_targetTokens (ht : IsTarget t) : Legible t.targetTokens := by
  have hself := hp t (.self t)
  cases ht with
  | var k n => exact .cons hself.1 (by simp [hself.2]) .nil
  | pointed op k i n ho =>
    exact .cons hself.1 (by simp [ho]) (legible_var hp List.mem_cons_self .nil)
  | field op b m i j n =>
    have hop : op ∈ fixedKinds := by obtain rfl | rfl := hself <;> decide
    exact legible_var hp List.mem_cons_self
      (.kind hop (legible_var hp (.tail _ List.mem_cons_self) .nil))

omit hp in
theorem legible_tokensEach {ts : List Tree} (h : ∀ t ∈ ts, Legible t.tokens) :
    Legible (commas (tokensEach ts)) := by
  rw [tokensEach_eq]
  refine .commas fun us hus => ?_
  obtain ⟨t, ht, rfl⟩ := List.mem_map.1 hus
  exact (h t ht).enclose

theorem legible_assign {w e : Tree} {op : Token} {n : Nat} (h : t = .assign w op e n)
    (he : Legible e.tokens) : Legible t.tokens := by
  subst h
  obtain ⟨hop, hassign, htarget⟩ := hp _ (.self _)
  refine .append (legible_targetTokens (hp.part List.mem_cons_self) htarget) ?_
  exact .ofClass hop hassign rfl he.enclose

omit hp in
theorem legible_conditionTokens (h : Legible t.tokens) : Legible t.conditionTokens := by
  unfold conditionTokens
  split
  · exact .nil
  · exact h.enclose

omit hp in
theorem legible_sentences {ts : List Tree} (h : ∀ t ∈ ts, Legible t.sentence) :
    Legible (sentences ts) := by
  rw [sentences_eq]
  exact .flatMap h

theorem legible_tokens {k : Category} (ht : Grammatical k t) : Legible t.tokens := by
  induction ht with
  | num k n => exact .ofClass (hp _ (.self _)).1 (hp _ (.self _)).2 rfl .nil
  | string k n | var k n =>
    obtain ⟨hlexed, hkind⟩ := hp _ (.self _)
    exact .cons hlexed (by simp [hkind]) .nil
  | @binary l r op n _ _ _ hl hr =>
    obtain ⟨hop, hkind⟩ := hp _ (.self _)
    have hl := hl (hp.part List.mem_cons_self)
    have hr := hr (hp.part (.tail _ List.mem_cons_self))
    refine .append hl.enclose (.cons hop (fun h => ?_) hr.enclose)
    rw [h] at hkind
    exact absurd hkind (by decide)
  | @unary e op b n _ _ he =>
    have hop := hp _ (.self _)
    have he := he (hp.part List.mem_cons_self)
    cases b with
    | false => exact .append he.enclose (.ofClass hop.1 hop.2 rfl .nil)
    | true =>
      refine .ofClass hop.1 hop.2 rfl ?_
      split
      · exact he
      · exact he.enclose
  | @cast t e b n _ _ _ he =>
    have htype := legible_typeTokens (hp.part (u := t) List.mem_cons_self)
    have he := he (hp.part (.tail _ List.mem_cons_self))
    exact .append htype.enclose he.enclose
  | @ternary c a b n _ _ _ hc ha hb =>
    have hc := hc (hp.part List.mem_cons_self)
    have ha := ha (hp.part (.tail _ List.mem_cons_self))
    have hb := hb (hp.part (.tail _ (.tail _ List.mem_cons_self)))
    refine .append hc.enclose (.kind (by decide) (.append ha.enclose ?_))
    exact .kind (by decide) hb.enclose
  | @assign t v op n _ _ _ hv =>
    exact legible_assign hp rfl (hv (hp.part (.tail _ List.mem_cons_self)))
  | @initializer e v op i n _ he =>
    exact legible_assign hp rfl (he (hp.part (.tail _ List.mem_cons_self)))
  | @sequence cs n _ hc => exact legible_tokensEach fun c h => hc c h (hp.part h)
  | @call args f n _ ha =>
    have hargs := legible_tokensEach fun a h => ha a h (hp.part h)
    exact .name (hp _ (.self _)) hargs.enclose
  | field op b m i j n => exact legible_targetTokens hp (.field op b m i j n)
  | ofExpression _ ih | simple _ ih | ofStatement _ ih | ofDeclaration _ ih | ofItem _ ih
  | declared _ ih => exact ih hp
  | _ => exact .nil

theorem legible_params {ps : List Tree} (hps : ∀ p ∈ ps, p ∈ t.parts ∧ p.Grammatical .parameter) :
    Legible (commas (ps.map paramTokens)) := by
  refine .commas fun ts hts => ?_
  obtain ⟨p, hmem, rfl⟩ := List.mem_map.1 hts
  obtain ⟨hpart, hparam⟩ := hps p hmem
  have hproper := hp.part hpart
  cases hparam with
  | param v i m _ =>
    refine (legible_typeTokens (hproper.part (.tail _ List.mem_cons_self))).append ?_
    exact legible_var hproper List.mem_cons_self .nil

theorem legible_sentence {k : Category} (ht : Grammatical k t) : Legible t.sentence := by
  have hend {ts : List Token} (hts : Legible ts) : Legible (ts ++ [ofKind .semicolon]) :=
    hts.append (.kind (by decide) .nil)
  induction ht with
  -- an expression and its semicolon
  | num k n => exact hend (legible_tokens hp (.num k n))
  | string k n => exact hend (legible_tokens hp (.string k n))
  | var k n => exact hend (legible_tokens hp (.var k n))
  | binary op n ho hl hr => exact hend (legible_tokens hp (.binary op n ho hl hr))
  | unary op b n ho he => exact hend (legible_tokens hp (.unary op b n ho he))
  | cast b n ht he => exact hend (legible_tokens hp (.cast b n ht he))
  | ternary n hc ha hb => exact hend (legible_tokens hp (.ternary n hc ha hb))
  | assign op n ht hv => exact hend (legible_tokens hp (.assign op n ht hv))
  | initializer v op i n he => exact hend (legible_tokens hp (.initializer v op i n he))
  | sequence n hc => exact hend (legible_tokens hp (.sequence n hc))
  | call f n ha => exact hend (legible_tokens hp (.call f n ha))
  | field op b m i j n => exact hend (legible_tokens hp (.field op b m i j n))
  | absentExpression | typeName | structName | param | program => exact .kind (by decide) .nil
  | ofExpression _ ih | simple _ ih | ofStatement _ ih | ofDeclaration _ ih | ofItem _ ih
  | declared _ ih => exact ih hp
  | @varDecl t v i n _ _ =>
    have htype := legible_typeTokens (hp.part (u := t) (.tail _ List.mem_cons_self))
    exact .append htype (legible_var hp List.mem_cons_self (.kind (by decide) .nil))
  | structDecl s fields mark n =>
    obtain ⟨hs, -, hfields⟩ := hp _ (.self _)
    refine .kind (by decide) (.name hs (.append (.braces (.flatMap fun f hf => ?_)) ?_))
    · obtain ⟨hname, htype⟩ := hfields f hf
      exact .append (VarType.legible_tokens htype) (.name hname (.kind (by decide) .nil))
    · exact .kind (by decide) .nil
  | @switch s cs n hs _ _ hc =>
    have hs := legible_tokens (hp.part List.mem_cons_self) hs
    have hcs := legible_sentences fun c h => hc c h (hp.part (.tail _ h))
    exact .kind (by decide) (hs.enclose.append hcs.braces)
  | @ifElse c a b n hc _ _ _ ha hb =>
    have hc := legible_tokens (hp.part List.mem_cons_self) hc
    have ha := ha (hp.part (.tail _ List.mem_cons_self))
    have hb := hb (hp.part (.tail _ (.tail _ List.mem_cons_self)))
    exact .kind (by decide) (hc.enclose.append (ha.append (.kind (by decide) hb)))
  | @forLoop s c i b n hs hc hi _ _ _ _ hb =>
    have hs := legible_tokens (hp.part List.mem_cons_self) hs
    have hc := legible_tokens (hp.part (.tail _ List.mem_cons_self)) hc
    have hi := legible_tokens (hp.part (.tail _ (.tail _ List.mem_cons_self))) hi
    have hb := hb (hp.part (.tail _ (.tail _ (.tail _ List.mem_cons_self))))
    have hhead : Legible (s.tokens ++ ofKind .semicolon ::
        (c.conditionTokens ++ ofKind .semicolon :: i.tokens)) := by
      refine hs.append (.kind (by decide) (.append (legible_conditionTokens hc) ?_))
      exact .kind (by decide) hi
    exact .kind (by decide) (hhead.enclose.append hb)
  | @whileLoop c b n hc _ _ hb =>
    have hc := legible_tokens (hp.part List.mem_cons_self) hc
    have hb := hb (hp.part (.tail _ List.mem_cons_self))
    exact .kind (by decide) (hc.enclose.append hb)
  | @doWhile c b n hc _ _ hb =>
    have hc := legible_tokens (hp.part List.mem_cons_self) hc
    have hb := hb (hp.part (.tail _ List.mem_cons_self))
    exact .kind (by decide) (hb.append (.kind (by decide) (hend hc.enclose)))
  | @returning v n hv _ =>
    have hv := legible_tokens (hp.part List.mem_cons_self) hv
    exact .kind (by decide) (hend hv)
  | breaking | continuing | defaultLabel => exact .kind (by decide) (.kind (by decide) .nil)
  | @block cs n _ hc | @body cs n _ hc =>
    have hcs := legible_sentences fun c h => hc c h (hp.part h)
    exact hcs.braces
  | @caseLabel v n hv _ =>
    have hv := legible_tokens (hp.part List.mem_cons_self) hv
    exact .kind (by decide) (hv.append (.kind (by decide) .nil))
  | library l n =>
    have hl : IsName l := hp _ (.self _)
    have htail : Legible [ofName "h", ofKind .gtOp] := .name isName_h (.kind (by decide) .nil)
    have hname : Legible (ofName l :: ofKind .dot :: [ofName "h", ofKind .gtOp]) :=
      .name hl (.kind (by decide) htail)
    exact .kind (by decide) (.name isName_include (.kind (by decide) hname))
  | @function t b ps f n _ hparams _ _ _ hb =>
    have htype := legible_typeTokens (hp.part (u := t) List.mem_cons_self)
    have hb := hb (hp.part (.tail _ List.mem_cons_self))
    have hps := legible_params hp fun p h => ⟨.tail _ (.tail _ h), hparams p h⟩
    exact htype.append (.name (hp _ (.self _)) (hps.enclose.append hb))

omit hp in
theorem Built.legible_programTokens {t : Tree} (ht : t.Built .program) :
    Legible t.programTokens := by
  obtain ⟨hgram, hp⟩ := ht
  cases hgram with
  | @program cs n hcs =>
    refine .flatMap fun ts hts => ?_
    have hmem : ∀ t ∈ ts, t ∈ cs := fun t ht => mem_of_mem_groups hts ht
    unfold groupTokens
    split
    · next v ty m w op e n' =>
      have hdecl := hmem _ List.mem_cons_self
      have hassign := hmem _ (.tail _ List.mem_cons_self)
      -- all these tokens stand in the declaration without the value or in the assignment
      have hvar := legible_sentence (hp.part hdecl) (hcs _ hdecl)
      have hvalue := legible_tokens (hp.part hassign) (hcs _ hassign)
      obtain ⟨htype, hvar⟩ := List.forall_mem_append.1 hvar
      obtain ⟨hname, hsemicolon⟩ := List.forall_mem_append.1 hvar
      obtain ⟨-, hvalue⟩ := List.forall_mem_append.1 hvalue
      exact .append htype (.append hname (.append hvalue hsemicolon))
    · exact .flatMap fun t ht => legible_sentence (hp.part (hmem t ht)) (hcs t (hmem t ht))

end Tree

end MiniC
