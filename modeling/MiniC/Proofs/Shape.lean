import MiniC.Tree.Basic

/-!
# Shapes of trees

Trees can be put together freely, but the grammar builds only some of them. `Grammatical k t` says
that `t` is a tree of the category `k`: the categories are those of the grammar, and a tree of a
category is made from trees of the categories that the grammar asks for. `Within t p` says that `t`
stands somewhere in `p`. Whatever stands in a grammatical tree is grammatical.
-/

namespace MiniC.Tree

variable {t u : Tree} {k : Category}

def parts : Tree → List Tree
  | binary l _ r _ => [l, r]
  | unary _ e _ _ => [e]
  | cast t e _ _ => [t, e]
  | ternary c a b _ => [c, a, b]
  | assign t _ v _ => [t, v]
  | sequence cs _ => cs
  | call _ args _ => args
  | field _ b m _ => [b, m]
  | switch s cs _ => s :: cs
  | caseLabel v _ => [v]
  | ifElse c a b _ => [c, a, b]
  | forLoop s c i b _ => [s, c, i, b]
  | whileLoop c b _ => [c, b]
  | doWhile c b _ => [c, b]
  | returning v _ => [v]
  | block cs _ => cs
  | body cs _ => cs
  | program cs _ => cs
  | varDecl v t _ => [v, t]
  | param t v _ => [v, t]
  | function t _ ps b _ => t :: b :: ps
  | _ => []

theorem sizeOf_lt_of_mem_parts (h : u ∈ t.parts) : sizeOf u < sizeOf t := by
  have hlist {u : Tree} {us : List Tree} (hu : u ∈ us) : sizeOf u < sizeOf us :=
    List.sizeOf_lt_of_mem hu
  cases t <;> simp only [parts, List.mem_cons, List.not_mem_nil, or_false] at h
  case sequence | call | block | body | program =>
    have := hlist h
    simp only [sequence.sizeOf_spec, call.sizeOf_spec, block.sizeOf_spec, body.sizeOf_spec,
      program.sizeOf_spec]
    omega
  case switch =>
    obtain rfl | h := h
    · simp only [switch.sizeOf_spec]
      omega
    · have := hlist h
      simp only [switch.sizeOf_spec]
      omega
  case function =>
    obtain rfl | rfl | h := h
    · simp only [function.sizeOf_spec]
      omega
    · simp only [function.sizeOf_spec]
      omega
    · have := hlist h
      simp only [function.sizeOf_spec]
      omega
  case unary | caseLabel | returning =>
    subst h
    simp only [unary.sizeOf_spec, caseLabel.sizeOf_spec, returning.sizeOf_spec]
    omega
  case binary | cast | assign | field | whileLoop | doWhile | varDecl | param =>
    obtain rfl | rfl := h <;> simp only [binary.sizeOf_spec, cast.sizeOf_spec, assign.sizeOf_spec,
      field.sizeOf_spec, whileLoop.sizeOf_spec, doWhile.sizeOf_spec, varDecl.sizeOf_spec,
      param.sizeOf_spec] <;> omega
  case ternary | ifElse =>
    obtain rfl | rfl | rfl := h <;> simp only [ternary.sizeOf_spec, ifElse.sizeOf_spec] <;> omega
  case forLoop =>
    obtain rfl | rfl | rfl | rfl := h <;> simp only [forLoop.sizeOf_spec] <;> omega

/-- What holds of a tree if it holds of its parts holds of every tree. -/
theorem parts_induction {P : Tree → Prop} (h : ∀ t : Tree, (∀ u ∈ t.parts, P u) → P t) (t : Tree) :
    P t := by
  induction hn : sizeOf t using Nat.strongRecOn generalizing t with
  | ind n ih =>
    subst hn
    exact h t fun u hu => ih (sizeOf u) (sizeOf_lt_of_mem_parts hu) u rfl

/-- A tree stands somewhere in another one, or is the other one. -/
inductive Within : Tree → Tree → Prop
  | self (t : Tree) : Within t t
  | part {t u p : Tree} (ht : t ∈ u.parts) (hu : Within u p) : Within t p

inductive Category where
  | expression
  /-- An expression, or nothing where one could stand. -/
  | optional
  | typeName
  | declaration
  | statement
  /-- A statement or a declaration in braces. -/
  | item
  /-- An item or a label in the braces of a switch. -/
  | switchItem
  | parameter
  | functionBody
  | topLevel
  | program
  deriving DecidableEq

inductive Grammatical : Category → Tree → Prop
  | num (k : Token) (n : Nat) : Grammatical .expression (.num k n)
  | string (k : Token) (n : Nat) : Grammatical .expression (.string k n)
  | var (k : Token) (n : Nat) : Grammatical .expression (.var k n)
  | binary {l r : Tree} (op : Token) (n : Nat) (ho : op.kind ≠ .arrow)
      (hl : Grammatical .expression l) (hr : Grammatical .expression r) :
      Grammatical .expression (.binary l op r n)
  | unary {e : Tree} (op : Token) (b : Bool) (n : Nat)
      (ho : op.kind = .ampersand → ∃ k i, e = .var k i) (he : Grammatical .expression e) :
      Grammatical .expression (.unary op e b n)
  | cast {t e : Tree} (b : Bool) (n : Nat) (ht : Grammatical .typeName t)
      (he : Grammatical .expression e) : Grammatical .expression (.cast t e b n)
  | ternary {c a b : Tree} (n : Nat) (hc : Grammatical .expression c)
      (ha : Grammatical .expression a) (hb : Grammatical .expression b) :
      Grammatical .expression (.ternary c a b n)
  | assign {t v : Tree} (op : Token) (n : Nat) (ht : Grammatical .expression t)
      (hv : Grammatical .expression v) : Grammatical .expression (.assign t op v n)
  | sequence {cs : List Tree} (n : Nat) (hc : ∀ c ∈ cs, Grammatical .expression c) :
      Grammatical .expression (.sequence cs n)
  | call {args : List Tree} (f : String) (n : Nat) (ha : ∀ a ∈ args, Grammatical .expression a) :
      Grammatical .expression (.call f args n)
  | field (op : Kind) (b m : Token) (i j n : Nat) :
      Grammatical .expression (.field op (.var b i) (.var m j) n)
  | absentExpression (n : Nat) : Grammatical .optional (.noOp n)
  | ofExpression {e : Tree} (he : Grammatical .expression e) : Grammatical .optional e
  | typeName (t : CType) (n : Nat) : Grammatical .typeName (.typeName (.number t) n)
  | structName (t : StructType) (n : Nat) : Grammatical .typeName (.structName (.struct t) n)
  | varDecl {t : Tree} (v : Token) (i n : Nat) (ht : Grammatical .typeName t) :
      Grammatical .declaration (.varDecl (.var v i) t n)
  | structDecl (s : String) (fields : Table VarType) (mark n : Nat) :
      Grammatical .declaration (.structDecl s fields mark n)
  | initializer {e : Tree} (v op : Token) (i n : Nat) (he : Grammatical .expression e) :
      Grammatical .declaration (.assign (.var v i) op e n)
  | simple {e : Tree} (he : Grammatical .optional e) : Grammatical .statement e
  | switch {s : Tree} {cs : List Tree} (n : Nat) (hs : Grammatical .expression s)
      (hc : ∀ c ∈ cs, Grammatical .switchItem c) : Grammatical .statement (.switch s cs n)
  | ifElse {c a b : Tree} (n : Nat) (hc : Grammatical .expression c) (ha : Grammatical .statement a)
      (hb : Grammatical .statement b) : Grammatical .statement (.ifElse c a b n)
  | forLoop {s c i b : Tree} (n : Nat) (hs : Grammatical .optional s) (hc : Grammatical .optional c)
      (hi : Grammatical .optional i) (hb : Grammatical .statement b) :
      Grammatical .statement (.forLoop s c i b n)
  | whileLoop {c b : Tree} (n : Nat) (hc : Grammatical .expression c)
      (hb : Grammatical .statement b) : Grammatical .statement (.whileLoop c b n)
  | doWhile {c b : Tree} (n : Nat) (hc : Grammatical .expression c) (hb : Grammatical .statement b) :
      Grammatical .statement (.doWhile c b n)
  | returning {v : Tree} (n : Nat) (hv : Grammatical .optional v) :
      Grammatical .statement (.returning v n)
  | breaking (n : Nat) : Grammatical .statement (.breaking n)
  | continuing (n : Nat) : Grammatical .statement (.continuing n)
  | block {cs : List Tree} (n : Nat) (hc : ∀ c ∈ cs, Grammatical .item c) :
      Grammatical .statement (.block cs n)
  | ofStatement {t : Tree} (ht : Grammatical .statement t) : Grammatical .item t
  | ofDeclaration {t : Tree} (ht : Grammatical .declaration t) : Grammatical .item t
  | ofItem {t : Tree} (ht : Grammatical .item t) : Grammatical .switchItem t
  | caseLabel {v : Tree} (n : Nat) (hv : Grammatical .expression v) :
      Grammatical .switchItem (.caseLabel v n)
  | defaultLabel (n : Nat) : Grammatical .switchItem (.defaultLabel n)
  | param {t : Tree} (v : Token) (i n : Nat) (ht : Grammatical .typeName t) :
      Grammatical .parameter (.param t (.var v i) n)
  | body {cs : List Tree} (n : Nat) (hc : ∀ c ∈ cs, Grammatical .item c) :
      Grammatical .functionBody (.body cs n)
  | function {t b : Tree} {ps : List Tree} (f : String) (n : Nat) (ht : Grammatical .typeName t)
      (hp : ∀ p ∈ ps, Grammatical .parameter p) (hb : Grammatical .functionBody b) :
      Grammatical .topLevel (.function t f ps b n)
  | library (l : String) (n : Nat) : Grammatical .topLevel (.library l n)
  | declared {t : Tree} (ht : Grammatical .declaration t) : Grammatical .topLevel t
  | program {cs : List Tree} (n : Nat) (hc : ∀ c ∈ cs, Grammatical .topLevel c) :
      Grammatical .program (.program cs n)

def category : Tree → Category
  | absent | program .. => .program
  | noOp .. => .optional
  | typeName .. | structName .. => .typeName
  | varDecl .. | structDecl .. => .declaration
  | switch .. | ifElse .. | forLoop .. | whileLoop .. | doWhile .. | returning .. | breaking ..
  | continuing .. | block .. => .statement
  | caseLabel .. | defaultLabel .. => .switchItem
  | param .. => .parameter
  | body .. => .functionBody
  | function .. | library .. => .topLevel
  | _ => .expression

theorem Grammatical.own (h : Grammatical k t) : Grammatical t.category t := by
  induction h with
  | ofExpression _ ih | simple _ ih | ofStatement _ ih | ofDeclaration _ ih | ofItem _ ih
  | declared _ ih => exact ih
  | initializer v op i n he => exact .assign op n (.var v i) he
  | switch n hs hc => exact .switch n hs hc
  | ifElse n hc ha hb => exact .ifElse n hc ha hb
  | forLoop n hs hc hi hb => exact .forLoop n hs hc hi hb
  | whileLoop n hc hb => exact .whileLoop n hc hb
  | doWhile n hc hb => exact .doWhile n hc hb
  | returning n hv => exact .returning n hv
  | breaking n => exact .breaking n
  | continuing n => exact .continuing n
  | block n hc => exact .block n hc
  | caseLabel n hv => exact .caseLabel n hv
  | defaultLabel n => exact .defaultLabel n
  | _ => constructor <;> assumption

def children : Tree → List Tree
  | switch _ cs _ => cs
  | block cs _ => cs
  | body cs _ => cs
  | program cs _ => cs
  | _ => []

def childCategory? : Tree → Option Category
  | switch .. => some .switchItem
  | block .. => some .item
  | body .. => some .item
  | program .. => some .topLevel
  | _ => none

def Category.isSingle : Category → Bool
  | expression | optional | typeName | statement | parameter | functionBody => true
  | declaration | item | switchItem | topLevel | program => false

/-- What stands directly in a grammatical tree is grammatical: it is one of the children, or of a
category that no child has. -/
theorem Grammatical.part_cases (ht : Grammatical k t) (hu : u ∈ t.parts) :
    (∃ j, Grammatical j u ∧ j.isSingle = true) ∨
      ∃ j, Grammatical j u ∧ t.childCategory? = some j ∧ u ∈ t.children := by
  have single {j : Category} {u : Tree} (h : Grammatical j u) (hj : j.isSingle = true) :
      (∃ j, Grammatical j u ∧ j.isSingle = true) ∨
        ∃ j, Grammatical j u ∧ t.childCategory? = some j ∧ u ∈ t.children :=
    .inl ⟨j, h, hj⟩
  induction ht with
  | num | string | var | absentExpression | typeName | structName | structDecl | breaking
  | continuing | defaultLabel | library => exact absurd hu List.not_mem_nil
  | ofExpression _ ih | simple _ ih | ofStatement _ ih | ofDeclaration _ ih | ofItem _ ih
  | declared _ ih => exact ih hu single
  | unary _ _ _ _ h₁ | returning _ h₁ | caseLabel _ h₁ =>
    obtain rfl := List.mem_singleton.1 hu
    exact single h₁ rfl
  | binary _ _ _ h₁ h₂ | cast _ _ h₁ h₂ | assign _ _ h₁ h₂ | whileLoop _ h₁ h₂
  | doWhile _ h₁ h₂ =>
    simp only [parts, List.mem_cons, List.not_mem_nil, or_false] at hu
    obtain rfl | rfl := hu
    · exact single h₁ rfl
    · exact single h₂ rfl
  | ternary _ h₁ h₂ h₃ | ifElse _ h₁ h₂ h₃ =>
    simp only [parts, List.mem_cons, List.not_mem_nil, or_false] at hu
    obtain rfl | rfl | rfl := hu
    · exact single h₁ rfl
    · exact single h₂ rfl
    · exact single h₃ rfl
  | forLoop _ h₁ h₂ h₃ h₄ =>
    simp only [parts, List.mem_cons, List.not_mem_nil, or_false] at hu
    obtain rfl | rfl | rfl | rfl := hu
    · exact single h₁ rfl
    · exact single h₂ rfl
    · exact single h₃ rfl
    · exact single h₄ rfl
  | field _ b m i j =>
    simp only [parts, List.mem_cons, List.not_mem_nil, or_false] at hu
    obtain rfl | rfl := hu
    · exact single (.var b i) rfl
    · exact single (.var m j) rfl
  | varDecl v i _ h₁ | initializer v _ i _ h₁ | param v i _ h₁ =>
    simp only [parts, List.mem_cons, List.not_mem_nil, or_false] at hu
    obtain rfl | rfl := hu
    · exact single (.var v i) rfl
    · exact single h₁ rfl
  | sequence _ hc | call _ _ hc => exact single (hc u hu) rfl
  | block _ hc | body _ hc | program _ hc => exact .inr ⟨_, hc u hu, rfl, hu⟩
  | switch _ hs hc =>
    obtain rfl | hu := List.mem_cons.1 hu
    · exact single hs rfl
    · exact .inr ⟨_, hc u hu, rfl, hu⟩
  | function _ _ ht hp hb =>
    obtain rfl | hu := List.mem_cons.1 hu
    · exact single ht rfl
    obtain rfl | hu := List.mem_cons.1 hu
    · exact single hb rfl
    · exact single (hp u hu) rfl

/-- What stands directly in a grammatical tree is not a program, and it is from the top of a program
only if the tree is a program. -/
theorem Grammatical.part (ht : Grammatical k t) (hu : u ∈ t.parts) :
    ∃ j, Grammatical j u ∧ j ≠ .program ∧ (j = .topLevel → ∃ cs n, t = .program cs n) := by
  obtain ⟨j, hj, hsingle⟩ | ⟨j, hj, hchild, -⟩ := ht.part_cases hu
  · refine ⟨j, hj, ?_, ?_⟩
    · rintro rfl
      cases hsingle
    · rintro rfl
      cases hsingle
  · cases t with
    | program cs n =>
      obtain rfl := Option.some.inj hchild
      exact ⟨_, hj, by decide, fun _ => ⟨cs, n, rfl⟩⟩
    | switch | block | body =>
      obtain rfl := Option.some.inj hchild
      exact ⟨_, hj, by decide, by rintro ⟨⟩⟩
    | _ => cases hchild

theorem Within.grammatical {p : Tree} (ht : Within t p) (hp : Grammatical k p) :
    ∃ j, Grammatical j t := by
  induction ht with
  | self t => exact ⟨k, hp⟩
  | part hu _ ih =>
    obtain ⟨j, hj⟩ := ih hp
    obtain ⟨i, hi, -⟩ := hj.part hu
    exact ⟨i, hi⟩

theorem Within.ofPart {p : Tree} (hu : Within u p) (ht : t ∈ u.parts) : Within t p :=
  .part ht hu

theorem Within.trans {p : Tree} (ht : Within t u) (hu : Within u p) : Within t p := by
  induction ht with
  | self => exact hu
  | part hv _ ih => exact .part hv (ih hu)

theorem Grammatical.argument {f : String} {args : List Tree} {n : Nat} {a : Tree}
    (ht : Grammatical k (.call f args n)) (ha : a ∈ args) : Grammatical .expression a := by
  cases ht.own with
  | call _ _ h => exact h a ha

theorem Grammatical.function_isBody {type body : Tree} {name : String} {params : List Tree}
    {n : Nat} (h : Grammatical k (.function type name params body n)) :
    ∃ cs i, body = .body cs i ∧ ∀ c ∈ cs, Grammatical .item c := by
  cases h.own with
  | function _ _ _ _ hb =>
    cases hb with
    | body i hc => exact ⟨_, i, rfl, hc⟩
  | declared hd => cases hd

theorem Grammatical.function_parameters {type body : Tree} {name : String} {params : List Tree}
    {n : Nat} (h : Grammatical k (.function type name params body n)) :
    ∀ q ∈ params, Grammatical .parameter q := by
  cases h.own with
  | function _ _ _ hp => exact hp
  | declared hd => cases hd

theorem Grammatical.not_isLabel (ht : t.Grammatical k) (hk : k ≠ .switchItem) :
    t.isLabel = false := by
  induction ht with
  | ofItem | caseLabel | defaultLabel => exact absurd rfl hk
  | ofExpression _ ih | simple _ ih | ofStatement _ ih | ofDeclaration _ ih | declared _ ih =>
    exact ih (by decide)
  | _ => rfl

theorem Grammatical.subject {subject : Tree} {cs : List Tree} {n : Nat}
    (ht : Grammatical k (.switch subject cs n)) : Grammatical .expression subject := by
  cases ht.own with
  | switch _ h => exact h
  | simple he => cases he with
    | ofExpression he => cases he

/-- Labels stand among the children of a switch and nowhere else. -/
theorem Grammatical.part_not_isLabel (ht : t.Grammatical k) (hu : u ∈ t.parts)
    (hswitch : ∀ subject cs n, t = .switch subject cs n → u = subject) : u.isLabel = false := by
  obtain ⟨j, hj, hsingle⟩ | ⟨j, hj, hchild, -⟩ := ht.part_cases hu
  · refine hj.not_isLabel ?_
    rintro rfl
    cases hsingle
  · cases t with
    | switch subject cs n =>
      rw [hswitch subject cs n rfl]
      exact ht.subject.not_isLabel (by decide)
    | block | body | program =>
      obtain rfl := Option.some.inj hchild
      exact hj.not_isLabel (by decide)
    | _ => cases hchild

/-- What is evaluated of a child of a switch. -/
def unlabelled : Tree → List Tree
  | caseLabel v _ => [v]
  | defaultLabel _ => []
  | t => [t]

theorem unlabelled_eq (ht : t.isLabel = false) : t.unlabelled = [t] := by
  cases t with
  | caseLabel | defaultLabel => cases ht
  | _ => rfl

def allTo (P : Tree → Bool) : Nat → Tree → Bool
  | 0, _ => false
  | depth + 1, t => P t && t.parts.all (allTo P depth)

theorem all_of_allTo {P : Tree → Bool} {depth : Nat} (h : t.allTo P depth = true)
    (hu : u.Within t) : P u = true := by
  have hall : ∃ depth, u.allTo P depth = true := by
    induction hu with
    | self => exact ⟨depth, h⟩
    | part hv _ ih =>
      obtain ⟨depth, hd⟩ := ih h
      cases depth with
      | zero => cases hd
      | succ depth =>
        simp only [allTo, Bool.and_eq_true, List.all_eq_true] at hd
        exact ⟨depth, hd.2 _ hv⟩
  obtain ⟨depth, hd⟩ := hall
  cases depth with
  | zero => cases hd
  | succ depth =>
    simp only [allTo, Bool.and_eq_true] at hd
    exact hd.1

end MiniC.Tree
