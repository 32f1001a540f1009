import Mathlib.Data.List.Forall2
import MiniC.Proofs.Rereading

/-!
# Reading programs that were written

Statements, declarations and whole programs are read as they were written. A statement is read
whatever stands behind it, since every `if` is written with its `else`; the number of its tokens
bounds how deep the rules have to be entered. Together with what is known of the trees that rules
read, this is the main statement: what is written for a program is read as that program, and every
program that is read is among those.
-/

namespace MiniC

namespace Grammar

open MiniC.Parser Tree Token

variable {t : Tree} {i o : List Token}

/-! ## Expressions in statements -/

namespace Reread

theorem expression (h : Reread t) (hi : endsExpression (firstKind i) = true) :
    Gives Grammar.expression (t.tokens ++ i) i (Alike t) := by
  refine .left (h.inner _ ?_ i hi)
  rw [List.length_append]
  omega

theorem expression_enclosed (h : Reread t) (hi : endsExpression (firstKind i) = true) :
    Gives Grammar.expression (enclose t.tokens ++ i) i (Alike t) := by
  refine .left (expressionOf_of_assignment (h.nested .assignment ?_ ?_) hi)
  · rw [List.length_append, length_enclose]
    omega
  · exact (endsAssignment_of_endsExpression hi).1

theorem assignmentExpression (h : Reread t) (hi : endsAssignment (firstKind i) = true) :
    Gives Grammar.assignmentExpression (enclose t.tokens ++ i) i (Alike t) := by
  refine .left (h.nested (d := _ + 1) .assignment ?_ hi)
  rw [List.length_append, length_enclose]
  omega

end Reread

theorem empty_gives : Gives empty i i (· = .noOp 1) :=
  .line (.pure rfl)

/-- The first token of an expression. -/
theorem firstKind_of_starts (h : t.Starts) (i : List Token) :
    startsExpression (firstKind (t.tokens ++ i)) = true := by
  obtain ⟨k, ts, hts, hk⟩ := h
  rw [hts]
  exact hk

theorem ne_of_startsExpression {k j : Kind} (hk : startsExpression k = true)
    (hj : startsExpression j = false) : k ≠ j := by
  rintro rfl
  rw [hk] at hj
  cases hj

/-- An expression that may be left out before a token that ends it. -/
theorem optional_gives {β : Type} {k : Kind} {f : Tree → Parser β} {Q : β → Prop}
    (ht : Grammatical .optional t) (hp : t.Writable)
    (hk : endsExpression k = true) (hi : firstKind i = k) (hf : ∀ e, Alike t e → Gives (f e) i o Q) :
    Gives (do
      let nothing ← empty
      if (← kind) == k then pure nothing >>= f else Grammar.expression >>= f) (t.tokens ++ i) o Q := by
  refine .bind empty_gives fun nothing hnothing => ?_
  cases ht with
  | absentExpression n =>
    refine .kind (.ifTrue ?_ (hf nothing ?_))
    · simpa [tokens] using hi
    · rw [hnothing]
      rfl
  | ofExpression he =>
    have h := reread he hp
    refine .kind (.ifFalse ?_ (.bind (h.expression (hi ▸ hk)) hf))
    rw [beq_iff_eq]
    refine ne_of_startsExpression (firstKind_of_starts h.starts i) ?_
    cases k <;> first | rfl | cases hk

theorem expressionStatement_gives (ht : Grammatical .optional t)
    (hp : t.Writable) :
    Gives expressionStatement (t.tokens ++ ofKind .semicolon :: i) i (Alike t) := by
  cases ht with
  | absentExpression n => exact .kind (.ifTrue rfl (.advance (.line (.pure rfl))))
  | ofExpression he =>
    have h := reread he hp
    refine .kind (.ifFalse ?_ (.bind (h.expression rfl) fun e he => .eat rfl (.pure he)))
    rw [beq_iff_eq]
    exact ne_of_startsExpression (firstKind_of_starts h.starts _) rfl

/-- The condition of a `for` loop. -/
theorem condition_gives (ht : Grammatical .optional t) (hp : t.Writable) :
    Gives expressionStatement (t.conditionTokens ++ ofKind .semicolon :: i) i (Alike t) := by
  cases ht with
  | absentExpression n => exact .kind (.ifTrue rfl (.advance (.line (.pure rfl))))
  | ofExpression he =>
    have h := reread he hp
    have htokens : t.conditionTokens = enclose t.tokens := by
      cases he <;> rfl
    rw [htokens]
    exact .kind (.ifFalse nofun (.bind (h.expression_enclosed rfl) fun e he => .eat rfl (.pure he)))

/-! ## Declarations -/

def Single (t : Tree) (us : List Tree) : Prop :=
  ∃ u, us = [u] ∧ Alike t u

theorem flatten_single {ts : List Tree} {uss : List (List Tree)}
    (h : List.Forall₂ Single ts uss) : List.Forall₂ Alike ts uss.flatten := by
  induction h with
  | nil => exact .nil
  | cons h _ ih =>
    obtain ⟨u, rfl, hu⟩ := h
    exact .cons hu ih

/-- What follows a type in what is written does not go on with the type. -/
theorem typeTokens_gives (ht : Grammatical .typeName t) (hp : t.Writable)
    (ho : firstKind o = .id) : Gives typeSpecifier (t.typeTokens ++ o) o (Alike t) :=
  typeSpecifier_gives ht (hp t (.self t)) (by rw [ho]; rfl) (by rw [ho]; nofun)

/-- The first token of a type. -/
theorem tokens_starts {ty : VarType} (hty : ty.Proper) :
    ∃ k ts, ty.tokens = k :: ts ∧ k.kind.startsDeclaration = true := by
  cases ty with
  | struct t => exact ⟨_, _, rfl, rfl⟩
  | number t =>
    obtain ⟨k, ts, hts, hk⟩ := tokens_number hty
    exact ⟨k, ts, hts, by simp [Kind.startsDeclaration, hk]⟩

theorem typeTokens_starts (ht : Grammatical .typeName t) (hp : t.Writable) :
    ∃ k ts, t.typeTokens = k :: ts ∧ k.kind.startsDeclaration = true := by
  have hself := hp t (.self t)
  cases ht with
  | typeName ty n => exact @tokens_starts (.number ty) hself
  | structName ty n => exact @tokens_starts (.struct ty) hself

/-- A type with a name behind it does not look like the declaration of a structure. -/
theorem structAhead_type (ht : Grammatical .typeName t) (hp : t.Writable)
    {v : Token} (hv : v.kind = .id) :
    Gives structAhead (t.typeTokens ++ v :: i) (t.typeTokens ++ v :: i) (· = false) := by
  cases ht with
  | structName t n =>
    cases hpointer : t.pointer with
    | true =>
      have htokens : typeTokens (.structName (.struct t) n) ++ v :: i =
          ofKind .kwStruct :: ofName t.name :: ofKind .asterisk :: v :: i := by
        simp [typeTokens, VarType.tokens, VarType.isPointer, hpointer]
      rw [htokens]
      exact .lookahead (.kind (.ifFalse (by rintro ⟨⟩) (.advance (.kind (.ifFalse (by rintro ⟨⟩) (.advance
        (.kind (.pure rfl))))))))
    | false =>
      have htokens : typeTokens (.structName (.struct t) n) ++ v :: i =
          ofKind .kwStruct :: ofName t.name :: v :: i := by
        simp [typeTokens, VarType.tokens, VarType.isPointer, hpointer]
      rw [htokens]
      refine .lookahead (.kind (.ifFalse (by rintro ⟨⟩) (.advance (.kind (.ifFalse (by rintro ⟨⟩) (.advance
        (.kind (.pure ?_))))))))
      simp [hv]
  | typeName t n =>
    obtain ⟨k, ts, hts, hk⟩ := tokens_number (hp _ (.self _))
    refine .lookahead (.kind (.ifTrue ?_ (.pure rfl)))
    rw [typeTokens, hts]
    rw [bne_iff_ne]
    rintro (h : k.kind = .kwStruct)
    simp [h, Kind.isTypeSpecifier] at hk

theorem initDeclarators_of_single {P : List Tree → Prop} (h : Gives initDeclarator i o P)
    (ho : firstKind o = .semicolon) : Gives initDeclarators i o P := by
  refine .map (commaList_single h (by rw [ho]; nofun)) fun uss huss => ?_
  obtain ⟨us, rfl, hus⟩ := huss
  simpa using hus

section

variable {v : Token} {j n : Nat} (ht : Grammatical .typeName t) (hp : t.Writable)
  (hv : v.kind = .id)

include ht hp hv

/-- A variable without an initial value. -/
theorem varDeclaration_var :
    Gives varDeclaration (t.typeTokens ++ v :: ofKind .semicolon :: i) i
      (Single (.varDecl (.var v j) t n)) := by
  refine .bind (typeTokens_gives ht hp hv) fun ty hty => ?_
  have hvar : Gives initDeclarator (v :: ofKind .semicolon :: i) (ofKind .semicolon :: i)
      (· = [.var v 1]) := by
    refine .bind (variableName_gives hv) fun u hu => .token (.ifFalse nofun (.pure ?_))
    rw [hu]
  refine .bind (initDeclarators_of_single hvar rfl) fun us hus => .line (.eat rfl (.pure ?_))
  subst hus
  refine ⟨_, rfl, ?_⟩
  simp only [Alike, erased] at hty ⊢
  rw [hty]

/-- A variable with its initial value. -/
theorem varDeclaration_value {e : Tree} {op : Token} {l m : Nat} (hop : op.kind = .assign)
    (he : Reread e) :
    Gives varDeclaration
      (t.typeTokens ++ v :: op :: (enclose e.tokens ++ ofKind .semicolon :: i)) i
      (List.Forall₂ Alike [.varDecl (.var v j) t n, .assign (.var v l) op e m]) := by
  refine .bind (typeTokens_gives ht hp hv) fun ty hty => ?_
  have hvalue : Gives initDeclarator (v :: op :: (enclose e.tokens ++ ofKind .semicolon :: i))
      (ofKind .semicolon :: i)
      fun us => ∃ a, Alike e a ∧ us = [.var v 1, .assign (.var v 1) op a 1] := by
    refine .bind (variableName_gives hv) fun u hu => .token (.ifTrue (by simp [hop]) (.advance ?_))
    refine .bind (he.assignmentExpression rfl) fun a ha => .line (.pure ⟨a, ha, ?_⟩)
    rw [hu]
    rfl
  refine .bind (initDeclarators_of_single hvalue rfl) fun us hus => .line (.eat rfl (.pure ?_))
  obtain ⟨a, ha, rfl⟩ := hus
  simp only [Alike] at hty ha
  refine .cons ?_ (.cons ?_ .nil)
  · simp only [Alike, erased]
    rw [hty]
  · simp only [Alike, erased]
    rw [ha]

/-- The declaration of a variable in a block. -/
theorem declaration_var :
    Gives declaration ((Tree.varDecl (.var v j) t n).sentence ++ i) i
      (Single (.varDecl (.var v j) t n)) := by
  simp only [sentence, tokens, List.append_assoc, List.cons_append, List.nil_append]
  refine .bind (structAhead_type ht hp hv) fun b hb => .ifFalse (by simp [hb]) ?_
  exact varDeclaration_var ht hp hv

end

/-! ## Structures -/

theorem fieldsOf_eq (decls : List Tree) : fieldsOf decls = Table.ofList (fieldPairs decls) := rfl

def SameField (f g : String × VarType) : Prop :=
  g.1 = f.1 ∧ g.2.erased = f.2.erased

theorem fieldType_gives {ty : VarType} (hty : ty.Proper) (ho : firstKind o = .id) :
    Gives typeSpecifier (ty.tokens ++ o) o
      fun u => ∃ ty', u.type? = some ty' ∧ ty'.erased = ty.erased := by
  cases ty with
  | number t =>
    refine (numberType_gives hty (by rw [ho]; rfl) (by rw [ho]; nofun)).weaken fun u hu => ?_
    exact ⟨_, by rw [hu]; rfl, rfl⟩
  | struct t =>
    refine (structType_gives t (by rw [ho]; nofun)).weaken fun u hu => ?_
    obtain ⟨mark, rfl⟩ := hu
    exact ⟨_, rfl, rfl⟩

/-- A field is read with its name and its type. -/
theorem fieldDeclaration_gives {f : String × VarType} (hf : IsName f.1 ∧ f.2.Proper) :
    Gives fieldDeclaration (fieldTokens f ++ i) i
      fun us => ∃ g, fieldPairs us = [g] ∧ SameField f g := by
  have htokens : fieldTokens f ++ i = f.2.tokens ++ ofName f.1 :: ofKind .semicolon :: i := by
    simp [fieldTokens]
  rw [htokens]
  refine .bind (fieldType_gives hf.2 rfl) fun ty hty => ?_
  refine .bind (commaList_single (variableName_gives rfl) nofun) fun us hus => ?_
  refine .line (.eat rfl (.pure ?_))
  obtain ⟨ty', hty', hsame⟩ := hty
  obtain ⟨u, rfl, rfl⟩ := hus
  refine ⟨(f.1, ty'), ?_, rfl, hsame⟩
  simp only [fieldPairs, declareVariables, List.map_cons, List.map_nil, List.filterMap_cons, hty',
    List.filterMap_nil]
  rfl

theorem fieldPairs_flatten {fields : List (String × VarType)} {uss : List (List Tree)}
    (h : List.Forall₂ (fun f us => ∃ g, fieldPairs us = [g] ∧ SameField f g) fields uss) :
    List.Forall₂ SameField fields (fieldPairs uss.flatten) := by
  induction h with
  | nil => exact .nil
  | cons h _ ih =>
    obtain ⟨g, hg, hsame⟩ := h
    have happend (us vs : List Tree) : fieldPairs (us ++ vs) = fieldPairs us ++ fieldPairs vs :=
      List.filterMap_append
    rw [List.flatten_cons, happend, hg]
    exact .cons hsame ih

theorem SameField.map_eq {fs gs : List (String × VarType)} (h : List.Forall₂ SameField fs gs) :
    gs.map Prod.fst = fs.map Prod.fst ∧
      gs.map (fun f => (f.1, f.2.erased)) = fs.map fun f => (f.1, f.2.erased) := by
  induction h with
  | nil => exact ⟨rfl, rfl⟩
  | cons h _ ih => simp only [List.map_cons, h.1, h.2, ih, and_self]

theorem put_of_new {α : Type} {t : Table α} {name : String} (h : name ∉ t.map Prod.fst) (a : α) :
    t.put name a = t ++ [(name, a)] := by
  induction t with
  | nil => rfl
  | cons p t ih =>
    obtain ⟨hp, ht⟩ := List.ne_and_not_mem_of_not_mem_cons h
    rw [Table.put, if_neg (Ne.symm hp), ih ht, List.cons_append]

/-- Pairs with different names are the table that they leave. -/
theorem ofList_of_nodup {α : Type} {ps : List (String × α)} (h : (ps.map Prod.fst).Nodup) :
    Table.ofList ps = ps := by
  have hfold (t : Table α) (ps : List (String × α)) (h : ((t ++ ps).map Prod.fst).Nodup) :
      ps.foldl (fun t p => t.put p.1 p.2) t = t ++ ps := by
    induction ps generalizing t with
    | nil => simp
    | cons p ps ih =>
      have hnew : p.1 ∉ t.map Prod.fst := by
        rw [List.map_append, List.nodup_append] at h
        exact fun hmem => h.2.2 _ hmem _ List.mem_cons_self rfl
      rw [List.foldl_cons, put_of_new hnew, ih _ (by simpa using h)]
      simp
  exact hfold [] ps h

theorem structAhead_struct (s : String) :
    Gives structAhead (ofKind .kwStruct :: ofName s :: ofKind .lbracket :: i)
      (ofKind .kwStruct :: ofName s :: ofKind .lbracket :: i) (· = true) :=
  .lookahead (.kind (.ifFalse nofun (.advance (.kind (.ifFalse nofun (.advance
    (.kind (.pure rfl))))))))

theorem declaration_struct {s : String} {fields : Table VarType} {mark n : Nat}
    (hp : Proper (.structDecl s fields mark n)) :
    Gives declaration ((Tree.structDecl s fields mark n).sentence ++ i) i
      (Single (.structDecl s fields mark n)) := by
  obtain ⟨-, hnodup, hfields⟩ := hp
  have htokens : (Tree.structDecl s fields mark n).sentence ++ i =
      ofKind .kwStruct :: ofName s :: ofKind .lbracket ::
        (fields.flatMap fieldTokens ++ ofKind .rbracket :: ofKind .semicolon :: i) := by
    simp [sentence, braces]
  have hstarts (f : String × VarType) (hf : f ∈ fields) : ∃ k ts, fieldTokens f = k :: ts ∧
      (k.kind != .rbracket) = true ∧ True := by
    obtain ⟨k, ts, hts, hk⟩ := tokens_starts (hfields f hf).2
    refine ⟨k, ts ++ [ofName f.1, ofKind .semicolon], by rw [fieldTokens, hts]; rfl, ?_, trivial⟩
    rw [bne_iff_ne]
    rintro h
    rw [h] at hk
    cases hk
  have hmany : Gives (manyWhile (· != .rbracket) fieldDeclaration) (fields.flatMap fieldTokens ++
      ofKind .rbracket :: ofKind .semicolon :: i) (ofKind .rbracket :: ofKind .semicolon :: i) _ :=
    manyWhile_gives (F := fun _ => True) (fun f hf j _ => fieldDeclaration_gives (hfields f hf))
      hstarts rfl trivial
  have hstruct : Gives structDeclaration (ofKind .kwStruct :: ofName s :: ofKind .lbracket ::
      (fields.flatMap fieldTokens ++ ofKind .rbracket :: ofKind .semicolon :: i)) i
      (Alike (.structDecl s fields mark n)) := by
    refine .left (.eat rfl (.token (.eat rfl (.eat rfl (.bind hmany fun uss huss => ?_)))))
    refine .eat rfl (.eat rfl (.line (.pure ?_)))
    obtain ⟨hnames, hsame⟩ := SameField.map_eq (fieldPairs_flatten huss)
    rw [fieldsOf_eq, ofList_of_nodup (hnames ▸ hnodup)]
    simp only [Alike, erased]
    rw [hsame]
    rfl
  rw [htokens]
  refine .bind (structAhead_struct s) fun b hb => .ifTrue hb (.bind hstruct fun u hu => ?_)
  exact .pure ⟨u, rfl, hu⟩

/-! ## Statements -/

def startsStatement (k : Kind) : Bool :=
  startsExpression k || k == .semicolon || k == .lbracket || isIteration k || isSelection k || isJump k

/-- What was written for a statement is read as the statement, at every depth that its tokens allow
for. -/
structure RereadStatement (t : Tree) : Prop where
  starts : ∃ k ts, t.sentence = k :: ts ∧ startsStatement k.kind = true
  gives : ∀ d i, t.sentence.length ≤ d → Gives (statementAt d) (t.sentence ++ i) i (Alike t)

structure RereadItem (item : Parser Tree → Parser (List Tree)) (t : Tree) : Prop where
  starts : ∃ k ts, t.sentence = k :: ts ∧ k.kind ≠ .rbracket
  gives : ∀ d i, t.sentence.length ≤ d → Gives (item (statementAt d)) (t.sentence ++ i) i (Single t)

/-- Items up to the closing brace. -/
theorem RereadItem.manyWhile {item : Parser Tree → Parser (List Tree)} {cs : List Tree} {d : Nat}
    (h : ∀ c ∈ cs, RereadItem item c) (hd : (sentences cs).length ≤ d) :
    Gives (Parser.manyWhile (· != .rbracket) (item (statementAt d)))
      (sentences cs ++ ofKind .rbracket :: i) (ofKind .rbracket :: i) (List.Forall₂ Single cs) := by
  rw [sentences_eq] at hd ⊢
  refine manyWhile_gives (F := fun _ => True) (fun c hc j _ => (h c hc).gives d j ?_)
    (fun c hc => ?_) rfl trivial
  · have hsub : c.sentence.Sublist (cs.flatMap sentence) := by
      rw [List.flatMap_def]
      exact List.sublist_flatten_of_mem (List.mem_map_of_mem hc)
    exact hsub.length_le.trans hd
  · obtain ⟨k, ts, hts, hk⟩ := (h c hc).starts
    exact ⟨k, ts, hts, by simpa using hk, trivial⟩

theorem braces_append (ts i : List Token) :
    braces ts ++ i = ofKind .lbracket :: (ts ++ ofKind .rbracket :: i) := by
  simp [braces]

theorem length_braces (ts : List Token) : (braces ts).length = ts.length + 2 := by
  simp [braces]

theorem itemsOf_gives {cs : List Tree} {d : Nat} (h : ∀ c ∈ cs, RereadItem itemOf c)
    (hd : (sentences cs).length ≤ d) :
    Gives (itemsOf (statementAt d)) (braces (sentences cs) ++ i) i (List.Forall₂ Alike cs) := by
  rw [braces_append]
  refine .eat rfl (.bind (RereadItem.manyWhile h hd) fun uss huss => .eat rfl (.pure ?_))
  exact flatten_single huss

def labeledOf (statement : Parser Tree) : Parser (List Tree) := do
  let k ← kind
  if k == .kwCase || k == .kwDefault then return [← switchLabel] else itemOf statement

namespace RereadStatement

theorem of_statementOf {k : Token} {ts : List Token} (hts : t.sentence = k :: ts)
    (hk : startsStatement k.kind = true)
    (h : ∀ d i, t.sentence.length ≤ d + 1 →
      Gives (statementOf (statementAt d)) (t.sentence ++ i) i (Alike t)) : RereadStatement t := by
  refine ⟨⟨k, ts, hts, hk⟩, fun d i hd => ?_⟩
  cases d with
  | zero => simp [hts] at hd
  | succ d => exact h d i hd

theorem simple (ht : Grammatical .optional t) (hp : t.Writable) :
    RereadStatement t := by
  have hsentence : t.sentence = t.tokens ++ [ofKind .semicolon] := by
    cases ht with
    | absentExpression n => rfl
    | ofExpression he => cases he <;> rfl
  have hstarts : ∃ k ts, t.sentence = k :: ts ∧
      (startsExpression k.kind = true ∨ k.kind = .semicolon) := by
    rw [hsentence]
    cases ht with
    | absentExpression n => exact ⟨_, _, rfl, .inr rfl⟩
    | ofExpression he =>
      obtain ⟨k, ts, hts, hk⟩ := (reread he hp).starts
      exact ⟨k, ts ++ [ofKind .semicolon], by rw [hts]; rfl, .inl hk⟩
  obtain ⟨k, ts, hts, hk⟩ := hstarts
  have hkind : startsStatement k.kind = true ∧ isIteration k.kind = false ∧
      isSelection k.kind = false ∧ isJump k.kind = false ∧ k.kind ≠ .lbracket := by
    obtain hk | hk := hk
    · revert hk
      cases k.kind <;> first | decide | exact nofun
    · rw [hk]
      decide
  obtain ⟨hstarts, hiteration, hselection, hjump, hbracket⟩ := hkind
  refine of_statementOf hts hstarts fun d i _ => .kind ?_
  have hfirst : firstKind (t.sentence ++ i) = k.kind := by rw [hts]; rfl
  rw [hfirst]
  refine .ifFalse (by simp [hiteration]) (.ifFalse (by simp [hselection]) (.ifFalse (by simp [hjump])
    (.ifFalse (by simpa using hbracket) ?_)))
  rw [hsentence, List.append_assoc]
  exact expressionStatement_gives ht hp

theorem block {cs : List Tree} (n : Nat) (hcs : ∀ c ∈ cs, RereadItem itemOf c) :
    RereadStatement (.block cs n) := by
  refine of_statementOf rfl rfl fun d i hd => .kind ?_
  rw [sentence, length_braces] at hd
  refine .ifFalse nofun (.ifFalse nofun (.ifFalse nofun (.ifTrue rfl ?_)))
  refine .bind (itemsOf_gives hcs (by omega)) fun us hus => .line (.pure ?_)
  simp only [Alike, erased]
  rw [Reread.erasedAll_of_alike hus]

theorem returning {v : Tree} (n : Nat) (hv : Grammatical .optional v)
    (hp : v.Writable) : RereadStatement (.returning v n) := by
  refine of_statementOf rfl rfl fun d i hd => ?_
  rw [sentence, List.cons_append, List.append_assoc, List.singleton_append]
  refine .kind (.ifFalse nofun (.ifFalse nofun (.ifTrue rfl (.kind (.advance ?_)))))
  refine optional_gives (k := .semicolon) hv hp rfl rfl fun u hu => .eat rfl (.line (.pure ?_))
  simp only [Alike, erased] at hu ⊢
  rw [hu]

theorem breaking (n : Nat) : RereadStatement (.breaking n) := by
  refine of_statementOf rfl rfl fun d i hd => .kind ?_
  refine .ifFalse nofun (.ifFalse nofun (.ifTrue rfl (.kind (.advance (.eat rfl ?_)))))
  exact .line (.pure rfl)

theorem continuing (n : Nat) : RereadStatement (.continuing n) := by
  refine of_statementOf rfl rfl fun d i hd => .kind ?_
  refine .ifFalse nofun (.ifFalse nofun (.ifTrue rfl (.kind (.advance (.eat rfl ?_)))))
  exact .line (.pure rfl)

theorem whileLoop {c b : Tree} (n : Nat) (hc : Reread c) (hb : RereadStatement b) :
    RereadStatement (.whileLoop c b n) := by
  refine of_statementOf rfl rfl fun d i hd => .kind (.ifTrue rfl (.kind ?_))
  simp only [sentence, List.length_cons, List.length_append, Reread.length_enclose] at hd
  rw [sentence, List.cons_append, List.append_assoc, enclose_append]
  refine .eat rfl (.eat rfl (.bind (hc.expression rfl) fun u hu => .eat rfl ?_))
  refine .bind (hb.gives d i (by omega)) fun v hv => .line (.pure ?_)
  simp only [Alike, erased] at hu hv ⊢
  rw [hu, hv]

theorem doWhile {c b : Tree} (n : Nat) (hc : Reread c) (hb : RereadStatement b) :
    RereadStatement (.doWhile c b n) := by
  refine of_statementOf rfl rfl fun d i hd => .kind (.ifTrue rfl (.kind ?_))
  simp only [sentence, List.length_cons, List.length_append, Reread.length_enclose] at hd
  simp only [sentence, List.cons_append, List.append_assoc, List.nil_append]
  refine .eat rfl (.bind (hb.gives d _ (by omega)) fun v hv => .eat rfl ?_)
  rw [enclose_append]
  refine .eat rfl (.bind (hc.expression rfl) fun u hu => .eat rfl (.eat rfl (.line (.pure ?_))))
  simp only [Alike, erased] at hu hv ⊢
  rw [hu, hv]

theorem forLoop {s c e b : Tree} (n : Nat) (hs : Grammatical .optional s)
    (hc : Grammatical .optional c) (he : Grammatical .optional e)
    (hp : Writable (.forLoop s c e b n)) (hb : RereadStatement b) :
    RereadStatement (.forLoop s c e b n) := by
  refine of_statementOf rfl rfl fun d i hd => .kind (.ifTrue rfl (.kind ?_))
  simp only [sentence, List.length_cons, List.length_append, Reread.length_enclose] at hd
  rw [sentence, List.cons_append, List.append_assoc, enclose_append, List.append_assoc,
    List.cons_append, List.append_assoc, List.cons_append]
  have hps := hp.part (u := s) List.mem_cons_self
  have hpc := hp.part (u := c) (.tail _ List.mem_cons_self)
  have hpe := hp.part (u := e) (.tail _ (.tail _ List.mem_cons_self))
  refine .eat rfl (.eat rfl (.bind (expressionStatement_gives hs hps) fun u hu => ?_))
  refine .bind (condition_gives hc hpc) fun v hv => ?_
  refine optional_gives (k := .rparen) he hpe rfl rfl fun w hw => .eat rfl ?_
  refine .bind (hb.gives d i (by omega)) fun x hx => .line (.pure ?_)
  simp only [Alike, erased] at hu hv hw hx ⊢
  rw [hu, hv, hw, hx]

theorem ifElse {c a b : Tree} (n : Nat) (hc : Reread c) (ha : RereadStatement a)
    (hb : RereadStatement b) : RereadStatement (.ifElse c a b n) := by
  refine of_statementOf rfl rfl fun d i hd => .kind (.ifFalse nofun (.ifTrue rfl (.kind ?_)))
  simp only [sentence, List.length_cons, List.length_append, Reread.length_enclose] at hd
  rw [sentence, List.cons_append, List.append_assoc, enclose_append, List.append_assoc,
    List.cons_append]
  refine .eat rfl (.eat rfl (.bind (hc.expression rfl) fun u hu => .eat rfl ?_))
  refine .bind (ha.gives d _ (by omega)) fun v hv => .bind empty_gives fun _ _ => ?_
  refine .kind (.ifTrue rfl (.advance (.bind (hb.gives d i (by omega)) fun w hw => ?_)))
  refine .line (.pure ?_)
  simp only [Alike, erased] at hu hv hw ⊢
  rw [hu, hv, hw]

theorem switch {s : Tree} {cs : List Tree} (n : Nat) (hs : Reread s)
    (hcs : ∀ c ∈ cs, RereadItem labeledOf c) : RereadStatement (.switch s cs n) := by
  refine of_statementOf rfl rfl fun d i hd => .kind (.ifFalse nofun (.ifTrue rfl (.kind ?_)))
  simp only [sentence, List.length_cons, List.length_append, Reread.length_enclose,
    length_braces] at hd
  rw [sentence, List.cons_append, List.append_assoc, enclose_append, braces_append]
  refine .eat rfl (.eat rfl (.bind (hs.expression rfl) fun u hu => .eat rfl (.eat rfl ?_)))
  refine .bind (RereadItem.manyWhile hcs (by omega)) fun uss huss => .eat rfl (.line (.pure ?_))
  simp only [Alike, erased] at hu ⊢
  rw [hu, Reread.erasedAll_of_alike (flatten_single huss)]

end RereadStatement

namespace RereadItem

/-- What does not start with a label is read in a switch as in a block. -/
theorem labeled {k : Token} {ts : List Token} (h : RereadItem itemOf t)
    (hts : t.sentence = k :: ts) (hk : k.kind ≠ .kwCase ∧ k.kind ≠ .kwDefault) :
    RereadItem itemOf t ∧ RereadItem labeledOf t := by
  refine ⟨h, h.starts, fun d i hd => .kind (.ifFalse ?_ (h.gives d i hd))⟩
  simp [hts, hk.1, hk.2]

theorem ofStatement (h : RereadStatement t) : RereadItem itemOf t ∧ RereadItem labeledOf t := by
  obtain ⟨k, ts, hts, hk⟩ := h.starts
  have hkind : k.kind ≠ .rbracket ∧ k.kind.startsDeclaration = false ∧ k.kind ≠ .kwCase ∧
      k.kind ≠ .kwDefault := by
    revert hk
    cases k.kind <;> first | decide | exact nofun
  obtain ⟨hbracket, hdeclaration, hlabel⟩ := hkind
  refine labeled ⟨⟨k, ts, hts, hbracket⟩, fun d i hd => .kind (.ifFalse ?_ ?_)⟩ hts hlabel
  · simp [hts, hdeclaration]
  · exact .bind (h.gives d i hd) fun u hu => .pure ⟨u, rfl, hu⟩

theorem of_declaration {k : Token} {ts : List Token} (hts : t.sentence = k :: ts)
    (hk : k.kind.startsDeclaration = true)
    (h : ∀ i, Gives declaration (t.sentence ++ i) i (Single t)) :
    RereadItem itemOf t ∧ RereadItem labeledOf t := by
  have hkind : k.kind ≠ .rbracket ∧ k.kind ≠ .kwCase ∧ k.kind ≠ .kwDefault := by
    revert hk
    cases k.kind <;> first | decide | exact nofun
  refine labeled ⟨⟨k, ts, hts, hkind.1⟩, fun d i _ => .kind (.ifTrue ?_ (h i))⟩ hts hkind.2
  simp [hts, hk]

theorem ofDeclaration (ht : Grammatical .declaration t) (hp : t.Writable) :
    RereadItem itemOf t ∧ RereadItem labeledOf t := by
  cases ht with
  | @varDecl ty v j n hty =>
    have hproper := hp.part (u := ty) (.tail _ List.mem_cons_self)
    obtain ⟨k, ts, hts, hk⟩ := typeTokens_starts hty hproper
    have hsentence : (Tree.varDecl (.var v j) ty n).sentence =
        k :: (ts ++ [v, ofKind .semicolon]) := by
      rw [sentence, hts]
      rfl
    exact of_declaration hsentence hk fun i =>
      declaration_var hty hproper (lexed_of_var hp List.mem_cons_self).2
  | structDecl s fields mark n =>
    exact of_declaration rfl rfl fun i => declaration_struct (hp _ (.self _))
  | initializer v op j n he =>
    exact ofStatement (.simple (.ofExpression (.assign op n (.var v j) he)) hp)

theorem caseLabel {v : Tree} (n : Nat) (hv : Reread v) : RereadItem labeledOf (.caseLabel v n) := by
  have hlabel (i : List Token) : Gives switchLabel ((Tree.caseLabel v n).sentence ++ i) i
      (Alike (.caseLabel v n)) := by
    rw [sentence, List.cons_append, List.append_assoc, List.singleton_append]
    refine .kind (.ifTrue rfl (.advance (.bind (hv.expression rfl) fun u hu => .eat rfl ?_)))
    refine .line (.pure ?_)
    simp only [Alike, erased] at hu ⊢
    rw [hu]
  refine ⟨⟨_, _, rfl, by rintro ⟨⟩⟩, fun d i _ => .kind (.ifTrue rfl ?_)⟩
  exact .bind (hlabel i) fun u hu => .pure ⟨u, rfl, hu⟩

theorem defaultLabel (n : Nat) : RereadItem labeledOf (.defaultLabel n) := by
  have hlabel (i : List Token) :
      Gives switchLabel (ofKind .kwDefault :: ofKind .colon :: i) i (Alike (.defaultLabel n)) :=
    .kind (.ifFalse nofun (.eat rfl (.eat rfl (.line (.pure rfl)))))
  refine ⟨⟨_, _, rfl, nofun⟩, fun d i _ => .kind (.ifTrue rfl ?_)⟩
  exact .bind (hlabel i) fun u hu => .pure ⟨u, rfl, hu⟩

end RereadItem

def RereadAs : Category → Tree → Prop
  | .statement, t => RereadStatement t
  | .item, t => RereadItem itemOf t ∧ RereadItem labeledOf t
  | .switchItem, t => RereadItem labeledOf t
  | _, _ => True

theorem rereadAs {k : Category} (ht : Grammatical k t) (hp : t.Writable) :
    RereadAs k t := by
  induction ht with
  | simple he => exact .simple he hp
  | switch n hs _ _ ihc =>
    exact .switch n (reread hs (hp.part List.mem_cons_self)) fun c h =>
      ihc c h (hp.part (.tail _ h))
  | ifElse n hc _ _ _ iha ihb =>
    exact .ifElse n (reread hc (hp.part List.mem_cons_self))
      (iha (hp.part (.tail _ List.mem_cons_self)))
      (ihb (hp.part (.tail _ (.tail _ List.mem_cons_self))))
  | forLoop n hs hc hi _ _ _ _ ihb =>
    exact .forLoop n hs hc hi hp
      (ihb (hp.part (.tail _ (.tail _ (.tail _ List.mem_cons_self)))))
  | whileLoop n hc _ _ ihb =>
    exact .whileLoop n (reread hc (hp.part List.mem_cons_self))
      (ihb (hp.part (.tail _ List.mem_cons_self)))
  | doWhile n hc _ _ ihb =>
    exact .doWhile n (reread hc (hp.part List.mem_cons_self))
      (ihb (hp.part (.tail _ List.mem_cons_self)))
  | returning n hv => exact .returning n hv (hp.part List.mem_cons_self)
  | breaking n => exact .breaking n
  | continuing n => exact .continuing n
  | block n _ ihc => exact .block n fun c h => (ihc c h (hp.part h)).1
  | ofStatement _ ih => exact RereadItem.ofStatement (ih hp)
  | ofDeclaration hd => exact RereadItem.ofDeclaration hd hp
  | ofItem _ ih => exact (ih hp).2
  | caseLabel n hv => exact .caseLabel n (reread hv (hp.part List.mem_cons_self))
  | defaultLabel n => exact .defaultLabel n
  | _ => trivial

/-! ## Programs -/

theorem parameter_gives (ht : Grammatical .parameter t) (hp : t.Writable) :
    Gives parameter (t.paramTokens ++ i) i (Alike t) := by
  cases ht with
  | @param ty v j n hty =>
    have hv := (lexed_of_var hp (k := v) List.mem_cons_self).2
    have hproper := hp.part (u := ty) (.tail _ List.mem_cons_self)
    rw [paramTokens, List.append_assoc]
    refine .bind (typeTokens_gives hty hproper hv) fun a ha => ?_
    refine .bind (variableName_gives hv) fun b hb => .line (.pure ?_)
    simp only [Alike, erased] at ha ⊢
    rw [ha, hb]
    rfl

theorem parameters_gives {ps : List Tree} (hps : ∀ p ∈ ps, Grammatical .parameter p)
    (hp : ∀ p ∈ ps, p.Writable) :
    Gives parameters (commas (ps.map paramTokens) ++ ofKind .rparen :: i) (ofKind .rparen :: i)
      (List.Forall₂ Alike ps) := by
  cases ps with
  | nil => exact .kind (.ifTrue rfl (.pure .nil))
  | cons p ps =>
    refine .kind (.ifFalse ?_ ?_)
    · cases hps p List.mem_cons_self with
      | @param ty v j n hty =>
        obtain ⟨k, ts, hts, hk⟩ := typeTokens_starts hty
          ((hp _ List.mem_cons_self).part (.tail _ List.mem_cons_self))
        rw [List.map_cons, commas_cons, paramTokens, hts, beq_iff_eq]
        rintro (h : k.kind = .rparen)
        rw [h] at hk
        cases hk
    · exact commaList_gives (F := fun _ => True)
        (fun q hq j _ => parameter_gives (hps q hq) (hp q hq)) trivial nofun trivial

theorem functionBody_gives (ht : Grammatical .functionBody t) (hp : t.Writable) :
    Gives functionBody (t.sentence ++ i) i (Alike t) := by
  cases ht with
  | @body cs n hcs =>
    have hitems (c : Tree) (hc : c ∈ cs) : RereadItem itemOf c :=
      (rereadAs (hcs c hc) (hp.part hc)).1
    rw [sentence]
    refine .bind (.left (itemsOf_gives hitems ?_)) fun us hus => .line (.pure ?_)
    · rw [List.length_append, length_braces]
      omega
    · simp only [Alike, erased]
      rw [Reread.erasedAll_of_alike hus]

theorem functionAhead_type (ht : Grammatical .typeName t) (hp : t.Writable)
    {v : Token} (hv : v.kind = .id) {b : Bool} (hi : (firstKind i == .lparen) = b) :
    Gives functionAhead (t.typeTokens ++ v :: i) (t.typeTokens ++ v :: i) (· = b) := by
  refine .lookahead (j := i) (.bind (typeTokens_gives ht hp hv) fun _ _ => .kind (.ifFalse ?_ ?_))
  · simp [hv]
  · exact .advance (.kind (.pure hi))

theorem functionDeclaration_gives {ty b : Tree} {ps : List Tree} {f : String} {n : Nat}
    (hty : Grammatical .typeName ty) (hps : ∀ p ∈ ps, Grammatical .parameter p)
    (hb : Grammatical .functionBody b) (hp : Writable (.function ty f ps b n)) :
    Gives functionDeclaration ((Tree.function ty f ps b n).sentence ++ i) i
      (Alike (.function ty f ps b n)) := by
  simp only [sentence, List.append_assoc, List.cons_append, enclose_append]
  refine .bind (typeTokens_gives hty (hp.part List.mem_cons_self) rfl) fun u hu => ?_
  refine .token (.eat rfl (.eat rfl (.bind (parameters_gives hps ?_) fun us hus => .eat rfl ?_)))
  · exact fun p h => hp.part (.tail _ (.tail _ h))
  refine .bind (functionBody_gives hb (hp.part (.tail _ List.mem_cons_self))) fun v hv => ?_
  refine .line (.pure ?_)
  simp only [Alike, erased] at hu hv ⊢
  rw [hu, hv, Reread.erasedAll_of_alike hus]
  rfl

theorem libraryInclude_gives (l : String) (n : Nat) :
    Gives libraryInclude ((Tree.library l n).sentence ++ i) i (Alike (.library l n)) := by
  refine .eat rfl (.token (.ifFalse (not_not.2 rfl) (.eat rfl (.eat rfl (.token (.eat rfl ?_))))))
  exact .eat rfl (.token (.ifFalse (not_not.2 rfl) (.eat rfl (.eat rfl (.line (.pure rfl))))))

inductive IsGroup : List Tree → Prop where
  | single {t : Tree} (ht : t.isTopLevel = true) : IsGroup [t]
  | initialized {v op : Token} {t e : Tree} {i j m n : Nat} (ho : op.kind = .assign) :
      IsGroup [.varDecl (.var v i) t m, .assign (.var v j) op e n]

theorem isGroup_of_attached {cs : List Tree} (h : Attached cs) : ∀ ts ∈ groups cs, IsGroup ts := by
  induction h with
  | nil => exact nofun
  | initialized ho _ ih => exact List.forall_mem_cons.2 ⟨.initialized ho, ih⟩
  | @cons t ts ht hts ih =>
    have hgroups : groups (t :: ts) = [t] :: groups ts := by
      rw [groups]
      rintro v ty n w op e m us - rfl
      cases hts with
      | cons h => cases h
    rw [hgroups]
    exact List.forall_mem_cons.2 ⟨.single ht, ih⟩

structure RereadGroup (ts : List Tree) : Prop where
  starts : ∃ k us, groupTokens ts = k :: us ∧ (k.kind.startsDeclaration || k.kind == .hash) = true
  gives : ∀ i, Gives topLevelItem (groupTokens ts ++ i) i (List.Forall₂ Alike ts)

namespace RereadGroup

/-- What starts with a type is a function or a declaration. -/
theorem of_type {ts : List Tree} {k : Token} {us : List Token} {b : Bool}
    (hts : groupTokens ts = k :: us) (hk : k.kind.startsDeclaration = true)
    (hahead : ∀ i, Gives functionAhead (groupTokens ts ++ i) (groupTokens ts ++ i) (· = b))
    (h : ∀ i, Gives (if b then do return [← functionDeclaration] else declaration)
      (groupTokens ts ++ i) i (List.Forall₂ Alike ts)) : RereadGroup ts := by
  refine ⟨⟨k, us, hts, by simp [hk]⟩, fun i => .kind (.ifFalse ?_ (.bind (hahead i) ?_))⟩
  · rw [hts, beq_iff_eq]
    rintro (h : k.kind = .hash)
    rw [h] at hk
    cases hk
  · rintro c rfl
    exact h i

theorem groupTokens_single (t : Tree) : groupTokens [t] = t.sentence := by
  simp [groupTokens]

theorem library (l : String) (n : Nat) : RereadGroup [.library l n] := by
  refine ⟨⟨_, _, rfl, rfl⟩, fun i => ?_⟩
  rw [groupTokens_single]
  refine .kind (.ifTrue rfl (.bind (libraryInclude_gives l n) fun u hu => .pure ?_))
  exact .cons hu .nil

theorem function {ty b : Tree} {ps : List Tree} {f : String} {n : Nat}
    (hty : Grammatical .typeName ty) (hps : ∀ p ∈ ps, Grammatical .parameter p)
    (hb : Grammatical .functionBody b) (hp : Writable (.function ty f ps b n)) :
    RereadGroup [.function ty f ps b n] := by
  have hproper := hp.part (u := ty) List.mem_cons_self
  obtain ⟨k, ts, hts, hk⟩ := typeTokens_starts hty hproper
  have hsentence (i : List Token) : groupTokens [.function ty f ps b n] ++ i =
      ty.typeTokens ++ ofName f :: (enclose (commas (ps.map paramTokens)) ++ (b.sentence ++ i)) := by
    simp [groupTokens_single, sentence]
  have hstarts := hsentence []
  rw [List.append_nil, hts, List.cons_append] at hstarts
  refine of_type (b := true) hstarts hk (fun i => ?_) fun i => .ifTrue rfl ?_
  · rw [hsentence]
    exact functionAhead_type hty hproper rfl rfl
  · rw [groupTokens_single]
    refine .bind (functionDeclaration_gives hty hps hb hp) fun u hu => .pure ?_
    exact .cons hu .nil

/-- A single declaration, which is no function. -/
theorem of_declaration {k : Token} {us : List Token} (hts : t.sentence = k :: us)
    (hk : k.kind.startsDeclaration = true)
    (hahead : ∀ i, Gives functionAhead (t.sentence ++ i) (t.sentence ++ i) (· = false))
    (h : ∀ i, Gives declaration (t.sentence ++ i) i (Single t)) : RereadGroup [t] := by
  rw [← groupTokens_single] at hts hahead h
  refine of_type hts hk hahead fun i => .ifFalse nofun ((h i).weaken fun us hus => ?_)
  obtain ⟨u, rfl, hu⟩ := hus
  exact .cons hu .nil

theorem varDecl {ty : Tree} {v : Token} (j n : Nat) (hty : Grammatical .typeName ty)
    (hp : ty.Writable) (hv : v.kind = .id) :
    RereadGroup [.varDecl (.var v j) ty n] := by
  obtain ⟨k, ts, hts, hk⟩ := typeTokens_starts hty hp
  have hsentence (i : List Token) : (Tree.varDecl (.var v j) ty n).sentence ++ i =
      ty.typeTokens ++ v :: ofKind .semicolon :: i := by
    simp [sentence, tokens]
  have hstarts := hsentence []
  rw [List.append_nil, hts, List.cons_append] at hstarts
  refine of_declaration hstarts hk (fun i => ?_) fun i => declaration_var hty hp hv
  rw [hsentence]
  exact functionAhead_type hty hp hv rfl

theorem structDecl {s : String} {fields : Table VarType} {mark n : Nat}
    (hp : Proper (.structDecl s fields mark n)) : RereadGroup [.structDecl s fields mark n] := by
  refine of_declaration rfl rfl (fun i => ?_) fun i => declaration_struct hp
  exact .lookahead (.bind (structType_gives ⟨s, false, 0⟩ nofun) fun _ _ =>
    .kind (.ifTrue rfl (.pure rfl)))

theorem initialized {ty e : Tree} {v op : Token} (i j m n : Nat) (hty : Grammatical .typeName ty)
    (hp : ty.Writable) (hv : v.kind = .id) (hop : op.kind = .assign)
    (he : Reread e) :
    RereadGroup [.varDecl (.var v i) ty m, .assign (.var v j) op e n] := by
  obtain ⟨k, ts, hts, hk⟩ := typeTokens_starts hty hp
  have htokens (o : List Token) :
      groupTokens [.varDecl (.var v i) ty m, .assign (.var v j) op e n] ++ o =
        ty.typeTokens ++ v :: op :: (enclose e.tokens ++ ofKind .semicolon :: o) := by
    simp [groupTokens, tokens]
  have hstarts := htokens []
  rw [List.append_nil, hts, List.cons_append] at hstarts
  refine of_type (b := false) hstarts hk (fun o => ?_) fun o => .ifFalse (by rintro ⟨⟩) ?_
  · rw [htokens]
    exact functionAhead_type hty hp hv (by simp [hop])
  · rw [htokens]
    refine .bind (structAhead_type hty hp hv) fun b hb => .ifFalse (by simp [hb]) ?_
    exact varDeclaration_value hty hp hv hop he

theorem ofGroup {ts : List Tree} (h : IsGroup ts) (hts : ∀ t ∈ ts, Grammatical .topLevel t)
    (hp : ∀ t ∈ ts, t.Writable) : RereadGroup ts := by
  cases h with
  | single htop =>
    have hp := hp _ List.mem_cons_self
    cases hts _ List.mem_cons_self with
    | library l n => exact library l n
    | function f n hty hps hb => exact function hty hps hb hp
    | declared ht =>
      cases ht with
      | varDecl v j n hty =>
        exact varDecl j n hty (hp.part (.tail _ List.mem_cons_self))
          (lexed_of_var hp List.mem_cons_self).2
      | structDecl s fields mark n => exact structDecl (hp _ (.self _))
      | initializer => cases htop
  | @initialized v op ty e i j m n ho =>
    have hpd := hp _ List.mem_cons_self
    have hpa := hp _ (.tail _ List.mem_cons_self)
    have hty : Grammatical .typeName ty := by
      cases hts _ List.mem_cons_self with
      | declared ht => cases ht with | varDecl _ _ _ hty => exact hty
    have he : Grammatical .expression e := by
      cases hts _ (.tail _ List.mem_cons_self) with
      | declared ht => cases ht with | initializer _ _ _ _ he => exact he
    exact initialized i j m n hty (hpd.part (.tail _ List.mem_cons_self))
      (lexed_of_var hpd List.mem_cons_self).2 ho
      (reread he (hpa.part (.tail _ List.mem_cons_self)))

end RereadGroup

/-- A program is read as it was written. -/
theorem wholeProgram_gives (ht : t.Built .program) :
    Gives wholeProgram t.programTokens [] (Alike t) := by
  obtain ⟨hgram, hp⟩ := ht
  cases hgram with
  | @program cs n hcs =>
    have hgroups (ts : List Tree) (hts : ts ∈ groups cs) : RereadGroup ts :=
      .ofGroup (isGroup_of_attached (hp _ (.self _)) ts hts)
        (fun t ht => hcs t (mem_of_mem_groups hts ht))
        fun t ht => hp.part (mem_of_mem_groups hts ht)
    have hmany : Gives (manyWhile (fun k => k.startsDeclaration || k == .hash) topLevelItem)
        ((groups cs).flatMap groupTokens ++ []) []
        (List.Forall₂ (List.Forall₂ Alike) (groups cs)) := by
      refine manyWhile_gives (F := fun _ => True) (fun ts hts i _ => (hgroups ts hts).gives i)
        (fun ts hts => ?_) rfl trivial
      obtain ⟨k, us, hus, hk⟩ := (hgroups ts hts).starts
      exact ⟨k, us, hus, hk, trivial⟩
    have hdecls : Gives declarations (programTokens (.program cs n)) [] (List.Forall₂ Alike cs) := by
      rw [List.append_nil] at hmany
      refine .map hmany fun uss huss => ?_
      have hflat := List.rel_flatten huss
      rwa [flatten_groups] at hflat
    have hprogram : Gives program (programTokens (.program cs n)) [] (Alike (.program cs n)) := by
      refine .bind hdecls fun us hus => .line (.pure ?_)
      simp only [Alike, erased]
      rw [Reread.erasedAll_of_alike hus]
    exact .bind hprogram fun u hu => .kind (.ifTrue rfl (.pure hu))

end Grammar

/-- The text of a program is read as the program. -/
theorem Tree.Built.exists_parse {t : Tree} (ht : t.Built .program) {numeral : Float → List Char}
    (hnum : Source.IsNumeral numeral) :
    ∃ u, Program.parse (t.render numeral) = .ok u ∧ u.erased = t.erased := by
  obtain ⟨u, hu, halike⟩ := Grammar.wholeProgram_gives ht
  have hstream : Stream.ofText (t.render numeral) = Stream.ofTokens t.programTokens :=
    Stream.ofText_text hnum ht.legible_programTokens
  have hstart : Parser.start Grammar.wholeProgram (Stream.ofTokens t.programTokens) =
      .ok (u, Stream.ofTokens []) := by
    rw [← hu]
    cases t.programTokens <;> rfl
  have hempty : (t.render numeral).isEmpty = false := by
    obtain ⟨cs, hcs⟩ := Token.text_eq numeral t.programTokens
    simp [Tree.render, hcs]
  refine ⟨u, ?_, halike⟩
  rw [Program.parse, hempty, hstream, Grammar.parseStream, hstart]
  rfl

theorem Program.exists_of_isOk {code : String} (h : (Program.parse code).isOk = true) :
    ∃ t, Program.parse code = .ok t := by
  cases ht : Program.parse code with
  | error e =>
    rw [ht] at h
    cases h
  | ok t => exact ⟨t, rfl⟩

/-- The programs that can be written are all that are read from any text, and the text of such a
program, in which the reals are spelled by numerals that are read as them, is read as the same
program: the same nodes with the same tokens, but for the lines and for the marks that tell
structure types apart by the place where they were read. -/
theorem Program.parse_render {numeral : Float → List Char} (hnum : Source.IsNumeral numeral)
    (t : Tree) :
    (∀ code, Program.parse code = .ok t → t.Built .program) ∧
      (t.Built .program →
        ∃ u, Program.parse (t.render numeral) = .ok u ∧ u.erased = t.erased) :=
  ⟨fun _ h => Program.built_of_parse h, fun h => h.exists_parse hnum⟩

theorem Program.parse_render_sample : ∃ t,
    Program.parse "struct p \x7b int x; \x7d; long a = 3;
      int f(struct p * q) \x7b
        if (q) q->x = (int) 2.5;
        return a ? f(q) : -a++;
      \x7d" = .ok t ∧ ∃ numeral, Source.IsNumeral numeral ∧
        ∃ u, Program.parse (t.render numeral) = .ok u ∧ u.erased = t.erased := by
  obtain ⟨numeral, hnum⟩ := Source.exists_isNumeral
  refine (Program.exists_of_isOk ?_).imp fun t ht =>
    ⟨ht, numeral, hnum, (parse_render hnum t).2 ((parse_render hnum t).1 _ ht)⟩
  decide +kernel

end MiniC
