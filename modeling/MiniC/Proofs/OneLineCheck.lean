import MiniC.Proofs.Effects
import MiniC.Proofs.OneLine
import MiniC.Proofs.Shape

/-!
# Checking a tree as if it stood on one line

The check of a tree on one line accepts and rejects what the check of the tree does, and says the
same but for the lines in its errors and warnings. `Mirrors` compares two computations on a state
that may fail: from a changed state the second one gives what the first one gives, where states,
results and errors are changed by fixed functions.
-/

namespace MiniC

/-- From a changed state `q` gives what `p` gives, with the state changed by `c`, the result by `f`
and an error by `e`. -/
def Mirrors {ε S α β : Type} (e : ε → ε) (c : S → S) (f : α → β) (p : ExceptT ε (StateM S) α)
    (q : ExceptT ε (StateM S) β) : Prop :=
  ∀ s, q.run (c s) = (((p.run s).1.mapError e).map f, c (p.run s).2)

namespace Mirrors

variable {ε S α β γ δ : Type} {e : ε → ε} {c : S → S} {f : α → β} {g : γ → δ}

theorem pure (a : α) : Mirrors e c f (pure a) (pure (f a)) :=
  fun _ => rfl

theorem throw (x : ε) : Mirrors e c f (throw x) (throw (e x)) :=
  fun _ => rfl

theorem bind {p : ExceptT ε (StateM S) α} {q : ExceptT ε (StateM S) β}
    {k : α → ExceptT ε (StateM S) γ} {l : β → ExceptT ε (StateM S) δ} (hp : Mirrors e c f p q)
    (hk : ∀ a, Mirrors e c g (k a) (l (f a))) : Mirrors e c g (p >>= k) (q >>= l) := by
  intro s
  rw [run_bind, run_bind, hp s]
  obtain ⟨r, s'⟩ := p.run s
  cases r with
  | error x => rfl
  | ok a => exact hk a s'

theorem ite {b : Prop} [Decidable b] {p p' : ExceptT ε (StateM S) α}
    {q q' : ExceptT ε (StateM S) β} (h : Mirrors e c f p q) (h' : Mirrors e c f p' q') :
    Mirrors e c f (if b then p else p') (if b then q else q') := by
  split
  · exact h
  · exact h'

theorem get : Mirrors e c c get get :=
  fun _ => rfl

theorem modify {u v : S → S} (h : ∀ s, v (c s) = c (u s)) :
    Mirrors e c (fun a => a) (modify u) (modify v) := by
  intro s
  change (Except.ok (), v (c s)) = (Except.ok (), c (u s))
  rw [h]

end Mirrors

def Echoes {ε α β : Type} (e : ε → ε) (f : α → β) (r : Except ε α) (r' : Except ε β) : Prop :=
  r' = (r.mapError e).map f

namespace Echoes

variable {ε α β γ δ : Type} {e : ε → ε} {f : α → β} {g : γ → δ}

theorem pure (a : α) : Echoes e f (.ok a) (.ok (f a)) := rfl

theorem throw (x : ε) : Echoes e f (.error x) (.error (e x)) := rfl

theorem throw_of_eq {x y : ε} (h : e x = y) : Echoes e f (.error x) (.error y) :=
  h ▸ .throw x

theorem bind {r : Except ε α} {r' : Except ε β} {k : α → Except ε γ} {l : β → Except ε δ}
    (h : Echoes e f r r') (hk : ∀ a, Echoes e g (k a) (l (f a))) :
    Echoes e g (r >>= k) (r' >>= l) := by
  cases h
  cases r with
  | error x => rfl
  | ok a => exact hk a

theorem ite {b : Prop} [Decidable b] {p p' : Except ε α} {q q' : Except ε β}
    (h : Echoes e f p q) (h' : Echoes e f p' q') :
    Echoes e f (if b then p else p') (if b then q else q') := by
  split
  · exact h
  · exact h'

end Echoes

namespace SemanticError

def oneLine : SemanticError → SemanticError
  | noMain => noMain
  | structInStruct name _ => structInStruct name 1
  | duplicate name _ => duplicate name 1
  | secondDefault _ => secondDefault 1
  | labelBehindDefault _ => labelBehindDefault 1
  | continueOutsideLoop _ => continueOutsideLoop 1
  | breakOutsideLoop _ => breakOutsideLoop 1
  | bitwiseOperands left right op _ => bitwiseOperands left right op 1
  | twoPointers left right op _ => twoPointers left right op 1
  | pointerOperands left right op _ => pointerOperands left right op 1
  | steppedNoPlace nodeClass op _ => steppedNoPlace nodeClass op 1
  | dereferenced operand _ => dereferenced operand 1
  | pointerOperand operand op _ => pointerOperand operand op 1
  | assignedNoPlace nodeClass op _ => assignedNoPlace nodeClass op 1
  | pointerAssignment left right op _ => pointerAssignment left right op 1
  | unknownName name _ => unknownName name 1
  | fieldOfNoStruct name _ => fieldOfNoStruct name 1
  | wrongFieldOperator _ => wrongFieldOperator 1
  | noSuchField field struct _ => noSuchField field struct 1
  | unknownStruct name _ => unknownStruct name 1
  | invalidType type _ => invalidType type 1
  | unknownLiteral kind => unknownLiteral kind
  | unknownFunction name _ => unknownFunction name 1
  | calledNoFunction name => calledNoFunction name
  | argumentCount name given wanted _ => argumentCount name given wanted 1

end SemanticError

def Warning.oneLine : Warning → Warning
  | branches whenTrue whenFalse _ => branches whenTrue whenFalse 1
  | assignment left right _ => assignment left right 1
  | arguments name wanted given _ => arguments name wanted given 1

def Rejection.oneLine : Rejection → Rejection
  | error e => error e.oneLine
  | fault f => fault f

def Analysis.oneLine (s : Analysis) : Analysis :=
  { s with warnings := s.warnings.map Warning.oneLine }

abbrev Rejection.Echoes {α β : Type} (f : α → β) (r : Except Rejection α)
    (r' : Except Rejection β) : Prop :=
  MiniC.Echoes Rejection.oneLine f r r'

namespace Typing

theorem isPointer_echoes (t : Typing) : Rejection.Echoes (fun b => b) t.isPointer t.isPointer := by
  rcases t with _ | ⟨_ | _⟩ | _ <;> rfl

theorem isInt_echoes (t : Typing) : Rejection.Echoes (fun b => b) t.isInt t.isInt := by
  rcases t with _ | ⟨_ | _⟩ | _ <;> rfl

theorem dereference_echoes (t : Typing) :
    Rejection.Echoes (fun u => u) t.dereference t.dereference := by
  rcases t with _ | ⟨_ | _⟩ | _ <;> rfl

theorem combine_echoes (t u : Typing) :
    Rejection.Echoes (fun v => v) (t.combine u) (t.combine u) := by
  unfold combine
  split
  · split <;> rfl
  · rfl
  · rfl

end Typing

namespace Analysis

theorem isPlace_echoes (t : Tree) : Rejection.Echoes (fun b => b) (isPlace t) (isPlace t.oneLine) := by
  cases t with
  | unary op e b n => cases e <;> rfl
  | _ => rfl

theorem binaryType_echoes (op : Kind) (n : Nat) (a b : Typing) :
    Rejection.Echoes (fun t => t) (binaryType op n a b) (binaryType op 1 a b) := by
  refine .ite (.bind a.isInt_echoes fun _ => .ite (.bind b.isInt_echoes fun _ =>
    .ite ?_ (.throw _)) (.throw _)) ?_
  all_goals
    refine .bind a.isPointer_echoes fun _ => .ite ?_ ?_
    · refine .bind b.isPointer_echoes fun _ => .ite (.throw _) ?_
      exact .bind b.isInt_echoes fun _ => .ite (.ite (.pure _) (.throw _)) (.throw _)
    · refine .bind b.isPointer_echoes fun _ => .ite ?_ (a.combine_echoes b)
      exact .bind a.isInt_echoes fun _ => .ite (.ite (.pure _) (.throw _)) (.throw _)

@[simp] theorem className_oneLine (t : Tree) : t.oneLine.className = t.className := by
  cases t <;> rfl

theorem unaryType_echoes (op : Kind) (n : Nat) (operand : Tree) (t : Typing) :
    Rejection.Echoes (fun t => t) (unaryType op n operand t) (unaryType op 1 operand.oneLine t) := by
  have hclass : (Rejection.error (.steppedNoPlace operand.className op n)).oneLine =
      .error (.steppedNoPlace operand.oneLine.className op 1) := by
    rw [className_oneLine]
    rfl
  refine .ite (.bind (isPlace_echoes operand) fun _ => .ite ?_ (.throw_of_eq hclass)) ?_
  all_goals
    refine .ite (.bind t.isPointer_echoes fun _ => .ite t.dereference_echoes ?_) ?_
    · exact .bind t.isInt_echoes fun _ => .ite t.dereference_echoes (.throw _)
    · exact .bind t.isPointer_echoes fun _ => .ite (.ite (.pure _) (.throw _)) (.pure _)

theorem pointerTakes_echoes (op : Kind) (a b : Typing) :
    Rejection.Echoes (fun b => b) (pointerTakes op a b) (pointerTakes op a b) := by
  unfold pointerTakes
  split
  · exact b.isInt_echoes
  · exact b.isInt_echoes
  · exact .bind b.isPointer_echoes fun _ => .ite (.ite (.pure _) b.isInt_echoes) b.isInt_echoes
  · exact .pure _

theorem assignType_echoes (op : Kind) (n : Nat) (target : Tree) (a b : Typing) :
    Rejection.Echoes (fun r => (r.1, r.2.map Warning.oneLine)) (assignType op n target a b)
      (assignType op 1 target.oneLine a b) := by
  refine .bind (isPlace_echoes target) fun _ => .ite ?_ ?_
  · refine .bind a.isPointer_echoes fun _ => .ite ?_ (.ite (.pure _) (.pure _))
    exact .bind (pointerTakes_echoes op a b) fun _ => .ite (.pure _) (.throw _)
  · rw [className_oneLine]
    exact .throw (Rejection.error _)

theorem namedType_echoes (t : VarType) (n : Nat) :
    Rejection.Echoes (fun t => t) (namedType t n) (namedType t 1) := by
  cases t with
  | number c => exact .ite (.pure _) (.throw _)
  | struct s => exact .ite (.throw _) (.throw _)

theorem castType_echoes (t : Tree) :
    Rejection.Echoes (fun t => t) (castType t) (castType t.oneLine) := by
  cases t <;> rfl

theorem literalType_echoes (t : Token) :
    Rejection.Echoes (fun t => t) (literalType t) (literalType t) := by
  unfold literalType
  split <;> rfl

end Analysis

/-! ## Names -/

namespace Check

variable {α β : Type} {f : α → β}

abbrev Reflects (f : α → β) (p : Check α) (q : Check β) : Prop :=
  Mirrors Rejection.oneLine Analysis.oneLine f p q

theorem ofExcept_reflects {r : Except Rejection α} {r' : Except Rejection β}
    (h : Rejection.Echoes f r r') : Reflects f (ofExcept r) (ofExcept r') := by
  cases h
  cases r with
  | error e => exact .throw e
  | ok a => exact .pure a

theorem reject_reflects (e : SemanticError) : Reflects f (reject e) (reject e.oneLine) :=
  .throw (Rejection.error e)

theorem fail_reflects (x : Fault) : Reflects f (fail x) (fail x) :=
  .throw (Rejection.fault x)

theorem warn_reflects (w : Warning) : Reflects (fun u => u) (warn w) (warn w.oneLine) :=
  .modify fun s => by simp [Analysis.oneLine]

theorem current_reflects : Reflects (fun t => t) current current := by
  refine .bind .get fun s => ?_
  obtain ⟨tables, loops, switches, warnings⟩ := s
  cases tables with
  | nil => exact fail_reflects _
  | cons t ts => exact .pure _

theorem lookup_reflects (name : String) : Reflects (fun s => s) (lookup name) (lookup name) :=
  current_reflects.bind fun _ => .bind .get fun _ => .pure _

theorem insert_reflects (x : Symbol) : Reflects (fun u => u) (insert x) (insert x) := by
  refine .bind .get fun s => ?_
  obtain ⟨tables, loops, switches, warnings⟩ := s
  cases tables with
  | nil => exact fail_reflects _
  | cons t ts => exact .modify fun _ => rfl

theorem insertOutside_reflects (x : Symbol) :
    Reflects (fun u => u) (insertOutside x) (insertOutside x) := by
  refine .modify fun s => ?_
  obtain ⟨tables, loops, switches, warnings⟩ := s
  cases tables with
  | nil => rfl
  | cons t ts => cases ts <;> rfl

theorem declare_reflects (x : Symbol) (n : Nat) :
    Reflects (fun u => u) (declare x n) (declare x 1) :=
  current_reflects.bind fun _ => .ite (reject_reflects _) (insert_reflects x)

section

variable {p : Check α} {q : Check β} (h : Reflects f p q)

include h

theorem within_reflects (t : SymbolTable) : Reflects f (within t p) (within t q) :=
  .bind (.modify fun _ => rfl) fun _ => .bind h fun _ => .bind (.modify fun _ => rfl) fun _ => .pure _

theorem inLoop_reflects : Reflects f (inLoop p) (inLoop q) :=
  .bind (.modify fun _ => rfl) fun _ => .bind h fun _ => .bind (.modify fun _ => rfl) fun _ => .pure _

theorem inSwitch_reflects : Reflects f (inSwitch p) (inSwitch q) :=
  .bind (.modify fun _ => rfl) fun _ => .bind h fun _ => .bind (.modify fun _ => rfl) fun _ => .pure _

end

theorem forM_reflects {γ : Type} {k l : γ → Check PUnit} (h : ∀ x, Reflects (fun u => u) (k x) (l x))
    (xs : List γ) : Reflects (fun u => u) (xs.forM k) (xs.forM l) := by
  induction xs with
  | nil => exact .pure _
  | cons x xs ih => exact (h x).bind fun _ => ih

end Check

namespace Analysis

open Check

theorem nameOf_oneLine (t : Tree) : nameOf t.oneLine = nameOf t := by
  rw [nameOf, Tree.name?_oneLine, nameOf]

theorem nameOf_reflects (t : Tree) :
    Reflects (fun name => name) (nameOf t) (nameOf t.oneLine) := by
  rw [nameOf_oneLine, nameOf]
  split
  · exact .pure _
  · exact fail_reflects _

theorem typeOf_reflects (t : Tree) : Reflects (fun type => type) (typeOf t) (typeOf t.oneLine) := by
  rw [typeOf, typeOf, Tree.type?_oneLine]
  split
  · exact .pure _
  · exact fail_reflects _

theorem variableType_reflects (name : String) (n : Nat) :
    Reflects (fun t => t) (variableType name n) (variableType name 1) := by
  refine (lookup_reflects name).bind fun x => ?_
  cases x with
  | none => exact reject_reflects _
  | some x => exact .pure _

theorem structType_reflects (t : VarType) (n : Nat) :
    Reflects (fun t => t) (structType t n) (structType t 1) := by
  cases t with
  | number c => exact fail_reflects _
  | struct t =>
    refine (lookup_reflects t.name).bind fun x => ?_
    split
    · exact .pure _
    · exact reject_reflects _

theorem fieldType_reflects (op : Kind) (base member : Tree) (n : Nat) :
    Reflects (fun t => t) (fieldType op base member n)
      (fieldType op base.oneLine member.oneLine 1) := by
  refine (nameOf_reflects base).bind fun name => (lookup_reflects name).bind fun x => ?_
  split
  · split
    · refine .ite (reject_reflects _) ((lookup_reflects _).bind fun _ => ?_)
      refine (nameOf_reflects member).bind fun _ => ?_
      split
      · split
        · exact .pure _
        · exact .pure _
        · exact reject_reflects _
      · exact fail_reflects _
    · exact reject_reflects _
  · exact fail_reflects _

theorem declareStruct_reflects (name : String) (fields : Table VarType) (mark n : Nat) :
    Reflects (fun u => u) (declareStruct name fields mark n) (declareStruct name fields mark 1) :=
  .ite (reject_reflects _) (declare_reflects _ n)

theorem declareParam_reflects (type var : Tree) (n : Nat) :
    Reflects (fun t => t) (declareParam type var n)
      (declareParam type.oneLine var.oneLine 1) := by
  refine (nameOf_reflects var).bind fun _ => (typeOf_reflects type).bind fun _ => ?_
  exact (declare_reflects _ n).bind fun _ => .pure _

theorem includeLibrary_reflects (name : String) :
    Reflects (fun u => u) (includeLibrary name) (includeLibrary name) := by
  unfold includeLibrary
  split
  · refine (forM_reflects (fun f => ?_) _).bind fun _ => forM_reflects (fun c => insert_reflects _) _
    exact (lookup_reflects f.name).bind fun _ => .ite (insert_reflects _) (.pure _)
  · exact fail_reflects _

theorem blockTable_reflects : Reflects (fun t => t) blockTable blockTable := by
  refine current_reflects.bind fun t => ?_
  split
  · exact .bind .get fun _ => .pure _
  · exact fail_reflects _

/-! ## Trees -/

def Agrees (t : Tree) : Prop :=
  Reflects (fun a => a) (check t) (check t.oneLine)

theorem checkAll_reflects {ts : List Tree} (h : ∀ t ∈ ts, Agrees t) :
    Reflects (fun u => u) (checkAll ts) (checkAll (ts.map Tree.oneLine)) := by
  induction ts with
  | nil => exact .pure _
  | cons t ts ih =>
    obtain ⟨ht, hts⟩ := List.forall_mem_cons.1 h
    rw [checkAll, List.map_cons, checkAll]
    exact .bind ht fun _ => ih hts

theorem checkEach_reflects {ts : List Tree} (h : ∀ t ∈ ts, Agrees t) :
    Reflects (fun rs => rs) (checkEach ts) (checkEach (ts.map Tree.oneLine)) := by
  induction ts with
  | nil => exact .pure _
  | cons t ts ih =>
    obtain ⟨ht, hts⟩ := List.forall_mem_cons.1 h
    rw [checkEach, List.map_cons, checkEach]
    exact .bind ht fun _ => .bind (ih hts) fun _ => .pure _

theorem checkLast_reflects {ts : List Tree} (h : ∀ t ∈ ts, Agrees t) (r : Typing) :
    Reflects (fun r => r) (checkLast r ts) (checkLast r (ts.map Tree.oneLine)) := by
  induction ts generalizing r with
  | nil => exact .pure _
  | cons t ts ih =>
    obtain ⟨ht, hts⟩ := List.forall_mem_cons.1 h
    rw [checkLast, List.map_cons, checkLast]
    exact .bind ht fun r => ih hts r

theorem checkArgs_reflects {ts : List Tree} (h : ∀ t ∈ ts, Agrees t) (params : List Typing) :
    Reflects (fun r => r) (checkArgs params ts) (checkArgs params (ts.map Tree.oneLine)) := by
  induction ts generalizing params with
  | nil => exact .pure _
  | cons t ts ih =>
    obtain ⟨ht, hts⟩ := List.forall_mem_cons.1 h
    rw [checkArgs, List.map_cons, checkArgs]
    refine .bind ht fun given => ?_
    cases params with
    | nil => exact fail_reflects _
    | cons p params =>
      have hwanted : Rejection.Echoes (fun t => t) p.parameterType p.parameterType := by
        cases p <;> rfl
      exact (ofExcept_reflects hwanted).bind fun _ => (ih hts params).bind fun _ => .pure _

theorem checkCases_item {t : Tree} (ht : t.isLabel = false) (ts : List Tree) (subject : Typing)
    (n : Nat) (seen : Bool) : checkCases subject n seen (t :: ts) = (do
      let _ ← check t
      checkCases subject n seen ts) := by
  rw [checkCases]
  · rintro m rfl
    cases ht
  · rintro v m rfl
    cases ht

theorem checkCases_reflects {ts : List Tree}
    (h : ∀ t ∈ ts, Agrees t ∧ ∀ u ∈ t.parts, Agrees u) (subject : Typing) (n : Nat) (seen : Bool) :
    Reflects (fun u => u) (checkCases subject n seen ts)
      (checkCases subject 1 seen (ts.map Tree.oneLine)) := by
  induction ts generalizing seen with
  | nil => exact .pure _
  | cons t ts ih =>
    obtain ⟨⟨ht, hparts⟩, hts⟩ := List.forall_mem_cons.1 h
    rw [List.map_cons]
    cases t with
    | defaultLabel m =>
      rw [checkCases, Tree.oneLine, checkCases]
      exact .ite (reject_reflects _) (ih hts true)
    | caseLabel v m =>
      rw [checkCases, Tree.oneLine, checkCases]
      refine .ite (reject_reflects _) (.bind (hparts v List.mem_cons_self) fun _ => .ite ?_ ?_)
      · exact ih hts seen
      · exact fail_reflects _
    | _ =>
      rw [checkCases_item rfl, checkCases_item rfl]
      exact .bind ht fun _ => ih hts seen

theorem call_reflects {args : List Tree} (hargs : ∀ t ∈ args, Agrees t) (name : String) (n : Nat) :
    Agrees (.call name args n) := by
  rw [Agrees, check, Tree.oneLine, check, Tree.oneLineAll_eq]
  refine (lookup_reflects name).bind fun x => ?_
  split
  · next f type params =>
    cases params with
    | none => exact (checkAll_reflects hargs).bind fun _ => .pure _
    | some params =>
      rw [List.length_map]
      refine .ite (reject_reflects _) ((checkArgs_reflects hargs params).bind fun r => ?_)
      exact .ite (.pure _) ((warn_reflects _).bind fun _ => .pure _)
  · exact reject_reflects _
  · exact reject_reflects _

theorem function_reflects {type body : Tree} {params : List Tree} (hbody : Agrees body)
    (hparams : ∀ t ∈ params, Agrees t) (name : String) (n : Nat) :
    Agrees (.function type name params body n) := by
  rw [Agrees, check, Tree.oneLine, check, Tree.oneLineAll_eq]
  refine (lookup_reflects name).bind fun _ => .ite (reject_reflects _) ?_
  refine (typeOf_reflects type).bind fun _ => (insert_reflects _).bind fun _ => .bind .get fun _ => ?_
  refine (within_reflects (f := fun u => u) ?_ _).bind fun _ => .pure _
  refine (checkEach_reflects hparams).bind fun _ => (insertOutside_reflects _).bind fun _ => ?_
  exact .bind hbody fun _ => .pure _

/-- The check of a tree on one line is that of the tree, with its lines set to one. -/
theorem agrees (t : Tree) : Agrees t := by
  suffices h : Agrees t ∧ ∀ u ∈ t.parts, Agrees u from h.1
  -- the value of a label is checked by the switch around the label
  induction t using Tree.parts_induction with
  | h t ih =>
    refine ⟨?_, fun u hu => (ih u hu).1⟩
    have hpart {u : Tree} (hu : u ∈ t.parts) : Agrees u := (ih u hu).1
    cases t with
    | call name args n => exact call_reflects (fun _ hu => hpart hu) name n
    | function type name params body n =>
      exact function_reflects (hpart (.tail _ (.head _))) (fun _ hu => hpart (.tail _ (.tail _ hu)))
        name n
    | num k n => exact ofExcept_reflects (literalType_echoes k)
    | var k n => exact variableType_reflects _ n
    | typeName t n => exact ofExcept_reflects (namedType_echoes t n)
    | structName t n => exact structType_reflects t n
    | field op base member n => exact fieldType_reflects op base member n
    | param type var n => exact declareParam_reflects type var n
    | absent | caseLabel | defaultLabel => exact fail_reflects _
    | noOp n | string k n =>
      rw [Agrees, check, Tree.oneLine, check]
      exact .pure _
    | binary l op r n =>
      rw [Agrees, check, Tree.oneLine, check]
      refine .bind (hpart (.head _)) fun a => .bind (hpart (.tail _ (.head _))) fun b => ?_
      exact ofExcept_reflects (binaryType_echoes op.kind n a b)
    | unary op operand b n =>
      rw [Agrees, check, Tree.oneLine, check]
      refine .bind (hpart (.head _)) fun a => ?_
      exact ofExcept_reflects (unaryType_echoes op.kind n operand a)
    | cast target operand b n =>
      rw [Agrees, check, Tree.oneLine, check]
      refine .bind (hpart (.tail _ (.head _))) fun _ => ?_
      exact ofExcept_reflects (castType_echoes target)
    | ternary condition whenTrue whenFalse n =>
      rw [Agrees, check, Tree.oneLine, check]
      refine .bind (hpart (.head _)) fun _ => .bind (hpart (.tail _ (.head _))) fun a => ?_
      refine .bind (hpart (.tail _ (.tail _ (.head _)))) fun b => .ite (.pure _) ?_
      exact (warn_reflects _).bind fun _ => .pure _
    | assign target op value n =>
      rw [Agrees, check, Tree.oneLine, check]
      refine .bind (hpart (.head _)) fun a => .bind (hpart (.tail _ (.head _))) fun b => ?_
      refine (ofExcept_reflects (assignType_echoes op.kind n target a b)).bind fun r => ?_
      obtain ⟨t, w⟩ := r
      cases w with
      | none => exact .bind (f := fun u => u) (.pure _) fun _ => .pure _
      | some w => exact (warn_reflects w).bind fun _ => .pure _
    | sequence children n =>
      rw [Agrees, check, Tree.oneLine, check, Tree.oneLineAll_eq]
      exact checkLast_reflects (fun _ hu => hpart hu) _
    | switch subject children n =>
      rw [Agrees, check, Tree.oneLine, check, Tree.oneLineAll_eq]
      refine .bind (hpart (.head _)) fun t => ?_
      refine (inSwitch_reflects (checkCases_reflects (fun u hu => ih u (.tail _ hu)) t n false)).bind ?_
      exact fun _ => .pure _
    | ifElse condition whenTrue whenFalse n =>
      rw [Agrees, check, Tree.oneLine, check]
      refine .bind (hpart (.head _)) fun _ => .bind (hpart (.tail _ (.head _))) fun _ => ?_
      exact .bind (hpart (.tail _ (.tail _ (.head _)))) fun _ => .pure _
    | forLoop setup condition increment body n =>
      rw [Agrees, check, Tree.oneLine, check]
      refine .bind (hpart (.head _)) fun _ => .bind (hpart (.tail _ (.head _))) fun _ => ?_
      refine .bind (inLoop_reflects (hpart (.tail _ (.tail _ (.tail _ (.head _)))))) fun _ => ?_
      exact .bind (hpart (.tail _ (.tail _ (.head _)))) fun _ => .pure _
    | whileLoop condition body n =>
      rw [Agrees, check, Tree.oneLine, check]
      refine .bind (hpart (.head _)) fun _ => ?_
      exact .bind (inLoop_reflects (hpart (.tail _ (.head _)))) fun _ => .pure _
    | doWhile condition body n =>
      rw [Agrees, check, Tree.oneLine, check]
      refine .bind (inLoop_reflects (hpart (.tail _ (.head _)))) fun _ => ?_
      exact .bind (hpart (.head _)) fun _ => .pure _
    | returning value n =>
      rw [Agrees, check, Tree.oneLine, check]
      exact hpart (.head _)
    | breaking n =>
      rw [Agrees, check, Tree.oneLine, check]
      exact .bind .get fun _ => .ite (reject_reflects _) (.pure _)
    | continuing n =>
      rw [Agrees, check, Tree.oneLine, check]
      exact .bind .get fun _ => .ite (reject_reflects _) (.pure _)
    | block children n =>
      rw [Agrees, check, Tree.oneLine, check, Tree.oneLineAll_eq]
      refine blockTable_reflects.bind fun t => ?_
      exact (within_reflects (checkAll_reflects fun _ hu => hpart hu) t).bind fun _ => .pure _
    | body children n =>
      rw [Agrees, check, Tree.oneLine, check, Tree.oneLineAll_eq]
      exact (checkAll_reflects fun _ hu => hpart hu).bind fun _ => .pure _
    | program children n =>
      rw [Agrees, check, Tree.oneLine, check, Tree.oneLineAll_eq]
      refine (within_reflects (f := fun u => u) ?_ _).bind fun _ => .pure _
      refine (checkAll_reflects fun _ hu => hpart hu).bind fun _ => ?_
      exact (lookup_reflects "main").bind fun _ => .ite (reject_reflects _) (.pure _)
    | varDecl var type n =>
      rw [Agrees, check, Tree.oneLine, check]
      refine .bind (hpart (.tail _ (.head _))) fun _ => (nameOf_reflects var).bind fun _ => ?_
      exact (typeOf_reflects type).bind fun _ => (declare_reflects _ n).bind fun _ => .pure _
    | structDecl name fields mark n =>
      rw [Agrees, check, Tree.oneLine, check]
      exact (declareStruct_reflects name fields mark n).bind fun _ => .pure _
    | library name n =>
      rw [Agrees, check, Tree.oneLine, check]
      exact (includeLibrary_reflects name).bind fun _ => .pure _

/-- What is said of a tree on one line is what is said of the tree, with its lines set to one. -/
theorem analyze_oneLine (t : Tree) : analyze t.oneLine =
    ((analyze t).1.mapError Rejection.oneLine, (analyze t).2.map Warning.oneLine) := by
  have hcheck : Reflects (fun u => u) (do let _ ← check t : Check Unit)
      (do let _ ← check t.oneLine : Check Unit) :=
    .bind (agrees t) fun _ => .pure _
  have hstart := hcheck start
  rw [show (fun u : Unit => u) = id from rfl, Except.map_id, id] at hstart
  exact congrArg (fun r => (r.1, r.2.warnings)) hstart

end Analysis

end MiniC
