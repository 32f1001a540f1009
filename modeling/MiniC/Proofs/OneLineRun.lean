import MiniC.Proofs.OneLineMachine

/-!
# Running a tree as if it stood on one line

A run of a tree on one line does what the run of the tree does: every rule of evaluation takes the
values of parts on one line to the value on one line. So two texts with the same tokens are one
program, but for the lines that errors and warnings tell.
-/

namespace MiniC

namespace Eval

open Run

variable {w : String}

/-! ## Names and places -/

theorem nameOf_reflects (t : Tree) : Reflects w (fun n => n) (nameOf t) (nameOf t.oneLine) := by
  unfold nameOf
  rw [Tree.name?_oneLine]
  cases t.name? with
  | some name => exact .pure _
  | none => exact .throw _

theorem typeOf_reflects (t : Tree) : Reflects w (fun u => u) (typeOf t) (typeOf t.oneLine) := by
  unfold typeOf
  rw [Tree.type?_oneLine]
  cases t.type? with
  | some type => exact .pure _
  | none => exact .throw _

theorem addressOf_reflects (name : String) :
    Reflects w (fun a => a) (addressOf name) (addressOf name) := by
  refine .bind (lookup_reflects name) fun b => ?_
  cases b with
  | «at» a => exact .pure _
  | constant n => exact .throw _

theorem pointedBy_reflects (t : Tree) :
    Reflects w (fun a => a) (pointedBy t) (pointedBy t.oneLine) := by
  refine .bind (nameOf_reflects t) fun name => .bind (readName_reflects name) fun v => ?_
  exact ofExcept_reflects (.same_of_eq v.content_oneLine)

theorem entryOf_reflects (v : Value) (member : Tree) :
    Reflects w (fun a => a) (entryOf v member) (entryOf v.oneLine member.oneLine) :=
  .bind (nameOf_reflects member) fun name => ofExcept_reflects (.same_of_eq (v.entry_oneLine name))

theorem fieldAddress_reflects (op : Kind) (base member : Tree) :
    Reflects w (fun a => a) (fieldAddress op base member)
      (fieldAddress op base.oneLine member.oneLine) := by
  refine .ite ?_ ?_
  · refine .bind (pointedBy_reflects base) fun a => .bind (readAt_reflects a) fun v => ?_
    exact entryOf_reflects v member
  · refine .bind (nameOf_reflects base) fun name => .bind (readName_reflects name) fun v => ?_
    exact entryOf_reflects v member

theorem fieldValue_reflects (op : Kind) (base member : Tree) :
    Reflects w Value.oneLine (fieldValue op base member)
      (fieldValue op base.oneLine member.oneLine) :=
  .bind (fieldAddress_reflects op base member) fun a => readAt_reflects a

theorem place_reflects (t : Tree) : Reflects w (fun a => a) (place t) (place t.oneLine) := by
  cases t with
  | var token n => exact addressOf_reflects _
  | unary op operand b n => exact pointedBy_reflects operand
  | cast target operand b n => exact pointedBy_reflects operand
  | field op base member n => exact fieldAddress_reflects op base member
  | binary left op right n =>
    refine .bind (nameOf_reflects left) fun name => .bind (readName_reflects name) fun v => ?_
    exact entryOf_reflects v right
  | _ => exact .throw _

/-! ## Operators -/

theorem literal_reflects (t : Token) : Reflects w Value.oneLine (literal t) (literal t) := by
  unfold literal
  split
  · exact .bind (makeNumber_reflects _ _) fun n => .pure (Value.number n)
  · exact .bind (makeNumber_reflects _ _) fun n => .pure (Value.number n)
  · exact .bind (makeNumber_reflects _ _) fun n => .pure (Value.number n)
  · exact .throw _

theorem convert_reflects (t : VarType) (v : Value) :
    Reflects w Value.oneLine (convert t v) (convert t v.oneLine) := by
  cases t with
  | number t => exact .bind (numberOf_reflects t v) fun n => .pure (Value.number n)
  | struct t => exact .throw _

theorem operator?_echoes {k : Kind} {f : Store → Value → Value → Except Fault Value}
    (h : operator? k = some f) (s : Store) (a b : Value) :
    Fault.Echoes Value.oneLine (f s a b) (f s.oneLine a.oneLine b.oneLine) := by
  cases k with
  | plus => cases h; exact a.add_echoes b
  | minus => cases h; exact a.sub_echoes b
  | asterisk => cases h; exact a.mul_echoes b
  | divOp => cases h; exact a.div_echoes b
  | modOp => cases h; exact Value.mod_echoes s a b
  | ltOp | gtOp | leOp | geOp | eqOp | neOp => cases h; exact Value.compare_echoes _ a b
  | ampersand | xorOp => cases h; exact Value.bits_echoes _ a b
  | orOp => cases h; exact a.union_echoes b
  | _ => cases h

theorem arrow_reflects (left right : Tree) :
    Reflects w Value.oneLine (arrow left right) (arrow left.oneLine right.oneLine) := by
  refine .bind (nameOf_reflects left) fun name => .bind (readName_reflects name) fun v => ?_
  refine .bind (entryOf_reflects v right) fun a => .bind (readAt_reflects a) fun _ => ?_
  exact .pure Value.nothing

theorem combine_reflects {k : Kind} {f : Store → Value → Value → Except Fault Value}
    (h : operator? k = some f) (a b : Value) :
    Reflects w Value.oneLine (combine f a b) (combine f a.oneLine b.oneLine) :=
  .bind getStore_reflects fun s => ofExcept_reflects (operator?_echoes h s a b)

theorem update_reflects (a : Scalar) {f g : Value → Run Value}
    (h : ∀ v, Reflects w Value.oneLine (f v) (g v.oneLine)) :
    Reflects w (fun r => (r.1.oneLine, r.2.oneLine)) (update a f) (update a g) := by
  refine .bind (readAt_reflects a) fun old => .bind (h old) fun v => ?_
  exact .bind (writeAt_reflects a v) fun _ => .pure (old, v)

theorem step_reflects {f : Value → Value → Except Fault Value}
    (h : ∀ a b, Fault.Echoes Value.oneLine (f a b) (f a.oneLine b.oneLine)) (target : Tree) :
    Reflects w (fun r => (r.1.oneLine, r.2.oneLine)) (step f target) (step f target.oneLine) := by
  refine .bind (place_reflects target) fun a => update_reflects a fun old => ?_
  refine .bind (ofExcept_reflects (.same_of_eq old.asNumber_oneLine)) fun n => ?_
  refine .bind (makeNumber_reflects _ _) fun one => ?_
  exact .bind (ofExcept_reflects (h old (.number one))) fun v => convert_reflects _ v

theorem referTo_reflects (t : Tree) :
    Reflects w Value.oneLine (referTo t) (referTo t.oneLine) := by
  refine .bind (nameOf_reflects t) fun name => .bind (lookup_reflects name) fun b => ?_
  cases b with
  | «at» a => exact .bind (makeNumber_reflects _ _) fun n => .pure (Value.number n)
  | constant c => exact .bind (makeNumber_reflects _ _) fun n => .pure (Value.number n)

theorem dereference_reflects (v : Value) :
    Reflects w Value.oneLine (dereference v) (dereference v.oneLine) :=
  .bind (ofExcept_reflects (.same_of_eq v.content_oneLine)) fun a => readAt_reflects a

theorem negate_reflects (v : Value) :
    Reflects w Value.oneLine (negate v) (negate v.oneLine) := by
  refine .bind (ofExcept_reflects (.same_of_eq v.asNumber_oneLine)) fun n => ?_
  exact .bind (ofExcept_reflects (.same _)) fun n => .pure (Value.number n)

theorem behind_reflects (op : Kind) (operand : Tree) :
    Reflects w Value.oneLine (behind op operand) (behind op operand.oneLine) := by
  unfold behind
  split
  · exact .bind (step_reflects Value.add_echoes operand) fun r => .pure r.1
  · exact .bind (step_reflects Value.sub_echoes operand) fun r => .pure r.1
  · exact .throw _

theorem assignment?_echoes {k : Kind} {f : Value → Value → Except Fault Value}
    (h : assignment? k = some f) (a b : Value) :
    Fault.Echoes Value.oneLine (f a b) (f a.oneLine b.oneLine) := by
  cases k with
  | assign => cases h; exact .pure b
  | addAssign => cases h; exact a.add_echoes b
  | subAssign => cases h; exact a.sub_echoes b
  | mulAssign => cases h; exact a.mul_echoes b
  | divAssign => cases h; exact a.div_echoes b
  | _ => cases h

theorem assigned_reflects (op : Kind) (old given : Value) :
    Reflects w Value.oneLine (assigned op old given) (assigned op old.oneLine given.oneLine) := by
  unfold assigned
  cases h : assignment? op with
  | none => exact .throw _
  | some f =>
    refine .bind (ofExcept_reflects (.same_of_eq old.asNumber_oneLine)) fun n => ?_
    refine .bind (ofExcept_reflects (assignment?_echoes h old given)) fun v => ?_
    exact convert_reflects _ v

/-! ## Declarations and calls -/

theorem define_reflects (name : String) (v : Value) :
    Reflects w (fun u => u) (define name v) (define name v.oneLine) :=
  .bind (Run.declare_reflects name _ .nothing) fun _ => writeName_reflects name v

theorem defineStruct_reflects (name : String) (fields : Table VarType) :
    Reflects w (fun u => u) (defineStruct name fields) (defineStruct name fields) :=
  .bind (Run.declare_reflects name _ .nothing) fun _ =>
    writeName_reflects name (.structDef name fields)

theorem declare_reflects (var type : Tree) :
    Reflects w (fun u => u) (declare var type) (declare var.oneLine type.oneLine) :=
  .bind (typeOf_reflects type) fun t => .bind (nameOf_reflects var) fun name =>
    declareVariable_reflects t name

theorem includeLibrary_reflects (name : String) :
    Reflects w (fun u => u) (includeLibrary name) (includeLibrary name) := by
  unfold includeLibrary
  cases Library.find? name with
  | none => exact .throw _
  | some l =>
    refine .bind (forM_reflects fun f => define_reflects f.name (.builtin f)) fun _ => ?_
    exact forM_reflects fun c => declareConstant_reflects c.1 _

theorem bindParam_reflects (p : Tree) (v : Value) :
    Reflects w (fun u => u) (bindParam p v) (bindParam p.oneLine v.oneLine) := by
  have hdeclared : p.oneLine.declared? =
      p.declared?.map fun r => (r.1.oneLine, r.2.oneLine) := by
    cases p <;> rfl
  unfold bindParam
  rw [hdeclared]
  cases p.declared? with
  | none => exact .throw _
  | some r =>
    refine .bind (typeOf_reflects r.1) fun t => .bind (nameOf_reflects r.2) fun name => ?_
    cases t with
    | number t => exact .bind (declareNumber_reflects t name) fun _ => writeName_reflects name v
    | struct t => exact fun _ => rfl

theorem bindParams_reflects (ps : List Tree) (vs : List Value) :
    Reflects w (fun u => u) (bindParams ps vs)
      (bindParams (ps.map Tree.oneLine) (vs.map Value.oneLine)) := by
  induction vs generalizing ps with
  | nil => cases ps <;> exact .pure _
  | cons v vs ih =>
    cases ps with
    | nil => exact .throw _
    | cons p ps => exact .bind (bindParam_reflects p v) fun _ => ih ps

theorem callBuiltin_reflects (f : Builtin) (args : List Value) :
    Reflects w Value.oneLine (callBuiltin f args) (callBuiltin f (args.map Value.oneLine)) := by
  have hargs : (args.map Value.oneLine).map argument = (args.map argument).map Value.oneLine := by
    rw [List.map_map, List.map_map]
    exact List.map_congr_left fun v _ => v.argument_oneLine
  unfold callBuiltin
  rw [hargs]
  refine .bind (f.apply_reflects _) fun s => ?_
  split
  · exact .pure Value.nothing
  · cases f.returnType with
    | none => exact .throw _
    | some t => exact .bind (makeNumber_reflects t _) fun n => .pure (Value.number n)

theorem enterFunction_reflects (name : String) (params : List Tree) (args : List Value) :
    Reflects w (fun u => u) (enterFunction name params args)
      (enterFunction name (params.map Tree.oneLine) (args.map Value.oneLine)) :=
  .bind (changeStore_reflects fun _ => rfl) fun _ => bindParams_reflects params args

theorem leaveFunction_reflects (type : Tree) (v : Value) :
    Reflects w Value.oneLine (leaveFunction type v) (leaveFunction type.oneLine v.oneLine) := by
  unfold leaveFunction
  rw [v.isNothing_oneLine]
  refine .ite (.pure Value.nothing) (.bind (typeOf_reflects type) fun t => ?_)
  refine .bind (ofExcept_reflects (.same_of_eq v.content_oneLine)) fun c => ?_
  refine .bind (convert_reflects t (.scalar c)) fun r => ?_
  exact .bind (changeStore_reflects Store.popFrame_echoes) fun _ => .pure r

/-! ## Rules -/

section

variable {ev : Evaluator Run} (h : ∀ t, Reflects w Value.oneLine (ev t) (ev t.oneLine))

include h

theorem binary_reflects (left : Tree) (op : Token) (right : Tree) :
    Reflects w Value.oneLine (binary ev left op right)
      (binary ev left.oneLine op right.oneLine) := by
  unfold binary
  split
  · refine .bind (h left) fun v => ?_
    rw [v.truth_oneLine]
    exact .ite (h right) (.pure v)
  · refine .bind (h left) fun v => ?_
    rw [v.truth_oneLine]
    exact .ite (.pure v) (h right)
  · exact arrow_reflects left right
  · cases hk : operator? op.kind with
    | none => exact .pure Value.nothing
    | some f => exact .bind (h left) fun a => .bind (h right) fun b => combine_reflects hk a b

theorem before_reflects (op : Kind) (operand : Tree) :
    Reflects w Value.oneLine (before ev op operand) (before ev op operand.oneLine) := by
  unfold before
  split
  · exact referTo_reflects operand
  · exact .bind (h operand) fun v => dereference_reflects v
  · exact .bind (step_reflects Value.add_echoes operand) fun r => .pure r.2
  · exact .bind (step_reflects Value.sub_echoes operand) fun r => .pure r.2
  · refine .bind (makeNumber_reflects _ _) fun m => .bind (h operand) fun v => ?_
    exact ofExcept_reflects (Value.mul_echoes (.number m) v)
  · exact h operand
  · exact .bind (h operand) fun v => negate_reflects v
  · exact .throw _

theorem cast_reflects (target operand : Tree) (inFront : Bool) :
    Reflects w Value.oneLine (cast ev target operand inFront)
      (cast ev target.oneLine operand.oneLine inFront) := by
  cases inFront with
  | false => cases target <;> exact .throw _
  | true =>
    cases target with
    | typeName t n => exact .bind (h operand) fun v => convert_reflects t v
    | _ => exact .throw _

theorem assign_reflects (target : Tree) (op : Token) (value : Tree) :
    Reflects w Value.oneLine (assign ev target op value)
      (assign ev target.oneLine op value.oneLine) := by
  refine .bind (place_reflects target) fun a => ?_
  refine .bind (update_reflects a fun old => ?_) fun r => .pure r.2
  exact .bind (h value) fun v => assigned_reflects op.kind old v

theorem sequence_reflects (v : Value) (ts : List Tree) :
    Reflects w Value.oneLine (sequence ev v ts)
      (sequence ev v.oneLine (ts.map Tree.oneLine)) := by
  induction ts generalizing v with
  | nil => exact .pure v
  | cons t ts ih => exact .bind (h t) fun u => ih u

theorem callName_reflects (name : String) (args : List Value) :
    Reflects w Value.oneLine (callName ev name args)
      (callName ev name (args.map Value.oneLine)) := by
  refine .bind (readName_reflects name) fun v => ?_
  cases v with
  | builtin f => exact callBuiltin_reflects f args
  | function type name params body =>
    refine .bind (enterFunction_reflects name params args) fun _ => ?_
    exact .bind (h body) fun v => leaveFunction_reflects type v
  | _ => exact .throw _

theorem arguments_reflects (ts : List Tree) :
    Reflects w (List.map Value.oneLine) (arguments ev ts)
      (arguments ev (ts.map Tree.oneLine)) := by
  induction ts with
  | nil => exact .pure []
  | cons t ts ih => exact .bind (h t) fun v => .bind ih fun vs => .pure (v :: vs)

theorem call_reflects (name : String) (args : List Tree) :
    Reflects w Value.oneLine (call ev name args) (call ev name (args.map Tree.oneLine)) := by
  refine .bind (arguments_reflects h args) fun vs => ?_
  have hmemory : (vs ++ [Value.memory]).map Value.oneLine = vs.map Value.oneLine ++ [.memory] :=
    List.map_append
  rw [← hmemory, ← apply_ite (List.map Value.oneLine)]
  exact callName_reflects h name _

theorem untilJump_reflects (ts : List Tree) :
    Reflects w Value.oneLine (untilJump ev ts) (untilJump ev (ts.map Tree.oneLine)) := by
  induction ts with
  | nil => exact .pure Value.nothing
  | cons t ts ih =>
    refine .bind (h t) fun v => ?_
    cases v with
    | jump j => exact .pure (Value.jump j)
    | _ => exact ih

theorem block_reflects (ts : List Tree) :
    Reflects w Value.oneLine (block ev ts) (block ev (ts.map Tree.oneLine)) := by
  refine .bind (changeStore_reflects Store.pushScope_echoes) fun _ => ?_
  refine .bind (untilJump_reflects h ts) fun v => ?_
  exact .bind (changeStore_reflects Store.popScope_echoes) fun _ => .pure v

theorem body_reflects (ts : List Tree) :
    Reflects w Value.oneLine (body ev ts) (body ev (ts.map Tree.oneLine)) := by
  induction ts with
  | nil => exact .pure Value.nothing
  | cons t ts ih =>
    have hreturn : t.oneLine.isReturn = t.isReturn := by cases t <;> rfl
    refine .bind (h t) fun v => ?_
    rw [hreturn]
    exact .ite (.pure v) ih

theorem ifElse_reflects (condition whenTrue whenFalse : Tree) :
    Reflects w Value.oneLine (ifElse ev condition whenTrue whenFalse)
      (ifElse ev condition.oneLine whenTrue.oneLine whenFalse.oneLine) := by
  refine .bind (h condition) fun v => ?_
  rw [v.truth_oneLine]
  exact .ite (h whenTrue) (h whenFalse)

theorem cases_reflects (subject : Value) (found : Bool) (ts : List Tree) :
    Reflects w (fun u => u) (cases ev subject found ts)
      (cases ev subject.oneLine found (ts.map Tree.oneLine)) := by
  induction ts generalizing found with
  | nil => cases found <;> exact .pure _
  | cons t ts ih =>
    cases found with
    | false =>
      cases t with
      | caseLabel e n =>
        refine .bind (h e) fun v => ?_
        refine .bind (ofExcept_reflects (Value.compare_echoes .eq v subject)) fun fits => ?_
        rw [fits.truth_oneLine]
        exact ih fits.truth
      | defaultLabel n => exact ih true
      | _ => exact ih false
    | true =>
      have hlabel : t.oneLine.isLabel = t.isLabel := by cases t <;> rfl
      rw [List.map_cons, cases, cases, hlabel]
      refine .ite (ih true) (.bind (h t) fun v => ?_)
      cases v with
      | jump j =>
        cases j with
        | leave => exact .pure _
        | again => exact ih true
      | _ => exact ih true

theorem switch_reflects (subject : Tree) (ts : List Tree) :
    Reflects w Value.oneLine (switch ev subject ts)
      (switch ev subject.oneLine (ts.map Tree.oneLine)) :=
  .bind (h subject) fun v => .bind (cases_reflects h v false ts) fun _ => .pure Value.nothing

theorem program_reflects (ts : List Tree) :
    Reflects w Value.oneLine (program ev ts) (program ev (ts.map Tree.oneLine)) := by
  induction ts with
  | nil => exact .pure Value.nothing
  | cons t ts ih =>
    have htop : t.oneLine.isTopLevel = t.isTopLevel := by cases t <;> rfl
    rw [List.map_cons, program, program, htop]
    exact .ite (.bind (h t) fun _ => ih) (.throw _)

end

theorem whileTrue_reflects {condition condition' body body' follow follow' : Run Value}
    (hc : Reflects w Value.oneLine condition condition')
    (hb : Reflects w Value.oneLine body body') (hf : Reflects w Value.oneLine follow follow')
    (fuel : Nat) : Reflects w Value.oneLine (whileTrue condition body follow fuel)
      (whileTrue condition' body' follow' fuel) := by
  induction fuel with
  | zero => exact .throw _
  | succ fuel ih =>
    refine .bind hc fun v => ?_
    rw [v.truth_oneLine]
    refine .ite (.bind hb fun u => ?_) (.pure Value.nothing)
    cases u with
    | jump j =>
      cases j with
      | leave => exact .pure Value.nothing
      | again => exact .bind hf fun _ => ih
    | _ => exact .bind hf fun _ => ih

theorem doWhile_reflects {condition condition' body body' : Run Value}
    (hc : Reflects w Value.oneLine condition condition')
    (hb : Reflects w Value.oneLine body body') (fuel : Nat) :
    Reflects w Value.oneLine (doWhile condition body fuel) (doWhile condition' body' fuel) := by
  induction fuel with
  | zero => exact .throw _
  | succ fuel ih =>
    have hnext : Reflects w Value.oneLine
        (do if (← condition).truth then doWhile condition body fuel else return .nothing)
        (do if (← condition').truth then doWhile condition' body' fuel else return .nothing) := by
      refine .bind hc fun v => ?_
      rw [v.truth_oneLine]
      exact .ite ih (.pure Value.nothing)
    refine .bind hb fun u => ?_
    cases u with
    | jump j =>
      cases j with
      | leave => exact .pure Value.nothing
      | again => exact hnext
    | _ => exact hnext

theorem rule_reflects {ev : Evaluator Run} (h : ∀ t, Reflects w Value.oneLine (ev t) (ev t.oneLine))
    (fuel : Nat) (t : Tree) :
    Reflects w Value.oneLine (rule ev fuel t) (rule ev fuel t.oneLine) := by
  cases t with
  | noOp n => exact .pure Value.nothing
  | num token n => exact literal_reflects token
  | string token n => exact .pure (Value.scalar token.value)
  | var token n => exact readName_reflects _
  | binary left op right n => exact binary_reflects h left op right
  | unary op operand inFront n =>
    exact .ite (before_reflects h op.kind operand) (behind_reflects op.kind operand)
  | cast target operand inFront n => exact cast_reflects h target operand inFront
  | assign target op value n => exact assign_reflects h target op value
  | sequence children n =>
    rw [Tree.oneLine, Tree.oneLineAll_eq]
    exact sequence_reflects h .nothing children
  | call name args n =>
    rw [Tree.oneLine, Tree.oneLineAll_eq]
    exact call_reflects h name args
  | field op base member n => exact fieldValue_reflects op base member
  | switch subject children n =>
    rw [Tree.oneLine, Tree.oneLineAll_eq]
    exact switch_reflects h subject children
  | ifElse condition whenTrue whenFalse n => exact ifElse_reflects h condition whenTrue whenFalse
  | forLoop setup condition increment body n =>
    exact .bind (h setup) fun _ => whileTrue_reflects (h condition) (h body) (h increment) fuel
  | whileLoop condition body n =>
    exact whileTrue_reflects (h condition) (h body) (.pure Value.nothing) fuel
  | doWhile condition body n => exact doWhile_reflects (h condition) (h body) fuel
  | returning value n => exact h value
  | breaking n => exact .pure (Value.jump .leave)
  | continuing n => exact .pure (Value.jump .again)
  | block children n =>
    rw [Tree.oneLine, Tree.oneLineAll_eq]
    exact block_reflects h children
  | body children n =>
    rw [Tree.oneLine, Tree.oneLineAll_eq]
    exact body_reflects h children
  | program children n =>
    rw [Tree.oneLine, Tree.oneLineAll_eq]
    exact program_reflects h children
  | varDecl var type n => exact .bind (declare_reflects var type) fun _ => .pure Value.nothing
  | structDecl name fields mark n =>
    exact .bind (defineStruct_reflects name fields) fun _ => .pure Value.nothing
  | library name n => exact .bind (includeLibrary_reflects name) fun _ => .pure Value.nothing
  | function type name params body n =>
    rw [Tree.oneLine, Tree.oneLineAll_eq]
    refine .bind (define_reflects name (.function type name params body)) fun _ => ?_
    exact .pure Value.nothing
  | _ => exact fail_reflects _

theorem eval_reflects (fuel : Nat) (t : Tree) :
    Reflects w Value.oneLine (eval fuel t) (eval fuel t.oneLine) := by
  induction fuel generalizing t with
  | zero => exact .throw _
  | succ fuel ih => exact rule_reflects ih fuel t

theorem execute_reflects (fuel : Nat) (t : Tree) :
    Reflects w (fun s => s) (execute fuel t) (execute fuel t.oneLine) := by
  have hmain : eval fuel callMain.oneLine = eval fuel callMain := by
    cases fuel <;> rfl
  refine .bind (eval_reflects fuel t) fun _ => .bind (changeStore_reflects fun _ => rfl) fun _ => ?_
  refine .bind (hmain ▸ eval_reflects fuel callMain) fun v => ?_
  refine .bind (changeStore_reflects Store.popFrame_echoes) fun _ => ?_
  exact ofExcept_reflects (.same_of_eq v.content_oneLine)

end Eval

/-! ## Programs -/

def Failure.oneLine : Failure → Failure
  | emptySource => emptySource
  | syntactic e => syntactic e.oneLine
  | semantic e => semantic e.oneLine
  | fault f => fault f

namespace Program

def lex (code : String) : Except Failure (List Token) :=
  if code.isEmpty then .error .emptySource
  else (Stream.ofText code).tokens.mapError fun e => .syntactic (.lexical e)

theorem lex_ok {code : String} {ts : List Token} (h : lex code = .ok ts) :
    code.isEmpty = false ∧ (Stream.ofText code).tokens = .ok ts := by
  unfold lex at h
  split at h
  · cases h
  · next hcode =>
    refine ⟨Bool.eq_false_iff.2 hcode, ?_⟩
    cases htokens : (Stream.ofText code).tokens with
    | error e =>
      rw [htokens] at h
      cases h
    | ok us =>
      rw [htokens] at h
      exact congrArg _ (Except.ok.inj h)

theorem parse_oneLine {code : String} (h : code.isEmpty = false) :
    ((parse code).mapError Failure.oneLine).map Tree.oneLine =
      (Grammar.parseStream (Stream.ofText code).oneLine).mapError .syntactic := by
  rw [Grammar.parseStream_oneLine, parse, h]
  cases Grammar.parseStream (Stream.ofText code) <;> rfl

theorem execute_oneLine (w : String) (t : Tree) (m : Machine) :
    execute t.oneLine (m.oneLine w) = ((execute t m).1, (execute t m).2.oneLine w) := by
  have h := Eval.execute_reflects (w := w) stepBound t m
  have hrun : (Eval.execute stepBound t.oneLine).execute (m.oneLine w) =
      (((Eval.execute stepBound t).execute m).1, ((Eval.execute stepBound t).execute m).2.oneLine w) := by
    refine h.trans ?_
    change (Except.map _ (Except.mapError _ ((Eval.execute stepBound t).execute m).1), _) = _
    cases ((Eval.execute stepBound t).execute m).1 <;> rfl
  unfold execute
  rw [hrun]

/-- What stands in the output before an execution does not matter to it. -/
theorem execute_behind (t : Tree) (m : Machine) (o : String) :
    (execute t { m with output := o }).1 = (execute t { m with output := "" }).1 ∧
      (execute t { m with output := o }).2.output =
        o ++ (execute t { m with output := "" }).2.output := by
  have hstart : ({ m with output := o } : Machine).oneLine "" =
      ({ m with output := "" } : Machine).oneLine o := by
    simp only [Machine.oneLine, String.empty_append, String.append_empty]
  have h := execute_oneLine "" t { m with output := o }
  rw [hstart, execute_oneLine, Prod.mk.injEq] at h
  have houtput := congrArg Machine.output h.2
  simp only [Machine.oneLine, String.empty_append] at houtput
  exact ⟨h.1.symm, houtput.symm⟩

theorem execute_same {t u : Tree} (h : t.oneLine = u.oneLine) (m : Machine) :
    (execute t m).1 = (execute u m).1 ∧ (execute t m).2.output = (execute u m).2.output := by
  have ht := execute_oneLine "" t m
  rw [h, execute_oneLine, Prod.mk.injEq] at ht
  have houtput := congrArg Machine.output ht.2
  simp only [Machine.oneLine, String.empty_append] at houtput
  exact ⟨ht.1.symm, houtput.symm⟩

/-- Two runs fail alike but for lines, or end with one status, and write the same behind the
warnings `ws₁` and `ws₂`, which are the same but for lines. -/
def Alike (o : String) (r₁ r₂ : Except Failure Scalar × Machine) : Prop :=
  r₁.1.mapError Failure.oneLine = r₂.1.mapError Failure.oneLine ∧
    ∃ (ws₁ ws₂ : List Warning) (out : String), ws₁.map Warning.oneLine = ws₂.map Warning.oneLine ∧
      r₁.2.output = o ++ String.join (ws₁.map Warning.message) ++ out ∧
      r₂.2.output = o ++ String.join (ws₂.map Warning.message) ++ out

theorem Alike.tellStatus {o : String} {r₁ r₂ : Except Failure Scalar × Machine} (h : Alike o r₁ r₂) :
    Alike o (tellStatus r₁) (tellStatus r₂) := by
  obtain ⟨hresult, ws₁, ws₂, out, hws, ho₁, ho₂⟩ := h
  obtain ⟨r₁, m₁⟩ := r₁
  obtain ⟨r₂, m₂⟩ := r₂
  cases r₁ with
  | error e =>
    cases r₂ with
    | error e' => exact ⟨hresult, ws₁, ws₂, out, hws, ho₁, ho₂⟩
    | ok status => cases hresult
  | ok status =>
    cases r₂ with
    | error e' => cases hresult
    | ok status' =>
      cases hresult
      refine ⟨rfl, ws₁, ws₂, out ++ statusLines status, hws, ?_, ?_⟩
      · exact (congrArg (· ++ statusLines status) ho₁).trans String.append_assoc
      · exact (congrArg (· ++ statusLines status) ho₂).trans String.append_assoc

theorem analyze_same {t u : Tree} (h : t.oneLine = u.oneLine) :
    (Analysis.analyze t).1.mapError Rejection.oneLine =
        (Analysis.analyze u).1.mapError Rejection.oneLine ∧
      (Analysis.analyze t).2.map Warning.oneLine = (Analysis.analyze u).2.map Warning.oneLine := by
  have ht := Analysis.analyze_oneLine t
  rw [h, Analysis.analyze_oneLine, Prod.mk.injEq] at ht
  exact ⟨ht.1.symm, ht.2.symm⟩

theorem check_oneLine (t : Tree) : (check t).1.mapError Failure.oneLine =
    ((Analysis.analyze t).1.mapError Rejection.oneLine).mapError Failure.ofRejection := by
  change Except.mapError _ (Except.mapError _ (Analysis.analyze t).1) = _
  rcases (Analysis.analyze t).1 with (e | f) | u <;> rfl

theorem checkAndExecute_alike {t u : Tree} (h : t.oneLine = u.oneLine) (m : Machine) :
    Alike m.output (checkAndExecute t m) (checkAndExecute u m) := by
  obtain ⟨hresult, hwarnings⟩ := analyze_same h
  have hcheck : (check t).1.mapError Failure.oneLine = (check u).1.mapError Failure.oneLine := by
    rw [check_oneLine, check_oneLine, hresult]
  unfold checkAndExecute
  cases ht : check t with
  | mk rt wt =>
  cases hu : check u with
  | mk ru wu =>
  have hwt : String.join ((Analysis.analyze t).2.map Warning.message) = wt := congrArg Prod.snd ht
  have hwu : String.join ((Analysis.analyze u).2.map Warning.message) = wu := congrArg Prod.snd hu
  rw [ht, hu] at hcheck
  cases rt with
  | error e =>
    cases ru with
    | error e' =>
      refine ⟨?_, _, _, "", hwarnings, ?_, ?_⟩
      · exact congrArg Except.error (Except.error.inj hcheck)
      · rw [hwt, String.append_empty]
      · rw [hwu, String.append_empty]
    | ok _ => cases hcheck
  | ok _ =>
    cases ru with
    | error e' => cases hcheck
    | ok _ =>
      obtain ⟨hrt, hot⟩ := execute_behind t m (m.output ++ wt)
      obtain ⟨hru, hou⟩ := execute_behind u m (m.output ++ wu)
      obtain ⟨hr, ho⟩ := execute_same h { m with output := "" }
      refine ⟨?_, _, _, (execute u { m with output := "" }).2.output, hwarnings, ?_, ?_⟩
      · exact congrArg _ (hrt.trans (hr.trans hru.symm))
      · rw [hwt, ← ho]
        exact hot
      · rw [hwu]
        exact hou

/-- Texts with the same tokens are read, checked and run alike, but for the lines in errors and
warnings. -/
theorem same_but_lines {c₁ c₂ : String} {ts : List Token} (h₁ : lex c₁ = .ok ts)
    (h₂ : lex c₂ = .ok ts) :
    ((parse c₁).mapError Failure.oneLine).map Tree.oneLine =
      ((parse c₂).mapError Failure.oneLine).map Tree.oneLine ∧
    (∀ t₁ t₂, parse c₁ = .ok t₁ → parse c₂ = .ok t₂ →
      (Analysis.analyze t₁).1.mapError Rejection.oneLine =
        (Analysis.analyze t₂).1.mapError Rejection.oneLine ∧
      (Analysis.analyze t₁).2.map Warning.oneLine = (Analysis.analyze t₂).2.map Warning.oneLine) ∧
    ∀ m : Machine, Alike m.output (runFrom c₁ m) (runFrom c₂ m) := by
  obtain ⟨hc₁, ht₁⟩ := lex_ok h₁
  obtain ⟨hc₂, ht₂⟩ := lex_ok h₂
  have hparse : ((parse c₁).mapError Failure.oneLine).map Tree.oneLine =
      ((parse c₂).mapError Failure.oneLine).map Tree.oneLine := by
    rw [parse_oneLine hc₁, parse_oneLine hc₂, Stream.oneLine_eq_of_tokens ht₁ ht₂]
  refine ⟨hparse, fun t₁ t₂ hp₁ hp₂ => ?_, fun m => ?_⟩
  · rw [hp₁, hp₂] at hparse
    exact analyze_same (Except.ok.inj hparse)
  unfold runFrom
  cases hp₁ : parse c₁ with
  | error e₁ =>
    cases hp₂ : parse c₂ with
    | error e₂ =>
      rw [hp₁, hp₂] at hparse
      refine ⟨congrArg Except.error (Except.error.inj hparse), [], [], "", rfl, ?_, ?_⟩
      · exact (String.append_empty.trans String.append_empty).symm
      · exact (String.append_empty.trans String.append_empty).symm
    | ok t₂ =>
      rw [hp₁, hp₂] at hparse
      cases hparse
  | ok t₁ =>
    cases hp₂ : parse c₂ with
    | error e₂ =>
      rw [hp₁, hp₂] at hparse
      cases hparse
    | ok t₂ =>
      rw [hp₁, hp₂] at hparse
      exact (checkAndExecute_alike (Except.ok.inj hparse) m).tellStatus

/-- A program that warns of an assignment and prints, with a gap in front of the assignment. -/
def spaced (gap : String) : String :=
  "#include <stdio.h>\nint main()\x7b char c;" ++ gap ++ "c = 65; printf(\"%c\", c); return 0; \x7d"

def spacedOutput (line : String) : String :=
  "SemanticWarning:\x1b[93mIncompatible types when assigning to type <char> from type <int>" ++
    " at line " ++ line ++ "\x1b[0m\nA" ++ statusLines (.int 0)

/-- The assignment stands on the line of its declaration, and on the next one. -/
theorem same_but_lines_newline : ∃ ts,
    lex (spaced " ") = .ok ts ∧ lex (spaced "\n") = .ok ts ∧
    (runFrom (spaced " ") (Machine.start "")).2.output = spacedOutput "2" ∧
    (runFrom (spaced "\n") (Machine.start "")).2.output = spacedOutput "3" ∧
    ∀ m, Alike m.output (runFrom (spaced " ") m) (runFrom (spaced "\n") m) := by
  have hlex : ((lex (spaced " ")).toOption.any fun ts =>
      decide ((lex (spaced "\n")).toOption = some ts)) = true := by
    decide +kernel
  have toOption_ok {r : Except Failure (List Token)} {ts : List Token}
      (h : r.toOption = some ts) : r = .ok ts := by
    cases r with
    | error e => cases h
    | ok us => exact congrArg Except.ok (Option.some.inj h)
  obtain ⟨ts, h₁, h₂⟩ := (Option.any_eq_true ..).1 hlex
  have h₁ := toOption_ok h₁
  have h₂ := toOption_ok (of_decide_eq_true h₂)
  exact ⟨ts, h₁, h₂, by decide +kernel, by decide +kernel, (same_but_lines h₁ h₂).2.2⟩

end Program

end MiniC
