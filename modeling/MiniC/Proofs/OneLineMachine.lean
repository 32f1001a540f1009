import MiniC.Proofs.OneLineCheck

/-!
# The machine with its trees on one line

The lines of a tree are kept in the store when the tree is the body of a function, and are read by
nothing. So an operation on values, or on a store whose trees have been put on one line, does what
it does on the values and the store as they are. The output so far is never read either: two
machines may differ in what stands before their own output.
-/

namespace MiniC

abbrev Fault.Echoes {α β : Type} (f : α → β) (r : Except Fault α) (r' : Except Fault β) : Prop :=
  MiniC.Echoes (fun x => x) f r r'

theorem Echoes.same {ε α : Type} (r : Except ε α) : Echoes (fun x => x) (fun a => a) r r := by
  cases r <;> rfl

theorem Echoes.same_of_eq {ε α : Type} {r r' : Except ε α} (h : r' = r) :
    Echoes (fun x => x) (fun a => a) r r' :=
  h ▸ .same r

/-! ## Values -/

namespace Value

def oneLine : Value → Value
  | function type name params body =>
    function type.oneLine name (params.map Tree.oneLine) body.oneLine
  | v => v

@[simp] theorem number?_oneLine (v : Value) : v.oneLine.number? = v.number? := by
  cases v <;> rfl

@[simp] theorem asNumber_oneLine (v : Value) : v.oneLine.asNumber = v.asNumber := by
  rw [asNumber, asNumber, number?_oneLine]

@[simp] theorem content_oneLine (v : Value) : v.oneLine.content = v.content := by
  cases v <;> rfl

@[simp] theorem isNothing_oneLine (v : Value) : v.oneLine.isNothing = v.isNothing := by
  cases v <;> rfl

@[simp] theorem truth_oneLine (v : Value) : v.oneLine.truth = v.truth := by
  cases v <;> rfl

@[simp] theorem plain_oneLine (v : Value) : v.oneLine.plain = v.plain := by
  cases v <;> rfl

@[simp] theorem toReal_oneLine (v : Value) : v.oneLine.toReal = v.toReal := by
  cases v <;> rfl

@[simp] theorem entry_oneLine (v : Value) (name : String) :
    v.oneLine.entry name = v.entry name := by
  cases v <;> rfl

theorem argument_oneLine (v : Value) : Eval.argument v.oneLine = (Eval.argument v).oneLine := by
  cases v <;> rfl

theorem same_oneLine (a b : Value) : a.oneLine.same b.oneLine = a.same b := by
  cases a <;> cases b <;> rfl

/-- A number that an operation gives is the same on one line. -/
theorem number_echoes (r : Except Fault Number) :
    Fault.Echoes oneLine (number <$> r) (number <$> r) := by
  cases r <;> rfl

theorem scalar_echoes (r : Except Fault Scalar) :
    Fault.Echoes oneLine (scalar <$> r) (scalar <$> r) := by
  cases r <;> rfl

theorem operate_echoes (f : Number → Number → Except Fault Number)
    (g : Scalar → Scalar → Except Fault Scalar) (a b : Value) :
    Fault.Echoes oneLine (operate f g a b) (operate f g a.oneLine b.oneLine) := by
  unfold operate
  rw [number?_oneLine, number?_oneLine]
  split
  · exact number_echoes _
  · rfl
  · cases a with
    | scalar s =>
      cases b with
      | scalar t => exact scalar_echoes _
      | _ => rfl
    | _ => rfl

theorem add_echoes (a b : Value) :
    Fault.Echoes oneLine (add a b) (add a.oneLine b.oneLine) := by
  have hop := operate_echoes Number.add Scalar.add a b
  unfold add
  rw [number?_oneLine]
  cases a.number? with
  | none => exact hop
  | some m =>
    cases b with
    | jump j => exact .ite (.bind (.same _) fun _ => .throw _) (.throw _)
    | function type name params body =>
      exact .ite (.bind (.same _) fun _ => .throw _) hop
    | _ => exact .ite (.bind (.same _) fun _ => .throw _) hop

theorem sub_echoes (a b : Value) :
    Fault.Echoes oneLine (sub a b) (sub a.oneLine b.oneLine) := by
  have hop := operate_echoes Number.sub Scalar.sub a b
  unfold sub
  rw [number?_oneLine]
  cases a.number? with
  | none => exact hop
  | some m => exact .ite (.throw _) hop

theorem mul_echoes (a b : Value) :
    Fault.Echoes oneLine (mul a b) (mul a.oneLine b.oneLine) :=
  operate_echoes _ _ a b

theorem div_echoes (a b : Value) :
    Fault.Echoes oneLine (div a b) (div a.oneLine b.oneLine) :=
  operate_echoes _ _ a b

theorem bits_echoes (f : Bool → Bool → Bool) (a b : Value) :
    Fault.Echoes oneLine (bits f a b) (bits f a.oneLine b.oneLine) :=
  operate_echoes _ _ a b

theorem union_echoes (a b : Value) :
    Fault.Echoes oneLine (union a b) (union a.oneLine b.oneLine) := by
  have hbits := bits_echoes or a b
  cases a with
  | record s =>
    cases b with
    | record t => rfl
    | _ => exact hbits
  | _ => exact hbits

theorem compare_echoes (c : Comparison) (a b : Value) :
    Fault.Echoes oneLine (compare c a b) (compare c a.oneLine b.oneLine) := by
  have hsame := same_oneLine a b
  unfold compare
  rw [number?_oneLine, number?_oneLine]
  split
  · exact number_echoes _
  · rfl
  · rfl
  · cases a with
    | scalar s =>
      cases b with
      | scalar t => exact scalar_echoes _
      | _ => cases c <;> rfl
    | _ =>
      cases b with
      | _ => cases c <;> rfl

end Value

/-! ## The store -/

def Cell.oneLine (c : Cell) : Cell := ⟨c.label, c.value.oneLine⟩

namespace AddressMap

variable {α β : Type}

theorem map_insert (f : α → β) (t : AddressMap α) (k : Address) (a : α) :
    (t.insert k a).map (fun _ => f) = (t.map fun _ => f).insert k (f a) := by
  apply Std.ExtTreeMap.ext_getElem?
  intro j
  rw [Std.ExtTreeMap.getElem?_map, Std.ExtTreeMap.getElem?_insert, Std.ExtTreeMap.getElem?_insert,
    Std.ExtTreeMap.getElem?_map]
  split <;> rfl

theorem map_erase (f : α → β) (t : AddressMap α) (k : Address) :
    (t.erase k).map (fun _ => f) = (t.map fun _ => f).erase k := by
  apply Std.ExtTreeMap.ext_getElem?
  intro j
  rw [Std.ExtTreeMap.getElem?_map, Std.ExtTreeMap.getElem?_erase, Std.ExtTreeMap.getElem?_erase,
    Std.ExtTreeMap.getElem?_map]
  split <;> rfl

end AddressMap

namespace Store

def oneLine (s : Store) : Store :=
  { s with cells := s.cells.map fun _ => Cell.oneLine }

theorem getElem?_oneLine (s : Store) (k : Address) :
    s.oneLine.cells[k]? = (s.cells[k]?).map Cell.oneLine :=
  Std.ExtTreeMap.getElem?_map

theorem read?_oneLine (s : Store) (a : Scalar) :
    s.oneLine.read? a = (s.read? a).map Value.oneLine := by
  rw [read?, read?, getElem?_oneLine]
  cases s.cells[Address.ofScalar a]? <;> rfl

theorem write_oneLine (s : Store) (a : Scalar) (v : Value) :
    s.oneLine.write a v.oneLine = (s.write a v).oneLine := by
  have hlabel : s.oneLine.cells[Address.ofScalar a]?.map (·.label) =
      s.cells[Address.ofScalar a]?.map (·.label) := by
    rw [getElem?_oneLine, Option.map_map]
    rfl
  simp only [write, hlabel]
  simp only [oneLine, AddressMap.map_insert, Cell.oneLine]

theorem bind_echoes (s : Store) (name : String) (b : Binding) :
    Fault.Echoes oneLine (s.bind name b) (s.oneLine.bind name b) := by
  obtain ⟨globals, frames, cells, next, dynamic⟩ := s
  rcases frames with _ | ⟨⟨name, _ | ⟨c, cs⟩⟩, fs⟩ <;> rfl

theorem popFrame_echoes (s : Store) :
    Fault.Echoes oneLine s.popFrame s.oneLine.popFrame := by
  obtain ⟨globals, frames, cells, next, dynamic⟩ := s
  cases frames <;> rfl

theorem pushScope_echoes (s : Store) :
    Fault.Echoes oneLine s.pushScope s.oneLine.pushScope := by
  obtain ⟨globals, frames, cells, next, dynamic⟩ := s
  rcases frames with _ | ⟨⟨name, _ | ⟨c, cs⟩⟩, fs⟩ <;> rfl

theorem popScope_echoes (s : Store) :
    Fault.Echoes oneLine s.popScope s.oneLine.popScope := by
  obtain ⟨globals, frames, cells, next, dynamic⟩ := s
  rcases frames with _ | ⟨⟨name, _ | ⟨c, cs⟩⟩, fs⟩ <;> rfl

end Store

namespace Value

@[simp] theorem address_oneLine (s : Store) (v : Value) :
    v.oneLine.address s.oneLine = v.address s := by
  cases v <;> rfl

end Value

/-! ## Formats -/

namespace Format

theorem nextArgument_echoes (args : List Value) :
    Fault.Echoes (fun r => (r.1.oneLine, r.2.map Value.oneLine)) (nextArgument args)
      (nextArgument (args.map Value.oneLine)) := by
  cases args <;> rfl

theorem starArgument_echoes (bound : Int) (args : List Value) :
    Fault.Echoes (fun r => (r.1, r.2.map Value.oneLine)) (starArgument bound args)
      (starArgument bound (args.map Value.oneLine)) := by
  refine .bind (nextArgument_echoes args) fun r => ?_
  obtain ⟨v, args⟩ := r
  cases v with
  | scalar s =>
    dsimp only [Value.oneLine]
    cases s.asInt? with
    | none => rfl
    | some n => exact .ite (.pure (n, args)) (.throw _)
  | _ => rfl

theorem readWidth_echoes (d : Directive) (cs : List Char) (args : List Value) :
    Fault.Echoes (fun r => (r.1, r.2.1, r.2.2.map Value.oneLine)) (readWidth d cs args)
      (readWidth d cs (args.map Value.oneLine)) := by
  unfold readWidth
  split
  · exact .bind (starArgument_echoes _ args) fun r => .pure (_, _, r.2)
  · exact .ite (.bind (.same _) fun r => .pure (_, _, args)) (.pure (_, _, args))

theorem readPrecision_echoes (d : Directive) (cs : List Char) (args : List Value) :
    Fault.Echoes (fun r => (r.1, r.2.1, r.2.2.map Value.oneLine)) (readPrecision d cs args)
      (readPrecision d cs (args.map Value.oneLine)) := by
  unfold readPrecision
  split
  · exact .bind (starArgument_echoes _ args) fun r => .pure (_, _, r.2)
  · exact .bind (.same _) fun r => .pure (_, _, args)
  · exact .pure (_, _, args)

theorem readDirective_echoes (cs : List Char) (args : List Value) :
    Fault.Echoes (fun r => (r.1, r.2.1, r.2.2.map Value.oneLine)) (readDirective cs args)
      (readDirective cs (args.map Value.oneLine)) := by
  refine .ite rfl (.bind (readWidth_echoes _ _ args) fun r => ?_)
  refine .bind (readPrecision_echoes _ _ _) fun r => ?_
  obtain ⟨d, cs, args⟩ := r
  dsimp only
  cases skipLength cs <;> rfl

theorem integerOf_oneLine (d : Directive) (v : Value) :
    integerOf d v.oneLine = integerOf d v := by
  cases v <;> rfl

theorem charOf_oneLine (v : Value) : charOf v.oneLine = charOf v := by
  cases v <;> rfl

theorem textOf_oneLine (s : Store) (d : Directive) (v : Value) :
    textOf s.oneLine d v.oneLine = textOf s d v := by
  cases v with
  | function type name params body =>
    obtain ⟨left, plus, blank, alternate, zero, width, precision, c⟩ := d
    by_cases hc : c = 's'
    · subst hc
      rfl
    · simp only [textOf, Value.oneLine]
      rfl
  | _ => rfl

theorem convert_oneLine (s : Store) (d : Directive) (v : Value) :
    convert s.oneLine d v.oneLine = convert s d v := by
  simp only [convert, textOf_oneLine, integerOf_oneLine, charOf_oneLine, Value.toReal_oneLine]

theorem run_echoes (s : Store) (lenient : Bool) (fuel : Nat) (cs : List Char)
    (args : List Value) : Fault.Echoes (fun out => out) (run s lenient fuel cs args)
      (run s.oneLine lenient fuel cs (args.map Value.oneLine)) := by
  fun_induction run s lenient fuel cs args with
  | case1 => rfl
  | case2 fuel args hargs =>
    rw [run, List.isEmpty_map, if_pos hargs]
    rfl
  | case3 fuel args hargs =>
    rw [run, List.isEmpty_map, if_neg hargs]
    rfl
  | case4 fuel cs args ih =>
    rw [run]
    exact .bind ih fun _ => .pure _
  | case5 fuel cs args hcs ih =>
    rw [run]
    · refine .bind (readDirective_echoes cs args) fun r => ?_
      refine .bind (nextArgument_echoes r.2.2) fun u => ?_
      refine .bind (.same_of_eq (convert_oneLine s r.1 u.1)) fun _ => ?_
      exact .bind (ih _ _) fun _ => .pure _
    · exact hcs
  | case6 fuel c cs args hc hc' ih =>
    rw [run]
    · exact .bind ih fun _ => .pure _
    · exact hc
    · exact hc'

theorem format_echoes (s : Store) (lenient : Bool) (fmt : String) (args : List Value) :
    Fault.Echoes (fun out => out) (format s lenient fmt args)
      (format s.oneLine lenient fmt (args.map Value.oneLine)) :=
  run_echoes s lenient _ _ args

end Format

theorem Value.mod_echoes (s : Store) (a b : Value) :
    Fault.Echoes oneLine (mod s a b) (mod s.oneLine a.oneLine b.oneLine) := by
  have hop := operate_echoes Number.mod Scalar.modulo a b
  cases a with
  | scalar v =>
    cases v with
    | text fmt =>
      refine .bind (f := fun out => out) ?_ fun out => .bind (.same _) fun _ => .pure _
      cases b <;> exact Format.format_echoes s _ fmt [_]
    | _ => exact hop
  | _ => exact hop

/-! ## The machine -/

/-- The machine with its trees on one line, and with a text before its output. -/
def Machine.oneLine (before : String) (m : Machine) : Machine :=
  ⟨m.store.oneLine, m.random, m.input, before ++ m.output⟩

namespace Run

variable {α β : Type} {w : String} {f : α → β}

abbrev Reflects (w : String) (f : α → β) (p : Run α) (q : Run β) : Prop :=
  Mirrors (fun x => x) (Machine.oneLine w) f p q

theorem ofExcept_reflects {r : Except Fault α} {r' : Except Fault β} (h : Fault.Echoes f r r') :
    Reflects w f (ofExcept r) (ofExcept r') := by
  cases h
  cases r with
  | error x => exact .throw x
  | ok a => exact .pure a

theorem fail_reflects (x : Fault) : Reflects w f (fail x) (fail x) :=
  .throw x

theorem set_reflects (m : Machine) : Reflects w (fun u => u) (set m) (set (m.oneLine w)) :=
  fun _ => rfl

theorem getStore_reflects : Reflects w Store.oneLine getStore getStore :=
  fun _ => rfl

theorem setStore_reflects {s s' : Store} (h : s' = s.oneLine) :
    Reflects w (fun u => u) (setStore s) (setStore s') := by
  subst h
  exact fun _ => rfl

theorem changeStore_reflects {F G : Store → Except Fault Store}
    (h : ∀ s, Fault.Echoes Store.oneLine (F s) (G s.oneLine)) :
    Reflects w (fun u => u) (changeStore F) (changeStore G) :=
  .bind getStore_reflects fun s => .bind (ofExcept_reflects (h s)) fun _ => setStore_reflects rfl

/-- Writing a cell of the current store. -/
theorem write_reflects (a : Scalar) (v : Value) :
    Reflects w (fun u => u) (do setStore ((← getStore).write a v))
      (do setStore ((← getStore).write a v.oneLine)) :=
  .bind getStore_reflects fun s => setStore_reflects (s.write_oneLine a v)

theorem emit_reflects (s : String) : Reflects w (fun u => u) (emit s) (emit s) :=
  .modify fun m => by simp only [Machine.oneLine, String.append_assoc]

theorem readChar_reflects : Reflects w (fun c => c) readChar readChar := by
  refine .bind .get fun m => ?_
  obtain ⟨store, random, input, output⟩ := m
  cases input with
  | nil => exact .pure none
  | cons c cs => exact .bind (set_reflects ⟨store, random, cs, output⟩) fun _ => .pure (some c)

theorem makeNumber_reflects (t : CType) (s : Scalar) :
    Reflects w (fun n => n) (makeNumber t s) (makeNumber t s) := by
  refine .bind .get fun m => .bind (ofExcept_reflects (.same _)) fun r => ?_
  exact .bind (set_reflects { m with random := r.2 }) fun _ => .pure r.1

theorem numberOf_reflects (t : CType) (v : Value) :
    Reflects w (fun n => n) (numberOf t v) (numberOf t v.oneLine) :=
  .bind (ofExcept_reflects (.same_of_eq v.plain_oneLine)) fun s => makeNumber_reflects t s

/-! ## Memory -/

theorem allocate_reflects (size : Scalar) :
    Reflects w (fun a => a) (allocate size) (allocate size) := by
  refine .bind getStore_reflects fun s => .bind (ofExcept_reflects (.same _)) fun next => ?_
  exact .bind (setStore_reflects (s := { s with next := next }) rfl) fun _ => .pure s.next

theorem declare_reflects (name : String) (size : Nat) (v : Value) :
    Reflects w (fun u => u) (declare name size v) (declare name size v.oneLine) := by
  refine .bind (allocate_reflects _) fun a => ?_
  exact .bind (changeStore_reflects fun s => s.bind_echoes name _) fun _ => write_reflects a v

theorem declareNumber_reflects (t : CType) (name : String) :
    Reflects w (fun u => u) (declareNumber t name) (declareNumber t name) := by
  refine .bind (ofExcept_reflects (.same _)) fun size => .bind (makeNumber_reflects t _) fun n => ?_
  exact declare_reflects name size (.number n)

theorem declareConstant_reflects (name : String) (s : Scalar) :
    Reflects w (fun u => u) (declareConstant name s) (declareConstant name s) :=
  .bind (makeNumber_reflects _ s) fun _ => changeStore_reflects fun s => s.bind_echoes name _

theorem writeAt_reflects (a : Scalar) (v : Value) :
    Reflects w (fun u => u) (writeAt a v) (writeAt a v.oneLine) := by
  refine .bind getStore_reflects fun s => .bind (setStore_reflects (s.write_oneLine a v)) fun _ => ?_
  rw [v.isNothing_oneLine]
  exact .ite (.throw _) (.pure _)

theorem readAt_reflects (a : Scalar) : Reflects w Value.oneLine (readAt a) (readAt a) := by
  refine .bind getStore_reflects fun s => ?_
  rw [s.read?_oneLine a]
  cases s.read? a with
  | some v => exact .pure v
  | none =>
    refine .bind (makeNumber_reflects _ _) fun n => .bind getStore_reflects fun s => ?_
    refine .bind (setStore_reflects (s.write_oneLine a (.number n))) fun _ => ?_
    exact .pure (Value.number n)

theorem lookup_reflects (name : String) : Reflects w (fun b => b) (lookup name) (lookup name) :=
  .bind getStore_reflects fun _ => ofExcept_reflects (.same _)

theorem readName_reflects (name : String) :
    Reflects w Value.oneLine (readName name) (readName name) := by
  refine .bind (lookup_reflects name) fun b => ?_
  cases b with
  | constant n => exact .pure (Value.constant n)
  | «at» a => exact .bind (ofExcept_reflects (.same _)) fun a => readAt_reflects a

theorem writeName_reflects (name : String) (v : Value) :
    Reflects w (fun u => u) (writeName name v) (writeName name v.oneLine) := by
  refine .bind (lookup_reflects name) fun b => ?_
  cases b with
  | constant n => exact .throw _
  | «at» a => exact .bind (ofExcept_reflects (.same _)) fun a => writeAt_reflects a v

theorem forM_reflects {γ : Type} {p q : γ → Run Unit} {l : List γ}
    (h : ∀ a, Reflects w (fun u => u) (p a) (q a)) : Reflects w (fun u => u) (l.forM p) (l.forM q) := by
  induction l with
  | nil => exact .pure _
  | cons a l ih => exact .bind (h a) fun _ => ih

theorem declareField_reflects (name field : String) (t : VarType) :
    Reflects w (fun u => u) (declareField name field t) (declareField name field t) := by
  refine .bind (ofExcept_reflects (.same _)) fun size => .bind (allocate_reflects _) fun a => ?_
  have hlast : Reflects w (fun u => u) (do
      let n ← makeNumber (fieldType t) .nothing
      setStore ((← getStore).write a (.number n))) (do
      let n ← makeNumber (fieldType t) .nothing
      setStore ((← getStore).write a (.number n))) :=
    .bind (makeNumber_reflects _ _) fun n => write_reflects a (.number n)
  refine .bind (readName_reflects name) fun v => ?_
  cases v with
  | record fields =>
    refine .bind (lookup_reflects name) fun b => .bind getStore_reflects fun s => ?_
    refine .bind (ofExcept_reflects (.same _)) fun c => ?_
    exact .bind (setStore_reflects (s.write_oneLine c (.record _))) fun _ => hlast
  | _ => exact .bind (f := fun u => u) (.throw _) fun _ => hlast

theorem declareStructVar_reflects (t : StructType) (name : String) :
    Reflects w (fun u => u) (declareStructVar t name) (declareStructVar t name) := by
  refine .ite (declareNumber_reflects _ name) ?_
  refine .bind (declare_reflects name _ (.record [])) fun _ => ?_
  refine .bind (readName_reflects t.name) fun v => ?_
  cases v with
  | structDef n fields => exact forM_reflects fun f => declareField_reflects name f.1 f.2
  | _ => exact .throw _

theorem declareVariable_reflects (t : VarType) (name : String) :
    Reflects w (fun u => u) (declareVariable t name) (declareVariable t name) := by
  cases t with
  | number t => exact declareNumber_reflects t name
  | struct t => exact declareStructVar_reflects t name

theorem allocateDynamic_reflects (size : Scalar) :
    Reflects w (fun a => a) (allocateDynamic size) (allocateDynamic size) := by
  refine .bind (allocate_reflects size) fun a => .bind getStore_reflects fun s => ?_
  exact .bind (setStore_reflects (s := { s with dynamic := _ }) rfl) fun _ => .pure a

theorem release_reflects (a : Scalar) : Reflects w (fun u => u) (release a) (release a) := by
  refine .bind getStore_reflects fun s => .ite ?_ (.throw _)
  refine .bind (setStore_reflects (s := { s with dynamic := s.dynamic.erase _ }) rfl) fun _ => ?_
  have hmem : Address.ofScalar a ∈ s.oneLine.cells ↔ Address.ofScalar a ∈ s.cells :=
    Std.ExtTreeMap.mem_map
  by_cases h : Address.ofScalar a ∈ s.cells
  · rw [if_pos h, if_pos (hmem.2 h)]
    refine .bind getStore_reflects fun u => setStore_reflects ?_
    simp only [Store.oneLine, AddressMap.map_erase]
  · rw [if_neg h, if_neg (mt hmem.1 h)]
    exact .throw _

end Run

/-! ## Library functions -/

namespace Scan

open Run

variable {w : String}

theorem readWords_reflects (wanted : Nat) :
    Reflects w (fun ws => ws) (readWords wanted) (readWords wanted) := by
  refine .bind .get fun m => ?_
  obtain ⟨store, random, input, output⟩ := m
  dsimp only [Machine.oneLine]
  refine .bind (set_reflects ⟨store, random, _, output⟩) fun _ => ?_
  cases (wordsUntil wanted (input.length + 1) [] input).1 with
  | some found => exact .pure found
  | none => exact .throw _

theorem store_reflects (specifier : List Char) (address : Value) (word : String) :
    Reflects w (fun u => u) (store specifier address word)
      (store specifier address.oneLine word) := by
  refine .bind (ofExcept_reflects (.same _)) fun n => .bind getStore_reflects fun s => ?_
  refine .bind (ofExcept_reflects (.same_of_eq (address.address_oneLine s))) fun a => ?_
  exact writeAt_reflects a (.number n)

theorem storeAll_reflects (specs : List (List Char)) (addresses : List Value)
    (words : List String) : Reflects w (fun u => u) (storeAll specs addresses words)
      (storeAll specs (addresses.map Value.oneLine) words) := by
  induction specs generalizing addresses words with
  | nil => exact .pure _
  | cons s ss ih =>
    cases addresses with
    | nil => exact .pure _
    | cons a as =>
      cases words with
      | nil => exact .pure _
      | cons v vs => exact .bind (store_reflects s a v) fun _ => ih as vs

theorem scan_reflects (fmt : Value) (addresses : List Value) (target : Value) :
    Reflects w (fun s => s) (scan fmt addresses target)
      (scan fmt.oneLine (addresses.map Value.oneLine) target.oneLine) := by
  cases fmt with
  | scalar s =>
    cases s with
    | text fmt =>
      unfold scan
      dsimp only [Value.oneLine]
      rw [List.length_map]
      refine .ite (fun _ => rfl) (.bind (readWords_reflects _) fun words => ?_)
      cases target with
      | memory => exact .bind (storeAll_reflects _ addresses words) fun _ => .pure _
      | _ => exact .ite (fun _ => rfl) (.pure _)
    | _ => exact .throw _
  | _ => exact .throw _

end Scan

namespace Builtin

open Run

variable {w : String}

theorem print_reflects (fmt : Value) (args : List Value) :
    Reflects w (fun s => s) (print fmt args) (print fmt.oneLine (args.map Value.oneLine)) := by
  cases fmt with
  | scalar s =>
    cases s with
    | text fmt =>
      refine .bind getStore_reflects fun s => ?_
      refine .bind (ofExcept_reflects (Format.format_echoes s false fmt args)) fun out => ?_
      refine .bind (ofExcept_reflects (.same _)) fun text => ?_
      exact .bind (emit_reflects text) fun _ => .pure _
    | _ => exact .throw _
  | _ => exact .throw _

theorem putCharacter_reflects (v : Value) :
    Reflects w (fun s => s) (putCharacter v) (putCharacter v.oneLine) := by
  cases v with
  | scalar s =>
    unfold putCharacter
    dsimp only [Value.oneLine]
    cases s.asInt? with
    | none => exact .throw _
    | some n =>
      refine .bind (ofExcept_reflects (.same _)) fun c => ?_
      cases c with
      | none => exact .pure _
      | some c => exact .bind (emit_reflects _) fun _ => .pure _
  | _ => exact .throw _

theorem getCharacter_reflects : Reflects w (fun s => s) getCharacter getCharacter := by
  refine .bind readChar_reflects fun c => ?_
  cases c with
  | none => exact .throw _
  | some c => exact .pure _

theorem absolute_oneLine (v : Value) : absolute v.oneLine = absolute v := by
  cases v <;> rfl

theorem plainArgument_oneLine (v : Value) : plainArgument v.oneLine = plainArgument v := by
  cases v <;> rfl

end Builtin

namespace MathFunction

theorem applyOne_oneLine (f : MathFunction) (v : Value) : f.applyOne v.oneLine = f.applyOne v := by
  cases v <;> rfl

theorem apply_oneLine (f : MathFunction) (args : List Value) :
    f.apply (args.map Value.oneLine) = f.apply args := by
  have hone (v : Value) : f.apply [v] = f.applyOne v := by
    cases f <;> rfl
  rcases args with _ | ⟨a, _ | ⟨b, _ | ⟨c, args⟩⟩⟩
  · cases f <;> rfl
  · rw [List.map_singleton, hone, hone, applyOne_oneLine]
  · cases f with
    | pow => simp only [apply, List.map_cons, List.map_nil, Value.toReal_oneLine]
    | _ => rfl
  · cases f <;> rfl

end MathFunction

namespace Builtin

open Run

variable {w : String}

theorem apply_reflects (f : Builtin) (args : List Value) :
    Reflects w (fun s => s) (f.apply args) (f.apply (args.map Value.oneLine)) := by
  cases f with
  | printf =>
    cases args with
    | nil => exact .throw _
    | cons fmt args => exact print_reflects fmt args
  | scanf =>
    cases args with
    | nil => exact .throw _
    | cons fmt args =>
      rw [List.map_cons, apply, apply, List.getLast?_map, ← List.map_dropLast]
      cases args.getLast? with
      | none => exact .throw _
      | some target => exact Scan.scan_reflects fmt args.dropLast target
  | putchar =>
    rcases args with _ | ⟨a, _ | ⟨b, args⟩⟩
    · exact .throw _
    · exact putCharacter_reflects a
    · exact .throw _
  | getchar =>
    cases args with
    | nil => exact getCharacter_reflects
    | cons a args => exact .throw _
  | abs =>
    rcases args with _ | ⟨a, _ | ⟨b, args⟩⟩
    · exact .throw _
    · exact ofExcept_reflects (.same_of_eq (absolute_oneLine a))
    · exact .throw _
  | rand =>
    cases args with
    | nil =>
      refine .bind .get fun m => ?_
      let r := m.random.between 0 Library.randMax
      exact .bind (set_reflects { m with random := r.2 }) fun _ => .pure _
    | cons a args => exact .throw _
  | srand =>
    rcases args with _ | ⟨a, _ | ⟨b, args⟩⟩
    · exact .throw _
    · rw [List.map_singleton, apply, apply, plainArgument_oneLine]
      refine .bind (ofExcept_reflects (.same _)) fun n => ?_
      exact .bind (.modify fun _ => rfl) fun _ => .pure _
    · exact .throw _
  | malloc =>
    rcases args with _ | ⟨a, _ | ⟨b, _ | ⟨c, args⟩⟩⟩
    · exact .throw _
    · exact .throw _
    · cases b with
      | memory =>
        refine .bind (ofExcept_reflects (.same_of_eq (plainArgument_oneLine a))) fun s => ?_
        exact allocateDynamic_reflects s
      | _ => exact .throw _
    · cases b <;> exact .throw _
  | free =>
    rcases args with _ | ⟨a, _ | ⟨b, _ | ⟨c, args⟩⟩⟩
    · exact .throw _
    · exact .throw _
    · cases b with
      | memory =>
        refine .bind getStore_reflects fun s => ?_
        refine .bind (ofExcept_reflects (.same_of_eq (a.address_oneLine s))) fun k => ?_
        exact .bind (release_reflects k) fun _ => .pure _
      | _ => exact .throw _
    · cases b <;> exact .throw _
  | math f => exact ofExcept_reflects (.same_of_eq (f.apply_oneLine args))

end Builtin

end MiniC
