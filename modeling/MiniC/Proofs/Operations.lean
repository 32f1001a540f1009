import Mathlib.Data.List.Basic
import MiniC.Proofs.Effects

/-!
# What the operations of evaluation do

The operations that the rules of evaluation lift are taken one by one: all but the declarations are
quiet, and declarations and the binding of parameters are mild. Operators never give a function, so
a function value comes from a cell.
-/

namespace MiniC

/-! ## Operators -/

namespace Value

def isSimple : Value → Bool
  | number _ => true
  | scalar _ => true
  | _ => false

theorem isFunction_of_isSimple {v : Value} (h : v.isSimple = true) : v.isFunction = false := by
  cases v with
  | number => rfl
  | scalar => rfl
  | _ => cases h

def Simple (r : Except Fault Value) : Prop :=
  ∀ v, r = .ok v → v.isSimple = true

theorem simple_error (e : Fault) : Simple (.error e) :=
  fun _ h => by cases h

theorem simple_bind {α : Type} (r : Except Fault α) {f : α → Except Fault Value}
    (hf : ∀ a, Simple (f a)) : Simple (r >>= f) := by
  cases r with
  | error e => exact simple_error e
  | ok a => exact hf a

theorem simple_number (r : Except Fault Number) : Simple (number <$> r) := by
  intro v h
  cases r with
  | error e => cases h
  | ok n =>
    obtain rfl := Except.ok.inj h
    rfl

theorem simple_scalar (r : Except Fault Scalar) : Simple (scalar <$> r) := by
  intro v h
  cases r with
  | error e => cases h
  | ok s =>
    obtain rfl := Except.ok.inj h
    rfl

theorem operate_simple (f : Number → Number → Except Fault Number)
    (g : Scalar → Scalar → Except Fault Scalar) (a b : Value) : Simple (operate f g a b) := by
  unfold operate
  split
  · exact simple_number _
  · exact simple_error _
  · split
    · exact simple_scalar _
    · exact simple_error _

theorem add_simple (a b : Value) : Simple (add a b) := by
  unfold add
  split
  · split
    · exact simple_bind _ fun _ => simple_error _
    · exact simple_error _
  · split
    · exact simple_bind _ fun _ => simple_error _
    · exact operate_simple _ _ _ _
  · exact operate_simple _ _ _ _

theorem sub_simple (a b : Value) : Simple (sub a b) := by
  unfold sub
  split
  · split
    · exact simple_error _
    · exact operate_simple _ _ a b
  · exact operate_simple _ _ a b

theorem mod_simple (s : Store) (a b : Value) : Simple (mod s a b) := by
  unfold mod
  split
  · exact simple_bind _ fun _ => simple_bind _ fun text => simple_scalar (.ok (.text text))
  · exact operate_simple _ _ _ b

theorem compare_simple (c : Comparison) (a b : Value) : Simple (compare c a b) := by
  unfold compare
  split
  · exact simple_number _
  · exact simple_error _
  · exact simple_error _
  · split
    · exact simple_scalar _
    · split
      · exact simple_scalar (.ok _)
      · exact simple_scalar (.ok _)
      · exact simple_error _

/-- What an operator gives for a left operand: a number or a plain value, or the union of two
structure variables. -/
def Computed (a : Value) (r : Except Fault Value) : Prop :=
  ∀ v, r = .ok v → v.isSimple = true ∨ (∃ s, a = .record s) ∧ ∃ t, v = .record t

theorem Simple.computed {a : Value} {r : Except Fault Value} (h : Simple r) : Computed a r :=
  fun v hv => .inl (h v hv)

theorem union_computed (a b : Value) : Computed a (union a b) := by
  unfold union
  split
  · intro v h
    exact .inr ⟨⟨_, rfl⟩, _, (Except.ok.inj h).symm⟩
  · exact (operate_simple _ _ _ _).computed

end Value

namespace Eval

theorem operator?_computed {k : Kind} {f : Store → Value → Value → Except Fault Value}
    (h : operator? k = some f) (s : Store) (a b : Value) : Value.Computed a (f s a b) := by
  unfold operator? at h
  split at h <;> cases h
  · exact (Value.add_simple a b).computed
  · exact (Value.sub_simple a b).computed
  · exact (Value.operate_simple _ _ a b).computed
  · exact (Value.operate_simple _ _ a b).computed
  · exact (Value.mod_simple s a b).computed
  · exact (Value.compare_simple _ a b).computed
  · exact (Value.compare_simple _ a b).computed
  · exact (Value.compare_simple _ a b).computed
  · exact (Value.compare_simple _ a b).computed
  · exact (Value.compare_simple _ a b).computed
  · exact (Value.compare_simple _ a b).computed
  · exact (Value.operate_simple _ _ a b).computed
  · exact Value.union_computed a b
  · exact (Value.operate_simple _ _ a b).computed

end Eval

/-! ## Effects -/

/-- A property of computations with one of their results that goes through returning and sequencing,
and holds of all that neither reads nor writes a cell. -/
structure Effect where
  Fine : Value → Prop
  Allows {α : Type} : (α → Prop) → Run α → Prop
  simple {v : Value} : v.isSimple = true → Fine v
  constant (n : Number) : Fine (.constant n)
  record {s t : Table Scalar} : Fine (.record s) → Fine (.record t)
  pure {α : Type} {Q : α → Prop} {a : α} : Q a → Allows Q (pure a)
  bind {α β : Type} {P : α → Prop} {Q : β → Prop} {p : Run α} {f : α → Run β} :
    Allows P p → (∀ a, P a → Allows Q (f a)) → Allows Q (p >>= f)
  ofExcept {α : Type} {Q : α → Prop} {r : Except Fault α} :
    (∀ a, r = .ok a → Q a) → Allows Q (Run.ofExcept r)
  makeNumber (t : CType) (s : Scalar) : Allows (fun _ => True) (Run.makeNumber t s)
  getStore : Allows (fun _ => True) Run.getStore

namespace Effect

variable (E : Effect) {α β : Type} {P : α → Prop} {Q : β → Prop}

theorem after {p : Run α} {f : α → Run β} (hp : E.Allows (fun _ => True) p)
    (hf : ∀ a, E.Allows Q (f a)) : E.Allows Q (p >>= f) :=
  E.bind hp fun a _ => hf a

theorem throw (f : Fault) : E.Allows P (throw f : Run α) :=
  E.ofExcept (r := .error f) fun _ h => by cases h

theorem attempt (r : Except Fault α) : E.Allows (fun _ => True) (Run.ofExcept r) :=
  E.ofExcept fun _ _ => trivial

theorem ite {c : Prop} [Decidable c] {p q : Run α} (hp : E.Allows P p) (hq : E.Allows P q) :
    E.Allows P (if c then p else q) := by
  split
  · exact hp
  · exact hq

theorem lookup (name : String) : E.Allows (fun _ => True) (Run.lookup name) :=
  E.after E.getStore fun _ => E.attempt _

theorem nameOf (t : Tree) : E.Allows (fun _ => True) (Eval.nameOf t) := by
  unfold Eval.nameOf
  split
  · exact E.pure trivial
  · exact E.throw _

theorem typeOf (t : Tree) : E.Allows (fun type => t.type? = some type) (Eval.typeOf t) := by
  unfold Eval.typeOf
  split
  · next h => exact E.pure h
  · exact E.throw _

theorem addressOf (name : String) : E.Allows (fun _ => True) (Eval.addressOf name) := by
  refine E.after (E.lookup name) fun b => ?_
  split
  · exact E.pure trivial
  · exact E.throw _

theorem entryOf (v : Value) (member : Tree) : E.Allows (fun _ => True) (Eval.entryOf v member) :=
  E.after (E.nameOf member) fun _ => E.attempt _

/-- A number is made. -/
theorem made (t : CType) (s : Scalar) :
    E.Allows E.Fine (do return .number (← Run.makeNumber t s)) :=
  E.after (E.makeNumber t s) fun _ => E.pure (E.simple rfl)

theorem literal (k : Token) : E.Allows E.Fine (Eval.literal k) := by
  unfold Eval.literal
  split
  · exact E.made _ _
  · exact E.made _ _
  · exact E.made _ _
  · exact E.throw _

theorem convert (t : VarType) (v : Value) : E.Allows E.Fine (Eval.convert t v) := by
  cases t with
  | number t =>
    refine E.after ?_ fun _ => E.pure (E.simple rfl)
    exact E.after (E.attempt _) fun s => E.makeNumber t s
  | struct t => exact E.throw _

theorem negate (v : Value) : E.Allows E.Fine (Eval.negate v) :=
  E.after (E.attempt _) fun _ => E.after (E.attempt _) fun _ => E.pure (E.simple rfl)

theorem assigned (op : Kind) (old given : Value) : E.Allows E.Fine (Eval.assigned op old given) := by
  unfold Eval.assigned
  split
  · exact E.after (E.attempt _) fun n => E.after (E.attempt _) fun v => E.convert _ v
  · exact E.throw _

theorem referTo (operand : Tree) : E.Allows E.Fine (Eval.referTo operand) := by
  refine E.after (E.nameOf operand) fun name => E.after (E.lookup name) fun b => ?_
  split
  · exact E.made _ _
  · exact E.made _ _

theorem combine {k : Kind} {f : Store → Value → Value → Except Fault Value} {a : Value} (b : Value)
    (h : Eval.operator? k = some f) (ha : E.Fine a) : E.Allows E.Fine (Eval.combine f a b) := by
  refine E.after E.getStore fun s => E.ofExcept fun v hv => ?_
  obtain hsimple | ⟨⟨t, rfl⟩, u, rfl⟩ := Eval.operator?_computed h s a b v hv
  · exact E.simple hsimple
  · exact E.record ha

/-- A parameter is bound, if numbers may be declared with a value. -/
theorem bindParam {v : Value}
    (h : ∀ t name, E.Allows (fun _ => True) (do Run.declareNumber t name; Run.writeName name v))
    (p : Tree) : E.Allows (fun _ => True) (Eval.bindParam p v) := by
  unfold Eval.bindParam
  split
  · refine E.bind (E.typeOf _) fun t _ => E.after (E.nameOf _) fun name => ?_
    cases t with
    | number t => exact h t name
    | struct t => exact E.bind (P := fun _ => False) (E.throw _) fun _ h => h.elim
  · exact E.throw _

theorem bindParams
    (h : ∀ t name v, E.Fine v →
      E.Allows (fun _ => True) (do Run.declareNumber t name; Run.writeName name v))
    (ps : List Tree) {vs : List Value} (hv : ∀ v ∈ vs, E.Fine v) :
    E.Allows (fun _ => True) (Eval.bindParams ps vs) := by
  induction ps generalizing vs with
  | nil =>
    cases vs with
    | nil => exact E.pure trivial
    | cons v vs => exact E.throw _
  | cons p ps ih =>
    cases vs with
    | nil => exact E.pure trivial
    | cons v vs =>
      obtain ⟨hv, hvs⟩ := List.forall_mem_cons.1 hv
      exact E.after (E.bindParam (fun t name => h t name v hv) p) fun _ => ih hvs

end Effect

structure Reading extends Effect where
  readAt (a : Scalar) : Allows Fine (Run.readAt a)

namespace Reading

variable (E : Reading)

theorem readName (name : String) : E.Allows E.Fine (Run.readName name) := by
  refine E.after (E.lookup name) fun b => ?_
  cases b with
  | constant n => exact E.pure (E.constant n)
  | «at» a => exact E.after (E.attempt _) E.readAt

theorem pointedBy (t : Tree) : E.Allows (fun _ => True) (Eval.pointedBy t) :=
  E.after (E.nameOf t) fun name => E.bind (E.readName name) fun _ _ => E.attempt _

theorem fieldAddress (op : Kind) (base member : Tree) :
    E.Allows (fun _ => True) (Eval.fieldAddress op base member) := by
  refine E.ite ?_ ?_
  · refine E.after (E.pointedBy base) fun a => ?_
    exact E.bind (E.readAt a) fun v _ => E.entryOf v member
  · refine E.after (E.nameOf base) fun name => ?_
    exact E.bind (E.readName name) fun v _ => E.entryOf v member

theorem fieldValue (op : Kind) (base member : Tree) :
    E.Allows E.Fine (Eval.fieldValue op base member) :=
  E.after (E.fieldAddress op base member) E.readAt

theorem place (t : Tree) : E.Allows (fun _ => True) (Eval.place t) := by
  unfold Eval.place
  split
  · exact E.addressOf _
  · exact E.pointedBy _
  · exact E.pointedBy _
  · exact E.fieldAddress _ _ _
  · refine E.after (E.nameOf _) fun name => ?_
    exact E.bind (E.readName name) fun v _ => E.entryOf v _
  · exact E.throw _

theorem arrow (left right : Tree) : E.Allows E.Fine (Eval.arrow left right) := by
  refine E.after (E.nameOf left) fun name => E.bind (E.readName name) fun v _ => ?_
  refine E.after (E.entryOf v right) fun a => E.bind (E.readAt a) fun _ _ => ?_
  exact E.pure (E.simple rfl)

theorem dereference (v : Value) : E.Allows E.Fine (Eval.dereference v) :=
  E.after (E.attempt _) E.readAt

/-- A value is stepped by one where the addresses of its place may be written. -/
theorem step {Open : Scalar → Prop} {t : Tree} (hplace : E.Allows Open (Eval.place t))
    (hwrite : ∀ a v, Open a → E.Fine v → E.Allows (fun _ => True) (Run.writeAt a v))
    (f : Value → Value → Except Fault Value) :
    E.Allows (fun r => E.Fine r.1 ∧ E.Fine r.2) (Eval.step f t) := by
  refine E.bind hplace fun a ha => E.bind (E.readAt a) fun old hold => ?_
  have hnew : E.Allows E.Fine (do
      let n ← Run.ofExcept old.asNumber
      let one ← Run.makeNumber .int (.int 1)
      Eval.convert (.number n.ctype) (← Run.ofExcept (f old (.number one)))) := by
    refine E.after (E.attempt _) fun n => E.after (E.makeNumber _ _) fun one => ?_
    exact E.after (E.attempt _) fun v => E.convert _ v
  exact E.bind hnew fun v hv => E.after (hwrite a v ha hv) fun _ => E.pure ⟨hold, hv⟩

theorem behind {op : Kind} {t : Tree}
    (h : op = .incOp ∨ op = .decOp → ∀ f, E.Allows (fun r => E.Fine r.1 ∧ E.Fine r.2)
      (Eval.step f t)) : E.Allows E.Fine (Eval.behind op t) := by
  unfold Eval.behind
  split
  · exact E.bind (h (.inl rfl) _) fun r hr => E.pure hr.1
  · exact E.bind (h (.inr rfl) _) fun r hr => E.pure hr.1
  · exact E.throw _

end Reading

namespace Run

variable {F : Value → Prop}

def preserving (I : Store → Prop) (F : Value → Prop) (simple : ∀ {v}, v.isSimple = true → F v)
    (constant : ∀ n, F (.constant n)) (record : ∀ {s t}, F (.record s) → F (.record t)) :
    Effect where
  Fine := F
  Allows Q p := p.Preserves I Q
  simple := simple
  constant := constant
  record := record
  pure := .pure
  bind := .bind
  ofExcept := .ofExcept
  makeNumber := .makeNumber
  getStore := .ofStore fun _ => rfl

def keeping (R : Change) (hF : ∀ v : Value, v.isFunction = false → F v) : Effect where
  Fine := F
  Allows Q p := p.Keeps F R Q
  simple hv := hF _ (Value.isFunction_of_isSimple hv)
  constant _ := hF _ rfl
  record _ := hF _ rfl
  pure := .pure
  bind := .bind
  ofExcept := ofExcept_keeps
  makeNumber := makeNumber_keeps
  getStore := getStore_keeps.weaken fun _ _ => trivial

def quietly (hF : ∀ v : Value, v.isFunction = false → F v) : Reading where
  toEffect := keeping .quiet hF
  readAt := readAt_keeps hF

end Run

namespace Eval

open Run (Keeps Preserves)

variable {F : Value → Prop} {R : Change}

/-! ## Library functions -/

section

variable {I : Store → Prop}

theorem print_preserves (fmt : Value) (args : List Value) :
    Preserves I (fun _ => True) (Builtin.print fmt args) := by
  unfold Builtin.print
  split
  · refine .after (.ofStore fun _ => rfl) fun s => ?_
    refine .after (.ofExcept fun _ _ => trivial) fun out => ?_
    refine .after (.ofExcept fun _ _ => trivial) fun text => ?_
    exact .after (.ofStore fun _ => rfl) fun _ => .pure trivial
  · exact .throw _

theorem putCharacter_preserves (v : Value) :
    Preserves I (fun _ => True) (Builtin.putCharacter v) := by
  unfold Builtin.putCharacter
  split
  · split
    · refine .after (.ofExcept fun _ _ => trivial) fun c => ?_
      split
      · exact .after (.ofStore fun _ => rfl) fun _ => .pure trivial
      · exact .pure trivial
    · exact .throw _
  · exact .throw _

theorem getCharacter_preserves : Preserves I (fun _ => True) Builtin.getCharacter := by
  refine .after (.ofStore fun m => ?_) fun c => ?_
  · simp only [Run.readChar, Run.execute_bind, Run.execute_get]
    split <;> rfl
  · split
    · exact .pure trivial
    · exact .throw _

theorem storeAll_preserves {specs : List (List Char)} {addresses : List Value}
    (h : ∀ p ∈ specs.zip addresses, ∀ word, Preserves I (fun _ => True) (Scan.store p.1 p.2 word))
    (words : List String) : Preserves I (fun _ => True) (Scan.storeAll specs addresses words) := by
  induction specs generalizing addresses words with
  | nil => exact .pure trivial
  | cons s specs ih =>
    cases addresses with
    | nil => exact .pure trivial
    | cons a addresses =>
      cases words with
      | nil => exact .pure trivial
      | cons w words =>
        rw [List.zip_cons_cons, List.forall_mem_cons] at h
        exact .after (h.1 w) fun _ => ih h.2 words

/-- What is stored by a format in the memory has to keep a property. -/
theorem scan_preserves {fmt : Value} {addresses : List Value} {target : Value}
    (h : ∀ text, fmt = .scalar (.text text) → target = .memory →
      ∀ p ∈ (Scan.specifiers text).zip addresses, ∀ word,
        Preserves I (fun _ => True) (Scan.store p.1 p.2 word)) :
    Preserves I (fun _ => True) (Scan.scan fmt addresses target) := by
  have hwords (n : Nat) : Preserves I (fun _ => True) (Scan.readWords n) := by
    refine .ofStore fun m => ?_
    simp only [Scan.readWords, Run.execute_bind, Run.execute_get, Run.execute_set]
    split <;> rfl
  unfold Scan.scan
  split
  · next text =>
    refine .ite (.after (.throw _) fun _ => ?_) ?_
    all_goals
      refine .after (hwords _) fun words => ?_
      split
      · exact .after (storeAll_preserves (h text rfl rfl) words) fun _ => .pure trivial
      · split
        · exact .after (.throw _) fun _ => .pure trivial
        · exact .pure trivial
  · exact .throw _

structure Minds (I : Store → Prop) (f : Builtin) (args : List Value) : Prop where
  scanf : ∀ text addresses, f = .scanf → args = .scalar (.text text) :: (addresses ++ [.memory]) →
    ∀ p ∈ (Scan.specifiers text).zip addresses, ∀ word,
      Preserves I (fun _ => True) (Scan.store p.1 p.2 word)
  malloc : ∀ size, f = .malloc → args = [.scalar size, .memory] →
    Preserves I (fun _ => True) (Run.allocateDynamic size)
  free : ∀ address a, f = .free → args = [address, .memory] →
    Preserves I (fun _ => True) (Run.release a)

/-- Without the memory among its arguments, a library function leaves the store alone. -/
theorem minds_of_not_mem (f : Builtin) {args : List Value} (ha : .memory ∉ args) :
    Minds I f args where
  scanf text addresses _ h := absurd (h ▸ by simp) ha
  malloc size _ h := absurd (h ▸ by simp) ha
  free address a _ h := absurd (h ▸ by simp) ha

theorem eq_of_plainArgument {v : Value} {a : Scalar} (h : Builtin.plainArgument v = .ok a) :
    v = .scalar a := by
  cases v with
  | scalar b => exact congrArg _ (Except.ok.inj h)
  | _ => cases h

theorem apply_preserves {f : Builtin} {args : List Value} (h : Minds I f args) :
    Preserves I (fun _ => True) (f.apply args) := by
  unfold Builtin.apply
  split
  · exact print_preserves _ _
  · exact .throw _
  · next fmt args =>
    split
    · next target htarget =>
      refine scan_preserves fun text hfmt hmemory => h.scanf text args.dropLast rfl ?_
      rw [hfmt, ← hmemory, List.dropLast_append_getLast? target htarget]
    · exact .throw _
  · exact .throw _
  · exact putCharacter_preserves _
  · exact getCharacter_preserves
  · exact .ofExcept fun _ _ => trivial
  · refine .ofStore fun m => ?_
    simp only [Run.execute_bind, Run.execute_get, Run.execute_set, Run.execute_pure]
  · exact .after (.ofExcept fun _ _ => trivial) fun n => .ofStore fun _ => rfl
  · next size =>
    refine .bind (.ofExcept fun a ha => eq_of_plainArgument ha) fun a ha => ?_
    exact h.malloc a rfl (by rw [ha])
  · exact .throw _
  · exact .throw _
  · next address =>
    refine .after (.ofStore fun _ => rfl) fun st => ?_
    refine .after (.ofExcept fun _ _ => trivial) fun a => ?_
    exact .after (h.free address a rfl rfl) fun _ => .pure trivial
  · exact .throw _
  · exact .throw _
  · exact .ofExcept fun _ _ => trivial
  · exact .throw _

theorem callBuiltin_preserves {f : Builtin} {args : List Value}
    (h : Minds I f (args.map argument)) :
    Preserves I (fun v => v.isSimple = true) (callBuiltin f args) := by
  refine .after (apply_preserves h) fun r => ?_
  split
  · exact .pure rfl
  · split
    · exact .after (.makeNumber _ _) fun n => .pure rfl
    · exact .throw _

end

theorem store_keeps (hF : ∀ v : Value, v.isFunction = false → F v) (specifier : List Char)
    (address : Value) (word : String) :
    Keeps F .quiet (fun _ => True) (Scan.store specifier address word) := by
  refine .after (Run.ofExcept_keeps fun _ _ => trivial) fun n => ?_
  refine .after (Run.getStore_keeps.weaken fun _ _ => trivial) fun s => ?_
  exact .after (Run.ofExcept_keeps fun _ _ => trivial) fun a => Run.writeAt_keeps a (hF _ rfl)

theorem step_keeps (hF : ∀ v : Value, v.isFunction = false → F v)
    (f : Value → Value → Except Fault Value) (target : Tree) :
    Keeps F .quiet (fun r => F r.1 ∧ F r.2) (step f target) :=
  (Run.quietly hF).step ((Run.quietly hF).place target) (fun a _ _ => Run.writeAt_keeps a) f

theorem allocateDynamic_keeps (size : Scalar) :
    Keeps F .quiet (fun _ => True) (Run.allocateDynamic size) := by
  refine .after (Run.allocate_keeps size) fun a m hm => ?_
  exact ⟨hm, ⟨rfl, rfl⟩, fun _ _ => trivial⟩

theorem release_keeps (a : Scalar) : Keeps F .quiet (fun _ => True) (Run.release a) := by
  intro m hm
  simp only [Run.release, Run.execute_bind, Run.execute_getStore]
  split
  · simp only [Run.execute_bind, Run.execute_setStore]
    split
    · exact ⟨hm.erase _, ⟨rfl, rfl⟩, fun _ _ => trivial⟩
    · exact ⟨hm, ⟨rfl, rfl⟩, fun _ _ => trivial⟩
  · exact ⟨hm, ⟨rfl, rfl⟩, fun _ _ => trivial⟩

theorem callBuiltin_keeps (hF : ∀ v : Value, v.isFunction = false → F v) (f : Builtin)
    (args : List Value) : Keeps F .quiet F (callBuiltin f args) := by
  refine (Keeps.ofPreserves fun s₀ => callBuiltin_preserves ⟨?_, ?_, ?_⟩).weaken fun v hv =>
    hF v (Value.isFunction_of_isSimple hv)
  · exact fun _ _ _ _ p _ word => (store_keeps hF p.1 p.2 word).preserves s₀
  · exact fun size _ _ => (allocateDynamic_keeps size).preserves s₀
  · exact fun _ a _ _ => (release_keeps a).preserves s₀

/-! ## Parameters and declarations of a program -/

theorem define_keeps (name : String) {v : Value} (hF : ∀ v : Value, v.isFunction = false → F v)
    (hv : F v) : Keeps F .mild (fun _ => True) (define name v) :=
  .after (Run.declare_keeps name _ (hF .nothing rfl)) fun _ => (Run.writeName_keeps name hv).toMild

section

variable (hF : ∀ v : Value, v.isFunction = false → F v)

include hF

theorem defineStruct_keeps (name : String) (fields : Table VarType) :
    Keeps F .mild (fun _ => True) (defineStruct name fields) :=
  .after (Run.declare_keeps name _ (hF .nothing rfl)) fun _ =>
    (Run.writeName_keeps name (hF _ rfl)).toMild

theorem declare_keeps (var type : Tree) : Keeps F .mild (fun _ => True) (declare var type) :=
  .bind ((Run.keeping .mild hF).typeOf type) fun t _ =>
    .after ((Run.keeping .mild hF).nameOf var) fun name => Run.declareVariable_keeps hF t name

theorem includeLibrary_keeps (name : String) :
    Keeps F .mild (fun _ => True) (includeLibrary name) := by
  unfold includeLibrary
  split
  · refine .after (Run.forM_keeps fun f => define_keeps f.name hF (hF _ rfl)) fun _ => ?_
    exact Run.forM_keeps fun c => Run.declareConstant_keeps c.1 _
  · exact .throw _

theorem bindParams_keeps (ps : List Tree) (vs : List Value) (hv : ∀ v ∈ vs, F v) :
    Keeps F .mild (fun _ => True) (bindParams ps vs) :=
  (Run.keeping .mild hF).bindParams (fun t name _ hv => .after (Run.declareNumber_keeps hF t name)
    fun _ => (Run.writeName_keeps name hv).toMild) ps hv

theorem enterFunction_keeps (name : String) (ps : List Tree) {vs : List Value}
    (hv : ∀ v ∈ vs, F v) : Keeps F .free (fun _ => True) (enterFunction name ps vs) :=
  .after (Run.pushFrame_keeps name) fun _ => (bindParams_keeps hF ps vs hv).toFree

theorem leaveFunction_keeps (type : Tree) (v : Value) :
    Keeps F .free F (leaveFunction type v) := by
  refine .ite (.pure (hF _ rfl)) (.bind ((Run.keeping .free hF).typeOf type) fun t _ => ?_)
  refine .after (Run.ofExcept_keeps fun _ _ => trivial) fun c => ?_
  refine .bind ((Run.keeping .free hF).convert t _) fun r hr => ?_
  exact .after Run.popFrame_keeps fun _ => .pure hr

end

end Eval

end MiniC
