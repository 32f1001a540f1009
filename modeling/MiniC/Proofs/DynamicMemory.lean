import MiniC.Proofs.CellTypes
import MiniC.Proofs.Separation

/-!
# Blocks that are taken and released on demand

A block that is taken on demand starts where the next free address was, and nothing has been placed
there before, as long as all blocks have a size. It stays on the list of blocks until it is
released. Releasing it takes it off the list, and removes its cell. But a cell comes into being only
when it is first read or written: without one, releasing the block fails, although it leaves the
list. Whatever is not on the list is not released, and nothing changes.
-/

namespace MiniC

namespace Store

/-- A property that depends on the cells and the blocks on demand only, and that writing a cell
keeps. -/
structure Tolerant (I : Store → Prop) : Prop where
  write : ∀ {s : Store} (a : Scalar) (v : Value), I s → I (s.write a v)
  other : ∀ {s s' : Store}, s'.cells = s.cells → s'.dynamic = s.dynamic → I s → I s'

theorem tolerant_dynamic (c : Address) : Tolerant fun s => c ∈ s.dynamic where
  write _ _ hs := hs
  other _ hdynamic hs := hdynamic ▸ hs

theorem mem_cells_write (s : Store) (a : Scalar) (v : Value) {c : Address}
    (hc : c ∈ s.cells ∨ Address.ofScalar a = c) : c ∈ (s.write a v).cells := by
  rw [write, Std.ExtTreeMap.mem_insert]
  obtain hc | rfl := hc
  · exact .inr hc
  · exact .inl Std.ReflCmp.compare_self

theorem tolerant_cells (c : Address) : Tolerant fun s => c ∈ s.cells where
  write a v hs := mem_cells_write _ a v (.inl hs)
  other hcells _ hs := hcells ▸ hs

/-- Nothing has been placed at the address: no name stands for it, and no block on demand. -/
structure Unused (s : Store) (a : Int) : Prop where
  bound : ∀ b ∈ s.addresses, Address.ofScalar b ≠ Address.whole a
  dynamic : Address.whole a ∉ s.dynamic

theorem Ordered.unused {s : Store} (h : s.Ordered) {n : Int} (hn : s.next = .int n) :
    s.Unused n := by
  obtain ⟨n', hn', -, hdynamic, hbound⟩ := h
  obtain rfl : n = n' := Scalar.int.inj (hn.symm.trans hn')
  constructor
  · intro b hb heq
    obtain ⟨j, -, hj, rfl⟩ := hbound b hb
    have hjn : j = n := congrArg Address.number heq
    omega
  · intro hin
    obtain ⟨j, hj, heq⟩ := hdynamic _ hin
    have hjn : n = j := congrArg Address.number heq
    omega

end Store

/-! ## Operations that release nothing -/

namespace Run

section

variable {I : Store → Prop} (hI : Store.Tolerant I)

include hI

theorem changeStore_tolerant {g : Store → Except Fault Store}
    (hg : ∀ s s', g s = .ok s' → s'.cells = s.cells ∧ s'.dynamic = s.dynamic) :
    Preserves I (fun _ => True) (changeStore g) :=
  .changeStore fun s s' hs h => hI.other (hg s s' h).1 (hg s s' h).2 hs

theorem bind_tolerant (name : String) (b : Binding) :
    Preserves I (fun _ => True) (changeStore (·.bind name b)) :=
  changeStore_tolerant hI fun _ _ h => ⟨(Store.bind_same h).2.2, (Store.bind_same h).2.1⟩

/-- A cell is written before something else. -/
theorem writeStore_tolerant {α : Type} {Q : α → Prop} {p : Run α} (hp : Preserves I Q p)
    (a : Scalar) (v : Value) : Preserves I Q (do setStore ((← getStore).write a v); p) :=
  fun m hm => hp { m with store := m.store.write a v } (hI.write a v hm)

theorem allocate_tolerant (size : Scalar) : Preserves I (fun _ => True) (allocate size) := by
  intro m hm
  refine ⟨?_, fun _ _ => trivial⟩
  simp only [allocate, execute_bind, execute_getStore, execute_ofExcept]
  cases m.store.next.add size with
  | error e => exact hm
  | ok next => exact hI.other (s := m.store) rfl rfl hm

theorem writeAt_tolerant (a : Scalar) (v : Value) :
    Preserves I (fun _ => True) (writeAt a v) := by
  intro m hm
  rw [execute_writeAt_store]
  exact ⟨hI.write a v hm, fun _ _ => trivial⟩

theorem readAt_tolerant (a : Scalar) : Preserves I (fun _ => True) (readAt a) := by
  refine .after (.ofStore fun _ => rfl) fun s => ?_
  split
  · exact .pure trivial
  · refine .after (.makeNumber _ _) fun n => ?_
    exact writeStore_tolerant hI (.pure trivial) a (.number n)

theorem readName_tolerant (name : String) : Preserves I (fun _ => True) (readName name) := by
  refine .after (.lookup name) fun b => ?_
  split
  · exact .pure trivial
  · exact .after (.ofExcept fun _ _ => trivial) fun a => readAt_tolerant hI a

theorem writeName_tolerant (name : String) (v : Value) :
    Preserves I (fun _ => True) (writeName name v) := by
  refine .after (.lookup name) fun b => ?_
  split
  · exact .throw _
  · exact .after (.ofExcept fun _ _ => trivial) fun a => writeAt_tolerant hI a v

theorem declare_tolerant (name : String) (k : Nat) (v : Value) :
    Preserves I (fun _ => True) (declare name k v) :=
  .after (allocate_tolerant hI _) fun a => .after (bind_tolerant hI name _) fun _ =>
    writeStore_tolerant hI (p := pure ()) (.pure trivial) a v

theorem declareNumber_tolerant (t : CType) (name : String) :
    Preserves I (fun _ => True) (declareNumber t name) :=
  .after (.ofExcept fun _ _ => trivial) fun k => .after (.makeNumber t _) fun n =>
    declare_tolerant hI name k (.number n)

theorem declareField_tolerant (name field : String) (t : VarType) :
    Preserves I (fun _ => True) (declareField name field t) := by
  refine .after (.ofExcept fun _ _ => trivial) fun k => .after (allocate_tolerant hI _) fun a => ?_
  have hnumber : Preserves I (fun _ => True) (do
      let n ← makeNumber (fieldType t) .nothing
      setStore ((← getStore).write a (.number n))) :=
    .after (.makeNumber _ _) fun n =>
      writeStore_tolerant hI (p := pure ()) (.pure trivial) a (.number n)
  refine .after (readName_tolerant hI name) fun v => ?_
  split
  · refine .after (.lookup name) fun b => ?_
    cases addressOf b with
    | error e => exact .after (.ofStore fun _ => rfl) fun _ => .throw e
    | ok c => exact writeStore_tolerant hI hnumber c _
  · exact .after (.throw _) fun _ => hnumber

theorem declareStructVar_tolerant (t : StructType) (name : String) :
    Preserves I (fun _ => True) (declareStructVar t name) := by
  refine .ite (declareNumber_tolerant hI .int name) ?_
  refine .after (declare_tolerant hI name structSize (.record [])) fun _ => ?_
  refine .after (readName_tolerant hI t.name) fun v => ?_
  split
  · exact .forM fun f _ => declareField_tolerant hI name f.1 f.2
  · exact .throw _

end

theorem execute_discard {α : Type} (p : Run α) (m : Machine) :
    ((discard p).execute m).2 = (p.execute m).2 := by
  change ((p >>= fun _ => pure ()).execute m).2 = _
  rw [execute_bind]
  cases p.execute m with
  | mk r m' => cases r <;> rfl

theorem mem_cells_readAt (a : Scalar) (m : Machine) :
    Address.ofScalar a ∈ ((readAt a).execute m).2.store.cells := by
  simp only [readAt, execute_bind, execute_getStore]
  cases hr : m.store.read? a with
  | some v =>
    obtain ⟨cell, hcell, -⟩ := Option.map_eq_some_iff.1 hr
    exact Std.ExtTreeMap.mem_iff_isSome_getElem?.2 (hcell ▸ rfl)
  | none =>
    obtain ⟨n, r, hn⟩ := execute_makeNumber (show CType.int.size = .ok 4 from rfl) m
    simp only [execute_bind, hn, execute_getStore, execute_setStore, execute_pure]
    exact Store.mem_cells_write _ a _ (.inr rfl)

end Run

/-- The operations on named and unnamed cells release nothing. -/
theorem MemoryOp.run_tolerant {I : Store → Prop} (hI : Store.Tolerant I) (op : MemoryOp) :
    op.run.Preserves I fun _ => True := by
  cases op with
  | declareNumber t name => exact Run.declareNumber_tolerant hI t name
  | declareFunction name => exact Run.declare_tolerant hI name _ _
  | declareStruct name => exact Run.declare_tolerant hI name _ _
  | declareStructVar t name => exact Run.declareStructVar_tolerant hI t name
  | declareConstant name value =>
    exact .after (.makeNumber _ _) fun n => Run.bind_tolerant hI name (.constant n)
  | pushFrame name =>
    refine Run.changeStore_tolerant hI fun s s' h => ?_
    obtain rfl := Except.ok.inj h
    exact ⟨rfl, rfl⟩
  | popFrame =>
    refine Run.changeStore_tolerant hI fun s s' h => ?_
    obtain ⟨_, _, -, rfl⟩ := Store.popFrame_cases h
    exact ⟨rfl, rfl⟩
  | pushScope =>
    refine Run.changeStore_tolerant hI fun s s' h => ?_
    obtain ⟨_, _, _, _, -, -, rfl⟩ := Store.pushScope_cases h
    exact ⟨rfl, rfl⟩
  | popScope =>
    refine Run.changeStore_tolerant hI fun s s' h => ?_
    obtain ⟨_, _, _, _, -, -, rfl⟩ := Store.popScope_cases h
    exact ⟨rfl, rfl⟩
  | read name => exact .after (Run.readName_tolerant hI name) fun _ => .pure trivial
  | assign name v _ => exact Run.writeName_tolerant hI name v
  | readAt a => exact .after (Run.readAt_tolerant hI a) fun _ => .pure trivial
  | writeAt a v _ => exact Run.writeAt_tolerant hI a v

/-- The operations on named and unnamed cells take blocks one behind the other. -/
theorem MemoryOp.run_ordered (op : MemoryOp) : op.run.Preserves Store.Ordered fun _ => True := by
  have onward {α : Type} {p : Run α}
      (hp : ∀ s₀ : Store, p.Preserves (s₀.Onward Value.type?) fun _ => True) :
      p.Preserves Store.Ordered fun _ => True :=
    fun m hm => ⟨(hp m.store m (.refl _ _)).1.ordered hm, fun _ _ => trivial⟩
  have hwrite (a : Scalar) (v : Value) :
      (Run.writeAt a v).Preserves Store.Ordered fun _ => True := by
    intro m hm
    rw [Run.execute_writeAt_store]
    exact ⟨hm, fun _ _ => trivial⟩
  cases op with
  | declareNumber t name => exact onward fun _ => Run.declareNumber_onward t name
  | declareFunction name => exact onward fun _ => Run.declare_onward name (by decide) _
  | declareStruct name => exact onward fun _ => Run.declare_onward name (by decide) _
  | declareStructVar t name => exact onward fun _ => Run.declareVariable_onward (.struct t) name
  | declareConstant name value => exact onward fun _ => Run.declareConstant_onward name value
  | pushFrame name => exact onward fun _ => Run.pushFrame_onward name
  | popFrame => exact onward fun _ => Run.popFrame_onward
  | pushScope => exact onward fun _ => Run.pushScope_onward
  | popScope => exact onward fun _ => Run.popScope_onward
  | read name => exact .after (onward fun s₀ => (Run.onwards s₀ _).readName name) fun _ => .pure trivial
  | readAt a => exact .after (onward fun _ => Run.readAt_onward a) fun _ => .pure trivial
  | writeAt a v _ => exact hwrite a v
  | assign name v _ =>
    refine .after (.lookup name) fun b => ?_
    split
    · exact .throw _
    · exact .after (.ofExcept fun _ _ => trivial) fun a => hwrite a v

/-! ## Taking and releasing blocks -/

namespace Run

def malloc (size : Scalar) : Run Scalar :=
  Builtin.apply .malloc [.scalar size, .memory]

def free (a : Scalar) : Run Scalar :=
  Builtin.apply .free [.scalar a, .memory]

theorem malloc_eq (size : Scalar) : malloc size = allocateDynamic size := rfl

theorem free_eq (a : Scalar) : free a = (do release a; return .nothing) := rfl

theorem execute_malloc {m : Machine} {n : Int} (h : m.store.next = .int n)
    (hn : Address.whole n ∉ m.store.dynamic) (k : Nat) :
    (malloc (.int k)).execute m = (.ok (.int n), { m with store :=
      { m.store with
        next := .int (n + k), dynamic := m.store.dynamic.insert (.whole n) (.int n) } }) := by
  have hkey : Address.ofScalar (.int n) ∉ m.store.dynamic := hn
  simp only [malloc_eq, allocateDynamic, execute_bind, execute_allocate h, execute_getStore,
    execute_setStore, execute_pure, if_neg hkey]
  rfl

theorem malloc_lists {size a : Scalar} {m m' : Machine}
    (h : (malloc size).execute m = (.ok a, m')) : Address.ofScalar a ∈ m'.store.dynamic := by
  rw [malloc_eq] at h
  obtain ⟨b, m₁, -, hrest⟩ := execute_bind_ok h
  simp only [execute_bind, execute_getStore, execute_setStore, execute_pure] at hrest
  obtain ⟨hb, rfl⟩ := Prod.mk.inj hrest
  obtain rfl := Except.ok.inj hb
  change _ ∈ if _ then m₁.store.dynamic else _
  split
  · next hlisted => exact hlisted
  · exact Std.ExtTreeMap.mem_insert.2 (.inl Std.ReflCmp.compare_self)

theorem execute_free (a : Scalar) (m : Machine) :
    (free a).execute m =
      if Address.ofScalar a ∈ m.store.dynamic then
        if Address.ofScalar a ∈ m.store.cells then
          (.ok .nothing, { m with store :=
            { m.store with
              dynamic := m.store.dynamic.erase (Address.ofScalar a)
              cells := m.store.cells.erase (Address.ofScalar a) } })
        else
          (.error .noSuchKey, { m with store :=
            { m.store with dynamic := m.store.dynamic.erase (Address.ofScalar a) } })
      else (.error .notAllocated, m) := by
  simp only [free_eq, release, execute_bind, execute_getStore]
  by_cases hlisted : Address.ofScalar a ∈ m.store.dynamic
  · simp only [if_pos hlisted, execute_bind, execute_setStore]
    by_cases hcell : Address.ofScalar a ∈ m.store.cells
    · simp only [if_pos hcell]
      rfl
    · simp only [if_neg hcell]
      rfl
  · simp only [if_neg hlisted]
    rfl

theorem free_unlisted {a : Scalar} {m : Machine} (h : Address.ofScalar a ∉ m.store.dynamic) :
    (free a).execute m = (.error .notAllocated, m) := by
  rw [execute_free, if_neg h]

theorem free_unlists (a : Scalar) (m : Machine) :
    Address.ofScalar a ∉ ((free a).execute m).2.store.dynamic := by
  have herased : Address.ofScalar a ∉ m.store.dynamic.erase (Address.ofScalar a) := by
    rw [Std.ExtTreeMap.mem_erase]
    exact fun h => h.1 Std.ReflCmp.compare_self
  rw [execute_free]
  split
  · split
    · exact herased
    · exact herased
  · next h => exact h

/-- Taking a block leaves those that are on the list, and all cells. -/
theorem malloc_keeps (size : Scalar) (c : Address) :
    Preserves (fun s => c ∈ s.dynamic) (fun _ => True) (malloc size) ∧
      Preserves (fun s => c ∈ s.cells) (fun _ => True) (malloc size) := by
  rw [malloc_eq]
  constructor
  · refine .after (allocate_tolerant (Store.tolerant_dynamic c) size) fun a m hm => ?_
    refine ⟨?_, fun _ _ => trivial⟩
    change c ∈ if _ then m.store.dynamic else _
    split
    · exact hm
    · rw [Std.ExtTreeMap.mem_insert]
      exact .inr hm
  · exact .after (allocate_tolerant (Store.tolerant_cells c) size) fun a m hm =>
      ⟨hm, fun _ _ => trivial⟩

/-- Releasing a block leaves the others that are on the list, and their cells. -/
theorem free_keeps {a : Scalar} {c : Address} (hne : Address.ofScalar a ≠ c) :
    Preserves (fun s => c ∈ s.dynamic) (fun _ => True) (free a) ∧
      Preserves (fun s => c ∈ s.cells) (fun _ => True) (free a) := by
  have hcompare : Address.compare (Address.ofScalar a) c ≠ .eq :=
    fun heq => hne (Std.LawfulEqCmp.eq_of_compare heq)
  constructor
  · intro m hm
    refine ⟨?_, fun _ _ => trivial⟩
    rw [execute_free]
    have herased : c ∈ m.store.dynamic.erase (Address.ofScalar a) :=
      Std.ExtTreeMap.mem_erase.2 ⟨hcompare, hm⟩
    split
    · split
      · exact herased
      · exact herased
    · exact hm
  · intro m hm
    refine ⟨?_, fun _ _ => trivial⟩
    rw [execute_free]
    split
    · split
      · exact Std.ExtTreeMap.mem_erase.2 ⟨hcompare, hm⟩
      · exact hm
    · exact hm

end Run

/-! ## Operations one after the other -/

/-- An operation on the store, also on the blocks on demand. Any value may be written. -/
inductive HeapOp where
  | base (op : MemoryOp)
  | write (a : Scalar) (v : Value)
  | malloc (size : Scalar)
  | free (a : Scalar)

namespace HeapOp

def run : HeapOp → Run Unit
  | base op => op.run
  | write a v => Run.writeAt a v
  | malloc size => discard (Run.malloc size)
  | free a => discard (Run.free a)

/-- One operation. If it fails, it leaves what it has changed. -/
def step (m : Machine) (op : HeapOp) : Machine :=
  (op.run.execute m).2

def reach (r : Random) (input : String) (ops : List HeapOp) : Machine :=
  ops.foldl step (Machine.start input r)

def allots : HeapOp → Bool
  | malloc size => Builtin.allots .malloc [.scalar size, .memory]
  | _ => true

def releases (c : Address) : HeapOp → Bool
  | free a => Address.ofScalar a = c
  | _ => false

def accesses (c : Address) : HeapOp → Bool
  | base (.readAt a) => Address.ofScalar a = c
  | base (.writeAt a ..) => Address.ofScalar a = c
  | write a _ => Address.ofScalar a = c
  | _ => false

theorem step_ordered {op : HeapOp} (hop : op.allots = true) {m : Machine}
    (hm : m.store.Ordered) : (step m op).store.Ordered := by
  have onward {p : Run Scalar}
      (hp : ∀ s₀ : Store, p.Preserves (s₀.Onward Value.type?) fun _ => True) :
      ((discard p).execute m).2.store.Ordered := by
    have hdiscard : Run.Preserves (m.store.Onward Value.type?) (fun _ => True) (discard p) :=
      .after (hp m.store) fun _ => .pure trivial
    exact (hdiscard m (.refl _ _)).1.ordered hm
  cases op with
  | base op => exact (op.run_ordered m hm).1
  | write a v =>
    change ((Run.writeAt a v).execute m).2.store.Ordered
    rw [Run.execute_writeAt_store]
    exact hm
  | malloc size =>
    obtain ⟨k, hk, rfl⟩ := Eval.size_of_allots hop
    exact onward fun _ => Run.allocateDynamic_onward hk
  | free a =>
    refine onward fun _ => ?_
    rw [Run.free_eq]
    exact .after (Run.release_onward a) fun _ => .pure trivial

theorem reach_ordered (r : Random) (input : String) {ops : List HeapOp}
    (hops : ∀ op ∈ ops, op.allots = true) :
    (reach r input ops).store.Ordered := by
  have hrun {m : Machine} (hm : m.store.Ordered) : (ops.foldl step m).store.Ordered := by
    induction ops generalizing m with
    | nil => exact hm
    | cons op ops ih =>
      obtain ⟨hop, hops⟩ := List.forall_mem_cons.1 hops
      exact ih hops (step_ordered hop hm)
  exact hrun (m := Machine.start input r) Store.ordered_empty

/-- A block stays on the list, and a cell in the store, until the block is released. -/
theorem run_keeps {op : HeapOp} {c : Address} (hop : op.releases c = false) :
    op.run.Preserves (fun s => c ∈ s.dynamic) (fun _ => True) ∧
      op.run.Preserves (fun s => c ∈ s.cells) (fun _ => True) := by
  have discarded {I : Store → Prop} {p : Run Scalar} (hp : p.Preserves I fun _ => True) :
      Run.Preserves I (fun _ => True) (discard p) := .after hp fun _ => .pure trivial
  cases op with
  | base op =>
    exact ⟨op.run_tolerant (Store.tolerant_dynamic c), op.run_tolerant (Store.tolerant_cells c)⟩
  | write a v =>
    exact ⟨Run.writeAt_tolerant (Store.tolerant_dynamic c) a v,
      Run.writeAt_tolerant (Store.tolerant_cells c) a v⟩
  | malloc size =>
    obtain ⟨hdynamic, hcells⟩ := Run.malloc_keeps size c
    exact ⟨discarded hdynamic, discarded hcells⟩
  | free a =>
    obtain ⟨hdynamic, hcells⟩ := Run.free_keeps (of_decide_eq_false hop)
    exact ⟨discarded hdynamic, discarded hcells⟩

/-- What is read or written has a cell from then on. -/
theorem mem_cells_of_accesses {op : HeapOp} {c : Address} (hop : op.accesses c = true)
    (m : Machine) : c ∈ (step m op).store.cells := by
  have hwrite {a : Scalar} (ha : Address.ofScalar a = c) (v : Value) :
      c ∈ ((Run.writeAt a v).execute m).2.store.cells := by
    rw [Run.execute_writeAt_store]
    exact Store.mem_cells_write _ a v (.inr ha)
  cases op with
  | write a v => exact hwrite (of_decide_eq_true hop) v
  | base op =>
    cases op with
    | writeAt a v => exact hwrite (of_decide_eq_true hop) v
    | readAt a =>
      obtain rfl : Address.ofScalar a = c := of_decide_eq_true hop
      rw [step, run, MemoryOp.run, Run.execute_discard]
      exact Run.mem_cells_readAt a m
    | _ => cases hop
  | _ => cases hop

theorem foldl_keeps {ops : List HeapOp} {c : Address}
    (hops : ∀ op ∈ ops, op.releases c = false) (m : Machine) :
    (c ∈ m.store.dynamic → c ∈ (ops.foldl step m).store.dynamic) ∧
      (c ∈ m.store.cells → c ∈ (ops.foldl step m).store.cells) := by
  induction ops generalizing m with
  | nil => exact ⟨id, id⟩
  | cons op ops ih =>
    obtain ⟨hop, hops⟩ := List.forall_mem_cons.1 hops
    obtain ⟨hdynamic, hcells⟩ := run_keeps hop
    obtain ⟨hdynamic', hcells'⟩ := ih hops (step m op)
    exact ⟨fun h => hdynamic' (hdynamic m h).1, fun h => hcells' (hcells m h).1⟩

theorem mem_cells_of_foldl {ops : List HeapOp} {c : Address}
    (hops : ∀ op ∈ ops, op.releases c = false) (haccess : ∃ op ∈ ops, op.accesses c = true)
    (m : Machine) : c ∈ (ops.foldl step m).store.cells := by
  obtain ⟨op, hop, haccess⟩ := haccess
  obtain ⟨front, rest, rfl⟩ := List.append_of_mem hop
  rw [List.foldl_append, List.foldl_cons]
  refine (foldl_keeps (fun op hop => hops op ?_) _).2 (mem_cells_of_accesses haccess _)
  exact List.mem_append_right _ (List.mem_cons_of_mem _ hop)

end HeapOp

/-- What releasing a block that was taken on demand does. -/
structure Releasable (a : Scalar) (m : Machine) : Prop where
  listed : Address.ofScalar a ∈ m.store.dynamic
  /-- The block is taken off the list, its cell is removed, and nothing else changes. -/
  released : Address.ofScalar a ∈ m.store.cells → (Run.free a).execute m =
    (.ok .nothing, { m with store :=
      { m.store with
        dynamic := m.store.dynamic.erase (Address.ofScalar a)
        cells := m.store.cells.erase (Address.ofScalar a) } })
  /-- Without a cell the block is taken off the list as well, but this is a failure. -/
  untouched : Address.ofScalar a ∉ m.store.cells → (Run.free a).execute m =
    (.error .noSuchKey, { m with store :=
      { m.store with dynamic := m.store.dynamic.erase (Address.ofScalar a) } })
  /-- The block cannot be released twice. -/
  once : ∀ m', ((Run.free a).execute m).2 = m' →
    (Run.free a).execute m' = (.error .notAllocated, m')

theorem releasable_of_listed {a : Scalar} {m : Machine}
    (h : Address.ofScalar a ∈ m.store.dynamic) : Releasable a m where
  listed := h
  released hcell := by rw [Run.execute_free, if_pos h, if_pos hcell]
  untouched hcell := by rw [Run.execute_free, if_pos h, if_neg hcell]
  once m' hm' := by
    subst hm'
    exact Run.free_unlisted (Run.free_unlists a m)

/-- In every store that operations reach from the empty one, a block on demand is taken where
nothing has been placed, as long as no block without a size was taken before. A block that was taken
can be released after any further operations that do not release it, and if its cell has been read
or written since then, this removes the block and its cell and nothing else. What is not on the list
of blocks is not released. -/
theorem HeapOp.reach_releasable (r : Random) (input : String) (ops : List HeapOp) :
    ((∀ op ∈ ops, op.allots = true) → ∀ k : Nat, ∃ a m',
      (Run.malloc (.int k)).execute (reach r input ops) = (.ok (.int a), m') ∧
        (reach r input ops).store.Unused a) ∧
    (∀ size a m', (Run.malloc size).execute (reach r input ops) = (.ok a, m') →
      ∀ more : List HeapOp, (∀ op ∈ more, op.releases (Address.ofScalar a) = false) →
        Releasable a (more.foldl step m') ∧
          ((∃ op ∈ more, op.accesses (Address.ofScalar a) = true) →
            Address.ofScalar a ∈ (more.foldl step m').store.cells)) ∧
    ∀ a, Address.ofScalar a ∉ (reach r input ops).store.dynamic →
      (Run.free a).execute (reach r input ops) = (.error .notAllocated, reach r input ops) := by
  refine ⟨fun hops k => ?_, fun size a m' hmalloc more hmore => ⟨?_, fun haccess => ?_⟩,
    fun a ha => Run.free_unlisted ha⟩
  · have hordered := reach_ordered r input hops
    obtain ⟨n, hn, -⟩ := id hordered
    have hunused := hordered.unused hn
    exact ⟨n, _, Run.execute_malloc hn hunused.dynamic k, hunused⟩
  · exact releasable_of_listed ((foldl_keeps hmore m').1 (Run.malloc_lists hmalloc))
  · exact mem_cells_of_foldl hmore haccess m'

/-- A block is written and released behind another one that is on the list as well. -/
theorem HeapOp.reach_releasable_sample : ∃ a m',
    (Run.malloc (.int 8)).execute
      (reach .start ""
        [.base (.declareNumber .int "p"), .malloc (.int 4), .base (.pushFrame "f")]) =
        (.ok (.int a), m') ∧
    Store.Unused
      (reach .start ""
        [.base (.declareNumber .int "p"), .malloc (.int 4), .base (.pushFrame "f")]).store a ∧
    ((Run.free (.int a)).execute
      ([.write (.int a) .memory, .malloc (.int 0)].foldl step m')).1 = .ok .nothing := by
  obtain ⟨hmalloc, hfree, -⟩ := reach_releasable .start ""
    [.base (.declareNumber .int "p"), .malloc (.int 4), .base (.pushFrame "f")]
  obtain ⟨a, m', htaken, hunused⟩ := hmalloc (by decide) 8
  have hkept : ∀ op ∈ [HeapOp.write (.int a) .memory, .malloc (.int 0)],
      op.releases (Address.ofScalar (.int a)) = false := by simp [releases]
  obtain ⟨hreleasable, hcell⟩ := hfree (.int 8) (.int a) m' htaken _ hkept
  refine ⟨a, m', htaken, hunused, ?_⟩
  rw [hreleasable.released (hcell (by simp [accesses]))]

end MiniC
