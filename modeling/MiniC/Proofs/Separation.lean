import Mathlib.Data.List.Induction
import Mathlib.Data.List.Nodup
import MiniC.Proofs.Layout

/-!
# Variables and fields lie apart

The operations on the store, in any order and whether they fail or not, keep it laid out. In every
store that they reach, blocks lie apart from one another, declared names and fields have a block of
their own, and writing through one of them changes none of the others.
-/

namespace MiniC

variable {name : String} {a : Scalar}

namespace Block

def Disjoint (b c : Block) : Prop :=
  ∀ n : Int, ¬ ((b.start ≤ n ∧ n < b.stop) ∧ (c.start ≤ n ∧ n < c.stop))

theorem disjoint_lay (n : Int) (ks : List Nat) : (lay n ks).Pairwise Disjoint := by
  refine (pairwise_lay n ks).imp fun {b c} hbc n hn => ?_
  have hb := hn.1.2
  have hc := hn.2.1
  omega

end Block

/-! ## Variables and fields -/

structure Slot where
  /-- The position of the scope among the live ones. -/
  scope : Nat
  name : String
  field : Option String
  deriving DecidableEq

def Slot.owner (p : Slot) : Slot :=
  { p with field := none }

namespace Store

def variableAddress (s : Store) (scope : Nat) (name : String) : Option Scalar :=
  match (s.scopes[scope]?).bind (·.entries.get? name) with
  | some (.at a) => some a
  | _ => none

def locate (s : Store) (p : Slot) : Option Scalar :=
  (s.variableAddress p.scope p.name).bind fun a =>
    match p.field with
    | none => some a
    | some f => (s.fieldsAt a).get? f

theorem variableAddress_cases {s : Store} {i : Nat} (h : s.variableAddress i name = some a) :
    ∃ c, s.scopes[i]? = some c ∧ c.entries.get? name = some (.at a) := by
  unfold variableAddress at h
  split at h
  · next b hb =>
    obtain rfl := Option.some.inj h
    exact Option.bind_eq_some_iff.1 hb
  · cases h

theorem mem_addresses_of_variable {s : Store} {i : Nat} (h : s.variableAddress i name = some a) :
    a ∈ s.addresses := by
  obtain ⟨c, hc, ha⟩ := variableAddress_cases h
  exact List.mem_flatMap.2 ⟨c, List.mem_of_getElem? hc, Table.mem_addresses ha⟩

/-- The address of a slot is that of a variable, or that of a field of it. -/
theorem locate_cases {s : Store} {p : Slot} (h : s.locate p = some a) :
    (p.field = none ∧ s.variableAddress p.scope p.name = some a) ∨
    ∃ f x, p.field = some f ∧ s.variableAddress p.scope p.name = some x ∧
      (f, a) ∈ s.fieldsAt x := by
  obtain ⟨x, hx, h⟩ := Option.bind_eq_some_iff.1 h
  cases hf : p.field with
  | none =>
    rw [hf] at h
    obtain rfl := Option.some.inj h
    exact .inl ⟨rfl, hx⟩
  | some f =>
    rw [hf] at h
    exact .inr ⟨f, x, rfl, hx, Table.mem_of_get? h⟩

end Store

/-- In a table whose addresses differ, an address belongs to one name. -/
theorem Table.name_eq_of_nodup {t : Table Binding} (h : t.addresses.Nodup) {x y : String}
    (hx : t.get? x = some (.at a)) (hy : t.get? y = some (.at a)) : x = y := by
  induction t with
  | nil => cases hx
  | cons p t ih =>
    have hcons : addresses (p :: t) = addresses [p] ++ addresses t :=
      List.filterMap_append (l := [p])
    rw [hcons, List.nodup_append] at h
    obtain ⟨-, ht, hapart⟩ := h
    have hhead (hp : p.2 = .at a) (z : String) (hz : get? t z = some (.at a)) : False := by
      have hmem : a ∈ addresses [p] := List.mem_filterMap.2 ⟨p, List.mem_cons_self, by rw [hp]⟩
      exact hapart a hmem a (mem_addresses hz) rfl
    rw [get?] at hx hy
    split at hx <;> split at hy
    · next h₁ h₂ => exact h₁.symm.trans h₂
    · exact (hhead (Option.some.inj hx) y hy).elim
    · exact (hhead (Option.some.inj hy) x hx).elim
    · exact ih ht hx hy

namespace Store.Laid

variable {s : Store} {ns : List Nat}

theorem variable_inj (h : s.Laid ns) {i j : Nat} {x y : String}
    (hx : s.variableAddress i x = some a) (hy : s.variableAddress j y = some a) :
    i = j ∧ x = y := by
  obtain ⟨c, hc, hcx⟩ := variableAddress_cases hx
  obtain ⟨d, hd, hdy⟩ := variableAddress_cases hy
  obtain ⟨hnodup, hapart⟩ := List.nodup_flatMap.1 h.boundApart
  have hij : i = j := by
    by_contra hne
    obtain ⟨hi, rfl⟩ := List.getElem?_eq_some_iff.1 hc
    obtain ⟨hj, rfl⟩ := List.getElem?_eq_some_iff.1 hd
    have hdisjoint := List.pairwise_iff_getElem.1 hapart
    obtain hlt | hlt := Nat.lt_or_gt_of_ne hne
    · exact hdisjoint i j hi hj hlt (Table.mem_addresses hcx) (Table.mem_addresses hdy)
    · exact hdisjoint j i hj hi hlt (Table.mem_addresses hdy) (Table.mem_addresses hcx)
  subst hij
  obtain rfl := Option.some.inj (hc.symm.trans hd)
  exact ⟨rfl, Table.name_eq_of_nodup (hnodup c (List.mem_of_getElem? hc)) hcx hdy⟩

theorem kept_of_locate (h : s.Laid ns) {p : Slot} (hp : s.locate p = some a) : s.Kept ns a := by
  obtain ⟨-, ha⟩ | ⟨f, x, -, -, ha⟩ := locate_cases hp
  · exact h.bound a (mem_addresses_of_variable ha)
  · exact h.field x _ ha

theorem locate_inj (h : s.Laid ns) {p q : Slot} (hp : s.locate p = some a)
    (hq : s.locate q = some a) : p = q := by
  obtain ⟨hpf, hpa⟩ | ⟨f, x, hpf, hpx, hpa⟩ := locate_cases hp <;>
    obtain ⟨hqf, hqa⟩ | ⟨g, y, hqf, hqy, hqa⟩ := locate_cases hq
  · obtain ⟨hscope, hname⟩ := h.variable_inj hpa hqa
    cases p
    cases q
    simp_all
  · exact absurd (mem_addresses_of_variable hpa) (h.apart y _ hqa)
  · exact absurd (mem_addresses_of_variable hqa) (h.apart x _ hpa)
  · obtain ⟨hxy, hfg⟩ := h.fieldsApart x y _ hpa _ hqa rfl
    have hx := (h.bound x (mem_addresses_of_variable hpx)).1
    have hy := (h.bound y (mem_addresses_of_variable hqy)).1
    obtain rfl := hx.eq_of_ofScalar hy hxy
    obtain ⟨hscope, hname⟩ := h.variable_inj hpx hqy
    cases p
    cases q
    simp_all

/-- Writing through one slot leaves the cells of all others alone. -/
theorem read?_write_slot (h : s.Laid ns) {p q : Slot} {b : Scalar} (hp : s.locate p = some a)
    (hq : s.locate q = some b) (hne : p ≠ q) (v : Value) : (s.write a v).read? b = s.read? b := by
  refine read?_write_of_ne s v fun hab => hne ?_
  obtain rfl := (h.kept_of_locate hp).1.eq_of_ofScalar (h.kept_of_locate hq).1 hab
  exact h.locate_inj hp hq

/-- Writing through a slot leaves all others in place, the fields of a variable that is written as a
whole apart. -/
theorem locate_write_slot (h : s.Laid ns) {p q : Slot} (hp : s.locate p = some a)
    (hne : q.owner ≠ p) (v : Value) : (s.write a v).locate q = s.locate q := by
  change (s.variableAddress q.scope q.name).bind _ = (s.variableAddress q.scope q.name).bind _
  cases hx : s.variableAddress q.scope q.name with
  | none => rfl
  | some x =>
    have howner : s.locate q.owner = some x := by
      simp only [locate, Slot.owner, hx, Option.bind_some]
    have hread := h.read?_write_slot hp howner hne.symm v
    simp only [Option.bind_some, fieldsAt, hread]

theorem exists_slot_of_lookup (h : s.lookup name = .ok (.at a)) :
    ∃ i, s.locate ⟨i, name, none⟩ = some a := by
  obtain ⟨c, hc, ha⟩ := lookup_cases h
  obtain ⟨i, hi⟩ := List.mem_iff_getElem?.1 (mem_scopes_of_scopeOf hc)
  refine ⟨i, ?_⟩
  simp only [locate, variableAddress, hi, Option.bind_some, ha]

end Store.Laid

/-! ## Reading and assigning by name -/

namespace Run

variable {m : Machine} {ns : List Nat}

/-- A bound name has a cell, so that reading it changes nothing. -/
theorem execute_readName_of_laid (h : m.store.Laid ns) (name : String) :
    (readName name).execute m =
      (do
        match ← m.store.lookup name with
        | .constant n => return .constant n
        | .at a => (m.store.read? a).elim (.error .noSuchKey) .ok, m) := by
  cases hb : m.store.lookup name with
  | error e =>
    simp only [readName, lookup, execute_bind, execute_getStore, execute_ofExcept, hb]
    rfl
  | ok b =>
    cases b with
    | constant n =>
      simp only [readName, lookup, execute_bind, execute_getStore, execute_ofExcept, hb]
      rfl
    | «at» a =>
      obtain ⟨⟨c, -, rfl⟩, hcell⟩ := h.bound a (Store.mem_addresses_of_lookup hb)
      obtain ⟨v, hv⟩ := Option.isSome_iff_exists.1 hcell
      rw [execute_readName hb hv]
      change _ = ((m.store.read? (.int c.start)).elim _ _, m)
      rw [hv]
      rfl

/-- Assigning to a name writes the cell for which it stands. -/
theorem execute_writeName_of_laid (h : m.store.Laid ns) (ha : m.store.lookup name = .ok (.at a))
    (v : Value) : (writeName name v).execute m = (writeAt a v).execute m := by
  obtain ⟨⟨c, -, rfl⟩, -⟩ := h.bound a (Store.mem_addresses_of_lookup ha)
  simp only [writeName, lookup, execute_bind, execute_getStore, execute_ofExcept, ha, addressOf]

/-- Nothing is assigned to a name that stands for no cell. -/
theorem execute_writeName_store (h : ∀ a, m.store.lookup name ≠ .ok (.at a)) (v : Value) :
    ((writeName name v).execute m).2 = m := by
  simp only [writeName, lookup, execute_bind, execute_getStore, execute_ofExcept]
  cases hb : m.store.lookup name with
  | error e => rfl
  | ok b =>
    cases b with
    | constant n => rfl
    | «at» a => exact absurd hb (h a)

/-- Assigning to one name leaves what is read by another. -/
theorem readName_writeName (h : m.store.Laid ns) {other : String} (hne : other ≠ name) (v : Value)
    (hv : v.fields = []) :
    ((readName other).execute ((writeName name v).execute m).2).1 =
      ((readName other).execute m).1 := by
  by_cases ha : ∃ a, m.store.lookup name = .ok (.at a)
  · obtain ⟨a, ha⟩ := ha
    have hstore : ((writeName name v).execute m).2.store = m.store.write a v := by
      rw [execute_writeName_of_laid h ha, execute_writeAt_store]
    have hlaid := h.write a hv
    rw [← hstore] at hlaid
    rw [execute_readName_of_laid hlaid, execute_readName_of_laid h, hstore]
    have hlookup : (m.store.write a v).lookup other = m.store.lookup other := rfl
    rw [hlookup]
    cases hb : m.store.lookup other with
    | error e => rfl
    | ok b =>
      cases b with
      | constant n => rfl
      | «at» b =>
        obtain ⟨i, hi⟩ := Store.Laid.exists_slot_of_lookup ha
        obtain ⟨j, hj⟩ := Store.Laid.exists_slot_of_lookup hb
        have hslot : (⟨i, name, none⟩ : Slot) ≠ ⟨j, other, none⟩ :=
          fun heq => hne (congrArg Slot.name heq).symm
        have hread := h.read?_write_slot hi hj hslot v
        change ((m.store.write a v).read? b).elim _ _ = (m.store.read? b).elim _ _
        rw [hread]
  · rw [execute_writeName_store (fun a hb => ha ⟨a, hb⟩)]

end Run

/-! ## Operations one after the other -/

/-- An operation on the store. What is assigned is not a structure variable. -/
inductive MemoryOp where
  | declareNumber (t : CType) (name : String)
  | declareFunction (name : String)
  | declareStruct (name : String)
  | declareStructVar (t : StructType) (name : String)
  | declareConstant (name : String) (value : Scalar)
  | pushFrame (name : String)
  | popFrame
  | pushScope
  | popScope
  | read (name : String)
  | assign (name : String) (v : Value) (plain : v.fields = [])
  | readAt (a : Scalar)
  | writeAt (a : Scalar) (v : Value) (plain : v.fields = [])

namespace MemoryOp

def run : MemoryOp → Run Unit
  | declareNumber t name => Run.declareNumber t name
  | declareFunction name => Run.declareFunction name
  | declareStruct name => Run.declareStruct name
  | declareStructVar t name => Run.declareStructVar t name
  | declareConstant name value => Run.declareConstant name value
  | pushFrame name => Run.changeStore fun s => .ok (s.pushFrame name)
  | popFrame => Run.changeStore Store.popFrame
  | pushScope => Run.changeStore Store.pushScope
  | popScope => Run.changeStore Store.popScope
  | read name => discard (Run.readName name)
  | assign name v _ => Run.writeName name v
  | readAt a => discard (Run.readAt a)
  | writeAt a v _ => Run.writeAt a v

/-- The sizes of what an operation declares: first the variable, function or structure itself, then
the fields. -/
def sizes : MemoryOp → Machine → List Nat
  | declareNumber t _, _ => t.size?.toList
  | declareFunction _, _ => [Run.functionSize]
  | declareStruct _, _ => [Run.structSize]
  | declareStructVar t name, m => Run.structSizes t name m
  | _, _ => []

def target? : MemoryOp → Option String
  | declareNumber _ name => some name
  | declareFunction name => some name
  | declareStruct name => some name
  | declareStructVar _ name => some name
  | _ => none

def fieldNames : MemoryOp → Machine → List String
  | declareStructVar t name, m =>
    if t.pointer then [] else (Run.structFields t name m).map Prod.fst
  | _, _ => []

def blocks (op : MemoryOp) (m : Machine) : List Block :=
  Block.lay m.store.nextAddress (op.sizes m)

/-- One operation, with the blocks that were taken so far. An operation that fails leaves what it
has changed. -/
def step (r : Machine × List Block) (op : MemoryOp) : Machine × List Block :=
  ((op.run.execute r.1).2, r.2 ++ op.blocks r.1)

def reach (r : Random) (input : String) (ops : List MemoryOp) : Machine × List Block :=
  ops.foldl step (Machine.start input r, [])

theorem run_lays (op : MemoryOp) : op.run.Lays op.sizes := by
  have hdiscard {α : Type} {p : Run α} (hp : p.Stays) : Run.Stays (discard p) :=
    fun ns => .after (hp ns) fun _ => .pure trivial
  cases op with
  | declareNumber t name => exact Run.declareNumber_lays t name
  | declareFunction name => exact Run.declare_lays name (by decide) rfl
  | declareStruct name => exact Run.declare_lays name (by decide) rfl
  | declareStructVar t name => exact Run.declareStructVar_lays t name
  | declareConstant name value => exact (Run.declareConstant_stays name value).toLays
  | pushFrame name =>
    refine (Run.changeStore_stays fun hs hp => ?_).toLays
    obtain rfl := Except.ok.inj hp
    exact hs.pushFrame name
  | popFrame => exact (Run.changeStore_stays fun hs => hs.popFrame).toLays
  | pushScope => exact (Run.changeStore_stays fun hs => hs.pushScope).toLays
  | popScope => exact (Run.changeStore_stays fun hs => hs.popScope).toLays
  | read name => exact (hdiscard (Run.readName_stays name)).toLays
  | assign name v plain => exact (Run.writeName_stays name plain).toLays
  | readAt a => exact (hdiscard (Run.readAt_stays a)).toLays
  | writeAt a v plain => exact (Run.writeAt_stays a plain).toLays

theorem reach_laid (r : Random) (input : String) (ops : List MemoryOp) :
    ∃ ns, (reach r input ops).1.store.Laid ns ∧ (reach r input ops).2 = Store.blocks ns := by
  induction ops using List.reverseRecOn with
  | nil => exact ⟨[], Store.laid_empty, rfl⟩
  | append_singleton ops op ih =>
    obtain ⟨ns, hlaid, hblocks⟩ := ih
    refine ⟨ns ++ op.sizes (reach r input ops).1, ?_, ?_⟩
    · rw [reach, List.foldl_append]
      exact run_lays op _ ns hlaid
    · rw [reach, List.foldl_append, Store.blocks, Block.lay_append]
      change (reach r input ops).2 ++ op.blocks (reach r input ops).1 = _
      rw [hblocks, blocks, hlaid.nextAddress]
      rfl

structure Placed (s : Store) (name : String) (n : Int) (t : Table Scalar) : Prop where
  lookup : s.lookup name = .ok (.at (.int n))
  fields : s.fieldsAt (.int n) = t

def Declares (op : MemoryOp) (m : Machine) : Prop :=
  ∀ name, op.target? = some name → (op.run.execute m).1 = .ok () →
    ∃ b rest, op.blocks m = b :: rest ∧
      Placed (op.run.execute m).2.store name b.start
        (Table.ofList ((op.fieldNames m).zip (rest.map (.int ·.start))))

section

variable {m : Machine} {ns : List Nat} (h : m.store.Laid ns)

include h

theorem declare_placed {k : Nat} {v : Value} (hv : v.fields = [])
    (hrun : ((Run.declare name k v).execute m).1 = .ok ()) :
    Placed ((Run.declare name k v).execute m).2.store name (Store.topOf ns) [] := by
  obtain ⟨hlookup, hread⟩ := Run.declare_binds h (Prod.ext hrun rfl)
  exact ⟨hlookup, by rw [Store.fieldsAt, hread]; exact hv⟩

theorem declareNumber_placed {t : CType}
    (hrun : ((Run.declareNumber t name).execute m).1 = .ok ()) :
    ∃ k, t.size? = some k ∧
      Placed ((Run.declareNumber t name).execute m).2.store name (Store.topOf ns) [] := by
  cases hs : t.size? with
  | none =>
    have hsize : t.size = .error (.sizeless t) := by rw [CType.size, hs]; rfl
    simp only [Run.declareNumber, Run.execute_bind, Run.execute_ofExcept, hsize] at hrun
    cases hrun
  | some k =>
    obtain ⟨n, r, heq⟩ := Run.execute_declareNumber (CType.size_eq hs) name m
    rw [heq] at hrun ⊢
    have hr : Store.Laid (Machine.store { m with random := r }) ns := h
    exact ⟨k, rfl, declare_placed hr rfl hrun⟩

theorem declares (op : MemoryOp) : op.Declares m := by
  intro name htarget hrun
  rw [blocks, h.nextAddress]
  cases op with
  | declareNumber t name =>
    obtain rfl := Option.some.inj htarget
    obtain ⟨k, hk, hplaced⟩ := declareNumber_placed h hrun
    exact ⟨⟨_, k⟩, [], by simp only [sizes, hk]; rfl, hplaced⟩
  | declareFunction name =>
    obtain rfl := Option.some.inj htarget
    exact ⟨_, [], rfl, declare_placed h rfl hrun⟩
  | declareStruct name =>
    obtain rfl := Option.some.inj htarget
    exact ⟨_, [], rfl, declare_placed h rfl hrun⟩
  | declareStructVar t name =>
    obtain rfl := Option.some.inj htarget
    simp only [run, sizes, Run.structSizes, fieldNames] at hrun ⊢
    cases ht : t.pointer with
    | true =>
      simp only [Run.declareStructVar, ht, if_true] at hrun ⊢
      obtain ⟨-, -, hplaced⟩ := declareNumber_placed h hrun
      exact ⟨_, [], rfl, hplaced⟩
    | false =>
      have howns := (Run.declareStructVar_owns ht name h).2 () hrun
      refine ⟨_, _, rfl, howns.lookup, ?_⟩
      rw [Store.fieldsAt, howns.read]
      rfl
  | _ => cases htarget

theorem nextAddress_le (op : MemoryOp) :
    m.store.nextAddress ≤ (op.run.execute m).2.store.nextAddress := by
  rw [h.nextAddress, (run_lays op m ns h).nextAddress]
  simp only [Store.topOf, List.sum_append]
  omega

end

end MemoryOp

/-- The address discipline of a store in which the blocks have been taken. -/
structure Disciplined (m : Machine) (bs : List Block) : Prop where
  /-- The next free address is a whole number, and no operation lowers it. -/
  next : m.store.next = .int m.store.nextAddress ∧
    ∀ op : MemoryOp, m.store.nextAddress ≤ (op.run.execute m).2.store.nextAddress
  /-- The blocks are behind the start address and in front of the next free one. -/
  within : ∀ b ∈ bs, Store.startAddress ≤ b.start ∧ b.stop ≤ m.store.nextAddress
  /-- No two blocks share a byte. -/
  disjoint : bs.Pairwise Block.Disjoint
  /-- What is declared gets blocks of its own. -/
  declares : ∀ op : MemoryOp, op.Declares m
  /-- What is bound in a live scope is the start of a block and has a cell. -/
  bound : ∀ a ∈ m.store.addresses,
    (∃ b ∈ bs, a = .int b.start) ∧ (m.store.read? a).isSome = true
  /-- So is every field of what is bound. -/
  field : ∀ a ∈ m.store.addresses, ∀ f ∈ m.store.fieldsAt a,
    (∃ b ∈ bs, f.2 = .int b.start) ∧ (m.store.read? f.2).isSome = true
  /-- Writing through a variable or a field changes no other variable and no other field. -/
  writeSlot : ∀ p q a b, m.store.locate p = some a → m.store.locate q = some b → p ≠ q →
    ∀ v : Value, ((Run.writeAt a v).execute m).2.store.read? b = m.store.read? b
  /-- The others stay where they are, unless a variable is overwritten together with its fields. -/
  locateSlot : ∀ p q a, m.store.locate p = some a → q.owner ≠ p →
    ∀ v : Value, ((Run.writeAt a v).execute m).2.store.locate q = m.store.locate q
  /-- A name stands for a variable, and assigning to it writes there. -/
  assign : ∀ name a, m.store.lookup name = .ok (.at a) →
    (∃ i, m.store.locate ⟨i, name, none⟩ = some a) ∧
      ∀ v : Value, (Run.writeName name v).execute m = (Run.writeAt a v).execute m
  /-- Assigning to one name leaves what is read by another. -/
  readName : ∀ name other, other ≠ name → ∀ v : Value, v.fields = [] →
    ((Run.readName other).execute ((Run.writeName name v).execute m).2).1 =
      ((Run.readName other).execute m).1

/-- Whatever operations have been carried out on an empty store, whether they failed or not, what
has been declared lies apart, and writing through one name or field changes no other. -/
theorem MemoryOp.reach_disciplined (r : Random) (input : String) (ops : List MemoryOp) :
    Disciplined (reach r input ops).1 (reach r input ops).2 := by
  obtain ⟨ns, h, hblocks⟩ := reach_laid r input ops
  rw [hblocks]
  constructor
  case next => exact ⟨by rw [h.nextAddress, h.next], nextAddress_le h⟩
  case within =>
    intro b hb
    obtain ⟨hstart, hstop, -⟩ := Block.mem_lay hb
    rw [h.nextAddress]
    exact ⟨hstart, hstop⟩
  case disjoint => exact Block.disjoint_lay _ ns
  case declares => exact declares h
  case bound => exact h.bound
  case field => exact fun a _ => h.field a
  case writeSlot =>
    intro p q a b hp hq hne v
    rw [Run.execute_writeAt_store]
    exact h.read?_write_slot hp hq hne v
  case locateSlot =>
    intro p q a hp hne v
    rw [Run.execute_writeAt_store]
    exact h.locate_write_slot hp hne v
  case assign =>
    intro name a ha
    exact ⟨Store.Laid.exists_slot_of_lookup ha, Run.execute_writeName_of_laid h ha⟩
  case readName => exact fun name other hne v hv => Run.readName_writeName h hne v hv

-- An outer variable is shadowed by one of the same name, which lies behind it.
example :
    let m := (MemoryOp.reach .start "" [.declareNumber .int "x", .pushFrame "f",
      .declareNumber ⟨none, none, some .char, false⟩ "x", .declareFunction "g"]).1
    (m.store.locate ⟨0, "x", none⟩, m.store.locate ⟨1, "x", none⟩, m.store.locate ⟨1, "g", none⟩) =
      (some (.int 1000000), some (.int 1000004), some (.int 1000005)) := by
  decide +kernel

end MiniC
