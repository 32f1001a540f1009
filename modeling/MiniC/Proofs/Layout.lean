import Mathlib.Algebra.Ring.Nat
import Mathlib.Data.List.Perm.Subperm
import MiniC.Proofs.Effects

/-!
# The layout of the store

Blocks lie one behind the other from the start address on, in the order in which they were taken, so
a store is laid out by the list of the sizes of its blocks. `Laid s ns` is the discipline that all
operations on the store keep: the next block starts behind the last one, every address that a name
stands for or that a structure variable keeps for a field is the start of a block and has a cell,
and no two of these addresses are the same.
-/

namespace MiniC

variable {t : CType} {name : String} {a : Scalar} {s : Store} {v : Value} {ns : List Nat} {k : Nat}
  {m : Machine}

structure Block where
  start : Int
  size : Nat
  deriving DecidableEq

namespace Block

def stop (b : Block) : Int := b.start + b.size

def lay (n : Int) : List Nat → List Block
  | [] => []
  | k :: ks => ⟨n, k⟩ :: lay (n + k) ks

theorem lay_append (n : Int) (ks ls : List Nat) :
    lay n (ks ++ ls) = lay n ks ++ lay (n + ks.sum) ls := by
  induction ks generalizing n with
  | nil => simp [lay]
  | cons k ks ih => simp [lay, ih, Int.add_assoc]

theorem mem_lay {n : Int} {ks : List Nat} {b : Block} (hb : b ∈ lay n ks) :
    n ≤ b.start ∧ b.stop ≤ n + ks.sum ∧ b.size ∈ ks := by
  induction ks generalizing n with
  | nil => cases hb
  | cons k ks ih =>
    rw [List.sum_cons]
    obtain rfl | hb := List.mem_cons.1 hb
    · exact ⟨Int.le_refl n, by simp only [stop]; omega, List.mem_cons_self⟩
    · obtain ⟨hstart, hstop, hsize⟩ := ih hb
      exact ⟨by omega, by omega, .tail _ hsize⟩

/-- Blocks that were taken later lie behind the earlier ones. -/
theorem pairwise_lay (n : Int) (ks : List Nat) :
    (lay n ks).Pairwise fun b c => b.stop ≤ c.start := by
  induction ks generalizing n with
  | nil => exact .nil
  | cons k ks ih => exact .cons (fun c hc => (mem_lay hc).1) (ih _)

end Block

def Table.addresses (t : Table Binding) : List Scalar :=
  t.filterMap fun e =>
    match e.2 with
    | .at a => some a
    | .constant _ => none

open List in
/-- A name that is put into a table adds at most its own address. -/
theorem Table.addresses_put (t : Table Binding) (name : String) (b : Binding) :
    addresses (t.put name b) <+~ addresses [(name, b)] ++ addresses t := by
  have hcons (q : String × Binding) (u : Table Binding) :
      addresses (q :: u) = addresses [q] ++ addresses u :=
    List.filterMap_append (l := [q])
  induction t with
  | nil =>
    rw [put, show addresses [] = [] from rfl, List.append_nil]
  | cons p t ih =>
    rw [put, hcons p t]
    split
    · next h =>
      subst h
      rw [hcons (p.1, b), ← List.append_assoc]
      exact ((List.sublist_append_left _ _).append (.refl _)).subperm
    · rw [hcons (p.1, p.2)]
      refine ((subperm_append_left _).2 ih).trans (Perm.subperm ?_)
      rw [← List.append_assoc, ← List.append_assoc]
      exact perm_append_comm.append_right _

theorem Table.mem_addresses {t : Table Binding} (h : t.get? name = some (.at a)) :
    a ∈ t.addresses :=
  List.mem_filterMap.2 ⟨_, mem_of_get? h, rfl⟩

def Value.fields : Value → Table Scalar
  | record t => t
  | _ => []

namespace Store

/-- The live scopes: the global scope, and those of the frames. -/
def scopes (s : Store) : List Scope :=
  s.globals :: s.frames.flatMap (·.scopes)

def addresses (s : Store) : List Scalar :=
  s.scopes.flatMap (·.entries.addresses)

def fieldsAt (s : Store) (a : Scalar) : Table Scalar :=
  (s.read? a).elim [] Value.fields

def blocks (ns : List Nat) : List Block :=
  Block.lay startAddress ns

def topOf (ns : List Nat) : Int :=
  startAddress + ns.sum

/-- The next free address, as long as it is a whole number. -/
def nextAddress (s : Store) : Int :=
  match s.next with
  | .int n => n
  | _ => 0

def Starts (ns : List Nat) (a : Scalar) : Prop :=
  ∃ b ∈ blocks ns, a = .int b.start

def Kept (s : Store) (ns : List Nat) (a : Scalar) : Prop :=
  Starts ns a ∧ (s.read? a).isSome = true

structure Laid (s : Store) (ns : List Nat) : Prop where
  next : s.next = .int (topOf ns)
  size : ∀ n ∈ ns, 0 < n
  bound : ∀ a ∈ s.addresses, s.Kept ns a
  field : ∀ x, ∀ f ∈ s.fieldsAt x, s.Kept ns f.2
  boundApart : s.addresses.Nodup
  fieldsApart : ∀ x y, ∀ f ∈ s.fieldsAt x, ∀ g ∈ s.fieldsAt y, f.2 = g.2 →
    Address.ofScalar x = Address.ofScalar y ∧ f.1 = g.1
  apart : ∀ x, ∀ f ∈ s.fieldsAt x, f.2 ∉ s.addresses

structure Fresh (s : Store) (a : Scalar) : Prop where
  bound : a ∉ s.addresses
  field : ∀ x, ∀ f ∈ s.fieldsAt x, f.2 ≠ a

theorem laid_empty : empty.Laid [] where
  next := rfl
  size := nofun
  bound := nofun
  field x f hf := by simp [fieldsAt, read?, empty] at hf
  boundApart := .nil
  fieldsApart x y f hf := by simp [fieldsAt, read?, empty] at hf
  apart x f hf := by simp [fieldsAt, read?, empty] at hf

/-! ## One cell -/

theorem read?_write (s : Store) (a b : Scalar) (v : Value) :
    (s.write a v).read? b =
      if Address.ofScalar a = Address.ofScalar b then some v else s.read? b := by
  split
  · next h => simpa only [read?, write, h] using read?_write_self s a v
  · next h => exact read?_write_of_ne s v h

theorem fieldsAt_write (s : Store) (a b : Scalar) (v : Value) :
    (s.write a v).fieldsAt b =
      if Address.ofScalar a = Address.ofScalar b then v.fields else s.fieldsAt b := by
  rw [fieldsAt, read?_write, fieldsAt]
  split <;> rfl

theorem mem_fieldsAt_of_write {b : Scalar} (hv : v.fields = []) {f : String × Scalar}
    (hf : f ∈ (s.write a v).fieldsAt b) : f ∈ s.fieldsAt b := by
  rw [fieldsAt_write] at hf
  split at hf
  · rw [hv] at hf
    cases hf
  · exact hf

theorem Kept.write {b : Scalar} (h : s.Kept ns b) (a : Scalar) (v : Value) :
    (s.write a v).Kept ns b := by
  refine ⟨h.1, ?_⟩
  rw [read?_write]
  split
  · rfl
  · exact h.2

theorem Starts.append (h : Starts ns a) (ms : List Nat) : Starts (ns ++ ms) a := by
  obtain ⟨b, hb, rfl⟩ := h
  exact ⟨b, by rw [blocks, Block.lay_append]; exact List.mem_append_left _ hb, rfl⟩

theorem Starts.eq_of_ofScalar {b : Scalar} (ha : Starts ns a) (hb : Starts ns b)
    (h : Address.ofScalar a = Address.ofScalar b) : a = b := by
  obtain ⟨c, -, rfl⟩ := ha
  obtain ⟨d, -, rfl⟩ := hb
  have hstart : c.start = d.start := congrArg Address.number h
  rw [hstart]

theorem starts_topOf (ns : List Nat) (k : Nat) : Starts (ns ++ [k]) (.int (topOf ns)) :=
  ⟨⟨topOf ns, k⟩, by simp [blocks, Block.lay_append, Block.lay, topOf], rfl⟩

namespace Laid

variable {s s' : Store} {ns : List Nat}

theorem nextAddress (h : s.Laid ns) : s.nextAddress = topOf ns := by
  rw [Store.nextAddress, h.next]

theorem lt_topOf (h : s.Laid ns) {n : Int} (hn : Starts ns (.int n)) : n < topOf ns := by
  obtain ⟨b, hb, hstart⟩ := hn
  obtain ⟨-, hstop, hsize⟩ := Block.mem_lay hb
  have hpos := h.size _ hsize
  obtain rfl := Scalar.int.inj hstart
  simp only [Block.stop] at hstop
  simp only [topOf]
  omega

theorem fresh (h : s.Laid ns) : s.Fresh (.int (topOf ns)) where
  bound hmem := Int.lt_irrefl _ (h.lt_topOf (h.bound _ hmem).1)
  field x f hf heq := Int.lt_irrefl _ (h.lt_topOf (heq ▸ (h.field x f hf).1))

theorem take (h : s.Laid ns) (hk : 0 < k) :
    Laid { s with next := .int (topOf ns + k) } (ns ++ [k]) where
  next := by simp [topOf, Int.add_assoc]
  size n hn := by
    obtain hn | hn := List.mem_append.1 hn
    · exact h.size n hn
    · rwa [List.mem_singleton.1 hn]
  bound a ha := ⟨(h.bound a ha).1.append _, (h.bound a ha).2⟩
  field x f hf := ⟨(h.field x f hf).1.append _, (h.field x f hf).2⟩
  boundApart := h.boundApart
  fieldsApart := h.fieldsApart
  apart := h.apart

/-- A cell may be given any value that has no fields. -/
theorem write (h : s.Laid ns) (a : Scalar) (hv : v.fields = []) :
    (s.write a v).Laid ns where
  next := h.next
  size := h.size
  bound b hb := (h.bound b hb).write a v
  field x f hf := (h.field x f (mem_fieldsAt_of_write hv hf)).write a v
  boundApart := h.boundApart
  fieldsApart x y f hf g hg :=
    h.fieldsApart x y f (mem_fieldsAt_of_write hv hf) g (mem_fieldsAt_of_write hv hg)
  apart x f hf := h.apart x f (mem_fieldsAt_of_write hv hf)

open List in
theorem forget (h : s.Laid ns) (hcells : s'.cells = s.cells) (hnext : s'.next = s.next)
    (ha : s'.addresses <+~ s.addresses) : s'.Laid ns := by
  have hread (a : Scalar) : s'.read? a = s.read? a := by rw [read?, hcells, read?]
  have hfields (x : Scalar) : s'.fieldsAt x = s.fieldsAt x := by rw [fieldsAt, hread, fieldsAt]
  have hkept {a : Scalar} (hk : s.Kept ns a) : s'.Kept ns a := ⟨hk.1, by rw [hread]; exact hk.2⟩
  obtain ⟨l, hperm, hsub⟩ := ha
  constructor
  case next => exact hnext.trans h.next
  case size => exact h.size
  case bound => exact fun a hmem => hkept (h.bound a (hsub.subset (hperm.mem_iff.2 hmem)))
  case boundApart => exact hperm.nodup_iff.1 (h.boundApart.sublist hsub)
  all_goals simp only [hfields]
  case field => exact fun x f hf => hkept (h.field x f hf)
  case fieldsApart => exact h.fieldsApart
  case apart => exact fun x f hf hmem => h.apart x f hf (hsub.subset (hperm.mem_iff.2 hmem))

open List in
/-- A name is bound to a fresh block, and its cell is written. -/
theorem declare (h : s.Laid ns) (hstart : Starts ns a) (hfresh : s.Fresh a)
    (hcells : s'.cells = s.cells) (hnext : s'.next = s.next)
    (ha : s'.addresses <+~ a :: s.addresses) (hv : v.fields = []) : (s'.write a v).Laid ns := by
  have hfields {x : Scalar} {f : String × Scalar} (hf : f ∈ (s'.write a v).fieldsAt x) :
      f ∈ s.fieldsAt x := by
    have hf := mem_fieldsAt_of_write hv hf
    rwa [fieldsAt, read?, hcells] at hf
  have hkept {b : Scalar} (hk : s.Kept ns b) : (s'.write a v).Kept ns b :=
    .write ⟨hk.1, by rw [read?, hcells]; exact hk.2⟩ a v
  have hmem {b : Scalar} (hb : b ∈ s'.addresses) : b = a ∨ b ∈ s.addresses :=
    List.mem_cons.1 (ha.subset hb)
  constructor
  case next => exact hnext.trans h.next
  case size => exact h.size
  case bound =>
    intro b hb
    obtain rfl | hb := hmem hb
    · exact ⟨hstart, by rw [read?_write_self]; rfl⟩
    · exact hkept (h.bound b hb)
  case boundApart =>
    obtain ⟨l, hperm, hsub⟩ := ha
    exact hperm.nodup_iff.1 ((List.nodup_cons.2 ⟨hfresh.bound, h.boundApart⟩).sublist hsub)
  case field => exact fun x f hf => hkept (h.field x f (hfields hf))
  case fieldsApart => exact fun x y f hf g hg => h.fieldsApart x y f (hfields hf) g (hfields hg)
  case apart =>
    intro x f hf hb
    obtain heq | hb := hmem hb
    · exact hfresh.field x f (hfields hf) heq
    · exact h.apart x f (hfields hf) hb

/-- A structure variable gets a field in a fresh block, and the cell of the field is written. -/
theorem addField (h : s.Laid ns) (hstart : Starts ns a) (hfresh : s.Fresh a) (x : Scalar)
    (name : String) (hv : v.fields = []) :
    ((s.write x (.record ((s.fieldsAt x).put name a))).write a v).Laid ns := by
  have hfields {y : Scalar} {f : String × Scalar}
      (hf : f ∈ ((s.write x (.record ((s.fieldsAt x).put name a))).write a v).fieldsAt y) :
      f ∈ s.fieldsAt y ∨ (Address.ofScalar x = Address.ofScalar y ∧ f = (name, a)) := by
    have hf := mem_fieldsAt_of_write hv hf
    rw [fieldsAt_write] at hf
    split at hf
    · next hxy =>
      have heq : s.fieldsAt x = s.fieldsAt y := by rw [fieldsAt, read?, hxy]; rfl
      exact (Table.mem_put hf).imp (heq ▸ ·) fun hf => ⟨hxy, hf⟩
    · exact .inl hf
  have hkept {b : Scalar} (hk : s.Kept ns b) :
      ((s.write x (.record ((s.fieldsAt x).put name a))).write a v).Kept ns b :=
    (hk.write x _).write a v
  constructor
  case next => exact h.next
  case size => exact h.size
  case bound => exact fun b hb => hkept (h.bound b hb)
  case boundApart => exact h.boundApart
  case field =>
    intro y f hf
    obtain hf | ⟨-, rfl⟩ := hfields hf
    · exact hkept (h.field y f hf)
    · exact ⟨hstart, by rw [read?_write_self]; rfl⟩
  case fieldsApart =>
    intro y z f hf g hg heq
    obtain hf | ⟨hy, rfl⟩ := hfields hf <;> obtain hg | ⟨hz, rfl⟩ := hfields hg
    · exact h.fieldsApart y z f hf g hg heq
    · exact absurd heq (hfresh.field y f hf)
    · exact absurd heq.symm (hfresh.field z g hg)
    · exact ⟨hy.symm.trans hz, rfl⟩
  case apart =>
    intro y f hf
    obtain hf | ⟨-, rfl⟩ := hfields hf
    · exact h.apart y f hf
    · exact hfresh.bound

end Laid

/-! ## Scopes -/

open List in
/-- Binding a name adds at most the address that it stands for. -/
theorem addresses_bind {s' : Store} {b : Binding} (h : s.bind name b = .ok s') :
    s'.cells = s.cells ∧ s'.next = s.next ∧
      s'.addresses <+~ Table.addresses [(name, b)] ++ s.addresses := by
  obtain ⟨hf, rfl⟩ | ⟨f, fs, c, cs, hf, hc, rfl⟩ := bind_cases h
  · refine ⟨rfl, rfl, ?_⟩
    simp only [addresses, scopes, List.flatMap_cons]
    rw [← List.append_assoc]
    exact (subperm_append_right _).2 (Table.addresses_put _ _ _)
  · refine ⟨rfl, rfl, ?_⟩
    simp only [addresses, scopes, hf, hc, List.flatMap_cons, List.cons_append]
    set g := s.globals.entries.addresses
    set rest := (cs ++ fs.flatMap (·.scopes)).flatMap (·.entries.addresses)
    have hput : g ++ ((c.entries.put name b).addresses ++ rest) <+~
        g ++ ((Table.addresses [(name, b)] ++ c.entries.addresses) ++ rest) :=
      (subperm_append_left _).2 ((subperm_append_right _).2 (Table.addresses_put _ _ _))
    refine hput.trans (Perm.subperm ?_)
    rw [List.append_assoc, ← List.append_assoc g, ← List.append_assoc (Table.addresses _)]
    exact perm_append_comm.append_right _

theorem addresses_popFrame {s' : Store} (h : s.popFrame = .ok s') :
    s'.addresses.Sublist s.addresses := by
  obtain ⟨f, fs, hf, rfl⟩ := popFrame_cases h
  simp only [addresses, scopes, hf, List.flatMap_cons, List.flatMap_append]
  exact .append (.refl _) (List.sublist_append_right _ _)

theorem addresses_pushScope {s' : Store} (h : s.pushScope = .ok s') :
    s'.addresses.Sublist s.addresses := by
  obtain ⟨f, fs, c, cs, hf, hc, rfl⟩ := pushScope_cases h
  simp only [addresses, scopes, hf, hc, List.flatMap_cons, List.cons_append]
  exact .refl _

theorem addresses_popScope {s' : Store} (h : s.popScope = .ok s') :
    s'.addresses.Sublist s.addresses := by
  obtain ⟨f, fs, c, cs, hf, hc, rfl⟩ := popScope_cases h
  simp only [addresses, scopes, hf, hc, List.flatMap_cons, List.cons_append]
  exact .append (.refl _) (List.sublist_append_right _ _)

namespace Laid

variable {s s' : Store} {ns : List Nat}

theorem bindConstant (h : s.Laid ns) {n : Number} (hb : s.bind name (.constant n) = .ok s') :
    s'.Laid ns :=
  have ⟨hcells, hnext, ha⟩ := addresses_bind hb
  h.forget hcells hnext ha

theorem pushFrame (h : s.Laid ns) (name : String) : (s.pushFrame name).Laid ns :=
  h.forget rfl rfl (List.Sublist.refl s.addresses).subperm

theorem popFrame (h : s.Laid ns) (hp : s.popFrame = .ok s') : s'.Laid ns := by
  have ha := addresses_popFrame hp
  obtain ⟨f, fs, -, rfl⟩ := popFrame_cases hp
  exact h.forget rfl rfl ha.subperm

theorem pushScope (h : s.Laid ns) (hp : s.pushScope = .ok s') : s'.Laid ns := by
  have ha := addresses_pushScope hp
  obtain ⟨f, fs, c, cs, -, -, rfl⟩ := pushScope_cases hp
  exact h.forget rfl rfl ha.subperm

theorem popScope (h : s.Laid ns) (hp : s.popScope = .ok s') : s'.Laid ns := by
  have ha := addresses_popScope hp
  obtain ⟨f, fs, c, cs, -, -, rfl⟩ := popScope_cases hp
  exact h.forget rfl rfl ha.subperm

end Laid

theorem mem_scopes_of_scopeOf {c : Scope} (h : s.scopeOf name = .ok c) : c ∈ s.scopes := by
  unfold scopeOf at h
  split at h
  · obtain rfl := Except.ok.inj h
    exact List.mem_cons_self
  · next f fs hf =>
    split at h
    · next c' hc =>
      obtain rfl := Except.ok.inj h
      refine .tail _ (List.mem_flatMap.2 ⟨f, ?_, List.mem_of_find?_eq_some hc⟩)
      rw [hf]
      exact List.mem_cons_self
    · split at h
      · obtain rfl := Except.ok.inj h
        exact List.mem_cons_self
      · cases h

theorem lookup_cases {b : Binding} (h : s.lookup name = .ok b) :
    ∃ c, s.scopeOf name = .ok c ∧ c.entries.get? name = some b := by
  unfold lookup at h
  cases hc : s.scopeOf name with
  | error e =>
    rw [hc] at h
    cases h
  | ok c =>
    rw [hc] at h
    change (c.entries.get? name).elim _ _ = _ at h
    cases hb : c.entries.get? name with
    | none =>
      rw [hb] at h
      cases h
    | some b' =>
      rw [hb] at h
      obtain rfl := Except.ok.inj h
      exact ⟨c, rfl, hb⟩

theorem mem_addresses_of_lookup (h : s.lookup name = .ok (.at a)) : a ∈ s.addresses := by
  obtain ⟨c, hc, ha⟩ := lookup_cases h
  exact List.mem_flatMap.2 ⟨c, mem_scopes_of_scopeOf hc, Table.mem_addresses ha⟩

theorem lookup_bind {s' : Store} {b : Binding} (h : s.bind name b = .ok s') :
    s'.lookup name = .ok b := by
  have hget (t : Table Binding) : (t.put name b).get? name = some b := t.get?_put_self name b
  obtain ⟨hf, rfl⟩ | ⟨f, fs, c, cs, hf, -, rfl⟩ := bind_cases h
  · simp only [lookup, scopeOf, hf]
    change ((s.globals.entries.put name b).get? name).elim _ _ = _
    rw [hget]
    rfl
  · simp only [lookup, scopeOf, Table.has, List.find?_cons, hget]
    change ((c.entries.put name b).get? name).elim _ _ = _
    rw [hget]
    rfl

end Store

theorem CType.size_eq (h : t.size? = some k) : t.size = .ok k := by
  rw [CType.size, h]
  rfl

theorem CType.size?_eq (h : t.size = .ok k) : t.size? = some k := by
  unfold CType.size at h
  cases hs : t.size? with
  | none => simp [hs] at h
  | some k' => simpa [hs] using h

/-- A number of a type that has a size can always be drawn. -/
theorem Number.make_nothing (h : t.size = .ok k) (r : Random) :
    ∃ n r', Number.make t .nothing r = .ok (n, r') := by
  have hl : t.limits = .ok (CType.limitsOf k t.isUnsigned) := by
    rw [CType.limits, CType.limits?, CType.size?_eq h]
    rfl
  have hdraw : ∃ v r', t.draw r = .ok (v, r') ∧ t.convert v.toScalar = .ok v := by
    simp only [CType.draw, hl, CType.convert]
    by_cases hr : t.isReal = true
    · simp only [hr]
      exact ⟨_, _, rfl, rfl⟩
    · simp only [hr]
      exact ⟨_, _, rfl, rfl⟩
  obtain ⟨v, r', hdraw, hconvert⟩ := hdraw
  have hmake := Number.ofScalar_eq hconvert hl
  simp only [Number.make, Number.draw, hdraw]
  change ∃ n r'', (do return (← Number.ofScalar t v.toScalar, r')) = Except.ok (n, r'')
  rw [hmake]
  exact ⟨_, _, rfl⟩

theorem CType.size_pos (h : t.size = .ok k) : 0 < k := by
  have := CType.size?_cases (CType.size?_eq h)
  omega

namespace Run

theorem fieldSize_pos {t : VarType} (h : fieldSize t = .ok k) : 0 < k := by
  cases t with
  | number t => exact CType.size_pos h
  | struct t =>
    obtain rfl := Except.ok.inj h
    unfold StructType.size
    split <;> decide

variable {α β : Type}

def Stays (p : Run α) : Prop :=
  ∀ ns, p.Preserves (Store.Laid · ns) fun _ => True

def Lays (p : Run α) (sizes : Machine → List Nat) : Prop :=
  ∀ (m : Machine) (ns : List Nat), m.store.Laid ns →
    (p.execute m).2.store.Laid (ns ++ sizes m)

theorem Stays.toLays {p : Run α} (hp : Stays p) : Lays p fun _ => [] := by
  intro m ns hm
  rw [List.append_nil]
  exact (hp ns m hm).1

theorem changeStore_stays {g : Store → Except Fault Store}
    (hg : ∀ {s s' ns}, s.Laid ns → g s = .ok s' → s'.Laid ns) : Stays (changeStore g) :=
  fun _ => .changeStore fun _ _ => hg

theorem write_stays (a : Scalar) (hv : v.fields = []) :
    Stays (do setStore ((← getStore).write a v)) :=
  fun _ _ hm => ⟨hm.write a hv, fun _ _ => trivial⟩

theorem execute_writeAt_store (a : Scalar) (v : Value) (m : Machine) :
    ((writeAt a v).execute m).2.store = m.store.write a v := by
  simp only [writeAt, execute_bind, execute_getStore, execute_setStore]
  split <;> rfl

theorem writeAt_stays (a : Scalar) (hv : v.fields = []) : Stays (writeAt a v) := by
  intro ns
  unfold writeAt
  rw [← bind_assoc]
  refine .after (write_stays a hv ns) fun _ => ?_
  split
  · exact .throw _
  · exact .pure trivial

theorem readAt_stays (a : Scalar) : Stays (readAt a) := by
  intro ns
  refine .after (.ofStore fun _ => rfl) fun s => ?_
  split
  · exact .pure trivial
  · refine .after (.makeNumber _ _) fun n => ?_
    rw [← bind_assoc]
    exact .after (write_stays a rfl ns) fun _ => .pure trivial

theorem readName_stays (name : String) : Stays (readName name) := by
  intro ns
  refine .after (.lookup name) fun b => ?_
  split
  · exact .pure trivial
  · exact .after (.ofExcept fun _ _ => trivial) fun a => readAt_stays a ns

theorem writeName_stays (name : String) (hv : v.fields = []) : Stays (writeName name v) := by
  intro ns
  refine .after (.lookup name) fun b => ?_
  split
  · exact .throw _
  · exact .after (.ofExcept fun _ _ => trivial) fun a => writeAt_stays a hv ns

theorem declareConstant_stays (name : String) (s : Scalar) : Stays (declareConstant name s) :=
  fun ns => .after (.makeNumber _ s) fun _ => changeStore_stays (fun h => h.bindConstant) ns

/-! ## Declarations -/

theorem execute_allocate {n : Int} (h : m.store.next = .int n) (k : Nat) :
    (allocate (.int k)).execute m =
      (.ok (.int n), { m with store := { m.store with next := .int (n + k) } }) := by
  simp only [allocate, execute_bind, execute_getStore, execute_ofExcept, h]
  rfl

/-- A declaration takes its block in any case, and binds the name unless the current frame has lost
all its scopes. -/
theorem execute_declare_of_next {n : Int} (h : m.store.next = .int n) (name : String) (k : Nat)
    (v : Value) :
    (declare name k v).execute m =
      match Store.bind { m.store with next := .int (n + k) } name (.at (.int n)) with
      | .ok s => (.ok (), { m with store := s.write (.int n) v })
      | .error e => (.error e, { m with store := { m.store with next := .int (n + k) } }) := by
  simp only [declare, execute_bind, execute_allocate h, execute_changeStore]
  cases Store.bind { m.store with next := .int (n + k) } name (.at (.int n)) <;> rfl

theorem execute_declare (h : m.store.Laid ns) (name : String) (k : Nat) (v : Value) :
    (declare name k v).execute m =
      match Store.bind { m.store with next := .int (Store.topOf ns + k) } name
        (.at (.int (Store.topOf ns))) with
      | .ok s => (.ok (), { m with store := s.write (.int (Store.topOf ns)) v })
      | .error e =>
        (.error e, { m with store := { m.store with next := .int (Store.topOf ns + k) } }) :=
  execute_declare_of_next h.next name k v

theorem declare_lays (name : String) (hk : 0 < k) (hv : v.fields = []) :
    Lays (declare name k v) fun _ => [k] := by
  intro m ns h
  have htake := h.take hk
  rw [execute_declare h]
  split
  · next s hb =>
    obtain ⟨hcells, hnext, ha⟩ := Store.addresses_bind hb
    exact htake.declare (Store.starts_topOf ns k) ⟨h.fresh.bound, h.fresh.field⟩ hcells hnext ha hv
  · exact htake

/-- A name that was declared stands for the block that was taken, with the first value in it. -/
theorem declare_binds_of_next {m' : Machine} {n : Int} (h : m.store.next = .int n) {u : Unit}
    (hrun : (declare name k v).execute m = (.ok u, m')) :
    m'.store.lookup name = .ok (.at (.int n)) ∧ m'.store.read? (.int n) = some v := by
  rw [execute_declare_of_next h] at hrun
  split at hrun
  · next s hb =>
    have hlookup : s.lookup name = _ := Store.lookup_bind hb
    obtain rfl := (Prod.mk.inj hrun).2
    exact ⟨hlookup, Store.read?_write_self _ _ _⟩
  · cases hrun

theorem declare_binds {m' : Machine} (h : m.store.Laid ns) {u : Unit}
    (hrun : (declare name k v).execute m = (.ok u, m')) :
    m'.store.lookup name = .ok (.at (.int (Store.topOf ns))) ∧
      m'.store.read? (.int (Store.topOf ns)) = some v :=
  declare_binds_of_next h.next hrun

theorem execute_makeNumber (h : t.size = .ok k) (m : Machine) :
    ∃ n r, (makeNumber t .nothing).execute m = (.ok n, { m with random := r }) := by
  obtain ⟨n, r, hmake⟩ := Number.make_nothing h m.random
  refine ⟨n, r, ?_⟩
  simp only [makeNumber, execute_bind, execute_get, execute_ofExcept, hmake]
  rfl

/-- A number of a type that has a size is declared with a value drawn at random. -/
theorem execute_declareNumber (h : t.size = .ok k) (name : String) (m : Machine) :
    ∃ n r, (declareNumber t name).execute m =
      (declare name k (.number n)).execute { m with random := r } := by
  obtain ⟨n, r, hmake⟩ := execute_makeNumber h m
  refine ⟨n, r, ?_⟩
  simp only [declareNumber, execute_bind, execute_ofExcept, h, hmake]

theorem declareNumber_lays (t : CType) (name : String) :
    Lays (declareNumber t name) fun _ => t.size?.toList := by
  intro m ns hm
  cases hs : t.size? with
  | none =>
    have hsize : t.size = .error (.sizeless t) := by rw [CType.size, hs]; rfl
    simp only [declareNumber, execute_bind, execute_ofExcept, hsize, Option.toList_none,
      List.append_nil]
    exact hm
  | some k =>
    have hsize := CType.size_eq hs
    obtain ⟨n, r, hrun⟩ := execute_declareNumber hsize name m
    rw [hrun]
    exact declare_lays name (CType.size_pos hsize) rfl _ ns hm

/-! ## Structure variables -/

/-- The sizes of the fields in front of the first one that has none. -/
def fieldSizes : Table VarType → List Nat
  | [] => []
  | f :: fs =>
    match fieldSize f.2 with
    | .ok k => k :: fieldSizes fs
    | .error _ => []

def fieldPlaces (n : Int) (fields : Table VarType) : List (String × Scalar) :=
  (fields.map Prod.fst).zip ((Block.lay n (fieldSizes fields)).map (.int ·.start))

structure Owns (s : Store) (name : String) (x : Int) (t : Table Scalar) : Prop where
  lookup : s.lookup name = .ok (.at (.int x))
  read : s.read? (.int x) = some (.record t)

theorem execute_readName {x : Int} (hl : m.store.lookup name = .ok (.at (.int x)))
    (hr : m.store.read? (.int x) = some v) : (readName name).execute m = (.ok v, m) := by
  simp only [readName, lookup, execute_bind, execute_getStore, execute_ofExcept, hl, addressOf,
    readAt, hr, execute_pure]

theorem execute_declareField (h : m.store.Laid ns) {x : Int} {t : Table Scalar}
    (ho : Owns m.store name x t) (field : String) {ty : VarType} (hk : fieldSize ty = .ok k) :
    ∃ n r, (declareField name field ty).execute m =
      (.ok (), { m with
        random := r
        store := (Store.write { m.store with next := .int (Store.topOf ns + k) } (.int x)
          (.record (t.put field (.int (Store.topOf ns))))).write (.int (Store.topOf ns))
            (.number n) }) := by
  have hsize : ∃ k, (fieldType ty).size = .ok k := by
    cases ty with
    | number t => exact ⟨k, hk⟩
    | struct t => exact ⟨4, rfl⟩
  obtain ⟨k', hsize⟩ := hsize
  set s' : Store := { m.store with next := .int (Store.topOf ns + k) } with hs'
  set s'' := s'.write (.int x) (.record (t.put field (.int (Store.topOf ns)))) with hs''
  obtain ⟨n, r, hmake⟩ := execute_makeNumber hsize { m with store := s'' }
  refine ⟨n, r, ?_⟩
  have hread : (readName name).execute { m with store := s' } =
      (.ok (.record t), { m with store := s' }) :=
    execute_readName ho.lookup ho.read
  have hlookup : s'.lookup name = .ok (.at (.int x)) := ho.lookup
  simp only [declareField, execute_bind, execute_ofExcept, hk, execute_allocate h.next, ← hs',
    hread, lookup, execute_getStore, hlookup, addressOf, execute_setStore, ← hs'', hmake]

theorem declareField_owns (h : m.store.Laid ns) {x : Int} {t : Table Scalar}
    (ho : Owns m.store name x t) (field : String) {ty : VarType} (hk : fieldSize ty = .ok k) :
    ∃ m', (declareField name field ty).execute m = (.ok (), m') ∧ m'.store.Laid (ns ++ [k]) ∧
      Owns m'.store name x (t.put field (.int (Store.topOf ns))) := by
  obtain ⟨n, r, hrun⟩ := execute_declareField h ho field hk
  refine ⟨_, hrun, ?_, ?_, ?_⟩
  · have hfields : m.store.fieldsAt (.int x) = t := by rw [Store.fieldsAt, ho.read]; rfl
    have hlaid := (h.take (fieldSize_pos hk)).addField (Store.starts_topOf ns k)
      ⟨h.fresh.bound, h.fresh.field⟩ (.int x) field (v := .number n) rfl
    rw [← hfields]
    exact hlaid
  · exact ho.lookup
  · have hlt := h.lt_topOf (h.bound _ (Store.mem_addresses_of_lookup ho.lookup)).1
    have hne : Address.ofScalar (.int (Store.topOf ns)) ≠ Address.ofScalar (.int x) := by
      intro heq
      have hx : Store.topOf ns = x := congrArg Address.number heq
      omega
    rw [Store.read?_write_of_ne _ _ hne, Store.read?_write_self]

/-- Each field gets its own block, up to the first one of a type without a size. -/
theorem declareFields_owns {x : Int} (fields : Table VarType) {t : Table Scalar}
    (h : m.store.Laid ns) (ho : Owns m.store name x t) :
    let m' := ((fields.forM fun f => declareField name f.1 f.2).execute m).2
    m'.store.Laid (ns ++ fieldSizes fields) ∧
      Owns m'.store name x
        ((fieldPlaces (Store.topOf ns) fields).foldl (fun t p => t.put p.1 p.2) t) := by
  induction fields generalizing m ns t with
  | nil =>
    rw [fieldSizes, List.append_nil]
    exact ⟨h, ho⟩
  | cons f fields ih =>
    have hcons : ((f :: fields).forM fun f => declareField name f.1 f.2) =
        declareField name f.1 f.2 >>= fun _ => fields.forM fun f => declareField name f.1 f.2 :=
      rfl
    simp only [hcons, execute_bind, fieldPlaces, fieldSizes]
    cases hk : fieldSize f.2 with
    | error e =>
      have hrun : (declareField name f.1 f.2).execute m = (.error e, m) := by
        simp only [declareField, execute_bind, execute_ofExcept, hk]
      rw [hrun, List.append_nil]
      exact ⟨h, ho⟩
    | ok k =>
      obtain ⟨m', hrun, hlaid, hown⟩ := declareField_owns h ho f.1 hk
      rw [hrun]
      have htop : Store.topOf (ns ++ [k]) = Store.topOf ns + k := by
        simp [Store.topOf, Int.add_assoc]
      have ih := ih hlaid hown
      rw [htop, List.append_assoc] at ih
      exact ih

/-- The fields of the structure for which the tag stands once the variable is bound. -/
def structFields (t : StructType) (name : String) (m : Machine) : Table VarType :=
  match ((do declare name structSize (.record []); readName t.name : Run Value).execute m).1 with
  | .ok (.structDef _ fields) => fields
  | _ => []

/-- The sizes of the blocks that a structure variable takes: its own and those of its fields. -/
def structSizes (t : StructType) (name : String) (m : Machine) : List Nat :=
  if t.pointer then [4] else structSize :: fieldSizes (structFields t name m)

/-- Reading creates a cell only where it gives a number. -/
theorem readAt_same {m' : Machine} (h : (readAt a).execute m = (.ok v, m'))
    (hv : v.number? = none) : m' = m := by
  simp only [readAt, execute_bind, execute_getStore] at h
  cases hr : m.store.read? a with
  | some w =>
    simp only [hr] at h
    exact (Prod.mk.inj h).2.symm
  | none =>
    simp only [hr] at h
    obtain ⟨n, m₁, -, h⟩ := execute_bind_ok h
    obtain rfl := Except.ok.inj (Prod.mk.inj h).1
    cases hv

theorem readName_same {m' : Machine} (h : (readName name).execute m = (.ok v, m'))
    (hv : v.number? = none) : m' = m := by
  obtain ⟨b, m₁, hb, hrest⟩ := execute_bind_ok h
  have hm₁ : m₁ = m := by
    simp only [lookup, execute_bind, execute_getStore, execute_ofExcept] at hb
    exact (Prod.mk.inj hb).2.symm
  subst hm₁
  split at hrest
  · obtain rfl := Except.ok.inj (Prod.mk.inj hrest).1
    cases hv
  · obtain ⟨a, m₂, ha, hrest⟩ := execute_bind_ok hrest
    rw [execute_ofExcept] at ha
    obtain rfl := (Prod.mk.inj ha).2
    exact readAt_same hrest hv

/-- A structure variable takes its own block and those of its fields, and has the fields in them. -/
theorem declareStructVar_owns {t : StructType} (ht : t.pointer = false) (name : String)
    (h : m.store.Laid ns) : let r := (declareStructVar t name).execute m
    r.2.store.Laid (ns ++ structSizes t name m) ∧
      ∀ u, r.1 = .ok u → Owns r.2.store name (Store.topOf ns)
        (Table.ofList (fieldPlaces (Store.topOf ns + structSize) (structFields t name m))) := by
  have hdeclare := declare_lays name (show 0 < structSize by decide) (v := .record []) rfl m ns h
  simp only [declareStructVar, structSizes, structFields, ht, Bool.false_eq_true, if_false,
    execute_bind]
  cases hrun : (declare name structSize (.record [])).execute m with
  | mk r m₁ =>
    rw [hrun] at hdeclare
    cases r with
    | error e => exact ⟨hdeclare, nofun⟩
    | ok u =>
      have hown : Owns m₁.store name (Store.topOf ns) [] :=
        ⟨(declare_binds h hrun).1, (declare_binds h hrun).2⟩
      have hread := (readName_stays t.name _ m₁ hdeclare).1
      simp only
      cases hrun' : (readName t.name).execute m₁ with
      | mk r m₂ =>
        rw [hrun'] at hread
        cases r with
        | error e => exact ⟨hread, nofun⟩
        | ok v =>
          cases v with
          | structDef tag fields =>
            obtain rfl := readName_same hrun' rfl
            have htop : Store.topOf (ns ++ [structSize]) = Store.topOf ns + structSize := by
              simp [Store.topOf, Int.add_assoc]
            obtain ⟨hlaid, howns⟩ := declareFields_owns fields hdeclare hown
            rw [List.append_assoc] at hlaid
            rw [htop] at howns
            exact ⟨hlaid, fun _ _ => howns⟩
          | _ => exact ⟨hread, nofun⟩

theorem declareStructVar_lays (t : StructType) (name : String) :
    Lays (declareStructVar t name) (structSizes t name) := by
  intro m ns h
  cases ht : t.pointer with
  | true =>
    simp only [declareStructVar, structSizes, ht, if_true]
    exact declareNumber_lays .int name m ns h
  | false => exact (declareStructVar_owns ht name h).1

end Run

end MiniC
