import MiniC.Proofs.Guarded
import MiniC.Proofs.ResultTypes

/-!
# Cells keep the types of their numbers

Blocks are taken one behind the other, so a block that has been taken is never taken again, and only
a block that was allocated on demand can be released. `Onward f s s'` says that the store has gone
on in this way from `s` to `s'`, and that the cells of the blocks that are there for good still hold
values with the same `f`. Reading and declaring keep the values themselves; assignments and steps
keep the types of the numbers. The library functions do so too, if the blocks that are allocated
have a size and nothing is read from the input as a number of another type.
-/

namespace MiniC

variable {v : Value} {n : Int} {name : String} {m m' : Machine}

def Value.type? (v : Value) : Option CType :=
  v.number?.map Number.ctype

namespace Store

variable {β : Type} {f : Value → β} {s s' s'' : Store}

/-- From one store to another, blocks were only taken behind those that are there, also those for
which names stand, and the cells of the blocks that cannot be released hold values with the same
`f`. -/
def Onward (f : Value → β) (s s' : Store) : Prop :=
  ∀ n : Int, s.next = .int n → ∃ k : Nat, s'.next = .int (n + k) ∧
    (∀ c ∈ s'.dynamic, c ∈ s.dynamic ∨ ∃ j, n ≤ j ∧ j < n + k ∧ c = Address.whole j) ∧
    (∀ a ∈ s'.addresses, a ∈ s.addresses ∨ ∃ j, n ≤ j ∧ j < n + k ∧ a = .int j) ∧
    ∀ a < n, Address.whole a ∉ s.dynamic → ∀ v, s.read? (.int a) = some v →
      ∃ w, s'.read? (.int a) = some w ∧ f w = f v

theorem Onward.trans (h : s.Onward f s') (h' : s'.Onward f s'') : s.Onward f s'' := by
  intro n hn
  obtain ⟨k, hnext, hdynamic, hbound, hcells⟩ := h n hn
  obtain ⟨k', hnext', hdynamic', hbound', hcells'⟩ := h' _ hnext
  refine ⟨k + k', ?_, fun c hc => ?_, fun a ha => ?_, fun a ha hfixed v hv => ?_⟩
  · rw [hnext']
    congr 1
    omega
  · obtain hc | ⟨j, hj, hj', rfl⟩ := hdynamic' c hc
    · obtain hc | ⟨j, hj, hj', rfl⟩ := hdynamic c hc
      · exact .inl hc
      · exact .inr ⟨j, hj, by omega, rfl⟩
    · exact .inr ⟨j, by omega, by omega, rfl⟩
  · obtain ha | ⟨j, hj, hj', rfl⟩ := hbound' a ha
    · obtain ha | ⟨j, hj, hj', rfl⟩ := hbound a ha
      · exact .inl ha
      · exact .inr ⟨j, hj, by omega, rfl⟩
    · exact .inr ⟨j, by omega, by omega, rfl⟩
  · have hfixed' : Address.whole a ∉ s'.dynamic := by
      intro hin
      obtain hin | ⟨j, hj, -, heq⟩ := hdynamic _ hin
      · exact hfixed hin
      · have haj : a = j := congrArg Address.number heq
        omega
    obtain ⟨w, hw, hvw⟩ := hcells a ha hfixed v hv
    obtain ⟨x, hx, hwx⟩ := hcells' a (by omega) hfixed' w hw
    exact ⟨x, hx, hwx.trans hvw⟩

/-- The cells below the next block are the same, and nothing is released. -/
theorem onward_of_same (h : ∀ n, s.next = .int n → ∃ k : Nat, s'.next = .int (n + k) ∧
    s'.dynamic = s.dynamic ∧
    (∀ a ∈ s'.addresses, a ∈ s.addresses ∨ ∃ j, n ≤ j ∧ j < n + k ∧ a = .int j) ∧
    ∀ a < n, s'.read? (.int a) = s.read? (.int a)) : s.Onward f s' := by
  intro n hn
  obtain ⟨k, hnext, hdynamic, hbound, hcells⟩ := h n hn
  refine ⟨k, hnext, fun c hc => .inl (hdynamic ▸ hc), hbound, fun a ha _ v hv => ⟨v, ?_, rfl⟩⟩
  rw [hcells a ha, hv]

theorem onward_of_cells (hnext : s'.next = s.next) (hdynamic : s'.dynamic = s.dynamic)
    (hcells : s'.cells = s.cells) (hbound : s'.addresses ⊆ s.addresses) : s.Onward f s' := by
  apply onward_of_same
  intro n hn
  refine ⟨0, ?_, hdynamic, fun a ha => .inl (hbound ha), fun a _ => ?_⟩
  · rw [hnext, hn, Int.natCast_zero, Int.add_zero]
  · rw [read?, hcells]
    rfl

theorem Onward.refl (f : Value → β) (s : Store) : s.Onward f s :=
  onward_of_cells rfl rfl rfl (List.Subset.refl _)

/-- A cell may be written that is missing, or whose value has the same `f`. -/
theorem onward_write {b : Scalar} (h : ∀ w, s.read? b = some w → f v = f w) :
    s.Onward f (s.write b v) := by
  intro n hn
  refine ⟨0, ?_, fun c hc => .inl hc, fun a ha => .inl ha, fun a _ _ w hw => ?_⟩
  · rw [Int.natCast_zero, Int.add_zero]
    exact hn
  · by_cases hab : Address.ofScalar b = Address.ofScalar (.int a)
    · rw [← read?_congr _ hab] at hw
      refine ⟨v, ?_, h w hw⟩
      rw [← read?_congr _ hab]
      exact read?_write_self s b v
    · exact ⟨w, (read?_write_of_ne s v hab).trans hw, rfl⟩

theorem Onward.write_above (h : s.Onward f s') {a : Int} (hn : s.next = .int n) (ha : n ≤ a)
    (v : Value) : s.Onward f (s'.write (.int a) v) := by
  intro n' hn'
  obtain rfl : n = n' := Scalar.int.inj (hn.symm.trans hn')
  obtain ⟨k, hnext, hdynamic, hbound, hcells⟩ := h n hn
  refine ⟨k, hnext, hdynamic, hbound, fun b hb hfixed w hw => ?_⟩
  obtain ⟨x, hx, hwx⟩ := hcells b hb hfixed w hw
  refine ⟨x, ?_, hwx⟩
  rw [read?_write_of_ne _ _ fun heq => ?_, hx]
  have hab : a = b := congrArg Address.number heq
  omega

theorem bind_same {b : Binding} (h : s.bind name b = .ok s') :
    s'.next = s.next ∧ s'.dynamic = s.dynamic ∧ s'.cells = s.cells := by
  obtain ⟨-, rfl⟩ | ⟨_, _, _, _, -, -, rfl⟩ := bind_cases h
  · exact ⟨rfl, rfl, rfl⟩
  · exact ⟨rfl, rfl, rfl⟩

end Store

/-! ## Reading and declaring -/

namespace Run

variable {β : Type} {f : Value → β} {s₀ : Store} {α : Type} {Q : α → Prop}

theorem Preserves.onward {p : Run α} (h : ∀ m : Machine, m.store.Onward f (p.execute m).2.store)
    (hQ : ∀ m a, (p.execute m).1 = .ok a → Q a) : Preserves (s₀.Onward f) Q p :=
  fun m hm => ⟨hm.trans (h m), hQ m⟩

theorem changeStore_onward {g : Store → Except Fault Store}
    (hg : ∀ s s', g s = .ok s' → s'.next = s.next ∧ s'.dynamic = s.dynamic ∧
      s'.cells = s.cells ∧ s'.addresses ⊆ s.addresses) :
    Preserves (s₀.Onward f) (fun _ => True) (changeStore g) := by
  refine .changeStore fun s s' hs h => ?_
  obtain ⟨hnext, hdynamic, hcells, hbound⟩ := hg s s' h
  exact hs.trans (Store.onward_of_cells hnext hdynamic hcells hbound)

/-- Reading a cell gives its value, which is there from then on. -/
theorem readAt_ok {a : Scalar} (h : (readAt a).execute m = (.ok v, m')) :
    m'.store.read? a = some v := by
  simp only [readAt, execute_bind, execute_getStore] at h
  cases hr : m.store.read? a with
  | some w =>
    simp only [hr, execute_pure] at h
    obtain ⟨hv, rfl⟩ := Prod.mk.inj h
    rw [hr, Except.ok.inj hv]
  | none =>
    simp only [hr] at h
    obtain ⟨n, m₁, -, h⟩ := execute_bind_ok h
    simp only [execute_bind, execute_getStore, execute_setStore, execute_pure] at h
    obtain ⟨hv, rfl⟩ := Prod.mk.inj h
    rw [← Except.ok.inj hv]
    exact Store.read?_write_self _ _ _

theorem readAt_onward (a : Scalar) : Preserves (s₀.Onward f) (fun _ => True) (readAt a) := by
  refine .onward (fun m => ?_) fun _ _ _ => trivial
  simp only [readAt, execute_bind, execute_getStore]
  cases hr : m.store.read? a with
  | some v => exact .refl f _
  | none =>
    obtain ⟨n, r, hn⟩ := execute_makeNumber (show CType.int.size = .ok 4 from rfl) m
    simp only [execute_bind, hn, execute_getStore, execute_setStore, execute_pure]
    apply Store.onward_write
    intro w hw
    rw [hr] at hw
    cases hw

def onwards (s₀ : Store) (f : Value → β) : Reading where
  toEffect := preserving (s₀.Onward f) (fun _ => True) (fun _ => trivial) (fun _ => trivial)
    fun _ => trivial
  readAt := readAt_onward

/-- The store behind a declaration: the block has been taken, a name stands at most for its address
anew, and its cell is the only one that has been written. -/
structure Declared (s : Store) (n : Int) (k : Nat) (s' : Store) : Prop where
  next : s'.next = .int (n + k)
  dynamic : s'.dynamic = s.dynamic
  bound : ∀ a ∈ s'.addresses, a ∈ s.addresses ∨ a = .int n
  cells : ∀ b, Address.ofScalar b ≠ Address.whole n → s'.read? b = s.read? b

theorem Declared.onward {s s' : Store}
    (h : ∀ n, s.next = .int n → ∃ k, 0 < k ∧ Declared s n k s') : s.Onward f s' := by
  apply Store.onward_of_same
  intro n hn
  obtain ⟨k, hk, hnext, hdynamic, hbound, hcells⟩ := h n hn
  refine ⟨k, hnext, hdynamic, fun a ha => ?_, fun a ha => hcells _ fun heq => ?_⟩
  · refine (hbound a ha).imp_right ?_
    rintro rfl
    exact ⟨n, Int.le_refl n, by omega, rfl⟩
  · have han : a = n := congrArg Address.number heq
    omega

theorem Declared.write {s s' : Store} {k : Nat} (h : Declared s n k s') (v : Value) :
    Declared s n k (s'.write (.int n) v) := by
  refine ⟨h.next, h.dynamic, h.bound, fun b hb => ?_⟩
  rw [Store.read?_write_of_ne _ _ (Ne.symm hb)]
  exact h.cells b hb

theorem declare_declared (h : m.store.next = .int n) (name : String) (k : Nat) (v : Value) :
    Declared m.store n k ((declare name k v).execute m).2.store := by
  rw [execute_declare_of_next h]
  split
  · next s hb =>
    obtain ⟨hnext, hdynamic, hcells⟩ := Store.bind_same hb
    apply Declared.write
    refine ⟨hnext, hdynamic, fun a ha => ?_, fun b _ => ?_⟩
    · obtain rfl | ha := List.mem_cons.1 ((Store.addresses_bind hb).2.2.subset ha)
      · exact .inr rfl
      · exact .inl ha
    · rw [Store.read?, hcells]
      rfl
  · exact ⟨rfl, rfl, fun _ ha => .inl ha, fun _ _ => rfl⟩

theorem declare_onward (name : String) {k : Nat} (hk : 0 < k) (v : Value) :
    Preserves (s₀.Onward f) (fun _ => True) (declare name k v) :=
  .onward (fun _ => Declared.onward fun _ hn => ⟨k, hk, declare_declared hn name k v⟩)
    fun _ _ _ => trivial

theorem size_preserves {I : Store → Prop} (t : CType) :
    Preserves I (fun k => 0 < k) (ofExcept t.size) :=
  .ofExcept fun _ => CType.size_pos

theorem declareNumber_onward (t : CType) (name : String) :
    Preserves (s₀.Onward f) (fun _ => True) (declareNumber t name) :=
  .bind (size_preserves t) fun _ hk => .after (.makeNumber t _) fun n =>
    declare_onward name hk (.number n)

theorem execute_writeName (h : m.store.lookup name = .ok (.at (.int n))) (w : Value) :
    (writeName name w).execute m = (writeAt (.int n) w).execute m := by
  simp only [writeName, lookup, execute_bind, execute_getStore, execute_ofExcept, h, addressOf]

theorem declare_writeName_declared (h : m.store.next = .int n) (name : String) (k : Nat)
    (v w : Value) :
    Declared m.store n k
      ((do declare name k v; writeName name w : Run Unit).execute m).2.store := by
  have hdeclared := declare_declared h name k v
  rw [execute_bind]
  cases hrun : (declare name k v).execute m with
  | mk r m₁ =>
    rw [hrun] at hdeclared
    cases r with
    | error e => exact hdeclared
    | ok u =>
      obtain ⟨hlookup, -⟩ := declare_binds_of_next h hrun
      dsimp only
      rw [execute_writeName hlookup, execute_writeAt_store]
      exact hdeclared.write w

theorem declare_writeName_onward (name : String) {k : Nat} (hk : 0 < k) (v w : Value) :
    Preserves (s₀.Onward f) (fun _ => True) (do declare name k v; writeName name w) :=
  .onward (fun _ => Declared.onward fun _ hn => ⟨k, hk, declare_writeName_declared hn name k v w⟩)
    fun _ _ _ => trivial

theorem declareNumber_writeName_onward (t : CType) (name : String) (w : Value) :
    Preserves (s₀.Onward f) (fun _ => True) (do declareNumber t name; writeName name w) := by
  simp only [declareNumber, bind_assoc]
  refine .bind (size_preserves t) fun k hk => .after (.makeNumber t _) fun n => ?_
  exact declare_writeName_onward name hk (.number n) w

theorem declareConstant_onward (name : String) (c : Scalar) :
    Preserves (s₀.Onward f) (fun _ => True) (declareConstant name c) :=
  .after (.makeNumber _ c) fun _ => changeStore_onward fun _ _ h => by
    obtain ⟨hnext, hdynamic, hcells⟩ := Store.bind_same h
    exact ⟨hnext, hdynamic, hcells, (Store.addresses_bind h).2.2.subset⟩

theorem pushFrame_onward (name : String) :
    Preserves (s₀.Onward f) (fun _ => True) (changeStore fun s => .ok (s.pushFrame name)) := by
  apply changeStore_onward
  intro s s' h
  obtain rfl := Except.ok.inj h
  exact ⟨rfl, rfl, rfl, List.Subset.refl s.addresses⟩

theorem popFrame_onward :
    Preserves (s₀.Onward f) (fun _ => True) (changeStore Store.popFrame) := by
  apply changeStore_onward
  intro s s' h
  have hbound := (Store.addresses_popFrame h).subset
  obtain ⟨_, _, -, rfl⟩ := Store.popFrame_cases h
  exact ⟨rfl, rfl, rfl, hbound⟩

theorem pushScope_onward :
    Preserves (s₀.Onward f) (fun _ => True) (changeStore Store.pushScope) := by
  apply changeStore_onward
  intro s s' h
  have hbound := (Store.addresses_pushScope h).subset
  obtain ⟨_, _, _, _, -, -, rfl⟩ := Store.pushScope_cases h
  exact ⟨rfl, rfl, rfl, hbound⟩

theorem popScope_onward :
    Preserves (s₀.Onward f) (fun _ => True) (changeStore Store.popScope) := by
  apply changeStore_onward
  intro s s' h
  have hbound := (Store.addresses_popScope h).subset
  obtain ⟨_, _, _, _, -, -, rfl⟩ := Store.popScope_cases h
  exact ⟨rfl, rfl, rfl, hbound⟩

/-! ## Structure variables -/

theorem readName_record {fields : Table Scalar}
    (h : (readName name).execute m = (.ok (.record fields), m')) :
    m' = m ∧ ∃ b a, m.store.lookup name = .ok b ∧ addressOf b = .ok a ∧
      m.store.read? a = some (.record fields) := by
  obtain rfl := readName_same h rfl
  obtain ⟨b, m₁, hlookup, hrest⟩ := execute_bind_ok h
  simp only [lookup, execute_bind, execute_getStore, execute_ofExcept] at hlookup
  obtain ⟨hb, rfl⟩ := Prod.mk.inj hlookup
  split at hrest
  · cases hrest
  · obtain ⟨a, m₂, haddress, hread⟩ := execute_bind_ok hrest
    obtain ⟨ha, rfl⟩ := Eval.execute_ofExcept_ok haddress
    exact ⟨rfl, b, a, hb, ha, readAt_ok hread⟩

theorem declareField_onward (name field : String) (t : VarType) :
    Preserves (s₀.Onward Value.type?) (fun _ => True) (declareField name field t) := by
  refine .onward (fun m n hn => ?_) fun _ _ _ => trivial
  suffices h : m.store.Onward Value.type? ((declareField name field t).execute m).2.store from
    h n hn
  simp only [declareField, execute_bind, execute_ofExcept]
  cases hsize : fieldSize t with
  | error e => exact .refl _ _
  | ok k =>
    simp only [execute_allocate hn]
    have htake : m.store.Onward Value.type? { m.store with next := .int (n + k) } := by
      apply Store.onward_of_same
      intro n' hn'
      obtain rfl : n = n' := Scalar.int.inj (hn.symm.trans hn')
      exact ⟨k, rfl, rfl, fun _ ha => .inl ha, fun _ _ => rfl⟩
    have hread := ((onwards m.store Value.type?).readName name
      { m with store := { m.store with next := .int (n + k) } } htake).1
    cases hrun : (readName name).execute
      { m with store := { m.store with next := .int (n + k) } } with
    | mk r m₁ =>
      rw [hrun] at hread
      cases r with
      | error e => exact hread
      | ok v =>
        cases v with
        | record fields =>
          obtain ⟨rfl, b, a, hb, ha, hcell⟩ := readName_record hrun
          -- The structure variable stays one, and the new block is behind all others.
          have hfield : m.store.Onward Value.type?
              (Store.write { m.store with next := .int (n + k) } a
                (.record (fields.put field (.int n)))) := by
            apply htake.trans
            apply Store.onward_write
            intro w hw
            obtain rfl := Option.some.inj (hcell.symm.trans hw)
            rfl
          have hrest : Preserves (m.store.Onward Value.type?) (fun _ => True) (do
              let x ← makeNumber (fieldType t) .nothing
              setStore ((← getStore).write (.int n) (.number x))) :=
            .after (.makeNumber _ _) fun x m' hm' =>
              ⟨hm'.write_above hn (Int.le_refl n) _, fun _ _ => trivial⟩
          have hlast := (hrest ⟨_, m.random, m.input, m.output⟩ hfield).1
          simp only [lookup, execute_bind, execute_getStore, execute_ofExcept, hb, ha,
            execute_setStore] at hlast ⊢
          exact hlast
        | _ => exact hread

theorem declareVariable_onward (t : VarType) (name : String) :
    Preserves (s₀.Onward Value.type?) (fun _ => True) (declareVariable t name) := by
  cases t with
  | number t => exact declareNumber_onward t name
  | struct t =>
    simp only [declareVariable, declareStructVar]
    split
    · exact declareNumber_onward .int name
    · refine .after (declare_onward name (k := structSize) (by decide) (.record [])) fun _ => ?_
      refine .after ((onwards s₀ _).readName t.name) fun v => ?_
      split
      · exact .forM fun x _ => declareField_onward name x.1 x.2
      · exact .throw _

/-! ## Allocating and releasing -/

theorem allocateDynamic_onward {k : Nat} (hk : 0 < k) :
    Preserves (s₀.Onward f) (fun _ => True) (allocateDynamic (.int k)) := by
  refine .onward (fun m n hn => ?_) fun _ _ _ => trivial
  simp only [allocateDynamic, execute_bind, execute_allocate hn, execute_getStore,
    execute_setStore, execute_pure]
  refine ⟨k, rfl, fun c hc => ?_, fun a ha => .inl ha, fun a _ _ v hv => ⟨v, hv, rfl⟩⟩
  split at hc
  · exact .inl hc
  · rw [Std.ExtTreeMap.mem_insert] at hc
    obtain hc | hc := hc
    · have heq : Address.whole n = c := Std.LawfulEqCmp.eq_of_compare hc
      exact .inr ⟨n, Int.le_refl n, by omega, heq.symm⟩
    · exact .inl hc

/-- Only a block that was allocated on demand is released. -/
theorem release_onward (a : Scalar) : Preserves (s₀.Onward f) (fun _ => True) (release a) := by
  refine .onward (fun m n hn => ?_) fun _ _ _ => trivial
  simp only [release, execute_bind, execute_getStore]
  have herase (c : Address) (hc : c ∈ m.store.dynamic.erase (Address.ofScalar a)) :
      c ∈ m.store.dynamic := Std.ExtTreeMap.mem_of_mem_erase hc
  have hnext : m.store.next = .int (n + (0 : Nat)) := by rw [hn, Int.natCast_zero, Int.add_zero]
  split
  · next hin =>
    simp only [execute_bind, execute_setStore]
    split
    · refine ⟨0, hnext, fun c hc => .inl (herase c hc), fun a ha => .inl ha,
        fun b _ hfixed v hv => ⟨v, ?_, rfl⟩⟩
      have hne : Address.compare (Address.ofScalar a) (Address.ofScalar (.int b)) ≠ .eq := by
        intro heq
        rw [Std.LawfulEqCmp.eq_of_compare heq] at hin
        exact hfixed hin
      rw [← hv]
      simp only [Store.read?, execute_bind, execute_getStore, execute_setStore]
      rw [Std.ExtTreeMap.getElem?_erase, if_neg hne]
    · exact ⟨0, hnext, fun c hc => .inl (herase c hc), fun a ha => .inl ha,
        fun b _ _ v hv => ⟨v, hv, rfl⟩⟩
  · exact Store.Onward.refl f _ n hn

end Run

/-! ## Evaluation -/

namespace Eval

open Run (Preserves)

variable {β : Type} {f : Value → β} {s₀ : Store}

theorem update_onward (a : Scalar) {g : Value → Run Value}
    (hg : ∀ (I : Store → Prop) (old : Value), Preserves I (fun v => v.type? = old.type?) (g old)) :
    Preserves (s₀.Onward Value.type?) (fun _ => True) (update a g) := by
  refine .onward (fun m => ?_) fun _ _ _ => trivial
  have hread := (Run.readAt_onward a m (Store.Onward.refl Value.type? m.store)).1
  simp only [update, Run.execute_bind]
  cases hr : (Run.readAt a).execute m with
  | mk r m₁ =>
    rw [hr] at hread
    cases r with
    | error e => exact hread
    | ok old =>
      obtain ⟨hsame, htype⟩ := hg (· = m₁.store) old m₁ rfl
      dsimp only
      cases hv : (g old).execute m₁ with
      | mk r m₂ =>
        rw [hv] at hsame htype
        obtain hsame : m₂.store = m₁.store := hsame
        rw [← hsame] at hread
        cases r with
        | error e => exact hread
        | ok v =>
          have hcell : m₂.store.read? a = some old := hsame ▸ Run.readAt_ok hr
          have hwrite : m.store.Onward Value.type? (m₂.store.write a v) := by
            apply hread.trans
            apply Store.onward_write
            intro w hw
            obtain rfl := Option.some.inj (hcell.symm.trans hw)
            exact htype v rfl
          rw [← Run.execute_writeAt_store a v m₂] at hwrite
          dsimp only
          cases hw : (Run.writeAt a v).execute m₂ with
          | mk r m₃ =>
            rw [hw] at hwrite
            cases r with
            | error e => exact hwrite
            | ok u => exact hwrite

theorem type?_of_convert {I : Store → Prop} (t : CType) (v : Value) :
    Preserves I (fun w => w.type? = some t) (convert (.number t) v) := by
  intro m hm
  refine ⟨((ordinarily .absent I).convert (.number t) v m hm).1, fun w hw => ?_⟩
  obtain ⟨n, rfl, htype⟩ := convert_type (Prod.ext hw rfl)
  rw [VarType.number.inj htype]
  rfl

theorem step_onward (g : Value → Value → Except Fault Value) (t : Tree) :
    Preserves (s₀.Onward Value.type?) (fun _ => True) (step g t) := by
  refine .after ((Run.onwards s₀ _).place t) fun a => update_onward a fun I old => ?_
  refine .bind (.ofExcept fun n hn => number?_of_asNumber hn) fun n hn => ?_
  refine .after (.makeNumber _ _) fun one => .after (.ofExcept fun _ _ => trivial) fun v => ?_
  refine (type?_of_convert n.ctype v).weaken fun w hw => ?_
  rw [hw, Value.type?, hn]
  rfl

/-! ## Declarations and functions -/

theorem define_onward (name : String) (v : Value) :
    Preserves (s₀.Onward f) (fun _ => True) (define name v) :=
  Run.declare_writeName_onward name (by decide) _ v

theorem defineStruct_onward (name : String) (fields : Table VarType) :
    Preserves (s₀.Onward f) (fun _ => True) (defineStruct name fields) :=
  Run.declare_writeName_onward name (by decide) _ _

theorem declare_onward (var type : Tree) :
    Preserves (s₀.Onward Value.type?) (fun _ => True) (declare var type) :=
  .bind ((Run.onwards s₀ _).typeOf type) fun t _ => .after ((Run.onwards s₀ _).nameOf var) fun name =>
    Run.declareVariable_onward t name

theorem includeLibrary_onward (name : String) :
    Preserves (s₀.Onward f) (fun _ => True) (includeLibrary name) := by
  unfold includeLibrary
  split
  · refine .after (.forM fun f _ => define_onward f.name _) fun _ => ?_
    exact .forM fun c _ => Run.declareConstant_onward c.1 _
  · exact .throw _

theorem bindParam_onward (p : Tree) (v : Value) :
    Preserves (s₀.Onward f) (fun _ => True) (bindParam p v) :=
  (Run.onwards s₀ f).bindParam (fun t name => Run.declareNumber_writeName_onward t name v) p

theorem bindParams_onward (ps : List Tree) (vs : List Value) :
    Preserves (s₀.Onward f) (fun _ => True) (bindParams ps vs) :=
  (Run.onwards s₀ f).bindParams (fun t name v _ => Run.declareNumber_writeName_onward t name v) ps
    fun _ _ => trivial

theorem enterFunction_onward (name : String) (ps : List Tree) (vs : List Value) :
    Preserves (s₀.Onward f) (fun _ => True) (enterFunction name ps vs) :=
  .after (Run.pushFrame_onward name) fun _ => bindParams_onward ps vs

theorem leaveFunction_onward (type : Tree) (v : Value) :
    Preserves (s₀.Onward f) (fun _ => True) (leaveFunction type v) := by
  refine .ite (.pure trivial) ?_
  refine .bind ((Run.onwards s₀ f).typeOf type) fun t _ => ?_
  refine .after (.ofExcept fun _ _ => trivial) fun c => ?_
  refine .after ((Run.onwards s₀ f).convert t _) fun r => ?_
  exact .after Run.popFrame_onward fun _ => .pure trivial

end Eval

/-! ## Blocks that stay -/

namespace Store

variable {β : Type} {f : Value → β} {s s' : Store}

def Ordered (s : Store) : Prop :=
  ∃ n, s.next = .int n ∧ startAddress ≤ n ∧ (∀ c ∈ s.dynamic, ∃ j < n, c = Address.whole j) ∧
    ∀ a ∈ s.addresses, ∃ j, startAddress ≤ j ∧ j < n ∧ a = .int j

structure Lasting (f : Value → β) (a : Int) (b : β) (s : Store) : Prop where
  taken : ∃ n, s.next = .int n ∧ a < n
  fixed : Address.whole a ∉ s.dynamic
  cell : ∃ v, s.read? (.int a) = some v ∧ f v = b

theorem ordered_empty : empty.Ordered :=
  ⟨_, rfl, Int.le_refl _, fun _ hc => absurd hc Std.ExtTreeMap.not_mem_empty,
    fun _ ha => absurd ha List.not_mem_nil⟩

theorem Onward.ordered (h : s.Onward f s') (hs : s.Ordered) : s'.Ordered := by
  obtain ⟨n, hn, hstart, hdynamic, hbound⟩ := hs
  obtain ⟨k, hnext, hdynamic', hbound', -⟩ := h n hn
  refine ⟨n + k, hnext, by omega, fun c hc => ?_, fun a ha => ?_⟩
  · obtain hc | ⟨j, -, hj, rfl⟩ := hdynamic' c hc
    · obtain ⟨j, hj, rfl⟩ := hdynamic c hc
      exact ⟨j, by omega, rfl⟩
    · exact ⟨j, hj, rfl⟩
  · obtain ha | ⟨j, hj, hj', rfl⟩ := hbound' a ha
    · obtain ⟨j, hj, hj', rfl⟩ := hbound a ha
      exact ⟨j, hj, by omega, rfl⟩
    · exact ⟨j, by omega, hj', rfl⟩

theorem Onward.lasting (h : s.Onward f s') {a : Int} {b : β} (hs : s.Lasting f a b) :
    s'.Lasting f a b := by
  obtain ⟨⟨n, hn, ha⟩, hfixed, v, hv, hb⟩ := hs
  obtain ⟨k, hnext, hdynamic, -, hcells⟩ := h n hn
  obtain ⟨w, hw, hwv⟩ := hcells a ha hfixed v hv
  refine ⟨⟨n + k, hnext, by omega⟩, fun hin => ?_, w, hw, hwv.trans hb⟩
  obtain hin | ⟨j, hj, -, heq⟩ := hdynamic _ hin
  · exact hfixed hin
  · have haj : a = j := congrArg Address.number heq
    omega

/-- A cell may be written if it is another one, or by a value with the same `f`. -/
theorem Lasting.write {a : Int} {b : β} (hs : s.Lasting f a b) {c : Scalar}
    (h : Address.ofScalar c = Address.whole a → f v = b) : (s.write c v).Lasting f a b := by
  refine ⟨hs.taken, hs.fixed, ?_⟩
  by_cases hc : Address.ofScalar c = Address.whole a
  · refine ⟨v, ?_, h hc⟩
    rw [read?_congr _ (show Address.ofScalar (.int a) = Address.ofScalar c from hc.symm)]
    exact read?_write_self s c v
  · obtain ⟨w, hw, hb⟩ := hs.cell
    exact ⟨w, (read?_write_of_ne s v hc).trans hw, hb⟩

end Store

/-! ## The first value of a cell -/

namespace Run

structure Begins (s : Store) (n : Int) (name : String) (v : Value) (s' : Store) : Prop where
  declared : ∃ k, 0 < k ∧ Declared s n k s'
  lookup : s'.lookup name = .ok (.at (.int n))
  cell : s'.read? (.int n) = some v

theorem Begins.lasting {s s' : Store} (h : Begins s n name v s') (hn : s.next = .int n)
    (hs : s.Ordered) : s'.Lasting id n v := by
  obtain ⟨k, hk, hnext, hdynamic, -⟩ := h.declared
  obtain ⟨n', hn', -, hs, -⟩ := hs
  obtain rfl : n = n' := Scalar.int.inj (hn.symm.trans hn')
  refine ⟨⟨_, hnext, by omega⟩, fun hin => ?_, v, h.cell, rfl⟩
  rw [hdynamic] at hin
  obtain ⟨j, hj, heq⟩ := hs _ hin
  have hnj : n = j := congrArg Address.number heq
  omega

theorem declareNumber_begins (h : m.store.next = .int n) {t : CType} {u : Unit}
    (hrun : (declareNumber t name).execute m = (.ok u, m')) :
    ∃ v, Begins m.store n name v m'.store ∧ v.type? = some t := by
  obtain ⟨k, m₁, hsize, hmake⟩ := execute_bind_ok hrun
  obtain ⟨hk, rfl⟩ := Eval.execute_ofExcept_ok hsize
  obtain ⟨x, m₂, hx, hdeclare⟩ := execute_bind_ok hmake
  have hstore : m₂.store = m₁.store := by
    have hmade := (Preserves.makeNumber (I := (· = m₁.store)) t .nothing m₁ rfl).1
    rw [hx] at hmade
    exact hmade
  rw [← hstore] at h ⊢
  have hdeclared := declare_declared h name k (.number x)
  rw [hdeclare] at hdeclared
  obtain ⟨hlookup, hcell⟩ := declare_binds_of_next h hdeclare
  refine ⟨.number x, ⟨⟨k, CType.size_pos hk, hdeclared⟩, hlookup, hcell⟩, ?_⟩
  exact congrArg some (makeNumber_type hx)

end Run

namespace Eval

open Run (Begins)

/-- A parameter begins with the value of its argument, whatever that is. -/
theorem bindParam_begins (h : m.store.next = .int n) {t : CType} {k : Token} {i j l : Nat}
    {u : Unit}
    (hrun : (bindParam (.param (.typeName (.number t) j) (.var k i) l) v).execute m = (.ok u, m')) :
    Begins m.store n k.value.render v m'.store := by
  obtain ⟨u', m₁, hdeclare, hwrite⟩ : ∃ u' m₁,
      (Run.declareNumber t k.value.render).execute m = (.ok u', m₁) ∧
        (Run.writeName k.value.render v).execute m₁ = (.ok u, m') := Run.execute_bind_ok hrun
  obtain ⟨w, ⟨⟨size, hsize, hdeclared⟩, hlookup, -⟩, -⟩ := Run.declareNumber_begins h hdeclare
  have hstore : m'.store = m₁.store.write (.int n) v := by
    have hwritten := Run.execute_writeAt_store (.int n) v m₁
    rw [← Run.execute_writeName hlookup, hwrite] at hwritten
    exact hwritten
  rw [hstore]
  exact ⟨⟨size, hsize, hdeclared.write v⟩, hlookup, Store.read?_write_self _ _ _⟩

theorem bindParams_lookup {ps : List Tree} (hps : ∀ p ∈ ps, p.Grammatical .parameter)
    {vs : List Value} {u : Unit} (hrun : (bindParams ps vs).execute m = (.ok u, m'))
    (hname : name ∉ namesOf (declarationsOf ps)) : m'.store.lookup name = m.store.lookup name := by
  induction ps generalizing vs m with
  | nil =>
    cases vs with
    | nil =>
      obtain ⟨-, rfl⟩ : () = u ∧ m = m' := by simpa [bindParams] using hrun
      rfl
    | cons v vs => cases hrun
  | cons p ps ih =>
    obtain ⟨hp, hrest⟩ := List.forall_mem_cons.1 hps
    cases vs with
    | nil =>
      obtain ⟨-, rfl⟩ : () = u ∧ m = m' := by simpa [bindParams] using hrun
      rfl
    | cons v vs =>
      cases hp with
      | param k i n =>
        rw [declarationsOf_param, List.mem_cons, not_or] at hname
        obtain ⟨x, m₁, hfirst, hothers⟩ := Run.execute_bind_ok hrun
        obtain ⟨b, hb⟩ := bindParam_bindsName _ k i n v m x m₁ hfirst
        rw [ih hrest hothers hname.2, hb.lookup_of_ne (Ne.symm hname.1)]

/-- Each parameter of an arithmetic type stands for a block of its own, which holds the value of the
argument. -/
theorem bindParams_lasting {ps : List Tree} (hps : ∀ p ∈ ps, p.Grammatical .parameter)
    (hnames : (namesOf (declarationsOf ps)).Nodup) {vs : List Value} (hm : m.store.Ordered)
    {u : Unit} (hrun : (bindParams ps vs).execute m = (.ok u, m')) {t : CType} {k : Token}
    {i j l : Nat} (hv : (.param (.typeName (.number t) j) (.var k i) l, v) ∈ ps.zip vs) :
    ∃ a, m'.store.lookup k.value.render = .ok (.at (.int a)) ∧ m'.store.Lasting id a v := by
  induction ps generalizing vs m with
  | nil => cases hv
  | cons p ps ih =>
    obtain ⟨hp, hrest⟩ := List.forall_mem_cons.1 hps
    cases vs with
    | nil => cases hv
    | cons w vs =>
      obtain ⟨x, m₁, hfirst, hothers⟩ := Run.execute_bind_ok hrun
      rw [List.zip_cons_cons, List.mem_cons] at hv
      obtain hv | hv := hv
      · obtain ⟨rfl, rfl⟩ := Prod.mk.inj hv
        rw [declarationsOf_param, List.nodup_cons] at hnames
        obtain ⟨n, hn, hdynamic⟩ := hm
        have hbegins := bindParam_begins hn hfirst
        refine ⟨n, ?_, ?_⟩
        · rw [bindParams_lookup hrest hothers hnames.1, hbegins.lookup]
        · have honward := (bindParams_onward ps vs m₁ (Store.Onward.refl id m₁.store)).1
          rw [hothers] at honward
          exact honward.lasting (hbegins.lasting hn ⟨n, hn, hdynamic⟩)
      · have honward := (bindParam_onward p w m (Store.Onward.refl id m.store)).1
        rw [hfirst] at honward
        refine ih hrest ?_ (honward.ordered hm) hothers hv
        cases hp with
        | param k i n =>
          rw [declarationsOf_param] at hnames
          exact hnames.of_cons

end Eval

/-! ## Library functions -/

def Value.isAddress (a : Int) : Value → Bool
  | scalar c => Address.ofScalar c = Address.whole a
  | _ => false

namespace Builtin

/-- Whether a library function is not asked for a block without a size. -/
def allots : Builtin → List Value → Bool
  | malloc, [.scalar size, .memory] =>
    match size with
    | .int k => 0 < k
    | _ => false
  | _, _ => true

/-- Whether a library function reads nothing into a cell but numbers of a type. -/
def readsAs (a : Int) (o : Option CType) : Builtin → List Value → Bool
  | scanf, .scalar (.text fmt) :: args =>
    ((Scan.specifiers fmt).zip args.dropLast).all fun p =>
      !p.2.isAddress a || (Scan.typeOf p.1).toOption == o
  | _, _ => true

end Builtin

namespace Eval

open Run (Preserves)

theorem isAddress_of_address {s : Store} {c : Scalar} {a : Int} (h : v.address s = .ok c)
    (hc : Address.ofScalar c = Address.whole a) : v.isAddress a = true := by
  cases v with
  | scalar b =>
    obtain rfl := Except.ok.inj h
    exact decide_eq_true hc
  | number | constant | record => cases h
  | _ =>
    obtain rfl := Except.ok.inj h
    cases congrArg Address.rank hc

/-- What is read from the input is of the type that the specifier asks for. -/
theorem scanStore_writes (specifier : List Char) (address : Value) (word : String) (m : Machine) :
    ((Scan.store specifier address word).execute m).2.store = m.store ∨
      ∃ c n, address.address m.store = .ok c ∧ Scan.typeOf specifier = .ok n.ctype ∧
        ((Scan.store specifier address word).execute m).2.store =
          m.store.write c (.number n) := by
  simp only [Scan.store, Run.execute_bind, Run.execute_ofExcept, Run.execute_getStore]
  cases ht : Scan.typeOf specifier with
  | error e => exact .inl rfl
  | ok t =>
    cases hn : Number.ofScalar t (.text word) with
    | error e =>
      left
      simp only [hn, bind, Except.bind]
    | ok n =>
      simp only [hn, bind, Except.bind]
      cases hc : address.address m.store with
      | error e => exact .inl rfl
      | ok c =>
        right
        refine ⟨c, n, rfl, ?_, Run.execute_writeAt_store _ _ _⟩
        rw [Number.ofScalar_ctype hn]

/-- A size that is allotted is a whole number of at least one. -/
theorem size_of_allots {size : Scalar}
    (h : Builtin.allots .malloc [.scalar size, .memory] = true) :
    ∃ k : Nat, 0 < k ∧ size = .int k := by
  cases size with
  | int k =>
    have hk : 0 < k := of_decide_eq_true h
    exact ⟨k.toNat, by omega, by rw [Int.toNat_of_nonneg (by omega)]⟩
  | _ => cases h

variable {b : Builtin} {args : List Value}

/-- Reading input leaves the blocks as they are. -/
theorem minds_ordered (ha : b.allots args = true) : Minds Store.Ordered b args where
  scanf text addresses _ _ q _ word m hm := by
    refine ⟨?_, fun _ _ => trivial⟩
    obtain hsame | ⟨c, n, -, -, hwrite⟩ := scanStore_writes q.1 q.2 word m
    · rw [hsame]
      exact hm
    · rw [hwrite]
      exact hm
  malloc size hb hargs m hm := by
    rw [hb, hargs] at ha
    obtain ⟨k, hk, rfl⟩ := size_of_allots ha
    have honward := (Run.allocateDynamic_onward hk m (Store.Onward.refl id m.store)).1
    exact ⟨honward.ordered hm, fun _ _ => trivial⟩
  free address c _ _ m hm :=
    ⟨(Run.release_onward c m (Store.Onward.refl id m.store)).1.ordered hm, fun _ _ => trivial⟩

/-- A library function keeps the type of a number in a block that stays, if it takes only blocks
with a size and reads nothing else into the cell. -/
theorem minds_lasting (ha : b.allots args = true) {a : Int} {o : Option CType}
    (hr : b.readsAs a o args = true) : Minds (Store.Lasting Value.type? a o) b args where
  scanf text addresses hb hargs q hq word m hm := by
    refine ⟨?_, fun _ _ => trivial⟩
    obtain hsame | ⟨c, n, hc, htype, hwrite⟩ := scanStore_writes q.1 q.2 word m
    · rw [hsame]
      exact hm
    · rw [hwrite]
      refine hm.write fun heq => ?_
      rw [hb, hargs] at hr
      simp only [Builtin.readsAs, List.dropLast_concat, List.all_eq_true] at hr
      have hfits := hr q hq
      rw [isAddress_of_address hc heq, htype] at hfits
      exact eq_of_beq hfits
  malloc size hb hargs m hm := by
    rw [hb, hargs] at ha
    obtain ⟨k, hk, rfl⟩ := size_of_allots ha
    have honward := (Run.allocateDynamic_onward hk m (Store.Onward.refl Value.type? m.store)).1
    exact ⟨honward.lasting hm, fun _ _ => trivial⟩
  free address c _ _ m hm :=
    ⟨(Run.release_onward c m (Store.Onward.refl Value.type? m.store)).1.lasting hm,
      fun _ _ => trivial⟩

end Eval

end MiniC
