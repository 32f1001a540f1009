import MiniC.Proofs.Layout
import MiniC.Proofs.Reached

/-!
# Frames that nothing reaches

Names are looked up in the frame on top and in the global scope, blocks are never handed out twice,
and without structures and pointers that are written through there is no other way to a cell. So the
frames below the one on top are out of reach: `Guarded p s₀ s` says that the frames of `s₀` are
still below in `s`, that their cells are as they were, and that the store is in the order that keeps
them out of reach. The operations of evaluation keep this, those on structures apart.
-/

namespace MiniC

/-- A value of a program without structures: neither a structure variable nor the store itself, and
a function only if the program declares it. -/
def Value.Ordinary (p : Tree) : Value → Prop
  | function type name params body => ∃ n, Tree.Within (.function type name params body n) p
  | record _ => False
  | memory => False
  | _ => True

theorem Value.Ordinary.fields {p : Tree} {v : Value} (h : v.Ordinary p) : v.fields = [] := by
  cases v with
  | record => exact h.elim
  | _ => rfl

theorem Value.ordinary_of_isSimple {p : Tree} {v : Value} (h : v.isSimple = true) :
    v.Ordinary p := by
  cases v with
  | number => trivial
  | scalar => trivial
  | _ => cases h

namespace Store

def frameAddresses (s : Store) : List Scalar :=
  s.frames.flatMap fun f => f.scopes.flatMap (·.entries.addresses)

def Outside (s : Store) (a : Scalar) : Prop :=
  ∀ b ∈ s.frameAddresses, Address.ofScalar a ≠ Address.ofScalar b

/-- The frames of a store are below those of another one, and their cells are the same. -/
structure Guarded (p : Tree) (s₀ s : Store) : Prop where
  laid : ∃ ns, s.Laid ns
  holds : s.Holds (Value.Ordinary p)
  frames : ∃ above, s.frames = above ++ s₀.frames ∧ (s₀.frames = [] ∨ above ≠ [])
  cells : ∀ a ∈ s₀.frameAddresses, s.read? a = s₀.read? a

theorem addresses_eq (s : Store) :
    s.addresses = s.globals.entries.addresses ++ s.frameAddresses := by
  rw [addresses, scopes, List.flatMap_cons, List.flatMap_assoc]
  rfl

theorem frameAddresses_append {s s₀ : Store} {above : List Frame}
    (h : s.frames = above ++ s₀.frames) :
    s.frameAddresses =
      (above.flatMap fun f => f.scopes.flatMap (·.entries.addresses)) ++ s₀.frameAddresses := by
  rw [frameAddresses, h, List.flatMap_append]
  rfl

/-- The frames of a store are still there with the same bindings, and their cells hold the same
values. -/
def Untouched (s s' : Store) : Prop :=
  (∃ above, s'.frames = above ++ s.frames) ∧ ∀ a ∈ s.frameAddresses, s'.read? a = s.read? a

theorem read?_congr (s : Store) {a b : Scalar} (h : Address.ofScalar a = Address.ofScalar b) :
    s.read? a = s.read? b := by
  rw [read?, h, read?]

namespace Guarded

variable {p : Tree} {s₀ s s' : Store}

theorem mem_addresses (h : Guarded p s₀ s) {a : Scalar} (ha : a ∈ s₀.frameAddresses) :
    a ∈ s.addresses := by
  obtain ⟨above, hframes, -⟩ := h.frames
  rw [addresses_eq, frameAddresses_append hframes]
  exact List.mem_append_right _ (List.mem_append_right _ ha)

/-- What is named in the frame on top or in the global scope is out of the frames below. -/
theorem outside_of_lookup (h : Guarded p s₀ s) {name : String} {a : Scalar}
    (ha : s.lookup name = .ok (.at a)) : s₀.Outside a := by
  intro b hb hab
  obtain ⟨ns, hlaid⟩ := h.laid
  have hstarts := (hlaid.bound a (mem_addresses_of_lookup ha)).1
  obtain rfl := hstarts.eq_of_ofScalar (hlaid.bound b (h.mem_addresses hb)).1 hab
  obtain ⟨above, hframes, habove⟩ := h.frames
  have hnodup := hlaid.boundApart
  rw [addresses_eq, frameAddresses_append hframes, ← List.append_assoc] at hnodup
  refine (List.nodup_append.1 hnodup).2.2 a ?_ a hb rfl
  -- The scope that binds the name is the global one or in the frame on top.
  obtain ⟨c, hc, hget⟩ := lookup_cases ha
  have hmem := Table.mem_addresses hget
  unfold scopeOf at hc
  split at hc
  · obtain rfl := Except.ok.inj hc
    exact List.mem_append_left _ hmem
  · next f fs hf =>
    split at hc
    · next c' hfind =>
      obtain rfl := Except.ok.inj hc
      obtain habove | habove := habove
      · rw [frameAddresses, habove] at hb
        cases hb
      · cases above with
        | nil => exact absurd rfl habove
        | cons g above =>
          obtain ⟨rfl, -⟩ := List.cons.inj (hf.symm.trans hframes)
          refine List.mem_append_right _ (List.mem_flatMap.2 ⟨f, List.mem_cons_self, ?_⟩)
          exact List.mem_flatMap.2 ⟨c', List.mem_of_find?_eq_some hfind, hmem⟩
    · split at hc
      · obtain rfl := Except.ok.inj hc
        exact List.mem_append_left _ hmem
      · cases hc

theorem write (h : Guarded p s₀ s) {a : Scalar} (ha : s₀.Outside a) {v : Value}
    (hv : v.Ordinary p) : Guarded p s₀ (s.write a v) where
  laid := h.laid.imp fun _ hlaid => hlaid.write a hv.fields
  holds := h.holds.write a hv
  frames := h.frames
  cells b hb := by
    rw [read?_write_of_ne s v (ha b hb)]
    exact h.cells b hb

theorem outside_of_read? (h : Guarded p s₀ s) {a : Scalar} (ha : s.read? a = none) :
    s₀.Outside a := by
  intro b hb hab
  obtain ⟨ns, hlaid⟩ := h.laid
  have hcell := (hlaid.bound b (h.mem_addresses hb)).2
  rw [← s.read?_congr hab, ha] at hcell
  cases hcell

/-- A change of the frame on top that touches no cell that is named. -/
theorem ofMild (h : Guarded p s₀ s) (hlaid : ∃ ns, s'.Laid ns)
    (hholds : s'.Holds (Value.Ordinary p)) (hbelow : SameBelow s s')
    (hcells : ∀ a ∈ s.addresses, s'.read? a = s.read? a) : Guarded p s₀ s' := by
  refine ⟨hlaid, hholds, ?_, fun a ha => ?_⟩
  · obtain ⟨above, hframes, habove⟩ := h.frames
    obtain habove | habove := habove
    · exact ⟨s'.frames, by rw [habove, List.append_nil], .inl habove⟩
    · cases above with
      | nil => exact absurd rfl habove
      | cons f above =>
        obtain ⟨hlen, htail⟩ := hbelow
        rw [hframes] at hlen htail
        cases hs' : s'.frames with
        | nil =>
          rw [hs'] at hlen
          cases hlen
        | cons g gs =>
          rw [hs'] at htail
          exact ⟨g :: above, congrArg (List.cons g) htail, .inr (List.cons_ne_nil _ _)⟩
  · rw [hcells a (h.mem_addresses ha)]
    exact h.cells a ha

theorem pushFrame (h : Guarded p s₀ s) (name : String) : Guarded p s₀ (s.pushFrame name) := by
  obtain ⟨above, hframes, -⟩ := h.frames
  refine ⟨h.laid.imp fun _ hlaid => hlaid.pushFrame name, h.holds, ?_, h.cells⟩
  exact ⟨_ :: above, congrArg (List.cons _) hframes, .inr (List.cons_ne_nil _ _)⟩

theorem untouched (h : Guarded p s₀ s) : s₀.Untouched s :=
  ⟨h.frames.imp fun _ h => h.1, h.cells⟩

/-- Frames that are below those that are still below are still below. -/
theorem ofUntouched {s₁ : Store} (h : Guarded p s₀ s₁) (hlaid : ∃ ns, s.Laid ns)
    (hholds : s.Holds (Value.Ordinary p)) (hs : s₁.Untouched s) : Guarded p s₀ s := by
  obtain ⟨above₀, hframes₀, habove₀⟩ := h.frames
  obtain ⟨⟨above, hframes⟩, hcells⟩ := hs
  refine ⟨hlaid, hholds, ⟨above ++ above₀, ?_, habove₀.imp_right fun hne hnil => ?_⟩,
    fun a ha => ?_⟩
  · rw [hframes, hframes₀, List.append_assoc]
  · exact hne (List.append_eq_nil_iff.1 hnil).2
  · rw [hcells a (frameAddresses_append hframes₀ ▸ List.mem_append_right _ ha)]
    exact h.cells a ha

end Guarded

/-- What a call may do to the store of its caller: all frames are as they were, also to those who
wait for the caller. -/
structure Spared (p : Tree) (s s' : Store) : Prop where
  untouched : s.Untouched s'
  guarded : ∀ s₀, Guarded p s₀ s → Guarded p s₀ s'

theorem Guarded.spared {p : Tree} {s s' : Store} (h : Guarded p s s') : Spared p s s' :=
  ⟨h.untouched, fun _ h₀ => h₀.ofUntouched h.laid h.holds h.untouched⟩

theorem Guarded.spared_popFrame {p : Tree} {s₀ s s' : Store} (h : Guarded p s₀ s)
    (hpop : s.popFrame = .ok s') : Spared p s₀ s' := by
  have hlaid : ∃ ns, s'.Laid ns := h.laid.imp fun _ hlaid => hlaid.popFrame hpop
  obtain ⟨f, fs, hf, rfl⟩ := popFrame_cases hpop
  have huntouched : s₀.Untouched { s with frames := fs } := by
    refine ⟨?_, h.cells⟩
    obtain ⟨above, hframes, hnil | habove⟩ := h.frames
    · exact ⟨fs, by rw [hnil, List.append_nil]⟩
    · cases above with
      | nil => exact absurd rfl habove
      | cons g above => exact ⟨above, (List.cons.inj (hf.symm.trans hframes)).2⟩
  exact ⟨huntouched, fun _ h₀ => h₀.ofUntouched hlaid h.holds huntouched⟩

theorem guarded_pushFrame {p : Tree} {s : Store} (hlaid : ∃ ns, s.Laid ns)
    (hholds : s.Holds (Value.Ordinary p)) (name : String) : Guarded p s (s.pushFrame name) :=
  ⟨hlaid.imp fun _ h => h.pushFrame name, hholds, ⟨[_], rfl, .inr (List.cons_ne_nil _ _)⟩,
    fun _ _ => rfl⟩

end Store

/-! ## Operations on the store -/

namespace Run

variable {p : Tree} {s₀ : Store}

theorem writeAt_guards {a : Scalar} (ha : s₀.Outside a) {v : Value} (hv : v.Ordinary p) :
    Preserves (Store.Guarded p s₀) (fun _ => True) (writeAt a v) := by
  intro m hm
  refine ⟨?_, fun _ _ => trivial⟩
  simp only [writeAt, execute_bind, execute_getStore, execute_setStore]
  split
  · exact hm.write ha hv
  · exact hm.write ha hv

theorem readAt_guards (a : Scalar) :
    Preserves (Store.Guarded p s₀) (Value.Ordinary p) (readAt a) := by
  intro m hm
  simp only [readAt, execute_bind, execute_getStore]
  cases hr : m.store.read? a with
  | some v =>
    refine ⟨hm, fun w hw => ?_⟩
    obtain rfl := Except.ok.inj hw
    exact hm.holds.read hr
  | none =>
    obtain ⟨n, r, hn⟩ := execute_makeNumber (show CType.int.size = .ok 4 from rfl) m
    simp only [execute_bind, hn, execute_getStore, execute_setStore, execute_pure]
    refine ⟨hm.write (hm.outside_of_read? hr) trivial, fun w hw => ?_⟩
    obtain rfl := Except.ok.inj hw
    trivial

theorem lookup_guards (name : String) :
    Preserves (Store.Guarded p s₀) (fun b => ∀ a, b = .at a → s₀.Outside a) (lookup name) := by
  intro m hm
  simp only [lookup, execute_bind, execute_getStore, execute_ofExcept]
  refine ⟨hm, ?_⟩
  rintro b hb a rfl
  exact hm.outside_of_lookup hb

theorem readName_guards (name : String) :
    Preserves (Store.Guarded p s₀) (Value.Ordinary p) (readName name) := by
  refine .bind (lookup_guards name) fun b _ => ?_
  split
  · exact .pure trivial
  · exact .after (.ofExcept fun _ _ => trivial) readAt_guards

theorem addressOf_cases {b : Binding} {a : Scalar} (h : addressOf b = .ok a) : b = .at a := by
  unfold addressOf at h
  split at h
  · exact congrArg _ (Except.ok.inj h)
  · exact congrArg _ (Except.ok.inj h)
  · cases h
  · cases h

theorem writeName_guards (name : String) {v : Value} (hv : v.Ordinary p) :
    Preserves (Store.Guarded p s₀) (fun _ => True) (writeName name v) := by
  refine .bind (lookup_guards name) fun b hb => ?_
  split
  · exact .throw _
  · refine .bind (.ofExcept (P := s₀.Outside) fun a ha => hb a (addressOf_cases ha)) fun a ha => ?_
    exact writeAt_guards ha hv

theorem read?_declare {m : Machine} {ns : List Nat} (h : m.store.Laid ns) (name : String)
    (k : Nat) (v : Value) {a : Scalar} (ha : a ∈ m.store.addresses) :
    ((declare name k v).execute m).2.store.read? a = m.store.read? a := by
  rw [execute_declare h]
  split
  · next s hb =>
    obtain ⟨hcells, -, -⟩ := Store.addresses_bind hb
    obtain ⟨⟨b, hb, rfl⟩, -⟩ := h.bound a ha
    have hlt := h.lt_topOf ⟨b, hb, rfl⟩
    have hne : Address.ofScalar (.int (Store.topOf ns)) ≠ Address.ofScalar (.int b.start) := by
      intro heq
      have htop : Store.topOf ns = b.start := congrArg Address.number heq
      omega
    change (s.write _ v).read? _ = _
    rw [Store.read?_write_of_ne _ _ hne, Store.read?, hcells]
    rfl
  · rfl

theorem declare_guards (name : String) {k : Nat} (hk : 0 < k) {v : Value} (hv : v.Ordinary p) :
    Preserves (Store.Guarded p s₀) (fun _ => True) (declare name k v) := by
  intro m hm
  obtain ⟨ns, hlaid⟩ := hm.laid
  obtain ⟨hholds, hbelow, -⟩ := declare_keeps name k hv m hm.holds
  refine ⟨hm.ofMild ⟨_, declare_lays name hk hv.fields m ns hlaid⟩ hholds hbelow ?_,
    fun _ _ => trivial⟩
  exact fun a ha => read?_declare hlaid name k v ha

theorem declareNumber_guards (t : CType) (name : String) :
    Preserves (Store.Guarded p s₀) (fun _ => True) (declareNumber t name) := by
  refine .bind (.ofExcept (P := (0 < ·)) fun k hk => CType.size_pos hk) fun k hk => ?_
  exact .after (.makeNumber _ _) fun n => declare_guards name hk trivial

/-- A change of the scopes of the frame on top. -/
theorem changeStore_guards {g : Store → Except Fault Store}
    (hlaid : ∀ {s s' ns}, s.Laid ns → g s = .ok s' → s'.Laid ns)
    (hmild : Keeps (Value.Ordinary p) .mild (fun _ => True) (changeStore g))
    (hcells : ∀ s s', g s = .ok s' → s'.cells = s.cells) :
    Preserves (Store.Guarded p s₀) (fun _ => True) (changeStore g) := by
  intro m hm
  obtain ⟨hholds, hbelow, -⟩ := hmild m hm.holds
  refine ⟨hm.ofMild ?_ hholds hbelow fun a _ => ?_, fun _ _ => trivial⟩
  · exact hm.laid.imp fun ns h => (changeStore_stays hlaid ns m h).1
  · rw [execute_changeStore]
    cases hs : g m.store with
    | ok s =>
      change s.read? a = _
      rw [Store.read?, hcells _ _ hs]
      rfl
    | error e => rfl

theorem pushScope_guards :
    Preserves (Store.Guarded p s₀) (fun _ => True) (changeStore Store.pushScope) := by
  refine changeStore_guards (fun h => h.pushScope) pushScope_keeps fun s s' h => ?_
  obtain ⟨f, fs, c, cs, -, -, rfl⟩ := Store.pushScope_cases h
  rfl

theorem popScope_guards :
    Preserves (Store.Guarded p s₀) (fun _ => True) (changeStore Store.popScope) := by
  refine changeStore_guards (fun h => h.popScope) popScope_keeps fun s s' h => ?_
  obtain ⟨f, fs, c, cs, -, -, rfl⟩ := Store.popScope_cases h
  rfl

theorem declareConstant_guards (name : String) (s : Scalar) :
    Preserves (Store.Guarded p s₀) (fun _ => True) (declareConstant name s) := by
  refine .after (.makeNumber _ _) fun n => ?_
  refine changeStore_guards (fun h => h.bindConstant) (bind_keeps name _) fun s s' h => ?_
  exact (Store.addresses_bind h).1

theorem pushFrame_guards (name : String) :
    Preserves (Store.Guarded p s₀) (fun _ => True)
      (changeStore fun s => .ok (s.pushFrame name)) := by
  refine .changeStore fun s s' hs h => ?_
  obtain rfl := Except.ok.inj h
  exact hs.pushFrame name

end Run

/-! ## Operations of evaluation -/

namespace Eval

open Run (Preserves)

variable {p : Tree} {s₀ : Store}

def ordinarily (p : Tree) (I : Store → Prop) : Effect :=
  Run.preserving I (Value.Ordinary p) Value.ordinary_of_isSimple (fun _ => trivial) False.elim

def guarding (p : Tree) (s₀ : Store) : Reading where
  toEffect := ordinarily p (Store.Guarded p s₀)
  readAt := Run.readAt_guards

theorem entryOf_guards {v : Value} (hv : v.Ordinary p) (member : Tree) :
    Preserves (Store.Guarded p s₀) (fun _ => False) (entryOf v member) := by
  refine .after ((guarding p s₀).nameOf member) fun name => .ofExcept fun a ha => ?_
  cases v with
  | record => exact hv
  | _ => cases ha

theorem fieldAddress_guards (op : Kind) (base member : Tree) :
    Preserves (Store.Guarded p s₀) (fun _ => False) (fieldAddress op base member) := by
  unfold fieldAddress
  split
  · refine .after ((guarding p s₀).pointedBy base) fun a => ?_
    exact .bind (Run.readAt_guards a) fun v hv => entryOf_guards hv member
  · refine .after ((guarding p s₀).nameOf base) fun name => ?_
    exact .bind (Run.readName_guards name) fun v hv => entryOf_guards hv member

theorem addressOf_guards (name : String) :
    Preserves (Store.Guarded p s₀) s₀.Outside (addressOf name) := by
  refine .bind (Run.lookup_guards name) fun b hb => ?_
  split
  · exact .pure (hb _ rfl)
  · exact .throw _

end Eval

def Tree.isDirect : Tree → Bool
  | .var .. => true
  | .field .. => true
  | _ => false

namespace Eval

open Run (Preserves)

variable {p : Tree} {s₀ : Store}

theorem place_guards {t : Tree} (ht : t.isDirect = true) :
    Preserves (Store.Guarded p s₀) s₀.Outside (place t) := by
  cases t with
  | var k n => exact addressOf_guards _
  | field op b m n => exact (fieldAddress_guards op b m).weaken fun _ h => h.elim
  | _ => cases ht

theorem step_guards (f : Value → Value → Except Fault Value) {t : Tree} (ht : t.isDirect = true) :
    Preserves (Store.Guarded p s₀) (fun r => r.1.Ordinary p ∧ r.2.Ordinary p) (step f t) :=
  (guarding p s₀).step (place_guards ht) (fun _ _ ha hv => Run.writeAt_guards ha hv) f

/-! ## Declarations -/

theorem define_guards (name : String) {v : Value} (hv : v.Ordinary p) :
    Preserves (Store.Guarded p s₀) (fun _ => True) (define name v) :=
  .after (Run.declare_guards name (by decide) trivial) fun _ => Run.writeName_guards name hv

theorem includeLibrary_guards (name : String) :
    Preserves (Store.Guarded p s₀) (fun _ => True) (includeLibrary name) := by
  unfold includeLibrary
  split
  · refine .after (.forM fun f _ => define_guards f.name trivial) fun _ => ?_
    exact .forM fun c _ => Run.declareConstant_guards c.1 _
  · exact .throw _

theorem declare_guards (var : Tree) {type : Tree} (ht : ∀ t, type.type? ≠ some (.struct t)) :
    Preserves (Store.Guarded p s₀) (fun _ => True) (declare var type) := by
  refine .bind ((guarding p s₀).typeOf type) fun t htype => ?_
  refine .after ((guarding p s₀).nameOf var) fun name => ?_
  cases t with
  | number t => exact Run.declareNumber_guards t name
  | struct t => exact absurd htype (ht t)

theorem bindParams_guards (qs : List Tree) {vs : List Value} (hv : ∀ v ∈ vs, v.Ordinary p) :
    Preserves (Store.Guarded p s₀) (fun _ => True) (bindParams qs vs) :=
  (guarding p s₀).bindParams (fun t name _ hv => .after (Run.declareNumber_guards t name) fun _ =>
    Run.writeName_guards name hv) qs hv

/-- When a function is entered, the frames that were there are below its own. -/
theorem enterFunction_guarded (name : String) (qs : List Tree) {vs : List Value}
    (hv : ∀ v ∈ vs, v.Ordinary p) {m : Machine} (hlaid : ∃ ns, m.store.Laid ns)
    (hholds : m.store.Holds (Value.Ordinary p)) :
    Store.Guarded p m.store ((enterFunction name qs vs).execute m).2.store := by
  simp only [enterFunction, Run.execute_bind, Run.execute_changeStore]
  exact (bindParams_guards qs hv _ (Store.guarded_pushFrame hlaid hholds name)).1

/-- When a function is left, at most the frame on top is popped. -/
theorem leaveFunction_spares (type : Tree) (v : Value) {m : Machine}
    (h : Store.Guarded p s₀ m.store) :
    Store.Spared p s₀ ((leaveFunction type v).execute m).2.store ∧
      ∀ a, ((leaveFunction type v).execute m).1 = .ok a → a.Ordinary p := by
  have hconvert : Preserves (· = m.store) (Value.Ordinary p) (do
      let type ← typeOf type
      let content ← Run.ofExcept v.content
      convert type (.scalar content)) := by
    refine .bind ((ordinarily p (· = m.store)).typeOf type) fun t _ => ?_
    exact .after (.ofExcept fun _ _ => trivial) fun c => (ordinarily p (· = m.store)).convert t _
  unfold leaveFunction
  split
  · exact ⟨h.spared, fun a ha => Except.ok.inj ha ▸ trivial⟩
  · obtain ⟨hstore, hresult⟩ := hconvert m rfl
    have hassoc : (do
        let type ← typeOf type
        let content ← Run.ofExcept v.content
        let r ← convert type (.scalar content)
        Run.changeStore Store.popFrame
        return r) = (do
        let r ← (do
          let type ← typeOf type
          let content ← Run.ofExcept v.content
          convert type (.scalar content))
        Run.changeStore Store.popFrame
        return r : Run Value) := by
      simp only [bind_assoc]
    rw [hassoc, Run.execute_bind]
    split
    · next r m' hrun =>
      rw [hrun] at hstore hresult
      simp only [Run.execute_bind, Run.execute_changeStore]
      cases hpop : m'.store.popFrame with
      | error e => exact ⟨hstore ▸ h.spared, fun _ hv => by cases hv⟩
      | ok s' =>
        rw [hstore] at hpop
        exact ⟨h.spared_popFrame hpop, fun a ha => Except.ok.inj ha ▸ hresult r rfl⟩
    · next e m' hrun =>
      rw [hrun] at hstore
      exact ⟨hstore ▸ h.spared, fun _ hv => by cases hv⟩

theorem callBuiltin_guards (f : Builtin) {args : List Value} (ha : ∀ v ∈ args, v.Ordinary p) :
    Preserves (Store.Guarded p s₀) (Value.Ordinary p) (callBuiltin f args) := by
  have hargs : Value.memory ∉ args.map argument := by
    intro hmem
    obtain ⟨v, hv, harg⟩ := List.mem_map.1 hmem
    have hv := ha v hv
    unfold argument at harg
    split at harg
    · cases harg
    · subst harg
      exact hv
  have hminds : Minds (Store.Guarded p s₀) f (args.map argument) := minds_of_not_mem f hargs
  exact (callBuiltin_preserves hminds).weaken fun _ => Value.ordinary_of_isSimple

end Eval

end MiniC
