import MiniC.Proofs.Operations
import MiniC.Proofs.Scoping

/-!
# What declarations bind

A declaration that is executed binds its name in the innermost scope and leaves all other scopes as
they are. While no function is running this is the global scope, and a library binds the names of
its functions and constants there. A function is entered with a frame of one scope that has no names
but those of its parameters, and it has all of them if there are as many arguments.
-/

namespace MiniC

namespace Store

def Rebinds (name : String) (b : Binding) (s s' : Store) : Prop :=
  (s.frames = [] ∧ s'.frames = [] ∧
    s'.globals = { s.globals with entries := s.globals.entries.put name b }) ∨
  ∃ f fs c cs, s.frames = f :: fs ∧ f.scopes = c :: cs ∧ s'.globals = s.globals ∧
    s'.frames = { f with scopes := { c with entries := c.entries.put name b } :: cs } :: fs

variable {name : String} {b : Binding} {s s₁ s' : Store}

theorem rebinds_of_bind (h : s.bind name b = .ok s') : Rebinds name b s s' := by
  obtain ⟨hf, rfl⟩ | ⟨f, fs, c, cs, hf, hc, rfl⟩ := bind_cases h
  · exact .inl ⟨hf, hf, rfl⟩
  · exact .inr ⟨f, fs, c, cs, hf, hc, rfl, rfl⟩

theorem Rebinds.before (hs : SameScopes s s₁) (h : Rebinds name b s₁ s') : Rebinds name b s s' := by
  unfold Rebinds at h ⊢
  rw [hs.1, hs.2] at h
  exact h

theorem Rebinds.after (h : Rebinds name b s s₁) (hs : SameScopes s₁ s') : Rebinds name b s s' := by
  unfold Rebinds at h ⊢
  rw [hs.1, hs.2]
  exact h

/-- While no function is running, a name is bound in the global scope. -/
theorem Rebinds.global (h : Rebinds name b s s') (hs : s.frames = []) :
    s'.frames = [] ∧
      s'.globals = { s.globals with entries := s.globals.entries.put name b } := by
  obtain ⟨-, h⟩ | ⟨f, fs, c, cs, hf, -⟩ := h
  · exact h
  · rw [hs] at hf
    cases hf

/-- In a function, a name is bound in the innermost scope of the frame. -/
theorem Rebinds.inner {f : Frame} {fs : List Frame} {c : Scope} {cs : List Scope}
    (h : Rebinds name b s s') (hf : s.frames = f :: fs) (hc : f.scopes = c :: cs) :
    s'.globals = s.globals ∧
      s'.frames = { f with scopes := { c with entries := c.entries.put name b } :: cs } :: fs := by
  obtain ⟨hnil, -⟩ | ⟨f', fs', c', cs', hf', hc', hs'⟩ := h
  · rw [hf] at hnil
    cases hnil
  · obtain ⟨rfl, rfl⟩ := List.cons.inj (hf.symm.trans hf')
    obtain ⟨rfl, rfl⟩ := List.cons.inj (hc.symm.trans hc')
    exact hs'

theorem Rebinds.lookup_of_ne {other : String} (h : Rebinds name b s s') (hne : name ≠ other) :
    s'.lookup other = s.lookup other := by
  have hget (c : Scope) : (c.entries.put name b).get? other = c.entries.get? other :=
    Table.get?_put_of_ne c.entries b hne
  obtain ⟨hf, hf', hg⟩ | ⟨f, fs, c, cs, hf, hc, hg, hf'⟩ := h
  · have hscope : s.scopeOf other = .ok s.globals := by rw [scopeOf, hf]
    have hscope' : s'.scopeOf other = .ok s'.globals := by rw [scopeOf, hf']
    rw [lookup, lookup, hscope, hscope', hg]
    exact congrArg (fun o => Option.elim o _ _) (hget s.globals)
  · have hhas : Table.has (c.entries.put name b) other = c.entries.has other := by
      rw [Table.has, Table.has, hget]
    simp only [lookup, scopeOf, hf, hf', hc, hg, List.find?_cons, hhas]
    cases hin : c.entries.has other with
    | false => rfl
    | true => exact congrArg (fun o => Option.elim o _ _) (hget c)

end Store

namespace Run

variable {α β : Type} {name : String}

def BindsName (name : String) (p : Run α) : Prop :=
  ∀ m a m', p.execute m = (.ok a, m') → ∃ b, Store.Rebinds name b m.store m'.store

theorem BindsName.behind {P : α → Prop} {p : Run α} {f : α → Run β}
    (hp : p.Keeps (fun _ => True) .quiet P) (hf : ∀ a, BindsName name (f a)) :
    BindsName name (p >>= f) := by
  intro m a m' h
  obtain ⟨x, m₁, h₁, h₂⟩ := execute_bind_ok h
  obtain ⟨b, hb⟩ := hf x m₁ a m' h₂
  exact ⟨b, hb.before (hp.sameScopes h₁)⟩

theorem BindsName.followed {P : β → Prop} {p : Run α} {f : α → Run β} (hp : BindsName name p)
    (hf : ∀ a, (f a).Keeps (fun _ => True) .quiet P) : BindsName name (p >>= f) := by
  intro m a m' h
  obtain ⟨x, m₁, h₁, h₂⟩ := execute_bind_ok h
  obtain ⟨b, hb⟩ := hp m x m₁ h₁
  exact ⟨b, hb.after ((hf x).sameScopes h₂)⟩

theorem bind_bindsName (b : Binding) : BindsName name (changeStore (·.bind name b)) := by
  intro m a m' h
  rw [execute_changeStore] at h
  split at h
  · next s hs =>
    obtain ⟨-, rfl⟩ := Prod.mk.inj h
    exact ⟨b, Store.rebinds_of_bind hs⟩
  · cases h

theorem declare_bindsName (size : Nat) (v : Value) : BindsName name (declare name size v) :=
  .behind (allocate_keeps _) fun a => .followed (bind_bindsName _) fun _ => write_keeps a trivial

theorem declareConstant_bindsName (name : String) (s : Scalar) :
    BindsName name (declareConstant name s) :=
  .behind (makeNumber_keeps _ s) fun n => bind_bindsName (.constant n)

theorem declareNumber_bindsName (t : CType) : BindsName name (declareNumber t name) :=
  .behind (ofExcept_keeps fun _ _ => trivial) fun size => .behind (makeNumber_keeps t _) fun n =>
    declare_bindsName size (.number n)

theorem declareVariable_bindsName (t : VarType) : BindsName name (declareVariable t name) := by
  cases t with
  | number t => exact declareNumber_bindsName t
  | struct t =>
    simp only [declareVariable, declareStructVar]
    split
    · exact declareNumber_bindsName .int
    · refine .followed (P := fun _ => True) (declare_bindsName _ _) fun _ => ?_
      refine .after ((readName_keeps (fun _ _ => trivial) _).weaken fun _ _ => trivial) fun v => ?_
      split
      · exact forM_keeps fun f => declareField_keeps (fun _ _ => trivial) name f.1 f.2
      · exact .throw _

end Run

namespace Eval

open Run (BindsName)

theorem define_bindsName (name : String) (v : Value) : BindsName name (define name v) :=
  .followed (Run.declare_bindsName _ _) fun _ => Run.writeName_keeps name trivial

theorem defineStruct_bindsName (name : String) (fields : Table VarType) :
    BindsName name (defineStruct name fields) :=
  .followed (Run.declare_bindsName _ _) fun _ => Run.writeName_keeps name trivial

theorem nameOf_ok {t : Tree} {name : String} {m m' : Machine}
    (h : (nameOf t).execute m = (.ok name, m')) : t.name? = some name ∧ m' = m := by
  unfold nameOf at h
  split at h
  · next hname =>
    obtain ⟨rfl, rfl⟩ : _ = name ∧ m = m' := by simpa using h
    exact ⟨hname, rfl⟩
  · cases h

theorem declare_bindsName (k : Token) (i : Nat) (type : Tree) :
    BindsName k.value.render (declare (.var k i) type) := by
  refine .behind ((Run.keeping .quiet fun _ _ => trivial).typeOf type) fun t => ?_
  intro m a m' h
  obtain ⟨name, m₁, h₁, h₂⟩ := Run.execute_bind_ok h
  obtain ⟨hname, rfl⟩ := nameOf_ok h₁
  obtain rfl := Option.some.inj hname
  exact Run.declareVariable_bindsName t m₁ a m' h₂

/-! ## Parameters -/

theorem bindParam_bindsName (t : Tree) (k : Token) (i n : Nat) (v : Value) :
    BindsName k.value.render (bindParam (.param t (.var k i) n) v) := by
  refine .behind ((Run.keeping .quiet fun _ _ => trivial).typeOf t) fun type => ?_
  intro m a m' h
  obtain ⟨name, m₁, h₁, h₂⟩ := Run.execute_bind_ok h
  obtain ⟨hname, rfl⟩ := nameOf_ok h₁
  obtain rfl := Option.some.inj hname
  cases type with
  | number c =>
    have hbinds : BindsName k.value.render (do
        Run.declareNumber c k.value.render
        Run.writeName k.value.render v) :=
      .followed (Run.declareNumber_bindsName c) fun _ => Run.writeName_keeps _ trivial
    exact hbinds m₁ a m' h₂
  | struct c => cases h₂

theorem declarationsOf_param (t : Tree) (k : Token) (i n : Nat) (ps : List Tree) :
    namesOf (declarationsOf (.param t (.var k i) n :: ps)) =
      k.value.render :: namesOf (declarationsOf ps) := rfl

/-- The arguments of a function are bound to the names of its parameters, in the innermost scope. -/
theorem bindParams_binds {ps : List Tree} (hps : ∀ p ∈ ps, p.Grammatical .parameter)
    {vs : List Value} {m m' : Machine} {f : Frame} {fs : List Frame} {c : Scope} {cs : List Scope}
    (hf : m.store.frames = f :: fs) (hc : f.scopes = c :: cs) {a : Unit}
    (h : (bindParams ps vs).execute m = (.ok a, m')) :
    vs.length ≤ ps.length ∧ m'.store.globals = m.store.globals ∧
      ∃ es, m'.store.frames = { f with scopes := { c with entries := es } :: cs } :: fs ∧
        ∀ name, (name ∉ namesOf (declarationsOf ps) → es.get? name = c.entries.get? name) ∧
          (vs.length = ps.length → name ∈ namesOf (declarationsOf ps) → (es.get? name).isSome) := by
  induction ps generalizing vs m f c with
  | nil =>
    cases vs with
    | nil =>
      obtain ⟨-, rfl⟩ : () = a ∧ m = m' := by simpa [bindParams] using h
      refine ⟨Nat.le_refl _, rfl, c.entries, ?_, fun name => ⟨fun _ => rfl, fun _ hn => ?_⟩⟩
      · rw [hf, ← hc]
      · exact absurd hn List.not_mem_nil
    | cons v vs => cases h
  | cons p ps ih =>
    obtain ⟨hp, hrest⟩ := List.forall_mem_cons.1 hps
    cases vs with
    | nil =>
      obtain ⟨-, rfl⟩ : () = a ∧ m = m' := by simpa [bindParams] using h
      refine ⟨Nat.zero_le _, rfl, c.entries, ?_, fun name => ⟨fun _ => rfl, fun hl => ?_⟩⟩
      · rw [hf, ← hc]
      · cases hl
    | cons v vs =>
      cases hp with
      | param k i n =>
        obtain ⟨x, m₁, h₁, h₂⟩ := Run.execute_bind_ok h
        obtain ⟨b, hb⟩ := bindParam_bindsName _ k i n v m x m₁ h₁
        obtain ⟨hglobals, hframes⟩ := hb.inner hf hc
        obtain ⟨hlen, hglobals', es, hframes', hes⟩ := ih hrest hframes rfl h₂
        refine ⟨Nat.succ_le_succ hlen, hglobals'.trans hglobals, es, hframes', fun name => ?_⟩
        rw [declarationsOf_param]
        obtain ⟨hother, hsame⟩ := hes name
        refine ⟨fun hn => ?_, fun hl hn => ?_⟩
        · rw [List.mem_cons, not_or] at hn
          rw [hother hn.2, Table.get?_put_of_ne _ _ (Ne.symm hn.1)]
        · by_cases hin : name ∈ namesOf (declarationsOf ps)
          · exact hsame (Nat.succ.inj hl) hin
          · obtain rfl := (List.mem_cons.1 hn).resolve_right hin
            rw [hother hin, Table.get?_put_self]
            rfl

/-- The frame in which a function starts: one scope, which binds the parameters. -/
theorem enterFunction_binds {name : String} {ps : List Tree}
    (hps : ∀ p ∈ ps, p.Grammatical .parameter) {vs : List Value} {m m' : Machine} {a : Unit}
    (h : (enterFunction name ps vs).execute m = (.ok a, m')) :
    vs.length ≤ ps.length ∧ m'.store.globals = m.store.globals ∧
      ∃ f c, m'.store.frames = f :: m.store.frames ∧ f.scopes = [c] ∧
        ∀ n, (n ∉ namesOf (declarationsOf ps) → c.entries.get? n = none) ∧
          (vs.length = ps.length → n ∈ namesOf (declarationsOf ps) →
            (c.entries.get? n).isSome) := by
  obtain ⟨⟨⟩, m₁, h₁, h₂⟩ := Run.execute_bind_ok h
  rw [Run.execute_changeStore] at h₁
  obtain ⟨-, rfl⟩ := Prod.mk.inj h₁
  obtain ⟨hlen, hglobals, es, hframes, hes⟩ := bindParams_binds hps rfl rfl h₂
  exact ⟨hlen, hglobals, _, _, hframes, rfl, hes⟩

end Eval

/-! ## The top of a program -/

/-- The declarations that a tree at the top of a program makes when it is executed. -/
def Tree.introduces : Tree → List Declaration
  | .library name n => (Library.find? name).elim [] fun l =>
      l.functions.map (Builtin.declaration (.library name n)) ++
        l.constants.map (Library.constantDeclaration (.library name n))
  | t => t.declarations

def Tree.globals : Tree → List Declaration
  | .program cs _ => cs.flatMap introduces
  | _ => []

structure Store.Introduces (names : List String) (s s' : Store) : Prop where
  frames : s'.frames = []
  others : ∀ n, n ∉ names → s'.globals.entries.get? n = s.globals.entries.get? n
  bound : ∀ n ∈ names, (s'.globals.entries.get? n).isSome

namespace Store

variable {s s₁ s' : Store} {names names' : List String}

theorem Introduces.refl (hs : s.frames = []) : Introduces [] s s :=
  ⟨hs, fun _ _ => rfl, fun _ hn => absurd hn List.not_mem_nil⟩

theorem Introduces.trans (h : Introduces names s s₁) (h' : Introduces names' s₁ s') :
    Introduces (names ++ names') s s' where
  frames := h'.frames
  others n hn := by
    rw [List.mem_append, not_or] at hn
    rw [h'.others n hn.2, h.others n hn.1]
  bound n hn := by
    by_cases hn' : n ∈ names'
    · exact h'.bound n hn'
    · rw [h'.others n hn']
      exact h.bound n ((List.mem_append.1 hn).resolve_right hn')

theorem Rebinds.introduces {name : String} {b : Binding} (h : Rebinds name b s s')
    (hs : s.frames = []) : Introduces [name] s s' := by
  obtain ⟨hframes, hglobals⟩ := h.global hs
  refine ⟨hframes, fun n hn => ?_, fun n hn => ?_⟩
  · rw [List.mem_singleton] at hn
    rw [hglobals, Table.get?_put_of_ne _ _ (Ne.symm hn)]
  · rw [hglobals, List.mem_singleton.1 hn, Table.get?_put_self]
    rfl

end Store

theorem Run.forM_introduces {α : Type} {names : α → String} {f : α → Run PUnit}
    (hf : ∀ a, BindsName (names a) (f a)) {xs : List α} {m m' : Machine} {u : PUnit}
    (hm : m.store.frames = []) (h : (xs.forM f).execute m = (.ok u, m')) :
    Store.Introduces (xs.map names) m.store m'.store := by
  induction xs generalizing m with
  | nil =>
    obtain ⟨-, rfl⟩ : PUnit.unit = u ∧ m = m' := by simpa using h
    exact .refl hm
  | cons x xs ih =>
    obtain ⟨y, m₁, h₁, h₂⟩ := execute_bind_ok h
    obtain ⟨b, hb⟩ := hf x m y m₁ h₁
    have hfirst := hb.introduces hm
    exact hfirst.trans (ih hfirst.frames h₂)

theorem Eval.includeLibrary_introduces {name : String} {n : Nat} {m m' : Machine} {u : Unit}
    (hm : m.store.frames = []) (h : (includeLibrary name).execute m = (.ok u, m')) :
    Store.Introduces (namesOf (Tree.introduces (.library name n))) m.store m'.store := by
  unfold includeLibrary at h
  split at h
  · next l hl =>
    obtain ⟨x, m₁, h₁, h₂⟩ := Run.execute_bind_ok h
    have hfunctions := Run.forM_introduces (fun f : Builtin => define_bindsName f.name (.builtin f))
      hm h₁
    have hconstants := Run.forM_introduces
      (fun c : String × Int => Run.declareConstant_bindsName c.1 (.int c.2)) hfunctions.frames h₂
    have hnames : namesOf (Tree.introduces (.library name n)) =
        l.functions.map Builtin.name ++ l.constants.map Prod.fst := by
      simp only [Tree.introduces, hl, Option.elim, namesOf, List.map_append, List.map_map]
      rfl
    rw [hnames]
    exact hfunctions.trans hconstants
  · cases h

theorem Tree.tree_of_mem_introduces {t : Tree} (ht : t.Grammatical .topLevel) {d : Declaration}
    (hd : d ∈ t.introduces) : d.tree = t := by
  cases ht with
  | function =>
    obtain rfl := List.mem_singleton.1 hd
    rfl
  | library name n =>
    cases hl : Library.find? name with
    | none => simp [introduces, hl] at hd
    | some l =>
      simp only [introduces, hl, Option.elim, List.mem_append, List.mem_map] at hd
      obtain ⟨f, -, rfl⟩ | ⟨c, -, rfl⟩ := hd
      · rfl
      · rfl
  | declared ht =>
    cases ht with
    | varDecl | structDecl =>
      obtain rfl := List.mem_singleton.1 hd
      rfl
    | initializer => exact absurd hd List.not_mem_nil

end MiniC
