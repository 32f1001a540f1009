import MiniC.Proofs.Bindings
import MiniC.Proofs.Frames
import MiniC.Proofs.Journal

/-!
# The chain of scopes

A block opens a scope and leaves it on every way out, and no other statement opens one. So as long
as no function of the program is called, a statement that comes to its end leaves the frames and the
chain of scopes as they were. The tables of names are the same too, but for the innermost one: it
gets a binding for each name that is declared outside of the blocks of the statement, in the order
in which the declarations are executed.
-/

namespace MiniC

variable {s s₁ : Machine × Journal} {fuel : Nat} {v : Value}

/-- The names that the rule for the root of a tree binds. -/
def Tree.binds : Tree → List String
  | varDecl v _ _ => v.name?.toList
  | structDecl name _ _ _ => [name]
  | function _ name _ _ _ => [name]
  | library name _ => (Library.find? name).elim [] fun l =>
      l.functions.map Builtin.name ++ l.constants.map Prod.fst
  | _ => []

def Tree.opensScope : Tree → Bool
  | block .. => true
  | _ => false

def Event.bindsIn (c : List Tree) : Event → List String
  | enter v =>
    if (v.context.take (v.context.length - c.length)).any Tree.opensScope then [] else v.tree.binds
  | leave .. => []

/-- The names that are bound in the scope of a context, in the order in which it happens. -/
def boundIn (c : List Tree) (events : List Event) : List String :=
  events.reverse.flatMap (Event.bindsIn c)

/-- The names that are declared directly in the scope in which a tree is evaluated. -/
def Visit.declares (v : Visit) : List String :=
  boundIn v.context v.events

@[simp] theorem boundIn_nil (c : List Tree) : boundIn c [] = [] := rfl

theorem boundIn_append (c : List Tree) (new old : List Event) :
    boundIn c (new ++ old) = boundIn c old ++ boundIn c new := by
  simp only [boundIn, List.reverse_append, List.flatMap_append]

/-- Inside a block nothing is bound in the scope around it, and inside any other tree the scope is
the same as around it. -/
theorem Event.bindsIn_inside {e : Event} {t : Tree} {c : List Tree} (h : Recorded.Inside t c e) :
    e.bindsIn c = if t.opensScope then [] else e.bindsIn (t :: c) := by
  obtain ⟨inner, h⟩ := h
  cases e with
  | leave => simp [bindsIn]
  | enter v =>
    obtain h : v.context = inner ++ t :: c := h
    have hout : v.context.length - c.length = (inner ++ [t]).length := by
      simp only [h, List.length_append, List.length_cons, List.length_nil]
      omega
    have hin : v.context.length - (t :: c).length = inner.length := by
      simp only [h, List.length_append, List.length_cons]
      omega
    have hsplit : v.context = (inner ++ [t]) ++ c := by
      rw [h, List.append_assoc]
      rfl
    have htake : v.context.take (v.context.length - c.length) = inner ++ [t] := by
      rw [hout, hsplit, List.take_left]
    have htake' : v.context.take (v.context.length - (t :: c).length) = inner := by
      rw [hin, h, List.take_left]
    simp only [bindsIn, htake, htake', List.any_append, List.any_cons, List.any_nil, Bool.or_false]
    cases t.opensScope <;> simp

theorem boundIn_inside {t : Tree} {c : List Tree} {events : List Event}
    (h : ∀ e ∈ events, Recorded.Inside t c e) :
    boundIn c events = if t.opensScope then [] else boundIn (t :: c) events := by
  induction events with
  | nil => simp
  | cons e es ih =>
    obtain ⟨he, hes⟩ := List.forall_mem_cons.1 h
    rw [← List.singleton_append, boundIn_append, boundIn_append, ih hes]
    simp only [boundIn, List.reverse_singleton, List.flatMap_singleton, Event.bindsIn_inside he]
    cases t.opensScope <;> simp

/-! ## Bindings in the innermost scope -/

def Table.putAll {α : Type} (t : Table α) (ps : List (String × α)) : Table α :=
  ps.foldl (fun t p => t.put p.1 p.2) t

def Frame.bindAll (f : Frame) (bs : List (String × Binding)) : Frame :=
  match f.scopes with
  | [] => f
  | c :: cs => { f with scopes := { c with entries := c.entries.putAll bs } :: cs }

theorem Frame.bindAll_nil (f : Frame) : f.bindAll [] = f := by
  unfold bindAll
  split
  · rfl
  · next h => rw [Table.putAll, List.foldl_nil, ← h]

theorem Frame.bindAll_append (f : Frame) (bs bs' : List (String × Binding)) :
    (f.bindAll bs).bindAll bs' = f.bindAll (bs ++ bs') := by
  cases h : f.scopes with
  | nil => simp only [bindAll, h]
  | cons c cs => simp only [bindAll, h, Table.putAll, List.foldl_append]

namespace Store

/-- In a function, the innermost scope gets bindings for some names, and all else about the scopes
and the frames stays as it is. -/
def Gains (names : List String) (s s' : Store) : Prop :=
  ∀ f fs, s.frames = f :: fs → s'.globals = s.globals ∧
    ∃ bs : List (String × Binding), bs.map Prod.fst = names ∧ s'.frames = f.bindAll bs :: fs

theorem SameScopes.gains {s s' : Store} (h : SameScopes s s') : Gains [] s s' :=
  fun f fs hf => ⟨h.1, [], rfl, by rw [h.2, hf, Frame.bindAll_nil]⟩

theorem Rebinds.gains {name : String} {b : Binding} {s s' : Store} (h : Rebinds name b s s') :
    Gains [name] s s' := by
  intro f fs hf
  obtain ⟨hnil, -⟩ | ⟨f', fs', c, cs, hf', hc, hglobals, hframes⟩ := h
  · rw [hf] at hnil
    cases hnil
  · obtain ⟨rfl, rfl⟩ := List.cons.inj (hf.symm.trans hf')
    refine ⟨hglobals, [(name, b)], rfl, ?_⟩
    rw [hframes]
    simp only [Frame.bindAll, hc, Table.putAll, List.foldl_cons, List.foldl_nil]

theorem Gains.trans {names names' : List String} {s s' s'' : Store} (h : Gains names s s')
    (h' : Gains names' s' s'') : Gains (names ++ names') s s'' := by
  intro f fs hf
  obtain ⟨hglobals, bs, rfl, hframes⟩ := h f fs hf
  obtain ⟨hglobals', bs', rfl, hframes'⟩ := h' _ fs hframes
  refine ⟨hglobals'.trans hglobals, bs ++ bs', List.map_append, ?_⟩
  rw [hframes', Frame.bindAll_append]

/-- A scope that is opened and left again. -/
theorem Gains.enclosed {names : List String} {s s₁ s₂ s' : Store} (hpush : s.pushScope = .ok s₁)
    (h : Gains names s₁ s₂) (hpop : s₂.popScope = .ok s') : Gains [] s s' := by
  intro f fs hf
  obtain ⟨f', fs', c, cs, hf', hc, rfl⟩ := pushScope_cases hpush
  obtain ⟨rfl, rfl⟩ := List.cons.inj (hf.symm.trans hf')
  obtain ⟨hglobals, bs, -, hframes⟩ := h _ _ rfl
  obtain ⟨g, gs, d, ds, hg, hd, rfl⟩ := popScope_cases hpop
  obtain ⟨rfl, rfl⟩ := List.cons.inj (hframes.symm.trans hg)
  obtain ⟨-, rfl⟩ := List.cons.inj hd
  refine ⟨hglobals, [], rfl, ?_⟩
  rw [Frame.bindAll_nil]
  change { f with scopes := c :: cs } :: fs = f :: fs
  rw [← hc]

end Store

/-! ## Declarations -/

namespace Run

def BindsNames {α : Type} (names : List String) (p : Run α) : Prop :=
  ∀ m a m', p.execute m = (.ok a, m') → m.store.Gains names m'.store

theorem BindsName.bindsNames {α : Type} {name : String} {p : Run α} (h : BindsName name p) :
    BindsNames [name] p := by
  intro m a m' hp
  obtain ⟨b, hb⟩ := h m a m' hp
  exact hb.gains

theorem forM_bindsNames {α : Type} {name : α → String} {f : α → Run PUnit}
    (hf : ∀ a, BindsName (name a) (f a)) (xs : List α) : BindsNames (xs.map name) (xs.forM f) := by
  induction xs with
  | nil =>
    intro m a m' h
    obtain ⟨-, rfl⟩ : PUnit.unit = a ∧ m = m' := by simpa using h
    exact Store.SameScopes.gains ⟨rfl, rfl⟩
  | cons x xs ih =>
    intro m a m' h
    obtain ⟨y, m₁, h₁, h₂⟩ := execute_bind_ok h
    exact ((hf x).bindsNames m y m₁ h₁).trans (ih m₁ a m' h₂)

end Run

theorem Run.changeStore_ok {g : Store → Except Fault Store} {m m' : Machine} {a : Unit}
    (h : (Run.changeStore g).execute m = (.ok a, m')) : g m.store = .ok m'.store := by
  rw [Run.execute_changeStore] at h
  split at h
  · next s hs =>
    obtain ⟨-, rfl⟩ := Prod.mk.inj h
    exact hs
  · cases h

namespace Eval

theorem includeLibrary_bindsNames (name : String) (n : Nat) :
    Run.BindsNames (Tree.binds (.library name n)) (includeLibrary name) := by
  intro m a m' h
  unfold includeLibrary at h
  split at h
  · next l hl =>
    obtain ⟨x, m₁, h₁, h₂⟩ := Run.execute_bind_ok h
    have hfunctions := Run.forM_bindsNames (fun f : Builtin => define_bindsName f.name (.builtin f))
      l.functions m x m₁ h₁
    have hconstants := Run.forM_bindsNames
      (fun c : String × Int => Run.declareConstant_bindsName c.1 (.int c.2)) l.constants m₁ a m' h₂
    simp only [Tree.binds, hl, Option.elim]
    exact hfunctions.trans hconstants
  · cases h

theorem declare_bindsNames (v type : Tree) (n : Nat) :
    Run.BindsNames (Tree.binds (.varDecl v type n)) (declare v type) := by
  intro m a m' h
  obtain ⟨t, m₁, h₁, hrest⟩ := Run.execute_bind_ok h
  obtain ⟨name, m₂, h₂, hdeclare⟩ := Run.execute_bind_ok hrest
  obtain ⟨-, rfl⟩ := typeOf_ok h₁
  obtain ⟨hname, rfl⟩ := nameOf_ok h₂
  rw [Tree.binds, hname]
  exact (Run.declareVariable_bindsName t).bindsNames m₂ a m' hdeclare

end Eval

/-! ## Evaluation in a context -/

namespace Recorded

variable {α β : Type} {c : List Tree}

/-- What happens in a context adds its events to the journal. If no function of the program is
called, the innermost scope gets the names that are bound directly in it. -/
structure Gaining (c : List Tree) (new : List Event) (s s' : Machine × Journal) : Prop where
  journal : s'.2 = ⟨c, new ++ s.2.events⟩
  within : ∀ e ∈ new, ∃ inner, e.visit.context = inner ++ c
  gains : (∀ e ∈ new, e.visit.callsFunction = false) →
    s.1.store.Gains (boundIn c new) s'.1.store

theorem Gaining.trans {new new' : List Event} {s' s'' : Machine × Journal} (h : Gaining c new s s')
    (h' : Gaining c new' s' s'') : Gaining c (new' ++ new) s s'' where
  journal := by rw [h'.journal, h.journal, List.append_assoc]
  within := List.forall_mem_append.2 ⟨h'.within, h.within⟩
  gains hcalls := by
    obtain ⟨hcalls', hcalls⟩ := List.forall_mem_append.1 hcalls
    rw [boundIn_append]
    exact (h.gains hcalls).trans (h'.gains hcalls')

theorem Gaining.still {s' : Machine × Journal} (hc : s.2.context = c) (hj : s'.2 = s.2)
    (h : s.1.store.SameScopes s'.1.store) : Gaining c [] s s' where
  journal := by
    subst hc
    exact hj
  within := List.forall_mem_nil _
  gains _ := h.gains

def Gainful (c : List Tree) (Q : α → Prop) (p : Recorded α) : Prop :=
  ∀ s a s', s.2.context = c → p.execute s = (.ok a, s') → (∃ new, Gaining c new s s') ∧ Q a

def gaining (c : List Tree) : Correspondence Recorded Recorded where
  Fine _ := True
  fine _ _ := trivial
  Rel Q p _ := Gainful c Q p
  pure ha s b s' hc h := by
    obtain ⟨hb, rfl⟩ := Prod.mk.inj h
    exact ⟨⟨[], .still hc rfl ⟨rfl, rfl⟩⟩, Except.ok.inj hb ▸ ha⟩
  bind hp hf s b s'' hc h := by
    obtain ⟨a, s', h₁, h₂⟩ := execute_bind_ok h
    obtain ⟨⟨new, hnew⟩, ha⟩ := hp s a s' hc h₁
    obtain ⟨⟨new', hnew'⟩, hb⟩ := hf a ha s' b s'' (by rw [hnew.journal]) h₂
    exact ⟨⟨_, hnew.trans hnew'⟩, hb⟩
  quiet hp s a s' hc h := by
    obtain ⟨h, hj⟩ := execute_lift_ok h
    obtain ⟨-, hm, hP⟩ := hp s.1 fun _ _ _ => trivial
    rw [h] at hm hP
    exact ⟨⟨[], .still hc hj hm⟩, hP a rfl⟩

/-- What the rule for a tree adds to the journal happens inside the tree. -/
theorem rule_journal {t : Tree}
    (h : (Eval.rule (record fuel) fuel t).execute (entered (fuel + 1) t s) = (.ok v, s₁)) :
    ∃ new, s₁.2 = ⟨t :: s.2.context, new ++ (entered (fuel + 1) t s).2.events⟩ ∧
      ∀ e ∈ new, Inside t s.2.context e := by
  obtain ⟨s₂, h₂, -, hj⟩ := (Adds.rule (record_adds fuel) t).ok h
  refine ⟨s₂.2.events, hj, ?_⟩
  obtain ⟨⟨-, hinside⟩, -⟩ := rule_inside fuel t s.2.context
    (startAt s.1 (t :: s.2.context)) ⟨rfl, List.forall_mem_nil _⟩
  change (Eval.rule (record fuel) fuel t).execute (startAt s.1 (t :: s.2.context)) = _ at h₂
  rw [h₂] at hinside
  exact hinside

/-- The names that the evaluation of a tree binds directly: those of the tree itself, and those of
its parts if it opens no scope. -/
theorem Gaining.visited {t : Tree} {new : List Event}
    (hj : s₁.2 = ⟨t :: s.2.context, new ++ (entered (fuel + 1) t s).2.events⟩)
    (hinside : ∀ e ∈ new, Inside t s.2.context e)
    (hgains : (visitAt (fuel + 1) t s).callsFunction = false →
      (∀ e ∈ new, e.visit.callsFunction = false) →
      s.1.store.Gains (t.binds ++ if t.opensScope then [] else boundIn (t :: s.2.context) new)
        s₁.1.store) : ∃ new', Gaining s.2.context new' s (left (fuel + 1) t s (.ok v) s₁) := by
  let visit := visitAt (fuel + 1) t s
  have hself : boundIn s.2.context [.enter visit] = t.binds := by
    simp [boundIn, Event.bindsIn, visit, visitAt]
  have hend : boundIn s.2.context [.leave visit (.ok v) s₁.1] = [] := rfl
  refine ⟨.leave visit (.ok v) s₁.1 :: (new ++ [.enter visit]), ⟨?_, ?_, fun hcalls => ?_⟩⟩
  · simp only [left, hj, entered, List.cons_append, List.append_assoc, List.nil_append, visit]
  · refine List.forall_mem_cons.2 ⟨⟨[], rfl⟩, List.forall_mem_append.2 ⟨fun e he => ?_, ?_⟩⟩
    · obtain ⟨inner, h⟩ := hinside e he
      exact ⟨inner ++ [t], by rw [h, List.append_assoc]; rfl⟩
    · exact List.forall_mem_singleton.2 ⟨[], rfl⟩
  · obtain ⟨hvisit, hnew⟩ := List.forall_mem_cons.1 hcalls
    rw [← List.singleton_append, boundIn_append, boundIn_append, hself, hend, List.append_nil,
      boundIn_inside hinside]
    exact hgains hvisit (List.forall_mem_append.1 hnew).1

/-- A declaration binds its names. -/
theorem rule_declares {t : Tree} {p : Run Unit} (hp : p.BindsNames t.binds)
    (ht : t.opensScope = false) (hrule : Eval.rule (record fuel) fuel t = (do p; return .nothing))
    (h : (Eval.rule (record fuel) fuel t).execute (entered (fuel + 1) t s) = (.ok v, s₁)) :
    ∃ new, Gaining s.2.context new s (left (fuel + 1) t s (.ok v) s₁) := by
  rw [hrule] at h
  obtain ⟨a, s₂, h₂, h₃⟩ := execute_bind_ok h
  obtain ⟨-, rfl⟩ := Prod.mk.inj h₃
  obtain ⟨h₂, hj⟩ := execute_lift_ok h₂
  have hj : s₂.2 = ⟨t :: s.2.context, [] ++ (entered (fuel + 1) t s).2.events⟩ := hj
  refine Gaining.visited hj (List.forall_mem_nil _) fun _ _ => ?_
  rw [ht, if_neg Bool.false_ne_true, boundIn_nil, List.append_nil]
  exact hp _ a _ h₂

/-- Any other tree leaves the scopes to its parts. -/
theorem rule_gains {t : Tree} (hscopes : t.touchesScopes = false)
    (hcall : ∀ f args n, t ≠ .call f args n)
    (ih : ∀ u ∈ t.operands, Gainful (t :: s.2.context) (fun _ => True) (record fuel u))
    (h : (Eval.rule (record fuel) fuel t).execute (entered (fuel + 1) t s) = (.ok v, s₁)) :
    ∃ new, Gaining s.2.context new s (left (fuel + 1) t s (.ok v) s₁) := by
  have hrule : (gaining (t :: s.2.context)).Both (Eval.rule (record fuel) fuel t)
      (Eval.rule (record fuel) fuel t) := by
    refine (gaining _).rule fuel t ih (fun f args n ht => absurd ht (hcall f args n)) fun hs => ?_
    rw [hscopes] at hs
    cases hs
  obtain ⟨⟨new, hnew⟩, -⟩ := hrule _ v s₁ rfl h
  refine Gaining.visited hnew.journal hnew.within fun _ hcalls => ?_
  have hplain : t.binds = [] ∧ t.opensScope = false := by
    cases t with
    | block | varDecl | structDecl | library | function => cases hscopes
    | _ => exact ⟨rfl, rfl⟩
  rw [hplain.1, hplain.2]
  exact hnew.gains hcalls

/-- A block leaves the scopes as they were. -/
theorem block_gains {cs : List Tree} {n : Nat}
    (ih : ∀ u ∈ cs, Gainful (.block cs n :: s.2.context) (fun _ => True) (record fuel u))
    (h : (Eval.rule (record fuel) fuel (.block cs n)).execute (entered (fuel + 1) (.block cs n) s) =
      (.ok v, s₁)) :
    ∃ new, Gaining s.2.context new s (left (fuel + 1) (.block cs n) s (.ok v) s₁) := by
  obtain ⟨new, hj, hinside⟩ := rule_journal h
  refine Gaining.visited hj hinside fun _ hcalls => ?_
  obtain ⟨_, s₂, h₂, h⟩ := execute_bind_ok h
  obtain ⟨w, s₃, h₃, h⟩ := execute_bind_ok h
  obtain ⟨_, s₄, h₄, h⟩ := execute_bind_ok h
  obtain ⟨-, rfl⟩ := Prod.mk.inj h
  obtain ⟨h₂, hj₂⟩ := execute_lift_ok h₂
  obtain ⟨h₄, hj₄⟩ := execute_lift_ok h₄
  have huntil : (gaining (.block cs n :: s.2.context)).Both (Eval.untilJump (record fuel) cs)
      (Eval.untilJump (record fuel) cs) := (gaining _).untilJump ih
  obtain ⟨⟨new', hnew⟩, -⟩ := huntil s₂ w s₃ (by rw [hj₂]; rfl) h₃
  obtain rfl : new' = new := by
    have hevents := hj.symm.trans (hj₄.trans hnew.journal)
    rw [hj₂] at hevents
    exact (List.append_cancel_right (Journal.mk.inj hevents).2).symm
  exact Store.Gains.enclosed (Run.changeStore_ok h₂) (hnew.gains hcalls) (Run.changeStore_ok h₄)

/-- A call of a function of the library leaves the scopes to its arguments. -/
theorem call_gains {f : String} {args : List Tree} {n : Nat}
    (ih : ∀ u ∈ args, Gainful (.call f args n :: s.2.context) (fun _ => True) (record fuel u))
    (h : (Eval.rule (record fuel) fuel (.call f args n)).execute
      (entered (fuel + 1) (.call f args n) s) = (.ok v, s₁)) :
    ∃ new, Gaining s.2.context new s (left (fuel + 1) (.call f args n) s (.ok v) s₁) := by
  obtain ⟨new, hj, hinside⟩ := rule_journal h
  refine Gaining.visited hj hinside fun hself hcalls => ?_
  obtain ⟨vs, s₂, w, m₃, given, h₂, h₃, hcallee⟩ := call_cases h
  have harguments : (gaining (.call f args n :: s.2.context)).Rel
      (fun vs => ∀ v ∈ vs, (gaining (.call f args n :: s.2.context)).Fine v)
      (Eval.arguments (record fuel) args) (Eval.arguments (record fuel) args) :=
    (gaining _).arguments ih
  obtain ⟨⟨new', hnew⟩, -⟩ := harguments _ vs s₂ rfl h₂
  rw [Visit.callsFunction, Visit.callee?_eq rfl rfl rfl h₂ h₃] at hself
  obtain ⟨b, rfl, h₄, hj₄⟩ | ⟨type, name, params, body, rfl, -⟩ := hcallee
  · obtain rfl : new' = new := by
      have hevents := hj.symm.trans (hj₄.trans hnew.journal)
      exact (List.append_cancel_right (Journal.mk.inj hevents).2).symm
    have hread := (Run.readName_keeps (F := fun _ => True) (fun _ _ => trivial) f).sameScopes h₃
    have hcall := (Eval.callBuiltin_keeps (F := fun _ => True) (fun _ _ => trivial) b
      given).sameScopes h₄
    have hrest := (hread.gains.trans hcall.gains)
    have hall := (hnew.gains hcalls).trans hrest
    rw [List.append_nil, List.append_nil] at hall
    exact hall
  · cases hself

/-- An evaluation that comes to its end gains what is declared directly. -/
theorem record_gains (fuel : Nat) (t : Tree) (c : List Tree) :
    Gainful c (fun _ => True) (record fuel t) := by
  induction fuel generalizing t c with
  | zero => exact fun s v s' _ h => by cases h
  | succ fuel ih =>
    intro s v s' hc h
    refine ⟨?_, trivial⟩
    subst hc
    obtain ⟨s₁, hrule, rfl⟩ := execute_record_ok h
    cases t with
    | block cs n => exact block_gains (fun u _ => ih u _) hrule
    | call f args n => exact call_gains (fun u _ => ih u _) hrule
    | varDecl u type n => exact rule_declares (Eval.declare_bindsNames u type n) rfl rfl hrule
    | structDecl name fields mark n =>
      exact rule_declares (Eval.defineStruct_bindsName name fields).bindsNames rfl rfl hrule
    | library name n => exact rule_declares (Eval.includeLibrary_bindsNames name n) rfl rfl hrule
    | function type name params body n =>
      exact rule_declares (Eval.define_bindsName name _).bindsNames rfl rfl hrule
    | _ => exact rule_gains rfl (by rintro _ _ _ ⟨⟩) (fun u _ => ih u _) hrule

end Recorded

/-- An evaluation that comes to its end in a function, without a call of a function of the program,
leaves the frames, the chain of scopes and all tables of names as they are, but for the innermost
scope, which gets one binding after the other for the names that are declared directly in it. -/
theorem scopes_after_statement {v : Visit} {w : Value} {m' : Machine} {f : Frame} {fs : List Frame}
    (hf : v.before.store.frames = f :: fs)
    (hr : (Eval.eval v.fuel v.tree).execute v.before = (.ok w, m'))
    (hcalls : ∀ e ∈ v.events, e.visit.callsFunction = false) :
    m'.store.globals = v.before.store.globals ∧
      ∃ bs : List (String × Binding), bs.map Prod.fst = v.declares ∧
        m'.store.frames = f.bindAll bs :: fs := by
  have hrec := record_eval v.fuel v.tree (v.before, ⟨v.context, []⟩)
  rw [hr] at hrec
  obtain ⟨hw, hm'⟩ := Prod.mk.inj hrec
  obtain ⟨⟨new, hnew⟩, -⟩ := Recorded.record_gains v.fuel v.tree v.context _ w _ rfl
    (Prod.ext hw.symm rfl)
  have hevents : v.events = new := by
    rw [Visit.events, hnew.journal]
    exact List.append_nil new
  rw [← hevents] at hnew
  obtain ⟨hglobals, bs, hbs, hframes⟩ := hnew.gains hcalls f fs hf
  rw [← hm'] at hglobals hframes
  exact ⟨hglobals, bs, hbs, hframes⟩

/-- A switch that declares `y`, and `z` in a block from which it is left. -/
theorem scopes_after_statement_switch :
    ∃ program v f fs w m', Program.parse
        "int main()\x7b switch (1) \x7b case 1: int y; \x7b int z; break; \x7d \x7d return 0; \x7d" =
        .ok program ∧
      Event.enter v ∈ history 20 program (Machine.start "") ∧ v.before.store.frames = f :: fs ∧
      (Eval.eval v.fuel v.tree).execute v.before = (.ok w, m') ∧
      ∃ bs : List (String × Binding), bs.map Prod.fst = ["y"] ∧
        m'.store.frames = f.bindAll bs :: fs := by
  have hrun : ((Program.parse
      "int main()\x7b switch (1) \x7b case 1: int y; \x7b int z; break; \x7d \x7d return 0; \x7d"
        ).toOption.any fun t => (Analysis.analyze t).1.isOk &&
          (history 20 t (Machine.start "")).any fun e => e.entered?.any fun v =>
            !v.before.store.frames.isEmpty && v.events.all (!·.visit.callsFunction) &&
              v.declares == ["y"] && ((Eval.eval v.fuel v.tree).execute v.before).1.isOk) = true := by
    decide +kernel
  obtain ⟨program, hp, -, v, hv, hcheck⟩ := Program.exists_visit hrun
  simp only [Bool.and_eq_true, Bool.not_eq_true', List.all_eq_true, beq_iff_eq] at hcheck
  obtain ⟨⟨⟨hframes, hcalls⟩, hnames⟩, hok⟩ := hcheck
  obtain ⟨w, m', hr⟩ := Run.exists_of_isOk hok
  cases hf : v.before.store.frames with
  | nil =>
    rw [hf] at hframes
    cases hframes
  | cons f fs =>
    refine ⟨program, v, f, fs, w, m', hp, hv, hf, hr, ?_⟩
    rw [← hnames]
    exact (scopes_after_statement hf hr hcalls).2

end MiniC
