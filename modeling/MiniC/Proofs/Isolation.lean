import MiniC.Proofs.Guarded
import MiniC.Proofs.Lookup

/-!
# Calls leave their callers alone

In an accepted program without structures, in which nothing is written through a pointer and no
function of the library is called that is given the memory, a function that is called cannot reach
the variables of the functions that wait for it: from its first to its last moment the frames below
its own have the same bindings, and their cells hold the same values.
-/

namespace MiniC

open Eval (callMain)

/-! ## Evaluation -/

def Event.machine : Event → Machine
  | enter v => v.before
  | leave _ _ m => m

structure Watched (p : Tree) (s₀ : Store) (E : Event → Prop) (s : Machine × Journal) : Prop where
  guarded : Store.Guarded p s₀ s.1.store
  seen : ∀ e ∈ s.2.events, E e

theorem Watched.lift {p : Tree} {s₀ : Store} {E : Event → Prop} {α : Type} {Q : α → Prop}
    {q : Run α} (hq : q.Preserves (Store.Guarded p s₀) Q) :
    Recorded.Keeps (Watched p s₀ E) Q (liftM q) := by
  intro s hs
  obtain ⟨hguarded, hQ⟩ := hq s.1 hs.guarded
  exact ⟨⟨hguarded, hs.seen⟩, hQ⟩

def watching (p : Tree) (s₀ : Store) (E : Event → Prop) : Following Recorded Recorded where
  Fine := Value.Ordinary p
  Target t := t.isDirect = true
  Allows Q q := q.Preserves (Store.Guarded p s₀) Q
  Rel Q q _ := Recorded.Keeps (Watched p s₀ E) Q q
  pure ha := .pure ha
  bind hp hf := hp.bind hf
  lift hq := Watched.lift hq
  simple _ hv := Value.ordinary_of_isSimple hv
  jump _ := trivial
  ofExcept h := .ofExcept h
  makeNumber := .makeNumber
  readName := Run.readName_guards
  readAt := Run.readAt_guards
  step f _ ht := Eval.step_guards f ht
  behind ht := (Eval.guarding p s₀).behind fun hop f => Eval.step_guards f (ht hop)
  literal := (Eval.guarding p s₀).literal
  convert := (Eval.guarding p s₀).convert
  arrow := (Eval.guarding p s₀).arrow
  combine := (Eval.guarding p s₀).combine
  referTo := (Eval.guarding p s₀).referTo
  dereference := (Eval.guarding p s₀).dereference
  negate := (Eval.guarding p s₀).negate
  assigned := (Eval.guarding p s₀).assigned
  fieldValue := (Eval.guarding p s₀).fieldValue

/-- Only variables and fields are assigned to, nothing that the root of a tree declares is of a
structure, and what it calls is not given the memory. -/
def Tree.Tame : Tree → Prop
  | .assign t _ _ _ => t.isDirect = true
  | .unary op e _ _ => op.kind = .incOp ∨ op.kind = .decOp → e.isDirect = true
  | .call f _ _ => Eval.takesMemory f = false
  | .varDecl _ t _ => ∀ s, t.type? ≠ some (.struct s)
  | .structDecl .. => False
  | _ => True

theorem Tree.Tame.admits {p t : Tree} {s₀ : Store} {E : Event → Prop} (h : t.Tame) :
    (watching p s₀ E).Admits t := by
  cases t with
  | unary => exact h
  | _ => trivial

section

variable {p : Tree}

theorem Tree.Reachable.tame (hp : ∀ u : Tree, u.Within p → u.Tame) {t : Tree}
    (ht : p.Reachable t) : t.Tame := by
  obtain ht | rfl := ht
  · exact hp t ht
  · rfl

/-- A call of a function spares the store of its caller, if the evaluation of the body guards the
frames of the caller. -/
theorem callFunction_spares {fuel : Nat} {E : Event → Prop} {type : Tree} {name : String}
    {params : List Tree} {body : Tree} {args : List Value} {s : Machine × Journal}
    (hbody : Recorded.Keeps (Watched p s.1.store E) (Value.Ordinary p) (record fuel body))
    (hlaid : ∃ ns, s.1.store.Laid ns) (hholds : s.1.store.Holds (Value.Ordinary p))
    (ha : ∀ v ∈ args, v.Ordinary p) (hE : ∀ e ∈ s.2.events, E e) {r : Except Fault Value}
    {s' : Machine × Journal}
    (h : (Eval.callFunction (record fuel) type name params body args).execute s = (r, s')) :
    Store.Spared p s.1.store s'.1.store ∧ (∀ e ∈ s'.2.events, E e) ∧
      ∀ v, r = .ok v → v.Ordinary p := by
  have hentered := Eval.enterFunction_guarded name params ha hlaid hholds
  rw [Eval.callFunction, Recorded.execute_bind, Recorded.execute_lift] at h
  cases h₁ : (Eval.enterFunction name params args).execute s.1 with
  | mk r₁ m₁ =>
    rw [h₁] at h hentered
    cases r₁ with
    | error e =>
      obtain ⟨rfl, rfl⟩ := Prod.mk.inj h
      exact ⟨hentered.spared, hE, fun _ hv => by cases hv⟩
    | ok u =>
      obtain ⟨hwatched, -⟩ := hbody (m₁, s.2) ⟨hentered, hE⟩
      simp only [Recorded.execute_bind] at h
      cases h₂ : (record fuel body).execute (m₁, s.2) with
      | mk r₂ s₂ =>
        rw [h₂] at h hwatched
        cases r₂ with
        | error e =>
          obtain ⟨rfl, rfl⟩ := Prod.mk.inj h
          exact ⟨hwatched.guarded.spared, hwatched.seen, fun _ hv => by cases hv⟩
        | ok w =>
          obtain ⟨rfl, rfl⟩ := Prod.mk.inj h
          obtain ⟨hspared, hv⟩ := Eval.leaveFunction_spares type w hwatched.guarded
          exact ⟨hspared, hwatched.seen, hv⟩

theorem scopes_watched {fuel : Nat} {s₀ : Store} {E : Event → Prop} {t : Tree} (htame : t.Tame)
    (ht : p.Reachable t)
    (hop : ∀ u ∈ t.operands, (watching p s₀ E).Both (record fuel u) (record fuel u))
    (hs : t.touchesScopes = true) :
    (watching p s₀ E).Both (Eval.rule (record fuel) fuel t) (Eval.rule (record fuel) fuel t) := by
  let C := watching p s₀ E
  cases t with
  | block cs =>
    refine C.bind (C.lift Run.pushScope_guards) fun _ _ => C.bind (C.untilJump hop) fun v hv => ?_
    exact C.bind (C.lift Run.popScope_guards) fun _ _ => C.pure hv
  | varDecl v type =>
    exact C.bind (C.lift (Eval.declare_guards v htame)) fun _ _ => C.nothing
  | structDecl => exact htame.elim
  | library l => exact C.bind (C.lift (Eval.includeLibrary_guards l)) fun _ _ => C.nothing
  | function type name params body n =>
    obtain ht | ht := ht
    · exact C.bind (C.lift (Eval.define_guards name ⟨n, ht⟩)) fun _ _ => C.nothing
    · cases ht
  | _ => cases hs

theorem record_watched (hp : ∀ u : Tree, u.Within p → u.Tame) (fuel : Nat) {s₀ : Store}
    {E : Event → Prop}
    (hE : ∀ e : Event, e.visit.fuel ≠ 0 → Store.Guarded p s₀ e.machine.store → E e) {t : Tree}
    (ht : p.Reachable t) :
    Recorded.Keeps (Watched p s₀ E) (Value.Ordinary p) (record fuel t) := by
  induction fuel generalizing s₀ E t with
  | zero => exact .throw _
  | succ fuel ih =>
    have hcalls : (watching p s₀ E).Calls (record fuel) (record fuel) := by
      intro type name params body args hf ha
      obtain ⟨n, hn⟩ := hf
      have hreach : p.Reachable body := .inl (hn.ofPart (by simp [Tree.parts]))
      intro s hs
      -- The frames below the caller are below those of the caller.
      have hbody : Recorded.Keeps (Watched p s.1.store E) (Value.Ordinary p) (record fuel body) :=
        ih (fun e hfuel h => hE e hfuel (h.spared.guarded s₀ hs.guarded)) hreach
      obtain ⟨hspared, hseen, hv⟩ :=
        callFunction_spares hbody hs.guarded.laid hs.guarded.holds ha hs.seen rfl
      exact ⟨⟨hspared.guarded s₀ hs.guarded, hseen⟩, hv⟩
    have htame := ht.tame hp
    have hrule : (watching p s₀ E).Both (Eval.rule (record fuel) fuel t)
        (Eval.rule (record fuel) fuel t) := by
      refine (watching p s₀ E).rule fuel t htame.admits (fun u hu => ih hE (ht.operand hu)) ?_ ?_ ?_
      · rintro target op v n rfl
        refine (watching p s₀ E).assign (Eval.place_guards htame) (fun a w ha hw => ?_) op
          (ih hE (ht.operand (List.mem_singleton.2 rfl)))
        exact Run.writeAt_guards ha hw
      · rintro f args n rfl
        refine (watching p s₀ E).call hcalls (fun b vs hvs => Eval.callBuiltin_guards b hvs)
          (fun hm => ?_) fun a ha => ih hE (ht.operand ha)
        rw [show Eval.takesMemory f = false from htame] at hm
        cases hm
      · exact scopes_watched htame ht fun u hu => ih hE (ht.operand hu)
    refine .record hrule (fun s hs => ⟨hs.guarded, ?_⟩) fun s r s' _ hs' => ⟨hs'.guarded, ?_⟩
    · exact List.forall_mem_cons.2 ⟨hE _ (Nat.succ_ne_zero _) hs.guarded, hs.seen⟩
    · exact List.forall_mem_cons.2 ⟨hE _ (Nat.succ_ne_zero _) hs'.guarded, hs'.seen⟩

/-! ## Whole runs -/

theorem Store.guarded_empty (p : Tree) : Guarded p Store.empty Store.empty :=
  ⟨⟨[], laid_empty⟩, holds_empty _, ⟨[], rfl, .inl rfl⟩, fun _ _ => rfl⟩

/-- Nothing is lost when the frame of a program without frames below is popped. -/
theorem Run.popFrame_guards : Run.Preserves (Store.Guarded p Store.empty) (fun _ => True)
    (Run.changeStore Store.popFrame) :=
  .changeStore fun _ _ hs hpop => (hs.spared_popFrame hpop).guarded _ (Store.guarded_empty p)

/-- The store is in order and steps are left whenever something happens in the run of a program. -/
theorem history_guarded (hp : ∀ u : Tree, u.Within p → u.Tame) {fuel : Nat} {m : Machine}
    (hm : m.store = Store.empty) {e : Event} (he : e ∈ history fuel p m) :
    e.visit.fuel ≠ 0 ∧ Store.Guarded p Store.empty e.machine.store := by
  let E (e : Event) : Prop := e.visit.fuel ≠ 0 ∧ Store.Guarded p Store.empty e.machine.store
  have hrecord {t : Tree} (ht : p.Reachable t) :
      Recorded.Keeps (Watched p Store.empty E) (Value.Ordinary p) (record fuel t) :=
    record_watched hp fuel (fun _ hfuel h => ⟨hfuel, h⟩) ht
  have hrun : Recorded.Keeps (Watched p Store.empty E) (fun _ => True)
      (Eval.executeBy (record fuel) p) := by
    refine (hrecord (.inl (.self p))).bind fun _ _ => ?_
    refine (Watched.lift (Run.pushFrame_guards "main")).bind fun _ _ => ?_
    refine (hrecord (.inr rfl)).bind fun v _ => ?_
    refine (Watched.lift Run.popFrame_guards).bind fun _ _ => ?_
    exact Watched.lift (.ofExcept fun _ _ => trivial)
  have hstart : Watched p Store.empty E (m, .empty) :=
    ⟨hm ▸ Store.guarded_empty p, List.forall_mem_nil _⟩
  exact (hrun _ hstart).1.seen e he

end

/-! ## Programs that are tame -/

/-- Whether the root of a tree brings in no structure, writes through no pointer, and calls no
function of the library that is given the memory. -/
def Tree.isContained : Tree → Bool
  | .structDecl .. => false
  | .structName .. => false
  | .assign (.unary op ..) .. => op.kind != .asterisk
  | .unary op (.unary op' ..) .. =>
    (op.kind != .incOp && op.kind != .decOp) || op'.kind != .asterisk
  | .call f .. => !(["scanf", "malloc", "free"].contains f)
  | _ => true

/-- What is a place without being behind a pointer is a variable or a field. -/
theorem Tree.isDirect_of_isPlace {t : Tree} (h : Analysis.isPlace t = .ok true)
    (ht : ∀ op e b n, t = .unary op e b n → op.kind ≠ .asterisk) : t.isDirect = true := by
  cases t with
  | var => rfl
  | field => rfl
  | unary op e b n =>
    cases e with
    | var => exact absurd (of_decide_eq_true (Except.ok.inj h)) (ht op _ b n rfl)
    | _ => cases h
  | _ => cases h

theorem Tree.Grammatical.number_of_typeName {k : Category} {t : VarType} {n : Nat}
    (h : Grammatical k (.typeName t n)) : ∃ c, t = .number c := by
  cases h.own with
  | typeName c => exact ⟨c, rfl⟩

theorem Analysis.tame_of_accepted {program : Tree} (hp : program.Grammatical .program)
    (ha : (analyze program).1.isOk = true)
    (hc : ∀ u : Tree, u.Within program → u.isContained = true) {u : Tree}
    (hu : u.Within program) : u.Tame := by
  have hcontained := hc u hu
  cases u with
  | assign t op v n =>
    refine Tree.isDirect_of_isPlace (isPlace_target hp ha hu) ?_
    rintro op e b n rfl
    simpa [Tree.isContained] using hcontained
  | unary op e b n =>
    intro hop
    refine Tree.isDirect_of_isPlace (isPlace_operand hp ha hu hop) ?_
    rintro op' e b n rfl
    obtain hop | hop := hop
    · simpa [Tree.isContained, hop] using hcontained
    · simpa [Tree.isContained, hop] using hcontained
  | call f args n =>
    change Eval.takesMemory f = false
    simpa [Tree.isContained, Eval.takesMemory, and_assoc] using hcontained
  | varDecl v t n =>
    intro s hs
    have ht : t.Within program := hu.ofPart (by simp [Tree.parts])
    cases t with
    | typeName t n =>
      obtain ⟨j, hj⟩ := ht.grammatical hp
      obtain ⟨c, rfl⟩ := hj.number_of_typeName
      cases hs
    | structName => cases hc _ ht
    | _ => cases hs
  | structDecl => cases hcontained
  | _ => trivial

/-! ## Calls -/

/-- The store right before the frame of a function is pushed, and what has happened until then: the
arguments have been evaluated, and the name has been looked up. -/
def Visit.calling? (v : Visit) : Option (Store × List Event) :=
  match v.tree with
  | .call f args _ =>
    match (Eval.arguments (record (v.fuel - 1)) args).execute
        (v.before, ⟨v.tree :: v.context, [.enter v]⟩) with
    | (.ok _, s) => some (((Run.readName f).execute s.1).2.store, s.2.events)
    | (.error _, _) => none
  | _ => none

/-- What is called has been evaluated behind the arguments. -/
theorem Visit.arguments_of_callee? {v : Visit} {fuel n : Nat} {f : String} {args : List Tree}
    {w : Value} (ht : v.tree = .call f args n) (hfuel : v.fuel = fuel + 1)
    (hw : v.callee? = some w) (j : Journal) :
    ∃ vs s₁ m₂, (Eval.arguments (record fuel) args).execute (v.before, j) = (.ok vs, s₁) ∧
      (Run.readName f).execute s₁.1 = (.ok w, m₂) := by
  have hplain := record_arguments fuel args (v.before, j)
  simp only [callee?, ht, hfuel, Nat.add_sub_cancel, hplain] at hw
  cases h : (Eval.arguments (record fuel) args).execute (v.before, j) with
  | mk r s₁ =>
    rw [h] at hw
    cases r with
    | error e => cases hw
    | ok vs =>
      dsimp only at hw
      cases hr : (Run.readName f).execute s₁.1 with
      | mk r m₂ =>
        rw [hr] at hw
        cases r with
        | error e => cases hw
        | ok w' =>
          obtain rfl := Option.some.inj hw
          exact ⟨vs, s₁, m₂, rfl, hr⟩

/-- What happens in a call of a function, behind the evaluation of the arguments. -/
theorem call_events {fuel n : Nat} {f : String} {args : List Tree} {context : List Tree}
    {m m₂ : Machine} {vs : List Value} {s₁ : Machine × Journal} {type : Tree} {name : String}
    {params : List Tree} {body : Tree} (hf : Eval.takesMemory f = false)
    (hargs : (Eval.arguments (record fuel) args).execute
      (Recorded.entered (fuel + 1) (.call f args n) (Recorded.startAt m context)) = (.ok vs, s₁))
    (hname : (Run.readName f).execute s₁.1 = (.ok (.function type name params body), m₂))
    {r : Except Fault Value} {s : Machine × Journal}
    (h : (Eval.callFunction (record fuel) type name params body vs).execute
      (Recorded.startAt m₂ s₁.2.context) = (r, s)) :
    Visit.events ⟨context, fuel + 1, .call f args n, m⟩ =
      .leave ⟨context, fuel + 1, .call f args n, m⟩ r s.1 :: (s.2.events ++ s₁.2.events) := by
  have hadd := ((Recorded.Adds.callFunction (Recorded.record_adds fuel) type name params body vs)
    m₂ s₁.2.context).1 s₁.2.events
  rw [h] at hadd
  have hrule : (Eval.rule (record fuel) fuel (.call f args n)).execute
      (Recorded.entered (fuel + 1) (.call f args n) (Recorded.startAt m context)) =
      (r, s.1, ⟨s₁.2.context, s.2.events ++ s₁.2.events⟩) := by
    change (Eval.call (record fuel) f args).execute _ = _
    simp only [Eval.call, Eval.callName, Recorded.execute_bind, hargs, Recorded.execute_lift, hname,
      hf]
    exact hadd
  rw [Visit.events, Recorded.execute_record, hrule]
  rfl

/-- In the run of an accepted program of contained trees, a function that is called leaves the
frames that are there when its own is pushed as they are, with the bindings in their scopes and the
values of the cells that they name: while anything happens in it, and when the call ends. -/
theorem call_isolated {code : String} {program : Tree} (hp : Program.parse code = .ok program)
    (ha : (Analysis.analyze program).1.isOk = true)
    (hc : ∀ u : Tree, u.Within program → u.isContained = true) {fuel : Nat} {m : Machine}
    (hm : m.store = Store.empty) {v : Visit} (hv : .enter v ∈ history fuel program m)
    (hcall : v.callsFunction = true) :
    ∃ s earlier inside r after, v.calling? = some (s, earlier) ∧
      v.events = .leave v r after :: (inside ++ earlier) ∧
      (∀ e ∈ inside, s.Untouched e.machine.store) ∧ s.Untouched after.store := by
  have hg := Program.parse_grammatical hp
  have htame (u : Tree) (hu : u.Within program) : u.Tame := Analysis.tame_of_accepted hg ha hc hu
  obtain ⟨hfuel, hguarded⟩ := history_guarded htame hm hv
  obtain ⟨hreach, -⟩ : program.Reachable v.tree ∧ _ := history_sound hm hv
  obtain ⟨type, name, params, body, hcallee⟩ := Visit.callee?_of_callsFunction hcall
  obtain ⟨f, args, n, ht⟩ := Visit.isCall_of_callee? hcallee
  obtain ⟨context, depth, tree, before⟩ := v
  dsimp only at hreach ht
  subst ht
  obtain ⟨depth, rfl⟩ := Nat.exists_eq_succ_of_ne_zero hfuel
  obtain ⟨vs, s₁, m₂, hargs, hname⟩ := Visit.arguments_of_callee? rfl rfl hcallee
    (Recorded.entered (depth + 1) (.call f args n) (Recorded.startAt before context)).2
  -- The arguments and the lookup of the name keep the store in order.
  let C := watching program Store.empty fun _ => True
  have hrecord (a : Tree) (ha : a ∈ args) : C.Both (record depth a) (record depth a) :=
    record_watched htame depth (fun _ _ _ => trivial) (hreach.operand ha)
  obtain ⟨hwatched, hvs⟩ := C.arguments hrecord (before, _) ⟨hguarded, fun _ _ => trivial⟩
  rw [hargs] at hwatched hvs
  obtain ⟨hguarded₂, hfunction⟩ := Run.readName_guards f s₁.1 hwatched.guarded
  rw [hname] at hguarded₂ hfunction
  obtain ⟨i, hi⟩ := hfunction _ rfl
  have hbody : program.Reachable body := .inl (hi.ofPart (by simp [Tree.parts]))
  -- Then the function spares the store.
  obtain ⟨hspared, hinside, -⟩ := callFunction_spares (s := Recorded.startAt m₂ s₁.2.context)
    (E := fun e => m₂.store.Untouched e.machine.store)
    (record_watched htame depth (fun _ _ h => h.untouched) hbody) hguarded₂.laid hguarded₂.holds
    (hvs vs rfl) (List.forall_mem_nil _) rfl
  refine ⟨m₂.store, s₁.2.events, _, _, _, ?_, call_events (hreach.tame htame) hargs hname rfl,
    hinside, hspared.untouched⟩
  have hstart : (Eval.arguments (record depth) args).execute
      (before, ⟨.call f args n :: context, [.enter ⟨context, depth + 1, .call f args n, before⟩]⟩) =
      (.ok vs, s₁) := hargs
  simp only [Visit.calling?, Nat.succ_eq_add_one, Nat.add_sub_cancel, hstart, hname]

/-- A function that calls itself changes its own parameter, and not that of its caller. -/
theorem call_isolated_recursive : ∃ program v s earlier inside r after a,
    Program.parse
      "int f(int n)\x7b if (n) f(n - 1); n = 7; return n; \x7d int main()\x7b return f(1); \x7d" =
      .ok program ∧ (Analysis.analyze program).1.isOk = true ∧
    (∀ u : Tree, u.Within program → u.isContained = true) ∧
    .enter v ∈ history 20 program (Machine.start "") ∧ v.callsFunction = true ∧
    v.calling? = some (s, earlier) ∧ v.events = .leave v r after :: (inside ++ earlier) ∧
    a ∈ s.frameAddresses ∧ after.store.read? a = s.read? a := by
  have hrun : ((Program.parse
      "int f(int n)\x7b if (n) f(n - 1); n = 7; return n; \x7d int main()\x7b return f(1); \x7d"
      ).toOption.any fun t => (Analysis.analyze t).1.isOk &&
        (t.allTo Tree.isContained 20 && (history 20 t (Machine.start "")).any fun e =>
          e.entered?.any fun v => v.callsFunction && v.calling?.any fun c =>
            !c.1.frameAddresses.isEmpty)) = true := by
    decide +kernel
  obtain ⟨program, hp, ha, hrest⟩ := Program.exists_accepted hrun
  simp only [Bool.and_eq_true, List.any_eq_true, Option.any_eq_true] at hrest
  obtain ⟨hall, e, he, v, hv, hcall, ⟨s', earlier'⟩, hcalling, hnonempty⟩ := hrest
  have hc (u : Tree) (hu : u.Within program) : u.isContained = true := Tree.all_of_allTo hall hu
  have hvisit : .enter v ∈ history 20 program (Machine.start "") := by
    cases e with
    | enter => exact Option.some.inj hv ▸ he
    | leave => cases hv
  obtain ⟨s, earlier, inside, r, after, hcaller, hevents, -, huntouched⟩ :=
    call_isolated hp ha hc rfl hvisit hcall
  obtain ⟨rfl, -⟩ := Prod.mk.inj (Option.some.inj (hcalling.symm.trans hcaller))
  obtain ⟨a, ha'⟩ := List.exists_mem_of_ne_nil s'.frameAddresses (by simpa using hnonempty)
  exact ⟨program, v, s', earlier, inside, r, after, a, hp, ha, hc, hvisit, hcall, hcaller, hevents,
    ha', huntouched.2 a ha'⟩

end MiniC
