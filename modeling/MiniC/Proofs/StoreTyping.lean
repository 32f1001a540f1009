import MiniC.Proofs.LiveCells

/-!
# Cells of declared names keep their types

The cell of a variable holds a number of the type of the variable from its declaration on. The cell
of a parameter has the value of its argument, which is not converted, and keeps the type of this
value. So a parameter has the type that it is declared with only if the argument has it.
-/

namespace MiniC

open Recorded (Inside)

/-! ## Declared names -/

/-- A name of an arithmetic type has just been declared, and the first value in its cell has a type:
that of the name if it is a variable, and that of the argument if it is a parameter. A variable is
declared when its declaration has been executed, and a parameter when the body of its function
begins, inside the call that is being evaluated. -/
inductive Declares (name : String) (t : CType) : Option CType → Event → List Event → Prop
  | ofVariable {u : Visit} {r : Value} {m : Machine} {before : List Event} {k : Token} {i j n : Nat}
      (htree : u.tree = .varDecl (.var k i) (.typeName (.number t) j) n)
      (hname : k.value.render = name) : Declares name t (some t) (.leave u (.ok r) m) before
  | ofParameter {u w : Visit} {inside earlier : List Event} {type : Tree} {f : String}
      {ps : List Tree} {vs : List Value} {m : Machine} {k : Token} {i j n : Nat} {v : Value}
      (hbody : u.tree.isBody = true) (hcontext : u.context = w.tree :: w.context)
      (hinside : ∀ e ∈ inside, Inside w.tree w.context e)
      (hcall : w.request? = some (.function type f ps u.tree, vs, m))
      (hparam : (.param (.typeName (.number t) j) (.var k i) n, v) ∈ ps.zip vs)
      (hname : k.value.render = name) :
      Declares name t v.type? (.enter u) (inside ++ .enter w :: earlier)

theorem Store.Lasting.map {β : Type} {f : Value → β} {s : Store} {a : Int} {v : Value}
    (h : s.Lasting id a v) : s.Lasting f a (f v) := by
  obtain ⟨w, hw, rfl⟩ := h.cell
  exact ⟨h.taken, h.fixed, w, hw, rfl⟩

/-- The cell of a variable that has just been declared. -/
theorem variable_lasting {u : Visit} {r : Value} {m : Machine} {t : CType} {k : Token} {i j n : Nat}
    (htree : u.tree = .varDecl (.var k i) (.typeName (.number t) j) n)
    (hrun : (Eval.eval u.fuel u.tree).execute u.before = (.ok r, m))
    (hordered : u.before.store.Ordered) :
    ∃ a, m.store.lookup k.value.render = .ok (.at (.int a)) ∧
      m.store.Lasting Value.type? a (some t) := by
  rw [htree] at hrun
  cases hfuel : u.fuel with
  | zero =>
    rw [hfuel] at hrun
    cases hrun
  | succ fuel =>
    rw [hfuel] at hrun
    obtain ⟨x, m₁, hdeclare, hpure⟩ : ∃ x m₁,
        (Run.declareNumber t k.value.render).execute u.before = (.ok x, m₁) ∧
          (pure Value.nothing : Run Value).execute m₁ = (.ok r, m) := Run.execute_bind_ok hrun
    obtain ⟨-, rfl⟩ := Prod.mk.inj hpure
    obtain ⟨next, hnext, hdynamic⟩ := hordered
    obtain ⟨v, hbegins, htype⟩ := Run.declareNumber_begins hnext hdeclare
    refine ⟨next, hbegins.lookup, ?_⟩
    rw [← htype]
    exact (hbegins.lasting hnext ⟨next, hnext, hdynamic⟩).map

/-- A scope of an accepted program has no two parameters of a name. -/
theorem Analysis.parameters_nodup {program : Tree} (hp : program.Grammatical .program)
    (ha : (analyze program).1.isOk = true) {type body : Tree} {f : String} {ps : List Tree}
    (hf : (Value.function type f ps body).DeclaredIn program) :
    (∀ q ∈ ps, q.Grammatical .parameter) ∧ (namesOf (declarationsOf ps)).Nodup := by
  obtain ⟨n, hn⟩ := hf
  constructor
  · obtain ⟨k, hk⟩ := hn.grammatical hp
    exact hk.function_parameters
  · obtain ⟨⟨Γ, l, w, t⟩, hq, htree⟩ := Place.exists_occurs (o := .executed) hp hn rfl
    obtain rfl : t = _ := htree
    have hfine : (namesOf (declarationsOf ps ++ body.declarations)).Nodup :=
      (accepted_places hp ha hq).1
    rw [namesOf, List.map_append] at hfine
    exact (List.nodup_append.1 hfine).1

/-- The call in which a body is begun is the innermost one that is being evaluated. -/
theorem enter_unique {inside inside' earlier earlier' : List Event} {w w' : Visit}
    (h : inside ++ .enter w :: earlier = inside' ++ .enter w' :: earlier')
    (hw : w.tree :: w.context = w'.tree :: w'.context)
    (hin : ∀ e ∈ inside, Inside w.tree w.context e)
    (hin' : ∀ e ∈ inside', Inside w'.tree w'.context e) : w = w' := by
  have hself {x y : Visit} (hxy : x.tree :: x.context = y.tree :: y.context)
      (hx : Inside y.tree y.context (.enter x)) : False := by
    obtain ⟨inner, hinner⟩ := hx
    have hlength := congrArg List.length hinner
    have hsame := congrArg List.length hxy
    simp only [Event.visit, List.length_append, List.length_cons] at hlength hsame
    omega
  obtain ⟨rest, rfl, hrest⟩ | ⟨rest, rfl, hrest⟩ := List.append_eq_append_iff.1 h
  · cases rest with
    | nil => exact Event.enter.inj (List.cons.inj hrest).1
    | cons e rest =>
      obtain ⟨rfl, -⟩ := List.cons.inj hrest
      exact (hself hw (hin' _ (by simp))).elim
  · cases rest with
    | nil => exact (Event.enter.inj (List.cons.inj hrest).1).symm
    | cons e rest =>
      obtain ⟨rfl, -⟩ := List.cons.inj hrest
      exact (hself hw.symm (hin _ (by simp))).elim

/-- The cell of a parameter when the body of its function begins. -/
theorem parameter_lasting {program : Tree} (hp : program.Grammatical .program)
    (ha : (Analysis.analyze program).1.isOk = true) {u w : Visit} {inside earlier : List Event}
    {type : Tree} {f : String} {ps : List Tree} {vs : List Value} {m : Machine} {t : CType}
    {k : Token} {i j n : Nat} {v : Value}
    (hbegun : Begun program u (inside ++ .enter w :: earlier))
    (hcontext : u.context = w.tree :: w.context)
    (hinside : ∀ e ∈ inside, Inside w.tree w.context e)
    (hcall : w.request? = some (.function type f ps u.tree, vs, m))
    (hparam : (.param (.typeName (.number t) j) (.var k i) n, v) ∈ ps.zip vs)
    (hall : Allotted (inside ++ .enter w :: earlier)) :
    ∃ a, u.before.store.lookup k.value.render = .ok (.at (.int a)) ∧
      u.before.store.Lasting Value.type? a v.type? := by
  obtain ⟨inside', w', earlier', type', f', ps', vs', m', hevents, hinside', hcontext', hcall',
    henter, hdeclared, hordered⟩ := hbegun
  obtain rfl : w = w' :=
    enter_unique hevents (hcontext.symm.trans hcontext') hinside hinside'
  obtain ⟨hfunction, hgiven⟩ := Prod.mk.inj (Option.some.inj (hcall.symm.trans hcall'))
  obtain ⟨rfl, rfl⟩ := Prod.mk.inj hgiven
  obtain ⟨rfl, rfl, rfl, -⟩ := Value.function.inj hfunction
  obtain ⟨hps, hnames⟩ := Analysis.parameters_nodup hp ha hdeclared
  obtain ⟨x, m₁, hpush, hbind⟩ := Run.execute_bind_ok henter
  have honward := (Run.pushFrame_onward f m (.refl id m.store)).1
  rw [hpush] at honward
  obtain ⟨a, hlookup, hlasting⟩ :=
    Eval.bindParams_lasting hps hnames (honward.ordered (hordered hall)) hbind hparam
  exact ⟨a, hlookup, hlasting.map⟩

/-- What a declared name stands for when it has just been declared. -/
theorem Declares.lasting {program : Tree} (hp : program.Grammatical .program)
    (ha : (Analysis.analyze program).1.isOk = true) {e : Event} {before : List Event}
    (hfair : Fair program e before) {name : String} {t : CType} {o : Option CType}
    (h : Declares name t o e before) (hall : Allotted before) :
    Calm e.behind ∧ ∃ a, e.machine.store.lookup name = .ok (.at (.int a)) ∧
      e.machine.store.Lasting Value.type? a o := by
  cases h with
  | @ofVariable u r m _ k i j n htree hname =>
    subst hname
    refine ⟨?_, variable_lasting htree (hfair.ended u _ m rfl) (hfair.ordered hall)⟩
    obtain hexpr | hbody | hcalm := hfair.fits
    · rw [show (Event.leave u (.ok r) m).visit.tree = _ from htree] at hexpr
      cases hexpr
    · rw [show (Event.leave u (.ok r) m).visit.tree = _ from htree] at hbody
      cases hbody
    · exact hcalm
  | @ofParameter u w inside earlier type f ps vs m k i j n v hbody hcontext hinside hcall hparam
      hname =>
    subst hname
    refine ⟨calm_of_isBody hbody _, ?_⟩
    exact parameter_lasting hp ha (hfair.begun u rfl hbody) hcontext hinside hcall hparam hall

/-- In the run of an accepted program, the cell of a name of an arithmetic type holds at every
moment a value of the type that its first one had, as long as the function runs in which it was
declared, no block without a size is taken, and nothing is read into the cell as a number of another
type. -/
theorem declared_cell_keeps_type {code : String} {program : Tree}
    (hp : Program.parse code = .ok program) (ha : (Analysis.analyze program).1.isOk = true)
    {fuel : Nat} {m : Machine} (hm : m.store = Store.empty) {later since before : List Event}
    {e : Event} (hhistory : history fuel program m = later ++ (since ++ e :: before))
    {name : String} {t : CType} {o : Option CType} (he : Declares name t o e before)
    (hall : Allotted before) :
    ∃ a, e.machine.store.lookup name = .ok (.at (.int a)) ∧
      ((∀ e' ∈ since, e'.Harmless e.frame a o) →
        ∀ last earlier, since ++ e :: before = last :: earlier →
          ∃ v, last.machine.store.read? (.int a) = some v ∧ v.type? = o) := by
  have hg := Program.parse_grammatical hp
  have hfair : Noted (Fair program) (history fuel program m) := history_fair hg hm
  rw [hhistory] at hfair
  have hdeclared : Fair program e before := by
    rw [← List.append_assoc] at hfair
    exact hfair.of_append
  obtain ⟨hcalm, a, hlookup, hlasting⟩ := he.lasting hg ha hdeclared hall
  refine ⟨a, hlookup, fun hharmless last earlier hlast => ?_⟩
  rw [hlast] at hfair
  have hstays := hfair.of_append.stays
  exact (hstays since e before a o hlast.symm hcalm hharmless hlasting).cell

def Event.variable? : Event → Option (String × CType)
  | leave ⟨_, _, .varDecl (.var k _) (.typeName (.number t) _) _, _⟩ (.ok _) _ =>
    some (k.value.render, t)
  | _ => none

theorem Declares.of_variable? {e : Event} {name : String} {t : CType}
    (h : e.variable? = some (name, t)) (before : List Event) :
    Declares name t (some t) e before := by
  unfold Event.variable? at h
  split at h
  · obtain ⟨rfl, rfl⟩ := Prod.mk.inj (Option.some.inj h)
    exact .ofVariable rfl rfl
  · cases h

/-- If no function of the library is called at all, none is called in a wrong way. -/
theorem Event.serves_of_none {e : Event} (h : e.serves (fun _ _ => false) = true)
    (P : Builtin → List Value → Bool) : e.serves P = true := by
  cases e with
  | leave => rfl
  | enter v =>
    simp only [serves] at h ⊢
    split at h
    · cases h
    · rfl

/-- A variable is written through a pointer to another type, and keeps its own. -/
theorem declared_cell_keeps_type_pointer :
    ∃ program since e before last earlier a v,
      Program.parse "double x; int main()\x7b int *p; p = &x; *p = 1; x += 1; x++; return 0; \x7d" =
        .ok program ∧
      (Analysis.analyze program).1.isOk = true ∧
      history 20 program (Machine.start "") = since ++ e :: before ∧
      Declares "x" .double (some .double) e before ∧ Allotted before ∧
      since ++ e :: before = last :: earlier ∧
      (∀ e' ∈ since, e'.Harmless e.frame a (some .double)) ∧
      e.machine.store.lookup "x" = .ok (.at (.int a)) ∧
      last.machine.store.read? (.int a) = some v ∧ v.type? = some .double := by
  have hrun : ((Program.parse
      "double x; int main()\x7b int *p; p = &x; *p = 1; x += 1; x++; return 0; \x7d").toOption.any
        fun t => (Analysis.analyze t).1.isOk &&
          ((history 20 t (Machine.start "")).all (fun e => e.serves fun _ _ => false) &&
          match (history 20 t (Machine.start "")).dropWhile
            fun e => e.variable? != some ("x", .double) with
          | e :: _ => e.variable? == some ("x", .double) && e.frame.isEmpty
          | [] => false)) = true := by
    decide +kernel
  obtain ⟨program, hp, haccepted, hfound⟩ := Program.exists_accepted hrun
  obtain ⟨hserves, hfound⟩ := Bool.and_eq_true_iff.1 hfound
  have hsplit := (List.takeWhile_append_dropWhile (p := fun e : Event =>
    e.variable? != some ("x", .double)) (l := history 20 program (Machine.start ""))).symm
  split at hfound
  · next e before hdrop =>
    rw [hdrop] at hsplit
    generalize (history 20 program (Machine.start "")).takeWhile _ = since at hsplit
    obtain ⟨hvariable, hframe⟩ := Bool.and_eq_true_iff.1 hfound
    rw [hsplit, List.all_eq_true] at hserves
    have hdeclares := Declares.of_variable? (eq_of_beq hvariable) before
    have hall : Allotted before := fun e' he' =>
      Event.serves_of_none (hserves e' (by simp [he'])) _
    have hhistory : history 20 program (Machine.start "") = [] ++ (since ++ e :: before) := hsplit
    obtain ⟨a, hlookup, hkeeps⟩ :=
      declared_cell_keeps_type hp haccepted rfl hhistory hdeclares hall
    have hharmless : ∀ e' ∈ since, e'.Harmless e.frame a (some .double) := by
      intro e' he'
      have hnone := hserves e' (List.mem_append_left _ he')
      rw [List.isEmpty_iff.1 hframe]
      exact ⟨List.nil_suffix, Event.serves_of_none hnone _, Event.serves_of_none hnone _⟩
    obtain ⟨last, earlier, hlast⟩ :=
      List.exists_cons_of_ne_nil (l := since ++ e :: before) (by simp)
    obtain ⟨v, hv, htype⟩ := hkeeps hharmless last earlier hlast
    exact ⟨program, since, e, before, last, earlier, a, v, hp, haccepted, hsplit, hdeclares, hall,
      hlast, hharmless, hlookup, hv, htype⟩
  · cases hfound

end MiniC
