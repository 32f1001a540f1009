import MiniC.Proofs.Lookup
import MiniC.Proofs.Misfits

/-!
# What a check leaves behind

A check opens scopes, loops and switches on its way and has to close them again. `Advances P s s'`
says that it has done so: the tables around the innermost one are as they were, and so are the
numbers of open loops and switches, and the innermost table has only got entries for symbols with
the property `P`. The check of any tree advances the state so, where the symbols are those that the
tree declares directly, with no scope of its own around them.
-/

namespace MiniC

variable {t u d b : Tree} {y : Symbol} {P Q : Symbol → Prop} {s s₁ s' : Analysis} {ts : List Tree}
  {a : Typing} {g g' : SymbolTable} {gs : List SymbolTable}

namespace Tree

def hasOwnTable : Tree → Bool
  | block .. | function .. | program .. => true
  | _ => false

/-- A tree stands in another one, and no scope is opened between them. -/
inductive Directly : Tree → Tree → Prop
  | self (t : Tree) : Directly t t
  | part {t u p : Tree} (hu : u ∈ p.parts) (hp : p.hasOwnTable = false) (ht : Directly t u) :
      Directly t p

/-- A symbol that a tree declares. Of a function, it is not said what is known of its parameters. -/
def Declares (y : Symbol) : Tree → Prop
  | varDecl v t _ | param t v _ =>
    ∃ name type, v.name? = some name ∧ t.type? = some type ∧ y = .var name type
  | structDecl name fields mark _ => y = .struct ⟨name, false, mark⟩ fields
  | function t name _ _ _ =>
    ∃ type params, t.type? = some type ∧ y = .function name (some type) (some params)
  | library name _ => ∃ l, Library.find? name = some l ∧
      ((∃ f ∈ l.functions, y = Analysis.librarySymbol f) ∨
        ∃ c ∈ l.constants, y = .constant c.1 (.number .int))
  | _ => False

/-- A symbol that is declared in a tree for the scope in which the tree stands. -/
def Makes (t : Tree) (y : Symbol) : Prop :=
  ∃ d : Tree, d.Directly t ∧ d.Declares y

theorem Directly.within (h : d.Directly t) : d.Within t := by
  induction h with
  | self => exact .self _
  | part hu _ _ ih => exact ih.trans (.part hu (.self _))

theorem Makes.part (hu : u ∈ t.parts) (ht : t.hasOwnTable = false) (h : u.Makes y) : t.Makes y := by
  obtain ⟨d, hd, hy⟩ := h
  exact ⟨d, .part hu ht hd, hy⟩

theorem not_declares (ht : t.isExpression = true ∨ t.type?.isSome = true) : ¬ t.Declares y := by
  cases t <;> first | exact id | (obtain ⟨⟨⟩⟩ | ⟨⟨⟩⟩ := ht)

end Tree

namespace SymbolTable

/-- Symbols with a property have been put into a table. -/
def Gains (P : Symbol → Prop) (g g' : SymbolTable) : Prop :=
  ∃ ys : List Symbol, (∀ y ∈ ys, P y) ∧ g' = ys.foldl insert g

theorem Gains.spec (h : g.Gains P g') : g'.name = g.name ∧ g'.level = g.level ∧
    ∀ name, g'.find? name = g.find? name ∨
      ∃ y, P y ∧ y.name = name ∧ g'.find? name = some y := by
  obtain ⟨ys, hys, rfl⟩ := h
  induction ys generalizing g with
  | nil => exact ⟨rfl, rfl, fun _ => .inl rfl⟩
  | cons y ys ih =>
    obtain ⟨hy, hys⟩ := List.forall_mem_cons.1 hys
    obtain ⟨hname, hlevel, hfind⟩ := ih (g := g.insert y) hys
    refine ⟨hname, hlevel, fun name => ?_⟩
    obtain hrest | hrest := hfind name
    · by_cases hn : y.name = name
      · exact .inr ⟨y, hy, hn, hrest.trans (hn ▸ find?_insert_self g y)⟩
      · exact .inl (hrest.trans (find?_insert_of_ne g y hn))
    · exact .inr hrest

theorem Gains.eq_of_none (h : g.Gains P g') (hP : ∀ y, ¬ P y) : g' = g := by
  obtain ⟨ys, hys, rfl⟩ := h
  cases ys with
  | nil => rfl
  | cons y ys => exact absurd (hys y List.mem_cons_self) (hP y)

end SymbolTable

namespace Analysis

open Check

/-- What is open is as it was, but for symbols that have been put into the innermost table. -/
structure Advances (P : Symbol → Prop) (s s' : Analysis) : Prop where
  tables : ∀ ⦃g gs⦄, s.tables = g :: gs → ∃ g', s'.tables = g' :: gs ∧ g.Gains P g'
  loops : s'.loops = s.loops
  switches : s'.switches = s.switches

namespace Advances

theorem same (h : s.Same s') : s.Advances P s' :=
  ⟨fun g _ hs => ⟨g, h.tables.trans hs, [], List.forall_mem_nil _, rfl⟩, h.loops, h.switches⟩

theorem trans (h : s.Advances P s₁) (h' : s₁.Advances P s') : s.Advances P s' := by
  refine ⟨fun g gs hs => ?_, h'.loops.trans h.loops, h'.switches.trans h.switches⟩
  obtain ⟨g₁, hs₁, ys, hys, rfl⟩ := h.tables hs
  obtain ⟨g₂, hs₂, zs, hzs, rfl⟩ := h'.tables hs₁
  exact ⟨_, hs₂, ys ++ zs, List.forall_mem_append.2 ⟨hys, hzs⟩, List.foldl_append.symm⟩

theorem mono (h : s.Advances P s') (hP : ∀ y, P y → Q y) : s.Advances Q s' := by
  refine ⟨fun g gs hs => ?_, h.loops, h.switches⟩
  obtain ⟨g', hs', ys, hys, rfl⟩ := h.tables hs
  exact ⟨_, hs', ys, fun y hy => hP y (hys y hy), rfl⟩

/-- What is put into the table of a scope is gone behind the scope. -/
theorem enclosed (h : (s.enter g).Advances Q s') :
    s.Advances P { s' with tables := s'.tables.tail } := by
  obtain ⟨g', hs', -⟩ := h.tables rfl
  exact .same ⟨congrArg List.tail hs', h.loops, h.switches⟩

theorem put (hy : P y) (hs : s.tables = g :: gs) :
    s.Advances P { s with tables := g.insert y :: gs } := by
  refine ⟨fun g' gs' hs' => ?_, rfl, rfl⟩
  obtain ⟨rfl, rfl⟩ := List.cons.inj (hs.symm.trans hs')
  exact ⟨_, rfl, [y], List.forall_mem_singleton.2 hy, rfl⟩

theorem insert (hy : P y) (h : (Check.insert y).Gives s () s') : s.Advances P s' := by
  obtain ⟨g, gs, hs, rfl⟩ := gives_insert h
  exact put hy hs

theorem declare {line : Nat} (hy : P y) (h : (Check.declare y line).Gives s () s') :
    s.Advances P s' := by
  obtain ⟨g, gs, hs, -, rfl⟩ := gives_declare h
  exact put hy hs

theorem forM {α : Type} {f : α → Check Unit} {as : List α}
    (hf : ∀ x ∈ as, ∀ ⦃s s'⦄, (f x).Gives s () s' → s.Advances P s')
    (h : (as.forM f).Gives s () s') : s.Advances P s' := by
  induction as generalizing s with
  | nil =>
    obtain ⟨-, rfl⟩ := gives_pure.1 h
    exact .same (.refl s')
  | cons x as ih =>
    obtain ⟨hx, has⟩ := List.forall_mem_cons.1 hf
    obtain ⟨_, s₁, hfirst, hrest⟩ := gives_bind.1 h
    exact (hx hfirst).trans (ih has hrest)

theorem library {name : String} (hP : ∀ y, (Tree.library name 0).Declares y → P y)
    (h : (includeLibrary name).Gives s () s') : s.Advances P s' := by
  unfold includeLibrary at h
  split at h
  · next l hl =>
    obtain ⟨_, s₁, hfunctions, hconstants⟩ := gives_bind.1 h
    refine (forM (fun f hf s s' h => ?_) hfunctions).trans (forM (fun c hc s s' h => ?_) hconstants)
    · obtain ⟨r, _, hr, hput⟩ := gives_bind.1 h
      obtain ⟨-, rfl⟩ := gives_lookup hr
      split at hput
      · exact insert (hP _ ⟨l, hl, .inl ⟨f, hf, rfl⟩⟩) hput
      · obtain ⟨-, rfl⟩ := gives_pure.1 hput
        exact .same (.refl s')
    · exact insert (hP _ ⟨l, hl, .inr ⟨c, hc, rfl⟩⟩) h
  · exact (gives_fail.1 h).elim

end Advances

end Analysis

def Tree.Advancing (P : Symbol → Prop) (t : Tree) : Prop :=
  ∀ ⦃s a s'⦄, (Analysis.checkPart t).Gives s a s' → Analysis.Advances P s s'

namespace Tree.Advancing

open Check Analysis

theorem checks (hts : ∀ t ∈ ts, t.Advancing P) (h : Checks ts s s') : s.Advances P s' := by
  induction ts generalizing s with
  | nil =>
    obtain rfl : s' = s := h
    exact .same (.refl s')
  | cons t ts ih =>
    obtain ⟨ht, hts⟩ := List.forall_mem_cons.1 hts
    obtain ⟨a, s₁, hfirst, hrest⟩ := h
    exact (ht hfirst).trans (ih hts hrest)

theorem flat (hflat : t.isFlat = true) (hparts : ∀ u ∈ t.parts, u.Advancing P) :
    t.Advancing P := by
  intro s a s' h
  have hlabel : t.isLabel = false := by
    cases t <;> first | rfl | cases hflat
  rw [checkPart_eq hlabel] at h
  obtain ⟨s₁, hchecks, hsame⟩ := checks_of_gives hflat h
  exact (checks (fun u hu => hparts u (t.checked_subset_parts hu)) hchecks).trans (.same hsame)

theorem loop (hb : t.loopBody? = some b) (hparts : ∀ u ∈ t.parts, u.Advancing P) :
    t.Advancing P := by
  intro s a s' h
  have hlabel : t.isLabel = false := by
    cases t <;> first | rfl | cases hb
  simp only [checkPart_eq hlabel, check_loop hb, gives_bind, gives_pure] at h
  obtain ⟨_, s₁, hfront, _, _, hbody, _, s₃, hbehind, _, rfl⟩ := h
  obtain ⟨s₂, hturn, rfl⟩ := gives_inLoop hbody
  have hfront := checks (fun u hu => hparts u (t.inOrder_subset_parts hu)) (checkAll_checks hfront)
  have hturn := hparts b (loopBody_mem_parts hb) (checkPart_gives hturn)
  have hloop : s₁.Advances P s₂.leaveLoop :=
    ⟨hturn.tables, congrArg (· - 1) hturn.loops, hturn.switches⟩
  refine hfront.trans (hloop.trans (checks (fun u hu => ?_) (checkAll_checks hbehind)))
  exact hparts u (behindBody_mem_parts (Option.mem_toList.1 hu))

theorem switch {e : Tree} {n : Nat} (he : e.Advancing P) (hts : ∀ t ∈ ts, t.Advancing P) :
    (switch e ts n).Advancing P := by
  intro s a s' h
  simp only [checkPart, check, gives_bind, gives_pure] at h
  obtain ⟨_, s₁, hsubject, _, _, hchildren, _, rfl⟩ := h
  obtain ⟨s₂, hcases, rfl⟩ := gives_inSwitch hchildren
  have hin := checks hts (checkCases_checks hcases).1
  refine (he (checkPart_gives hsubject)).trans ⟨hin.tables, hin.loops, ?_⟩
  exact congrArg (· - 1) hin.switches

theorem block {n : Nat} (hts : ∀ t ∈ ts, t.Advancing Q) : (block ts n).Advancing P := by
  intro s a s' h
  simp only [checkPart, check, gives_bind, gives_pure] at h
  obtain ⟨g, _, hg, _, _, hinside, _, rfl⟩ := h
  obtain ⟨-, -, -, rfl⟩ := gives_blockTable hg
  obtain ⟨s₁, hall, rfl⟩ := gives_within hinside
  exact .enclosed (checks hts (checkAll_checks hall))

theorem program {n : Nat} (hts : ∀ t ∈ ts, t.Advancing Q) : (program ts n).Advancing P := by
  intro s a s' h
  simp only [checkPart, check, gives_bind, gives_pure] at h
  obtain ⟨_, _, hinside, _, rfl⟩ := h
  obtain ⟨s₁, hin, rfl⟩ := gives_within hinside
  simp only [gives_bind, gives_ite, gives_reject, gives_pure, and_false, false_or] at hin
  obtain ⟨_, _, hall, r, _, hlookup, _, _, rfl⟩ := hin
  obtain ⟨-, rfl⟩ := gives_lookup hlookup
  exact .enclosed (checks hts (checkAll_checks hall))

/-- A function is put into the table around it, first without parameters and then with them. -/
theorem function {type : Tree} {f : String} {n : Nat} (hts : ∀ t ∈ ts, t.Advancing Q)
    (hb : b.Advancing Q) (hP : ∀ y, (function type f ts b n).Declares y → P y) :
    (function type f ts b n).Advancing P := by
  intro s a s' h
  obtain ⟨c, level, g, gs, rs, s₁, s₂, r, s₃, htype, hs, -, hparams, -, houtside, hbody, rfl, -⟩ :=
    gives_function h
  have hP (params : List Typing) : P (.function f (some c) (some params)) :=
    hP _ ⟨c, params, htype, rfl⟩
  obtain ⟨hparams, hloops, hswitches⟩ := checks hts hparams
  obtain ⟨q, hs₁, -⟩ := hparams rfl
  obtain rfl := gives_insertOutside hs₁ houtside
  obtain ⟨hbody, hloops', hswitches'⟩ := hb (checkPart_gives hbody)
  obtain ⟨q', hs₃, -⟩ := hbody rfl
  refine ⟨fun g' gs' hs' => ?_, hloops'.trans hloops, hswitches'.trans hswitches⟩
  obtain ⟨rfl, rfl⟩ := List.cons.inj (hs.symm.trans hs')
  refine ⟨_, congrArg List.tail hs₃,
    [.function f (some c) (some []), .function f (some c) (some rs)], ?_, rfl⟩
  exact List.forall_mem_cons.2 ⟨hP _, List.forall_mem_singleton.2 (hP _)⟩

theorem varDecl {v : Tree} {n : Nat} (ht : t.Advancing P)
    (hP : ∀ y, (varDecl v t n).Declares y → P y) : (varDecl v t n).Advancing P := by
  intro s a s' h
  simp only [checkPart, check, gives_bind, gives_nameOf, gives_typeOf, gives_pure] at h
  obtain ⟨_, s₁, htype, name, _, ⟨hname, rfl⟩, c, _, ⟨hc, rfl⟩, _, s₂, hdeclare, _, rfl⟩ := h
  exact (ht (checkPart_gives htype)).trans (.declare (hP _ ⟨name, c, hname, hc, rfl⟩) hdeclare)

theorem param {v : Tree} {n : Nat} (hP : ∀ y, (param t v n).Declares y → P y) :
    (param t v n).Advancing P := by
  intro s a s' h
  simp only [checkPart, check, declareParam, gives_bind, gives_nameOf, gives_typeOf,
    gives_pure] at h
  obtain ⟨name, _, ⟨hname, rfl⟩, c, _, ⟨hc, rfl⟩, _, s₁, hdeclare, _, rfl⟩ := h
  exact .declare (hP _ ⟨name, c, hname, hc, rfl⟩) hdeclare

theorem structDecl {name : String} {fields : Table VarType} {mark n : Nat}
    (hP : ∀ y, (structDecl name fields mark n).Declares y → P y) :
    (structDecl name fields mark n).Advancing P := by
  intro s a s' h
  simp only [checkPart, check, declareStruct, gives_bind, gives_guard, gives_pure] at h
  obtain ⟨_, s₁, ⟨_, hdeclare⟩, _, rfl⟩ := h
  exact .declare (hP _ rfl) hdeclare

theorem library {name : String} {n : Nat} (hP : ∀ y, (library name n).Declares y → P y) :
    (library name n).Advancing P := by
  intro s a s' h
  simp only [checkPart, check, gives_bind, gives_pure] at h
  obtain ⟨_, s₁, hlibrary, _, rfl⟩ := h
  exact .library hP hlibrary

end Tree.Advancing

open Check Analysis in
theorem Tree.advancing (t : Tree) : t.Advancing t.Makes := by
  induction t using Tree.parts_induction with
  | h t ih =>
    have hself (y : Symbol) (hy : t.Declares y) : t.Makes y := ⟨t, .self t, hy⟩
    have hparts (ht : t.hasOwnTable = false) : ∀ u ∈ t.parts, u.Advancing t.Makes :=
      fun u hu s a s' h => (ih u hu h).mono fun y => .part hu ht
    have hinside : ∀ u ∈ t.parts, u.Advancing fun _ => True :=
      fun u hu s a s' h => (ih u hu h).mono fun _ _ => trivial
    cases t with
    | block => exact .block hinside
    | program => exact .program hinside
    | function =>
      simp only [Tree.parts, List.forall_mem_cons] at hinside
      exact .function hinside.2.2 hinside.2.1 hself
    | varDecl => exact .varDecl (hparts rfl _ (.tail _ List.mem_cons_self)) hself
    | param => exact .param hself
    | structDecl => exact .structDecl hself
    | library => exact .library hself
    | forLoop | whileLoop | doWhile => exact .loop rfl (hparts rfl)
    | switch =>
      obtain ⟨he, hcs⟩ := List.forall_mem_cons.1 (hparts rfl)
      exact .switch he hcs
    | caseLabel v => exact fun s a s' h => hparts rfl v List.mem_cons_self (checkPart_gives h)
    | defaultLabel =>
      intro s a s' h
      obtain ⟨-, rfl⟩ := gives_pure.1 h
      exact .same (.refl s')
    | absent => exact fun s a s' h => (gives_fail.1 h).elim
    | _ => exact .flat rfl (hparts rfl)

/-- A check that succeeds leaves the loops and switches that are open, the scope and the tables
around it as they were. It puts into the table of the scope only symbols that the tree declares
directly in it; an expression puts none. -/
theorem check_closes_scopes (hs : s.tables = g :: gs)
    (h : (Analysis.check t).run s = (.ok a, s')) :
    ∃ g', s'.tables = g' :: gs ∧ s'.loops = s.loops ∧ s'.switches = s.switches ∧
      g'.name = g.name ∧ g'.level = g.level ∧ g.Gains t.Makes g' ∧
      (∀ name, g'.find? name = g.find? name ∨
        ∃ y, t.Makes y ∧ y.name = name ∧ g'.find? name = some y) ∧
      ((∀ u : Tree, u.Within t → u.isExpression = true ∨ u.type?.isSome = true) → g' = g) := by
  have hadvances := t.advancing (Analysis.checkPart_gives h)
  obtain ⟨g', hs', hgains⟩ := hadvances.tables hs
  obtain ⟨hname, hlevel, hfind⟩ := hgains.spec
  refine ⟨g', hs', hadvances.loops, hadvances.switches, hname, hlevel, hgains, hfind, fun ht => ?_⟩
  exact hgains.eq_of_none fun y ⟨d, hd, hy⟩ => Tree.not_declares (ht d hd.within) hy

/-- In a loop, a switch declares a variable for the scope around it, and a block in it one for
itself. -/
theorem check_closes_scopes_switch :
    let declaration (name : String) : Tree :=
      .varDecl (.var ⟨.id, .text name⟩ 1) (.typeName (.number .int) 1) 1
    let t : Tree := .switch (.num ⟨.integerConst, .int 1⟩ 1)
      [declaration "x", .block [declaration "y"] 1, .breaking 1] 1
    let g : SymbolTable := ⟨"main", 2, []⟩
    let s : Analysis := ⟨[g, ⟨"global", 1, []⟩], 1, 0, []⟩
    ∃ a s' g', (Analysis.check t).run s = (.ok a, s') ∧ s'.tables = [g', ⟨"global", 1, []⟩] ∧
      s'.loops = s.loops ∧ s'.switches = s.switches ∧
      g'.name = g.name ∧ g'.level = g.level ∧ g.Gains t.Makes g' ∧
      (∀ name, g'.find? name = g.find? name ∨
        ∃ y, t.Makes y ∧ y.name = name ∧ g'.find? name = some y) ∧
      ((∀ u : Tree, u.Within t → u.isExpression = true ∨ u.type?.isSome = true) → g' = g) := by
  intro declaration t g s
  have h : (Analysis.check t).run s = (.ok .nothing, ((Analysis.check t).run s).2) :=
    Prod.ext (by decide +kernel) rfl
  obtain ⟨g', hg'⟩ := check_closes_scopes rfl h
  exact ⟨_, _, g', h, hg'⟩

end MiniC
