import MiniC.Proofs.Accepted

/-!
# Checks that fail and what checks keep

A step of the analysis gives a result, finds an error of the program, or fails with a fault. `Fails`
says the last, beside `Gives` for the first. A `Law` is a property of checks that goes through
sequencing; it holds of the check of every tree if it holds of the steps. In a sound state there is a
table for each open scope, and the functions in the tables are known with their parameters. Whatever
is checked in a sound state leaves it sound, with as many tables as before, and that is a law.
-/

namespace MiniC

/-! ## Checks that fail -/

namespace Check

variable {α β : Type} {s s' : Analysis} {f : Fault}

def Fails (p : Check α) (s : Analysis) (f : Fault) : Prop :=
  (p.run s).1 = .error (.fault f)

theorem fails_bind {p : Check α} {g : α → Check β} :
    (p >>= g).Fails s f ↔ p.Fails s f ∨ ∃ a s₁, p.Gives s a s₁ ∧ (g a).Fails s₁ f := by
  unfold Fails Gives
  rw [run_bind]
  cases h : p.run s with
  | mk r s₁ =>
    cases r with
    | ok a =>
      constructor
      · intro hg
        exact .inr ⟨a, s₁, rfl, hg⟩
      · rintro (⟨⟨⟩⟩ | ⟨_, _, ⟨⟩, hg⟩)
        exact hg
    | error e =>
      constructor
      · intro hg
        obtain rfl := Except.error.inj hg
        exact .inl rfl
      · rintro (hg | ⟨_, _, ⟨⟩, _⟩)
        obtain rfl := Except.error.inj hg
        rfl

theorem fails_pure {a : α} : (pure a : Check α).Fails s f ↔ False :=
  ⟨fun h => (by cases h), False.elim⟩

theorem fails_reject {e : SemanticError} : (reject e : Check α).Fails s f ↔ False :=
  ⟨fun h => (by cases h), False.elim⟩

theorem fails_fail {f' : Fault} : (fail f' : Check α).Fails s f ↔ f = f' := by
  constructor
  · rintro ⟨⟩
    rfl
  · rintro rfl
    rfl

theorem fails_get : (get : Check Analysis).Fails s f ↔ False :=
  ⟨fun h => (by cases h), False.elim⟩

theorem fails_modify {g : Analysis → Analysis} : (modify g : Check Unit).Fails s f ↔ False :=
  ⟨fun h => (by cases h), False.elim⟩

theorem fails_warn {w : Warning} : (warn w).Fails s f ↔ False :=
  fails_modify

theorem fails_ite {c : Prop} [Decidable c] {p q : Check α} :
    (if c then p else q).Fails s f ↔ c ∧ p.Fails s f ∨ ¬c ∧ q.Fails s f := by
  by_cases h : c
  · rw [if_pos h]
    simp [h]
  · rw [if_neg h]
    simp [h]

theorem fails_guard {c : Prop} [Decidable c] {e : SemanticError} {p : Check α} :
    (if c then (do reject e; p) else p).Fails s f ↔ ¬c ∧ p.Fails s f := by
  simp only [fails_ite, fails_bind, fails_reject, gives_reject, false_and, exists_false, or_false,
    and_false, false_or]

theorem fails_ofExcept {r : Except Rejection α} :
    (ofExcept r).Fails s f ↔ r = .error (.fault f) := by
  cases r with
  | ok a => exact ⟨fun h => (fails_pure.1 h).elim, fun h => by cases h⟩
  | error e =>
    constructor
    · rintro ⟨⟩
      rfl
    · rintro ⟨⟩
      rfl

theorem fails_current : current.Fails s f ↔ s.tables = [] ∧ f = .noSuchPart := by
  simp only [current, fails_bind, fails_get, gives_get, false_or]
  constructor
  · rintro ⟨_, _, ⟨rfl, rfl⟩, h⟩
    split at h
    · exact (fails_pure.1 h).elim
    · next htables => exact ⟨htables, fails_fail.1 h⟩
  · rintro ⟨htables, rfl⟩
    refine ⟨_, _, ⟨rfl, rfl⟩, ?_⟩
    rw [htables]
    exact fails_fail.2 rfl

/-- A check that changes the state at its beginning and at its end. -/
theorem fails_bracket {p : Check α} {g g' : Analysis → Analysis} :
    (do modify g; let r ← p; modify g'; pure r : Check α).Fails s f ↔ p.Fails (g s) f := by
  simp only [fails_bind, fails_modify, fails_pure, gives_modify, false_or]
  constructor
  · rintro ⟨_, _, rfl, h | ⟨_, _, _, _, _, _, h⟩⟩
    · exact h
    · exact h.elim
  · intro h
    exact ⟨(), _, rfl, .inl h⟩

theorem fails_within {t : SymbolTable} {p : Check α} :
    (within t p).Fails s f ↔ p.Fails (s.enter t) f :=
  fails_bracket

theorem fails_inLoop {p : Check α} : (inLoop p).Fails s f ↔ p.Fails s.enterLoop f :=
  fails_bracket

theorem fails_inSwitch {p : Check α} : (inSwitch p).Fails s f ↔ p.Fails s.enterSwitch f :=
  fails_bracket

end Check

/-! ## States with tables -/

def Typing.isParameter : Typing → Bool
  | parameter .. => true
  | _ => false

def Symbol.Callable : Symbol → Prop
  | function _ _ (some params) => ∀ p ∈ params, p.isParameter = true
  | _ => True

structure Analysis.Sound (depth : Nat) (s : Analysis) : Prop where
  length : s.tables.length = depth + 1
  callable : ∀ t ∈ s.tables, ∀ name y, t.find? name = some y → y.Callable

namespace Analysis.Sound

variable {depth : Nat} {s s' : Analysis}

theorem exists_table (hs : s.Sound depth) : ∃ t ts, s.tables = t :: ts :=
  List.exists_cons_of_length_eq_add_one hs.length

theorem ofTables (hs : s.Sound depth) (h : s'.tables = s.tables) : s'.Sound depth :=
  ⟨h ▸ hs.length, h ▸ hs.callable⟩

theorem lookup (hs : s.Sound depth) {name : String} {y : Symbol}
    (h : SymbolTable.lookup? s.tables name = some y) : y.Callable := by
  obtain ⟨t, ht, hy⟩ := List.exists_of_findSome?_eq_some h
  exact hs.callable t ht name y hy

theorem callable_insert {t : SymbolTable} (ht : ∀ name y, t.find? name = some y → y.Callable)
    {y : Symbol} (hy : y.Callable) {name : String} {z : Symbol}
    (hz : (t.insert y).find? name = some z) : z.Callable := by
  by_cases hname : y.name = name
  · subst hname
    rw [SymbolTable.find?_insert_self] at hz
    obtain rfl := Option.some.inj hz
    exact hy
  · rw [SymbolTable.find?_insert_of_ne t y hname] at hz
    exact ht name z hz

theorem insert (hs : s.Sound depth) {t : SymbolTable} {ts : List SymbolTable}
    (htables : s.tables = t :: ts) {y : Symbol} (hy : y.Callable)
    (h : s'.tables = t.insert y :: ts) : s'.Sound depth := by
  obtain ⟨hlength, hcallable⟩ := hs
  rw [htables] at hlength hcallable
  obtain ⟨ht, hts⟩ := List.forall_mem_cons.1 hcallable
  refine ⟨by rw [h]; exact hlength, ?_⟩
  rw [h]
  exact List.forall_mem_cons.2 ⟨fun name z => callable_insert ht hy, hts⟩

theorem enter (hs : s.Sound depth) (name : String) (level : Nat) :
    (s.enter ⟨name, level, []⟩).Sound (depth + 1) := by
  refine ⟨congrArg (· + 1) hs.length, ?_⟩
  refine List.forall_mem_cons.2 ⟨fun _ _ hy => ?_, hs.callable⟩
  cases hy

theorem leave (hs : s.Sound (depth + 1)) (h : s'.tables = s.tables.tail) : s'.Sound depth := by
  refine ⟨by rw [h, List.length_tail, hs.length]; rfl, ?_⟩
  rw [h]
  exact fun t ht => hs.callable t (List.mem_of_mem_tail ht)

end Analysis.Sound

/-! ## Errors that the rules for types do not find -/

def SemanticError.isTargetError : SemanticError → Bool
  | assignedNoPlace .. => true
  | _ => false

namespace Rejection

variable {α β : Type}

def Spares (r : Except Rejection α) : Prop :=
  ∀ e, r = .error (.error e) → e.isTargetError = false

theorem spares_ok (a : α) : Spares (.ok a) := by
  rintro e ⟨⟩

theorem spares_fault (f : Fault) : Spares (.error (.fault f) : Except Rejection α) := by
  rintro e ⟨⟩

theorem spares_error {e : SemanticError} (h : e.isTargetError = false) :
    Spares (.error (.error e) : Except Rejection α) := by
  rintro _ ⟨⟩
  exact h

theorem Spares.bind {r : Except Rejection α} {g : α → Except Rejection β} (hr : Spares r)
    (hg : ∀ a, r = .ok a → Spares (g a)) : Spares (r >>= g) := by
  cases r with
  | ok a => exact hg a rfl
  | error x =>
    rintro e ⟨⟩
    exact hr e rfl

theorem Spares.ite {c : Prop} [Decidable c] {r r' : Except Rejection α} (h : c → Spares r)
    (h' : ¬c → Spares r') : Spares (if c then r else r') := by
  split
  · next hc => exact h hc
  · next hc => exact h' hc

end Rejection

namespace Typing

open Rejection

theorem isPointer_spares (t : Typing) : Spares t.isPointer := by
  rcases t with _ | ⟨_ | _⟩ | _ <;> rintro e ⟨⟩

theorem isInt_spares (t : Typing) : Spares t.isInt := by
  rcases t with _ | ⟨_ | _⟩ | _ <;> rintro e ⟨⟩

theorem dereference_spares (t : Typing) : Spares t.dereference := by
  rcases t with _ | ⟨_ | _⟩ | _ <;> rintro e ⟨⟩

theorem parameterType_spares (t : Typing) : Spares t.parameterType := by
  cases t <;> rintro e ⟨⟩

theorem combine_spares (a b : Typing) : Spares (a.combine b) := by
  unfold combine
  split
  · split
    · exact spares_ok _
    · exact spares_fault _
  · exact spares_fault _
  · exact spares_fault _

end Typing

namespace Analysis

open Rejection

theorem isPlace_spares (t : Tree) : Spares (isPlace t) := by
  unfold isPlace
  split
  · exact spares_ok _
  · exact spares_ok _
  · exact spares_fault _
  · exact spares_ok _
  · exact spares_ok _

theorem binaryType_spares (op : Kind) (line : Nat) (a b : Typing) :
    Spares (binaryType op line a b) := by
  have hpointers : Spares (do
      if ← a.isPointer then
        if ← b.isPointer then throw (.error (.twoPointers a b op line))
        unless ← b.isInt do throw (.error (.pointerOperands a b op line))
        unless takesPointer op do throw (.error (.pointerOperands a b op line))
        return a
      else if ← b.isPointer then
        unless ← a.isInt do throw (.error (.pointerOperands a b op line))
        unless takesPointer op do throw (.error (.pointerOperands a b op line))
        return b
      else a.combine b) := by
    refine a.isPointer_spares.bind fun _ _ => .ite (fun _ => ?_) fun _ => ?_
    · refine b.isPointer_spares.bind fun _ _ => .ite (fun _ => spares_error rfl) fun _ => ?_
      refine b.isInt_spares.bind fun _ _ => .ite (fun _ => ?_) fun _ => spares_error rfl
      exact .ite (fun _ => spares_ok _) fun _ => spares_error rfl
    · refine b.isPointer_spares.bind fun _ _ => .ite (fun _ => ?_) fun _ => a.combine_spares b
      refine a.isInt_spares.bind fun _ _ => .ite (fun _ => ?_) fun _ => spares_error rfl
      exact .ite (fun _ => spares_ok _) fun _ => spares_error rfl
  refine .ite (fun _ => ?_) fun _ => hpointers
  refine a.isInt_spares.bind fun _ _ => .ite (fun _ => ?_) fun _ => spares_error rfl
  exact b.isInt_spares.bind fun _ _ => .ite (fun _ => hpointers) fun _ => spares_error rfl

theorem unaryType_spares (op : Kind) (line : Nat) (e : Tree) (t : Typing) :
    Spares (unaryType op line e t) := by
  have hoperand : Spares (do
      if op = .asterisk then
        if ← t.isPointer then t.dereference
        else if ← t.isInt then t.dereference
        else throw (.error (.dereferenced t line))
      else
        if ← t.isPointer then
          unless isStep op || op = .ampersand do throw (.error (.pointerOperand t op line))
        return if op = .ampersand then .int else t) := by
    refine .ite (fun _ => ?_) fun _ => ?_
    · refine t.isPointer_spares.bind fun _ _ => .ite (fun _ => t.dereference_spares) fun _ => ?_
      exact t.isInt_spares.bind fun _ _ =>
        .ite (fun _ => t.dereference_spares) fun _ => spares_error rfl
    · refine t.isPointer_spares.bind fun _ _ => .ite (fun _ => ?_) fun _ => spares_ok _
      exact .ite (fun _ => spares_ok _) fun _ => spares_error rfl
  refine .ite (fun _ => ?_) fun _ => hoperand
  exact (isPlace_spares e).bind fun _ _ => .ite (fun _ => hoperand) fun _ => spares_error rfl

theorem pointerTakes_spares (op : Kind) (a b : Typing) : Spares (pointerTakes op a b) := by
  unfold pointerTakes
  split
  · exact b.isInt_spares
  · exact b.isInt_spares
  · refine b.isPointer_spares.bind fun _ _ => .ite (fun _ => ?_) fun _ => b.isInt_spares
    exact .ite (fun _ => spares_ok _) fun _ => b.isInt_spares
  · exact spares_ok _

/-- The target of an assignment is blamed only if it is no place. -/
theorem assignType_spares (op : Kind) (line : Nat) {x : Tree} (hx : isPlace x = .ok true)
    (a b : Typing) : Spares (assignType op line x a b) := by
  refine (isPlace_spares x).bind fun place hplace => ?_
  obtain rfl : place = true := Except.ok.inj (hplace.symm.trans hx)
  refine a.isPointer_spares.bind fun _ _ => .ite (fun _ => ?_) fun _ => ?_
  · exact (pointerTakes_spares op a b).bind fun _ _ =>
      .ite (fun _ => spares_ok _) fun _ => spares_error rfl
  · exact .ite (fun _ => spares_ok _) fun _ => spares_ok _

theorem castType_spares (t : Tree) : Spares (castType t) := by
  cases t <;> rintro e ⟨⟩

theorem literalType_spares (k : Token) : Spares (literalType k) := by
  unfold literalType
  split
  · exact spares_ok _
  · exact spares_ok _
  · exact spares_ok _
  · exact spares_error rfl

theorem namedType_spares (t : VarType) (line : Nat) : Spares (namedType t line) := by
  cases t with
  | number c => exact .ite (fun _ => spares_ok _) fun _ => spares_error rfl
  | struct s => exact .ite (fun _ => spares_fault _) fun _ => spares_error rfl

end Analysis

/-! ## Laws of checks -/

namespace Check

/-- A property of checks that goes through sequencing and holds of the steps from which checks are
made, as long as they do not blame a target and put only fine symbols into the tables. -/
structure Law where
  Holds {α : Type} : Check α → Prop
  Fine : Symbol → Prop
  fine {y : Symbol} : y.Callable → Fine y
  pure {α : Type} (a : α) : Holds (pure a)
  bind {α β : Type} {p : Check α} {g : α → Check β} :
    Holds p → (∀ s a s', p.Gives s a s' → Holds (g a)) → Holds (p >>= g)
  reject {α : Type} {e : SemanticError} : e.isTargetError = false → Holds (reject e : Check α)
  fail {α : Type} (f : Fault) : Holds (fail f : Check α)
  ofExcept {α : Type} {r : Except Rejection α} : Rejection.Spares r → Holds (ofExcept r)
  get : Holds (get : Check Analysis)
  warn (w : Warning) : Holds (warn w)
  insert {y : Symbol} : Fine y → Holds (insert y)
  insertOutside {y : Symbol} : Fine y → Holds (insertOutside y)
  within {α : Type} {p : Check α} (name : String) (level : Nat) :
    Holds p → Holds (within ⟨name, level, []⟩ p)
  inLoop {α : Type} {p : Check α} : Holds p → Holds (inLoop p)
  inSwitch {α : Type} {p : Check α} : Holds p → Holds (inSwitch p)

namespace Law

variable (L : Law) {α β : Type}

theorem after {p : Check α} {g : α → Check β} (hp : L.Holds p) (hg : ∀ a, L.Holds (g a)) :
    L.Holds (p >>= g) :=
  L.bind hp fun _ a _ _ => hg a

theorem ite {c : Prop} [Decidable c] {p q : Check α} (hp : L.Holds p) (hq : L.Holds q) :
    L.Holds (if c then p else q) := by
  split
  · exact hp
  · exact hq

/-- An error is found, or the check goes on. -/
theorem guard {c : Prop} [Decidable c] {e : SemanticError} (he : e.isTargetError = false)
    {p : Check α} (hp : L.Holds p) : L.Holds (if c then (do Check.reject e; p) else p) :=
  L.ite (L.after (L.reject he) fun _ => hp) hp

/-- A warning is given or not. -/
theorem warned {c : Prop} [Decidable c] (w : Warning) (a : α) :
    L.Holds (if c then Pure.pure a else (do Check.warn w; Pure.pure a)) :=
  L.ite (L.pure a) (L.after (L.warn w) fun _ => L.pure a)

theorem current : L.Holds Check.current := by
  refine L.after L.get fun s => ?_
  split
  · exact L.pure _
  · exact L.fail _

theorem lookup (name : String) : L.Holds (Check.lookup name) :=
  L.after L.current fun _ => L.after L.get fun _ => L.pure _

theorem declare {y : Symbol} (hy : y.Callable) (line : Nat) : L.Holds (Check.declare y line) :=
  L.after L.current fun _ => L.guard rfl (L.insert (L.fine hy))

theorem forM {g : α → Check Unit} (hg : ∀ a, L.Holds (g a)) (as : List α) :
    L.Holds (as.forM g) := by
  induction as with
  | nil => exact L.pure _
  | cons a as ih => exact L.after (hg a) fun _ => ih

end Law

end Check

namespace Analysis

open Check

/-- What is found out about parameters is that they are parameters. -/
theorem checkEach_parameters {ps : List Tree} (hps : ∀ p ∈ ps, p.Grammatical .parameter)
    {s s' : Analysis} {rs : List Typing} (h : (checkEach ps).Gives s rs s') :
    ∀ r ∈ rs, r.isParameter = true := by
  induction ps generalizing s rs with
  | nil =>
    obtain ⟨rfl, -⟩ := gives_pure.1 h
    exact List.forall_mem_nil _
  | cons p ps ih =>
    obtain ⟨hp, hps⟩ := List.forall_mem_cons.1 hps
    simp only [checkEach, gives_bind, gives_pure] at h
    obtain ⟨r, s₁, hr, rs, _, hrs, rfl, rfl⟩ := h
    refine List.forall_mem_cons.2 ⟨?_, ih hps hrs⟩
    cases hp with
    | param v i n ht =>
      simp only [check, declareParam, gives_bind, gives_pure] at hr
      obtain ⟨_, _, _, _, _, _, _, _, _, rfl, _⟩ := hr
      rfl

theorem librarySymbol_callable (f : Builtin) : (librarySymbol f).Callable := by
  cases hf : f.parameterTypes with
  | none => simp [librarySymbol, Symbol.Callable, hf]
  | some ts =>
    simp only [librarySymbol, Symbol.Callable, hf, Option.map_some]
    intro p hp
    obtain ⟨i, hi, rfl⟩ := List.mem_mapIdx.1 hp
    rfl

end Analysis

namespace Check.Law

open Analysis

variable (L : Law)

theorem nameOf (t : Tree) : L.Holds (nameOf t) := by
  unfold Analysis.nameOf
  split
  · exact L.pure _
  · exact L.fail _

theorem typeOf (t : Tree) : L.Holds (typeOf t) := by
  unfold Analysis.typeOf
  split
  · exact L.pure _
  · exact L.fail _

theorem variableType (name : String) (line : Nat) : L.Holds (variableType name line) := by
  refine L.after (L.lookup name) fun y => ?_
  split
  · exact L.pure _
  · exact L.reject rfl

theorem structType (t : VarType) (line : Nat) : L.Holds (structType t line) := by
  cases t with
  | struct t =>
    refine L.after (L.lookup t.name) fun y => ?_
    split
    · exact L.pure _
    · exact L.reject rfl
  | number => exact L.fail _

theorem fieldType (op : Kind) (base member : Tree) (line : Nat) :
    L.Holds (fieldType op base member line) := by
  refine L.after (L.nameOf base) fun name => L.after (L.lookup name) fun y => ?_
  split
  · split
    · refine L.guard rfl (L.after (L.lookup _) fun definition => ?_)
      refine L.after (L.nameOf member) fun field => ?_
      split
      · split
        · exact L.pure _
        · exact L.pure _
        · exact L.reject rfl
      · exact L.fail _
    · exact L.reject rfl
  · exact L.fail _

theorem declareParam (type var : Tree) (line : Nat) : L.Holds (declareParam type var line) :=
  L.after (L.nameOf var) fun _ => L.after (L.typeOf type) fun _ =>
    L.after (L.declare (y := .var _ _) trivial line) fun _ => L.pure _

theorem includeFunction (f : Builtin) : L.Holds (do
    if (← Check.lookup f.name).isNone then Check.insert (librarySymbol f) : Check Unit) :=
  L.after (L.lookup f.name) fun _ =>
    L.ite (L.insert (L.fine (librarySymbol_callable f))) (L.pure _)

theorem includeConstant (c : String × Int) :
    L.Holds (Check.insert (.constant c.1 (.number .int))) :=
  L.insert (L.fine (y := .constant c.1 (.number .int)) trivial)

theorem includeLibrary (name : String) : L.Holds (includeLibrary name) := by
  unfold Analysis.includeLibrary
  split
  · exact L.after (L.forM L.includeFunction _) fun _ => L.forM L.includeConstant _
  · exact L.fail _

variable {ts : List Tree}

theorem checkAll (hts : ∀ t ∈ ts, L.Holds (check t)) : L.Holds (checkAll ts) := by
  induction ts with
  | nil => exact L.pure _
  | cons t ts ih =>
    obtain ⟨ht, hts⟩ := List.forall_mem_cons.1 hts
    exact L.after ht fun _ => ih hts

theorem checkEach (hts : ∀ t ∈ ts, L.Holds (check t)) : L.Holds (checkEach ts) := by
  induction ts with
  | nil => exact L.pure _
  | cons t ts ih =>
    obtain ⟨ht, hts⟩ := List.forall_mem_cons.1 hts
    exact L.after ht fun _ => L.after (ih hts) fun _ => L.pure _

theorem checkLast (hts : ∀ t ∈ ts, L.Holds (check t)) (r : Typing) :
    L.Holds (checkLast r ts) := by
  induction ts generalizing r with
  | nil => exact L.pure _
  | cons t ts ih =>
    obtain ⟨ht, hts⟩ := List.forall_mem_cons.1 hts
    exact L.after ht fun r => ih hts r

theorem checkArgs (hts : ∀ t ∈ ts, L.Holds (check t)) (params : List Typing) :
    L.Holds (checkArgs params ts) := by
  induction ts generalizing params with
  | nil => exact L.pure _
  | cons t ts ih =>
    obtain ⟨ht, hts⟩ := List.forall_mem_cons.1 hts
    refine L.after ht fun _ => ?_
    cases params with
    | nil => exact L.fail _
    | cons p params =>
      refine L.after (L.ofExcept p.parameterType_spares) fun _ => ?_
      exact L.after (ih hts params) fun _ => L.pure _

theorem checkChild {t : Tree} (ht : L.Holds (checkPart t)) (subject : Typing) (line : Nat)
    (seen : Bool) : L.Holds (checkChild subject line seen t) := by
  cases t with
  | defaultLabel n => exact L.ite (L.reject rfl) (L.pure _)
  | caseLabel v n => exact L.guard rfl (L.after ht fun u => L.ite (L.pure _) (L.fail _))
  | _ => exact L.after ht fun _ => L.pure _

theorem checkCases (hts : ∀ t ∈ ts, L.Holds (checkPart t)) (subject : Typing) (line : Nat)
    (seen : Bool) : L.Holds (checkCases subject line seen ts) := by
  induction ts generalizing seen with
  | nil => exact L.pure _
  | cons t ts ih =>
    obtain ⟨ht, hrest⟩ := List.forall_mem_cons.1 hts
    rw [checkCases_cons]
    exact L.after (L.checkChild ht subject line seen) fun _ => ih hrest _

theorem call {args : List Tree} (name : String) (line : Nat)
    (hargs : ∀ a ∈ args, L.Holds (check a)) : L.Holds (check (.call name args line)) := by
  rw [check]
  refine L.after (L.lookup name) fun y => ?_
  split
  · split
    · exact L.guard rfl (L.after (L.checkArgs hargs _) fun r => L.warned _ _)
    · exact L.after (L.checkAll hargs) fun _ => L.pure _
  · exact L.reject rfl
  · exact L.reject rfl

theorem assign {x v : Tree} (op : Token) (line : Nat) (hx : L.Holds (check x))
    (hv : L.Holds (check v)) (ht : ∀ a b, L.Holds (Check.ofExcept (assignType op.kind line x a b))) :
    L.Holds (check (.assign x op v line)) := by
  refine L.after hx fun a => L.after hv fun b => L.after (ht a b) fun r => ?_
  obtain ⟨t, w⟩ := r
  cases w with
  | none => exact L.pure _
  | some w => exact L.after (L.warn w) fun _ => L.pure _

theorem block (n : Nat) (hts : ∀ t ∈ ts, L.Holds (check t)) : L.Holds (check (.block ts n)) := by
  rw [check]
  refine L.bind ?_ fun s t s' ht => ?_
  · refine L.after L.current fun t => ?_
    split
    · exact L.after L.get fun _ => L.pure _
    · exact L.fail _
  · obtain ⟨name, level, rfl, -⟩ := gives_blockTable ht
    exact L.after (L.within name level (L.checkAll hts)) fun _ => L.pure _

theorem function (type : Tree) (name : String) {ps : List Tree} {b : Tree} (line : Nat)
    (hps : ∀ p ∈ ps, L.Holds (check p)) (hb : L.Holds (check b))
    (hfine : ∀ s rs s' t, (Analysis.checkEach ps).Gives s rs s' →
      L.Fine (.function name (some t) (some rs))) :
    L.Holds (check (.function type name ps b line)) := by
  rw [check]
  refine L.after (L.lookup name) fun y => L.guard rfl (L.after (L.typeOf type) fun t => ?_)
  refine L.after (L.insert (L.fine (List.forall_mem_nil _))) fun _ => L.after L.get fun s => ?_
  refine L.after (L.within _ _ ?_) fun _ => L.pure _
  refine L.bind (L.checkEach hps) fun s rs s' hrs => ?_
  exact L.after (L.insertOutside (hfine s rs s' t hrs)) fun _ => L.after hb fun _ => L.pure _

/-- A law holds of the check of a tree if it does so of the targets that are assigned to and of the
functions that are declared. -/
theorem check (t : Tree)
    (hassign : ∀ x op v n, Tree.Within (.assign x op v n) t →
      ∀ a b, L.Holds (Check.ofExcept (assignType op.kind n x a b)))
    (hfine : ∀ type name ps b n, Tree.Within (.function type name ps b n) t →
      ∀ s rs s' c, (Analysis.checkEach ps).Gives s rs s' →
        L.Fine (.function name (some c) (some rs))) :
    L.Holds (Analysis.check t) ∧ L.Holds (checkPart t) := by
  induction t using Tree.parts_induction with
  | h t ih =>
    have hparts : ∀ u ∈ t.parts, L.Holds (Analysis.check u) ∧ L.Holds (checkPart u) := by
      intro u hu
      have hin : u.Within t := .part hu (.self t)
      exact ih u hu (fun x op v n hw => hassign x op v n (hw.trans hin))
        fun type name ps b n hw => hfine type name ps b n (hw.trans hin)
    have hpart {u : Tree} (hu : u ∈ t.parts) : L.Holds (Analysis.check u) := (hparts u hu).1
    have both (hl : t.isLabel = false) (h : L.Holds (Analysis.check t)) :
        L.Holds (Analysis.check t) ∧ L.Holds (checkPart t) := ⟨h, checkPart_eq hl ▸ h⟩
    cases t with
    | caseLabel v n => exact ⟨L.fail _, hpart List.mem_cons_self⟩
    | defaultLabel n => exact ⟨L.fail _, L.pure _⟩
    | absent => exact both rfl (L.fail _)
    | noOp | string => exact both rfl (L.pure _)
    | num k n => exact both rfl (L.ofExcept (literalType_spares k))
    | var k n => exact both rfl (L.variableType _ n)
    | typeName c n => exact both rfl (L.ofExcept (namedType_spares c n))
    | structName c n => exact both rfl (L.structType c n)
    | field op b m n => exact both rfl (L.fieldType op b m n)
    | library l n => exact both rfl (L.after (L.includeLibrary l) fun _ => L.pure _)
    | structDecl name fields mark n =>
      refine both rfl (L.after (L.guard rfl (L.declare ?_ n)) fun _ => L.pure _)
      trivial
    | param type var n => exact both rfl (L.declareParam type var n)
    | sequence cs n => exact both rfl (L.checkLast (fun _ => hpart) _)
    | call f args n => exact both rfl (L.call f n fun _ => hpart)
    | block cs n => exact both rfl (L.block n fun _ => hpart)
    | body cs n => exact both rfl (L.after (L.checkAll fun _ => hpart) fun _ => L.pure _)
    | program cs n =>
      refine both rfl (L.after (L.within _ _ ?_) fun _ => L.pure _)
      refine L.after (L.checkAll fun _ => hpart) fun _ => L.after (L.lookup "main") fun y => ?_
      exact L.ite (L.reject rfl) (L.pure _)
    | breaking n | continuing n =>
      exact both rfl (L.after L.get fun s => L.guard rfl (L.pure _))
    | switch subject cs n =>
      obtain ⟨hs, hcs⟩ := List.forall_mem_cons.1 hparts
      refine both rfl (L.after hs.1 fun a => L.after (L.inSwitch ?_) fun _ => L.pure _)
      exact L.checkCases (fun c hc => (hcs c hc).2) a n false
    | function type name ps b n =>
      simp only [Tree.parts, List.forall_mem_cons] at hparts
      obtain ⟨-, hb, hps⟩ := hparts
      exact both rfl (L.function type name n (fun p hp => (hps p hp).1) hb.1
        (hfine type name ps b n (.self _)))
    | returning v n => exact both rfl (hpart (u := v) List.mem_cons_self)
    | unary op e b n =>
      refine both rfl (L.after (hpart List.mem_cons_self) fun a => ?_)
      exact L.ofExcept (unaryType_spares op.kind n e a)
    | cast type e b n =>
      simp only [Tree.parts, List.forall_mem_cons] at hparts
      exact both rfl (L.after hparts.2.1.1 fun _ => L.ofExcept (castType_spares type))
    | binary l op r n =>
      simp only [Tree.parts, List.forall_mem_cons] at hparts
      obtain ⟨hl, hr, -⟩ := hparts
      refine both rfl (L.after hl.1 fun a => L.after hr.1 fun b => ?_)
      exact L.ofExcept (binaryType_spares op.kind n a b)
    | assign x op v n =>
      simp only [Tree.parts, List.forall_mem_cons] at hparts
      obtain ⟨hx, hv, -⟩ := hparts
      exact both rfl (L.assign op n hx.1 hv.1 (hassign x op v n (.self _)))
    | varDecl var type n =>
      simp only [Tree.parts, List.forall_mem_cons] at hparts
      refine both rfl (L.after hparts.2.1.1 fun _ => L.after (L.nameOf var) fun _ => ?_)
      refine L.after (L.typeOf type) fun _ => L.after (L.declare ?_ n) fun _ => L.pure _
      trivial
    | ternary c a b n =>
      simp only [Tree.parts, List.forall_mem_cons] at hparts
      obtain ⟨hc, ha, hb, -⟩ := hparts
      refine both rfl (L.after hc.1 fun _ => L.after ha.1 fun _ => L.after hb.1 fun _ => ?_)
      exact L.warned _ _
    | ifElse c a b n =>
      simp only [Tree.parts, List.forall_mem_cons] at hparts
      obtain ⟨hc, ha, hb, -⟩ := hparts
      exact both rfl (L.after hc.1 fun _ => L.after ha.1 fun _ => L.after hb.1 fun _ => L.pure _)
    | forLoop s c i b n =>
      simp only [Tree.parts, List.forall_mem_cons] at hparts
      obtain ⟨hs, hc, hi, hb, -⟩ := hparts
      refine both rfl (L.after hs.1 fun _ => L.after hc.1 fun _ => ?_)
      exact L.after (L.inLoop hb.1) fun _ => L.after hi.1 fun _ => L.pure _
    | whileLoop c b n =>
      simp only [Tree.parts, List.forall_mem_cons] at hparts
      obtain ⟨hc, hb, -⟩ := hparts
      exact both rfl (L.after hc.1 fun _ => L.after (L.inLoop hb.1) fun _ => L.pure _)
    | doWhile c b n =>
      simp only [Tree.parts, List.forall_mem_cons] at hparts
      obtain ⟨hc, hb, -⟩ := hparts
      exact both rfl (L.after (L.inLoop hb.1) fun _ => L.after hc.1 fun _ => L.pure _)

end Check.Law

/-! ## Tables that stay sound -/

namespace Check

variable {α β : Type}

def Keeps (p : Check α) : Prop :=
  ∀ ⦃depth s a s'⦄, s.Sound depth → p.Gives s a s' → s'.Sound depth

namespace Keeps

theorem of_same {p : Check α} (h : ∀ {s a s'}, p.Gives s a s' → s' = s) : p.Keeps := by
  intro depth s a s' hs hgives
  rwa [h hgives]

theorem insert {y : Symbol} (hy : y.Callable) : (Check.insert y).Keeps := by
  intro depth s a s' hs h
  obtain ⟨t, ts, htables, rfl⟩ := gives_insert h
  exact hs.insert htables hy rfl

theorem insertOutside {y : Symbol} (hy : y.Callable) : (insertOutside y).Keeps := by
  intro depth s a s' hs h
  obtain rfl := gives_modify.1 h
  split
  · next t u ts htables =>
    obtain ⟨hlength, hcallable⟩ := hs
    rw [htables] at hlength hcallable
    obtain ⟨ht, hrest⟩ := List.forall_mem_cons.1 hcallable
    obtain ⟨hu, hts⟩ := List.forall_mem_cons.1 hrest
    refine ⟨hlength, List.forall_mem_cons.2 ⟨ht, List.forall_mem_cons.2 ⟨?_, hts⟩⟩⟩
    exact fun name z => Analysis.Sound.callable_insert hu hy
  · exact hs

theorem within {p : Check α} (name : String) (level : Nat) (hp : p.Keeps) :
    (within ⟨name, level, []⟩ p).Keeps := by
  intro depth s a s' hs h
  obtain ⟨s₁, h₁, rfl⟩ := gives_within h
  exact (hp (hs.enter name level) h₁).leave rfl

theorem inLoop {p : Check α} (hp : p.Keeps) : (inLoop p).Keeps := by
  intro depth s a s' hs h
  obtain ⟨s₁, h₁, rfl⟩ := gives_inLoop h
  have hs' : s.enterLoop.Sound depth := hs.ofTables rfl
  exact (hp hs' h₁).ofTables rfl

theorem inSwitch {p : Check α} (hp : p.Keeps) : (inSwitch p).Keeps := by
  intro depth s a s' hs h
  obtain ⟨s₁, h₁, rfl⟩ := gives_inSwitch h
  have hs' : s.enterSwitch.Sound depth := hs.ofTables rfl
  exact (hp hs' h₁).ofTables rfl

end Keeps

def keeping : Law where
  Holds := Keeps
  Fine := Symbol.Callable
  fine := id
  pure a := .of_same fun h => (gives_pure.1 h).2
  bind hp hg depth s b s' hs h := by
    obtain ⟨a, s₁, h₁, h₂⟩ := gives_bind.1 h
    exact hg s a s₁ h₁ (hp hs h₁) h₂
  reject _ := .of_same fun h => (gives_reject.1 h).elim
  fail _ := .of_same fun h => (gives_fail.1 h).elim
  ofExcept _ := .of_same fun h => (gives_ofExcept.1 h).2
  get := .of_same fun h => (gives_get.1 h).2
  warn _ depth s a s' hs h := by
    obtain rfl := gives_modify.1 h
    exact hs.ofTables rfl
  insert := .insert
  insertOutside := .insertOutside
  within := .within
  inLoop := .inLoop
  inSwitch := .inSwitch

end Check

namespace Analysis

open Check

/-- What stands in a program keeps the tables. -/
theorem check_keeps {k : Tree.Category} {t : Tree} (ht : t.Grammatical k) :
    (check t).Keeps ∧ (checkPart t).Keeps := by
  refine keeping.check t (fun _ _ _ _ _ _ _ => .of_same fun h => (gives_ofExcept.1 h).2) ?_
  intro type name ps b n hw s rs s' c hrs
  obtain ⟨_, hfunction⟩ := hw.grammatical ht
  exact checkEach_parameters hfunction.function_parameters hrs

end Analysis

end MiniC
