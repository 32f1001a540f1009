import Mathlib.Data.List.Basic
import Mathlib.Logic.Relation
import MiniC.Proofs.Bindings
import MiniC.Proofs.Layout
import MiniC.Proofs.Lexemes
import MiniC.Symbol.Basic

/-!
# Nested scopes in the analysis and in the store

The analysis keeps its symbol tables in one list, innermost first, and the global table is the last.
The store keeps the scopes of the current frame apart from the global scope. Both are changed
together: names are declared, blocks are entered and left. The n-th table and the n-th scope always
have the same names, so a name is found at the same level in both, or in neither.

A scope is known by its name, which ends in a number that is counted up at each level. No two scopes
that can be seen at one time have the same name.
-/

namespace MiniC

def SymbolTable.lookupAt? (ts : List SymbolTable) (name : String) : Option (Symbol × Nat) :=
  ts.findSome? fun t => (t.find? name).map fun y => (y, t.level)

theorem SymbolTable.map_lookupAt? (ts : List SymbolTable) (name : String) :
    (lookupAt? ts name).map Prod.fst = lookup? ts name := by
  induction ts with
  | nil => rfl
  | cons t ts ih =>
    simp only [lookupAt?, lookup?, List.findSome?_cons] at ih ⊢
    cases h : t.find? name with
    | none => exact ih
    | some y => rfl

namespace Store

def visible (s : Store) : List Scope :=
  (s.frames.head?.elim [] Frame.scopes) ++ [s.globals]

def scopeAt? (s : Store) : Nat → Option Scope
  | 0 => none
  | level + 1 => s.visible.reverse[level]?

/-- In a function, the scope of a name is the first one in sight that binds it. -/
theorem scopeOf_eq {s : Store} (h : s.frames ≠ []) (name : String) :
    s.scopeOf name =
      (s.visible.find? (·.entries.has name)).elim (.error (.unbound name)) .ok := by
  obtain ⟨f, fs, hf⟩ := List.exists_cons_of_ne_nil h
  simp only [scopeOf, visible, hf, List.head?_cons, Option.elim_some, List.find?_append]
  cases f.scopes.find? (·.entries.has name) with
  | some c => rfl
  | none => by_cases hg : s.globals.entries.has name = true <;> simp [hg]

/-! ## Names of scopes -/

def ending (name : String) : List Char :=
  (name.toList.reverse.takeWhile Text.isPlainDigit).reverse

/-- The number at the end of a name, with a one in front of its digits. -/
def scopeNumber (name : String) : Nat :=
  Text.digitsValue ('1' :: ending name)

def Counted (name : String) : Prop :=
  ∃ front x y, name.toList = front ++ [x, y] ∧ Text.isPlainDigit x = true ∧
    Text.isPlainDigit y = true

theorem ending_append {name : String} {front ds : List Char} (h : name.toList = front ++ ds)
    (hd : ∀ c ∈ ds, Text.isPlainDigit c = true) :
    ending name = (front.reverse.takeWhile Text.isPlainDigit).reverse ++ ds := by
  have htake : ds.reverse.takeWhile Text.isPlainDigit = ds.reverse :=
    List.takeWhile_eq_self_iff.2 fun c hc => hd c (List.mem_reverse.1 hc)
  rw [ending, h, List.reverse_append, List.takeWhile_append, htake, if_pos rfl,
    List.reverse_append, List.reverse_reverse]

theorem twoDigits_spec : ∀ n < 100,
    (Text.twoDigits (n + 1)).toList.all Text.isPlainDigit = true ∧
    ((Text.twoDigits (n + 1)).toList = ['1', '0', '0'] ∧ n = 99 ∨
      (Text.twoDigits (n + 1)).toList.length = 2 ∧
        Text.digitsValue (Text.twoDigits (n + 1)).toList = n + 1) := by
  decide +kernel

/-- The name of an inner scope ends in a greater number. -/
theorem scopeNumber_lt_innerName {name : String} (h : Counted name) :
    Counted (innerName name) ∧ scopeNumber name < scopeNumber (innerName name) := by
  obtain ⟨front, x, y, hname, hx, hy⟩ := h
  have hinner : (innerName name).toList =
      front ++ (Text.twoDigits (Text.digitsValue [x, y] + 1)).toList := by
    simp [innerName, hname]
  have hcount : Text.digitsValue [x, y] < 100 :=
    Text.digitsValue_lt [x, y] (by simp [hx, hy])
  obtain ⟨hall, hdigits⟩ := twoDigits_spec _ hcount
  have hplain := List.all_eq_true.1 hall
  have hnew := ending_append hinner hplain
  have hold := ending_append hname (by simp [hx, hy])
  simp only [scopeNumber, hnew, hold]
  generalize (front.reverse.takeWhile Text.isPlainDigit).reverse = ds
  generalize (Text.twoDigits (Text.digitsValue [x, y] + 1)).toList = es at hinner hplain hdigits
  rcases hdigits with ⟨rfl, h99⟩ | ⟨hlen, hvalue⟩
  · refine ⟨⟨front ++ ['1'], '0', '0', by rw [hinner]; simp, by decide, by decide⟩, ?_⟩
    simp [Text.digitsValue] at h99 ⊢
    omega
  · obtain ⟨u, w, rfl⟩ := List.length_eq_two.1 hlen
    refine ⟨⟨front, u, w, hinner, hplain u (by simp), hplain w (by simp)⟩, ?_⟩
    simp [Text.digitsValue] at hvalue ⊢
    omega

theorem counted_pushFrame (name : String) :
    Counted (name ++ ".scope_00") ∧ scopeNumber (name ++ ".scope_00") = 100 := by
  have hlist : (name ++ ".scope_00").toList =
      (name.toList ++ ['.', 's', 'c', 'o', 'p', 'e', '_']) ++ ['0', '0'] := by
    simp
  refine ⟨⟨_, '0', '0', hlist, by decide, by decide⟩, ?_⟩
  rw [scopeNumber, ending_append hlist (List.all_eq_true.1 (by decide))]
  simp [Text.isPlainDigit, Text.digitsValue]

end Store

/-! ## Tables and scopes in step -/

def SymbolTable.Levels : List SymbolTable → Prop
  | [] => True
  | t :: ts => t.level = ts.length + 1 ∧ Levels ts

theorem SymbolTable.level_inside {ts : List SymbolTable} (h : Levels ts) (name : String) :
    (inside ts name).level = ts.length + 1 := by
  cases ts with
  | nil => rfl
  | cons t ts => simp [inside, h.1]

theorem SymbolTable.level_ne_zero_of_lookupAt? {ts : List SymbolTable} (h : Levels ts)
    {name : String} {y : Symbol} {level : Nat} (hy : lookupAt? ts name = some (y, level)) :
    level ≠ 0 := by
  induction ts with
  | nil => cases hy
  | cons t ts ih =>
    simp only [lookupAt?, List.findSome?_cons] at hy ih
    cases hfind : t.find? name with
    | some z =>
      rw [hfind] at hy
      obtain rfl := (Prod.mk.inj (Option.some.inj hy)).2
      rw [h.1]
      exact Nat.succ_ne_zero _
    | none =>
      rw [hfind] at hy
      exact ih h.2 hy

def SameNames (t : SymbolTable) (c : Scope) : Prop :=
  ∀ name, (t.find? name).isSome = c.entries.has name

theorem SameNames.declare {t : SymbolTable} {c : Scope} (h : SameNames t c) (y : Symbol)
    (b : Binding) :
    SameNames (t.insert y) { c with entries := c.entries.put y.name b } := by
  intro name
  by_cases hy : y.name = name
  · rw [← hy, SymbolTable.find?_insert_self, Table.has, Table.get?_put_self]
    rfl
  · rw [SymbolTable.find?_insert_of_ne t y hy, Table.has, Table.get?_put_of_ne _ _ hy]
    exact h name

structure Nested (ts : List SymbolTable) (s : Store) : Prop where
  names : List.Forall₂ SameNames ts s.visible
  levels : SymbolTable.Levels ts
  numbers : s.visible.Pairwise fun c d => Store.scopeNumber d.name < Store.scopeNumber c.name
  counted : ∀ f ∈ s.frames.head?, ∀ c ∈ f.scopes, Store.Counted c.name

namespace Nested

open Store

variable {ts : List SymbolTable} {t : SymbolTable} {s s' : Store}

theorem start {name : String} : Nested [.inside [] name] Store.empty where
  names := .cons (fun _ => rfl) .nil
  levels := ⟨rfl, trivial⟩
  numbers := List.pairwise_singleton _ _
  counted := by
    intro f hf
    cases hf

theorem declare {y : Symbol} {b : Binding} (h : Nested (t :: ts) s)
    (hb : s.Rebinds y.name b s') : Nested (t.insert y :: ts) s' := by
  obtain ⟨hf, hf', hg⟩ | ⟨f, fs, c, cs, hf, hc, hg, hf'⟩ := hb
  · have hv : s.visible = [s.globals] := by simp [visible, hf]
    have hv' : s'.visible = [s'.globals] := by simp [visible, hf']
    obtain ⟨names, levels, -, -⟩ := h
    rw [hv] at names
    cases names with
    | cons hname hrest =>
      refine ⟨?_, levels, ?_, ?_⟩
      · rw [hv', hg]
        exact .cons (hname.declare y b) hrest
      · rw [hv']
        exact List.pairwise_singleton _ _
      · simp [hf']
  · have hv : s.visible = c :: (cs ++ [s.globals]) := by simp [visible, hf, hc]
    have hv' : s'.visible =
        { c with entries := c.entries.put y.name b } :: (cs ++ [s.globals]) := by
      simp [visible, hf', hg]
    obtain ⟨names, levels, numbers, counted⟩ := h
    rw [hv] at names numbers
    cases names with
    | cons hname hrest =>
      refine ⟨?_, levels, ?_, ?_⟩
      · rw [hv']
        exact .cons (hname.declare y b) hrest
      · rw [hv']
        exact List.pairwise_cons.2 (List.pairwise_cons.1 numbers)
      · simp only [hf, hc, List.head?_cons, Option.mem_some_iff, forall_eq',
          List.forall_mem_cons] at counted
        simp only [hf', List.head?_cons, Option.mem_some_iff, forall_eq', List.forall_mem_cons]
        exact counted

theorem enter (h : Nested ts s) (hp : s.pushScope = .ok s') (name : String) :
    Nested (.inside ts name :: ts) s' := by
  obtain ⟨f, fs, c, cs, hf, hc, rfl⟩ := pushScope_cases hp
  have hv : s.visible = c :: (cs ++ [s.globals]) := by simp [visible, hf, hc]
  obtain ⟨names, levels, numbers, counted⟩ := h
  have hin : Counted c.name := counted f (by simp [hf]) c (by simp [hc])
  obtain ⟨hinner, hlt⟩ := scopeNumber_lt_innerName hin
  refine ⟨?_, ⟨SymbolTable.level_inside levels name, levels⟩, ?_, ?_⟩
  · rw [hv] at names
    exact .cons (fun _ => rfl) names
  · rw [hv] at numbers
    refine .cons ?_ numbers
    intro d hd
    rcases List.mem_cons.1 hd with rfl | hd
    · exact hlt
    · exact (List.rel_of_pairwise_cons numbers hd).trans hlt
  · simp only [hf, hc, List.head?_cons, Option.mem_some_iff, forall_eq',
      List.forall_mem_cons] at counted ⊢
    exact ⟨hinner, counted⟩

theorem exit (h : Nested (t :: ts) s) (hp : s.popScope = .ok s') : Nested ts s' := by
  obtain ⟨f, fs, c, cs, hf, hc, rfl⟩ := popScope_cases hp
  have hv : s.visible = c :: (cs ++ [s.globals]) := by simp [visible, hf, hc]
  obtain ⟨names, levels, numbers, counted⟩ := h
  rw [hv] at names numbers
  refine ⟨?_, levels.2, numbers.of_cons, ?_⟩
  · cases names with
    | cons _ hrest => exact hrest
  · simp only [hf, hc, List.head?_cons, Option.mem_some_iff, forall_eq',
      List.forall_mem_cons] at counted ⊢
    exact counted.2

theorem enterFunction (h : Nested ts s) (hs : s.frames = []) (table frame : String)
    (hg : scopeNumber s.globals.name < 100) :
    Nested (.inside ts table :: ts) (s.pushFrame frame) := by
  have hv : s.visible = [s.globals] := by simp [visible, hs]
  obtain ⟨hcounted, hnumber⟩ := counted_pushFrame frame
  obtain ⟨names, levels, -, -⟩ := h
  rw [hv] at names
  refine ⟨.cons (fun _ => rfl) names, ⟨SymbolTable.level_inside levels table, levels⟩, ?_, ?_⟩
  · refine .cons ?_ (List.pairwise_singleton _ _)
    intro c hc
    rw [List.mem_singleton.1 hc, hnumber]
    exact hg
  · intro f hf c hc
    obtain rfl := Option.mem_some_iff.1 hf
    rw [List.mem_singleton.1 hc]
    exact hcounted

end Nested

/-! ## Steps -/

inductive Symbol.Declared : Symbol → Run Unit → Prop
  | var (name : String) (t : VarType) : Declared (.var name t) (Run.declareVariable t name)
  | constant (name : String) (t : VarType) (value : Scalar) :
    Declared (.constant name t) (Run.declareConstant name value)
  | struct (t : StructType) (fields : Table VarType) :
    Declared (.struct t fields) (Eval.defineStruct t.name fields)
  | function (name : String) (t : Option VarType) (params : Option (List Typing)) :
    Declared (.function name t params) (Run.declareFunction name)

theorem Symbol.Declared.bindsName {y : Symbol} {p : Run Unit} (h : y.Declared p) :
    p.BindsName y.name := by
  cases h with
  | var name t => exact Run.declareVariable_bindsName t
  | constant name t value => exact Run.declareConstant_bindsName name value
  | struct t fields => exact Eval.defineStruct_bindsName t.name fields
  | function name t params => exact Run.declare_bindsName _ _

/-- A step that the analysis and the execution take together: a name is declared, a block is
entered, or one is left. The two outermost tables are those of the program and of the function. -/
inductive ScopeStep : List SymbolTable × Machine → List SymbolTable × Machine → Prop
  | declare {t : SymbolTable} {ts : List SymbolTable} {m m' : Machine} {y : Symbol} {p : Run Unit}
    (hy : y.Declared p) (hp : p.execute m = (.ok (), m')) :
    ScopeStep (t :: ts, m) (t.insert y :: ts, m')
  | enter {ts : List SymbolTable} {m : Machine} {s : Store} (name : String)
    (hp : m.store.pushScope = .ok s) :
    ScopeStep (ts, m) (.inside ts name :: ts, { m with store := s })
  | exit {t f g : SymbolTable} {ts : List SymbolTable} {m : Machine} {s : Store}
    (hp : m.store.popScope = .ok s) :
    ScopeStep (t :: f :: g :: ts, m) (f :: g :: ts, { m with store := s })

namespace ScopeStep

variable {r r' : List SymbolTable × Machine}

theorem nested (h : ScopeStep r r') (hr : Nested r.1 r.2.store) : Nested r'.1 r'.2.store := by
  cases h with
  | declare hy hp =>
    obtain ⟨b, hb⟩ := hy.bindsName _ _ _ hp
    exact hr.declare hb
  | enter name hp => exact hr.enter hp name
  | exit hp => exact hr.exit hp

/-- While no function is running there is nothing but the global scope, which keeps its name. -/
theorem global (h : ScopeStep r r') (hr : r.2.store.frames = []) :
    r'.2.store.frames = [] ∧ r'.2.store.globals.name = r.2.store.globals.name := by
  cases h with
  | declare hy hp =>
    obtain ⟨b, hb⟩ := hy.bindsName _ _ _ hp
    obtain ⟨hf, hg⟩ := hb.global hr
    exact ⟨hf, by rw [hg]⟩
  | enter name hp =>
    obtain ⟨f, fs, c, cs, hf, -⟩ := Store.pushScope_cases hp
    cases hr.symm.trans hf
  | exit hp =>
    obtain ⟨f, fs, c, cs, hf, -⟩ := Store.popScope_cases hp
    cases hr.symm.trans hf

theorem frames_ne_nil (h : ScopeStep r r') (hr : r.2.store.frames ≠ []) :
    r'.2.store.frames ≠ [] := by
  cases h with
  | declare hy hp =>
    obtain ⟨b, hb⟩ := hy.bindsName _ _ _ hp
    obtain ⟨hf, -⟩ | ⟨f, fs, c, cs, -, -, -, hf⟩ := hb
    · exact absurd hf hr
    · rw [hf]
      exact List.cons_ne_nil _ _
  | enter name hp =>
    obtain ⟨f, fs, c, cs, -, -, rfl⟩ := Store.pushScope_cases hp
    exact List.cons_ne_nil _ _
  | exit hp =>
    obtain ⟨f, fs, c, cs, -, -, rfl⟩ := Store.popScope_cases hp
    exact List.cons_ne_nil _ _

end ScopeStep

theorem Symbol.Declared.laid {y : Symbol} {p : Run Unit} (h : y.Declared p) {m : Machine}
    (hm : ∃ ns, m.store.Laid ns) : ∃ ns, (p.execute m).2.store.Laid ns := by
  obtain ⟨ns, hm⟩ := hm
  cases h with
  | var name t =>
    cases t with
    | number t => exact ⟨_, Run.declareNumber_lays t name m ns hm⟩
    | struct t => exact ⟨_, Run.declareStructVar_lays t name m ns hm⟩
  | constant name t value =>
    exact ⟨_, (Run.declareConstant_stays name value).toLays m ns hm⟩
  | struct t fields =>
    have hdeclare : (Run.declareStruct t.name).Lays fun _ => [Run.structSize] :=
      Run.declare_lays t.name (by decide) rfl
    have hlaid := hdeclare m ns hm
    rw [Eval.defineStruct, Run.execute_bind]
    split
    · next u m₁ h₁ =>
      rw [h₁] at hlaid
      exact ⟨_, ((Run.writeName_stays t.name rfl) _ m₁ hlaid).1⟩
    · next e m₁ h₁ =>
      rw [h₁] at hlaid
      exact ⟨_, hlaid⟩
  | function name t params =>
    exact ⟨_, Run.declare_lays name (by decide) rfl m ns hm⟩

theorem ScopeStep.laid {r r' : List SymbolTable × Machine} (h : ScopeStep r r')
    (hr : ∃ ns, r.2.store.Laid ns) : ∃ ns, r'.2.store.Laid ns := by
  cases h with
  | declare hy hp =>
    have hlaid := hy.laid hr
    rw [hp] at hlaid
    exact hlaid
  | enter name hp => exact hr.imp fun ns hns => hns.pushScope hp
  | exit hp => exact hr.imp fun ns hns => hns.popScope hp

/-! ## Runs -/

structure AtTop (ts : List SymbolTable) (s : Store) : Prop extends Nested ts s where
  frames : s.frames = []
  globals : s.globals.name = "global_scope"
  laid : ∃ ns, s.Laid ns

namespace AtTop

theorem start (name : String) : AtTop [.inside [] name] Store.empty :=
  ⟨.start, rfl, rfl, [], Store.laid_empty⟩

theorem run {r r' : List SymbolTable × Machine} (h : AtTop r.1 r.2.store)
    (hs : Relation.ReflTransGen ScopeStep r r') : AtTop r'.1 r'.2.store := by
  induction hs with
  | refl => exact h
  | tail _ hs ih =>
    obtain ⟨hframes, hname⟩ := hs.global ih.frames
    exact ⟨hs.nested ih.toNested, hframes, hname.trans ih.globals, hs.laid ih.laid⟩

end AtTop

structure InFunction (ts : List SymbolTable) (s : Store) : Prop extends Nested ts s where
  depth : 2 ≤ ts.length
  frames : s.frames ≠ []
  laid : ∃ ns, s.Laid ns

namespace InFunction

variable {ts : List SymbolTable} {m : Machine}

theorem exists_scope {s : Store} (h : InFunction ts s) :
    ∃ f fs c cs, s.frames = f :: fs ∧ f.scopes = c :: cs := by
  obtain ⟨f, fs, hf⟩ := List.exists_cons_of_ne_nil h.frames
  cases hc : f.scopes with
  | nil =>
    have hlength := h.names.length_eq
    have hdepth := h.depth
    simp only [Store.visible, hf, hc, List.head?_cons, Option.elim_some, List.nil_append,
      List.length_singleton] at hlength
    omega
  | cons c cs => exact ⟨f, fs, c, cs, hf, hc⟩

theorem enter {g : SymbolTable} {s : Store} (h : AtTop [g] s) (table frame : String) :
    InFunction [.inside [g] table, g] (s.pushFrame frame) := by
  have hnumber : Store.scopeNumber s.globals.name < 100 := by
    rw [h.globals]
    decide
  exact ⟨h.enterFunction h.frames table frame hnumber, le_rfl, List.cons_ne_nil _ _,
    h.laid.imp fun ns hns => hns.pushFrame frame⟩

theorem run {r r' : List SymbolTable × Machine} (h : InFunction r.1 r.2.store)
    (hs : Relation.ReflTransGen ScopeStep r r') : InFunction r'.1 r'.2.store := by
  induction hs with
  | refl => exact h
  | tail _ hs ih =>
    refine ⟨hs.nested ih.toNested, ?_, hs.frames_ne_nil ih.frames, hs.laid ih.laid⟩
    cases hs with
    | declare hy hp => exact ih.depth
    | enter name hp => exact ih.depth.trans (Nat.le_succ _)
    | exit hp => simp

theorem exists_enter (h : InFunction ts m.store) (name : String) :
    ∃ m', ScopeStep (ts, m) (.inside ts name :: ts, m') := by
  obtain ⟨f, fs, c, cs, hf, hc⟩ := h.exists_scope
  have hpush : ∃ s, m.store.pushScope = .ok s := by simp [Store.pushScope, hf, hc]
  obtain ⟨s, hpush⟩ := hpush
  exact ⟨_, .enter name hpush⟩

theorem exists_exit (h : InFunction ts m.store) (hts : 3 ≤ ts.length) :
    ∃ m', ScopeStep (ts, m) (ts.tail, m') := by
  obtain ⟨f, fs, c, cs, hf, hc⟩ := h.exists_scope
  match ts, hts with
  | t :: u :: g :: us, _ =>
    have hpop : ∃ s, m.store.popScope = .ok s := by simp [Store.popScope, hf, hc]
    obtain ⟨s, hpop⟩ := hpop
    exact ⟨_, .exit hpop⟩

theorem exists_declare {t : SymbolTable} (h : InFunction (t :: ts) m.store) {T : CType}
    (hT : T.size?.isSome = true) (name : String) :
    ∃ m', ScopeStep (t :: ts, m) (t.insert (.var name (.number T)) :: ts, m') := by
  obtain ⟨f, fs, c, cs, hf, hc⟩ := h.exists_scope
  obtain ⟨ns, hns⟩ := h.laid
  obtain ⟨k, hk⟩ := Option.isSome_iff_exists.1 hT
  obtain ⟨n, r, hrun⟩ := Run.execute_declareNumber (CType.size_eq hk) name m
  have hdeclare := Run.execute_declare (m := { m with random := r }) hns name k (.number n)
  simp only [Store.bind, hf, hc] at hdeclare
  exact ⟨_, .declare (.var name (.number T)) (hrun.trans hdeclare)⟩

end InFunction

/-! ## Agreement -/

/-- Tables and scopes with the same names agree on where a name is found, if no two scopes have the
same name. -/
theorem found_at_level_iff {ts : List SymbolTable} {cs : List Scope}
    (hnames : List.Forall₂ SameNames ts cs) (hlevels : SymbolTable.Levels ts)
    (hdistinct : cs.Pairwise fun c d => c ≠ d) (name : String) (level : Nat) :
    (∃ y, SymbolTable.lookupAt? ts name = some (y, level + 1)) ↔
      ∃ c, cs.find? (·.entries.has name) = some c ∧ cs.reverse[level]? = some c := by
  induction hnames with
  | nil => simp [SymbolTable.lookupAt?]
  | @cons t c ts cs hname hrest ih =>
    obtain ⟨hlevel, hlevels⟩ := hlevels
    obtain ⟨hc, hdistinct⟩ := List.pairwise_cons.1 hdistinct
    have ih := ih hlevels hdistinct
    have hlength := hrest.length_eq
    have hlast : (c :: cs).reverse[level]? =
        if level < cs.length then cs.reverse[level]?
        else if level = cs.length then some c else none := by
      rw [List.reverse_cons, List.getElem?_append, List.length_reverse]
      split
      · rfl
      · next hge =>
        split
        · next heq => simp [heq]
        · next hne =>
          have : level - cs.length ≠ 0 := by omega
          simp [this]
    cases hfind : t.find? name with
    | some y =>
      have hhas : c.entries.has name = true := by rw [← hname name, hfind]; rfl
      have hlookup : SymbolTable.lookupAt? (t :: ts) name = some (y, t.level) := by
        simp [SymbolTable.lookupAt?, hfind]
      have hfound : (c :: cs).find? (·.entries.has name) = some c := by simp [hhas]
      rw [hlookup, hfound, hlast, hlevel]
      constructor
      · rintro ⟨y', hy'⟩
        have heq : ts.length + 1 = level + 1 := (Prod.mk.inj (Option.some.inj hy')).2
        refine ⟨c, rfl, ?_⟩
        rw [if_neg (by omega), if_pos (by omega)]
      · rintro ⟨d, hd, hat⟩
        obtain rfl := Option.some.inj hd
        split at hat
        · exact absurd rfl (hc c (List.mem_reverse.1 (List.mem_of_getElem? hat)))
        · split at hat
          · next heq => exact ⟨y, by rw [heq, hlength]⟩
          · cases hat
    | none =>
      have hhas : c.entries.has name = false := by rw [← hname name, hfind]; rfl
      have hlookup : SymbolTable.lookupAt? (t :: ts) name = SymbolTable.lookupAt? ts name := by
        simp [SymbolTable.lookupAt?, hfind]
      have hfound : (c :: cs).find? (·.entries.has name) = cs.find? (·.entries.has name) := by
        simp [hhas]
      rw [hlookup, hfound, hlast, ih]
      constructor
      · rintro ⟨d, hd, hat⟩
        have hlt := (List.getElem?_eq_some_iff.1 hat).1
        rw [List.length_reverse] at hlt
        exact ⟨d, hd, by rw [if_pos hlt]; exact hat⟩
      · rintro ⟨d, hd, hat⟩
        refine ⟨d, hd, ?_⟩
        split at hat
        · exact hat
        · split at hat
          · obtain rfl := Option.some.inj hat
            exact absurd rfl (hc c (List.mem_of_find?_eq_some hd))
          · cases hat

theorem not_found_iff {ts : List SymbolTable} {cs : List Scope}
    (hnames : List.Forall₂ SameNames ts cs) (name : String) :
    SymbolTable.lookup? ts name = none ↔ cs.find? (·.entries.has name) = none := by
  induction hnames with
  | nil => simp [SymbolTable.lookup?]
  | @cons t c ts cs hname hrest ih =>
    have hc := hname name
    simp only [SymbolTable.lookup?] at ih ⊢
    cases hfind : t.find? name with
    | some y =>
      have hhas : c.entries.has name = true := by rw [← hc, hfind]; rfl
      simp [hfind, hhas]
    | none =>
      have hhas : c.entries.has name = false := by rw [← hc, hfind]; rfl
      simpa [hfind, hhas] using ih

/-- Global names are declared, then a function is entered, and in it names are declared and blocks
entered and left in any order. Then each name is found in the table of a level if and only if it is
found in the scope of that level, and it is in no table if and only if it is unbound. The steps are
never stuck: a block can be entered, one that was entered can be left, and a variable can be
declared. -/
theorem tables_and_scopes_agree {g : SymbolTable} {ts : List SymbolTable} {m₀ m₁ m : Machine}
    {program table frame : String} (hempty : m₀.store = Store.empty)
    (hglobals : Relation.ReflTransGen ScopeStep ([.inside [] program], m₀) ([g], m₁))
    (hsteps : Relation.ReflTransGen ScopeStep
      ([.inside [g] table, g], { m₁ with store := m₁.store.pushFrame frame }) (ts, m)) :
    (∀ (name : String) (level : Nat),
      (∃ y, SymbolTable.lookup? ts name = some y ∧
        SymbolTable.lookupAt? ts name = some (y, level)) ↔
          ∃ c, m.store.scopeOf name = .ok c ∧ m.store.scopeAt? level = some c) ∧
    (∀ name : String,
      SymbolTable.lookup? ts name = none ↔ m.store.scopeOf name = .error (.unbound name)) ∧
    (∀ name : String, ∃ m', ScopeStep (ts, m) (.inside ts name :: ts, m')) ∧
    (3 ≤ ts.length → ∃ m', ScopeStep (ts, m) (ts.tail, m')) ∧
    (∀ (t : SymbolTable) (us : List SymbolTable) (T : CType) (name : String), ts = t :: us →
      T.size?.isSome = true →
        ∃ m', ScopeStep (ts, m) (t.insert (.var name (.number T)) :: us, m')) := by
  have htop : AtTop [g] m₁.store := by
    refine AtTop.run (r := ([.inside [] program], m₀)) ?_ hglobals
    rw [hempty]
    exact .start program
  have h : InFunction ts m.store := (InFunction.enter htop table frame).run hsteps
  have hdistinct : m.store.visible.Pairwise fun c d => c ≠ d := by
    refine h.numbers.imp ?_
    rintro c d hlt rfl
    exact lt_irrefl _ hlt
  refine ⟨?_, ?_, h.exists_enter, h.exists_exit, ?_⟩
  · intro name level
    have hlookup (y : Symbol) : (SymbolTable.lookup? ts name = some y ∧
        SymbolTable.lookupAt? ts name = some (y, level)) ↔
          SymbolTable.lookupAt? ts name = some (y, level) := by
      refine and_iff_right_of_imp fun hy => ?_
      rw [← SymbolTable.map_lookupAt?, hy]
      rfl
    simp only [hlookup]
    cases level with
    | zero =>
      constructor
      · rintro ⟨y, hy⟩
        exact absurd rfl (SymbolTable.level_ne_zero_of_lookupAt? h.levels hy)
      · rintro ⟨c, -, hc⟩
        cases hc
    | succ level =>
      rw [found_at_level_iff h.names h.levels hdistinct]
      refine exists_congr fun c => and_congr_left fun _ => ?_
      rw [Store.scopeOf_eq h.frames]
      cases m.store.visible.find? (·.entries.has name) <;> simp
  · intro name
    rw [not_found_iff h.names, Store.scopeOf_eq h.frames]
    cases m.store.visible.find? (·.entries.has name) <;> simp
  · rintro t us T name rfl hT
    exact h.exists_declare hT name

/-- A global variable is shadowed by one in a block inside a function, where it is found. -/
theorem tables_and_scopes_agree_shadowed :
    ∃ (g : SymbolTable) (ts : List SymbolTable) (m₁ m : Machine),
      Relation.ReflTransGen ScopeStep ([.inside [] "global"], Machine.start "") ([g], m₁) ∧
      Relation.ReflTransGen ScopeStep
        ([.inside [g] "main", g], { m₁ with store := m₁.store.pushFrame "main" }) (ts, m) ∧
      SymbolTable.lookupAt? [g] "x" = some (.var "x" (.number .int), 1) ∧
      SymbolTable.lookupAt? ts "x" = some (.var "x" (.number .char), 3) ∧
      ∃ c, m.store.scopeOf "x" = .ok c ∧ m.store.scopeAt? 3 = some c := by
  have hstart : ∃ m₁, (Run.declareVariable (.number .int) "x").execute (Machine.start "") =
      (.ok (), m₁) := by
    obtain ⟨n, r, hrun⟩ := Run.execute_declareNumber (t := .int) rfl "x" (Machine.start "")
    exact ⟨_, hrun.trans (Run.execute_declare Store.laid_empty "x" 4 (.number n))⟩
  obtain ⟨m₁, hrun⟩ := hstart
  have hx : ScopeStep ([.inside [] "global"], Machine.start "")
      ([(SymbolTable.inside [] "global").insert (.var "x" (.number .int))], m₁) :=
    .declare (.var "x" (.number .int)) hrun
  have hg := Relation.ReflTransGen.single hx
  obtain ⟨m₂, hblock⟩ := (tables_and_scopes_agree rfl hg .refl).2.2.1 "block"
  have hsteps := Relation.ReflTransGen.single hblock
  obtain ⟨m₃, hinner⟩ :=
    (tables_and_scopes_agree rfl hg hsteps).2.2.2.2 _ _ .char "x" rfl rfl
  have hsteps := hsteps.tail hinner
  exact ⟨_, _, m₁, m₃, hg, hsteps, rfl, rfl,
    ((tables_and_scopes_agree rfl hg hsteps).1 "x" 3).1 ⟨_, rfl, rfl⟩⟩

end MiniC
