import MiniC.Library.Basic
import MiniC.Proofs.Shape

/-!
# Scopes and well-formed programs

A name is in the scope of the declarations that precede it in the same block or in one around it. An
environment is a list of scopes, innermost first, and a scope is a list of declarations, latest
first. The program, each function with its parameters, and each block have a scope; the braces of a
switch have none, so what is declared in them belongs to the block around the switch.

A place is a tree of a program together with what is known where it stands: the declarations that it
is in the scope of, and whether a loop or a switch of the same function is around it. A program is
well formed if each of its places is fine on its own.
-/

namespace MiniC

inductive Meaning where
  | object
  | constant
  | tag
  /-- A function, with the number of its parameters unless it takes any arguments. -/
  | function (arity : Option Nat)
  deriving DecidableEq

structure Declaration where
  name : String
  meaning : Meaning
  tree : Tree

def namesOf (ds : List Declaration) : List String :=
  ds.map Declaration.name

mutual

/-- The declarations that a tree makes in the scope in which it stands. -/
def Tree.declarations : Tree → List Declaration
  | .varDecl v t n => v.name?.toList.map fun name => ⟨name, .object, .varDecl v t n⟩
  | .param t v n => v.name?.toList.map fun name => ⟨name, .object, .param t v n⟩
  | .structDecl name fields mark n => [⟨name, .tag, .structDecl name fields mark n⟩]
  | .function t name ps b n => [⟨name, .function (some ps.length), .function t name ps b n⟩]
  | .switch _ cs _ => declarationsOf cs
  | .ifElse _ a b _ => a.declarations ++ b.declarations
  | .forLoop _ _ _ b _ => b.declarations
  | .whileLoop _ b _ => b.declarations
  | .doWhile _ b _ => b.declarations
  | .body cs _ => declarationsOf cs
  | _ => []

def declarationsOf : List Tree → List Declaration
  | [] => []
  | t :: ts => t.declarations ++ declarationsOf ts

end

def Builtin.declaration (t : Tree) (f : Builtin) : Declaration :=
  ⟨f.name, .function (f.parameterTypes.map List.length), t⟩

def Library.constantDeclaration (t : Tree) (c : String × Int) : Declaration :=
  ⟨c.1, .constant, t⟩

/-- The scopes around a tree, innermost first. -/
abbrev Env := List (List Declaration)

namespace Env

def find? (Γ : Env) (name : String) : Option Declaration :=
  Γ.findSome? fun c => c.find? (·.name = name)

def declare (ds : List Declaration) : Env → Env
  | c :: Γ => (ds.reverse ++ c) :: Γ
  | [] => []

/-- Adds a library to the innermost scope. A function of a library does not take the place of what is
declared already. -/
def includeLibrary (l : Library) (t : Tree) : Env → Env
  | c :: Γ => ((l.constants.map (Library.constantDeclaration t)).reverse ++
      (c ++ l.functions.map (Builtin.declaration t))) :: Γ
  | [] => []

def after (Γ : Env) : Tree → Env
  | .library name n => (Library.find? name).elim Γ fun l => Γ.includeLibrary l (.library name n)
  | t => Γ.declare t.declarations

end Env

/-- Where the increment of a loop stands: before the body, as it is written, or behind it, as it is
executed. -/
inductive Order where
  | written
  | executed

structure Place where
  env : Env
  /-- Whether a loop of the same function is around the place. -/
  inLoop : Bool
  inSwitch : Bool
  tree : Tree

namespace Place

def start (t : Tree) : Place := ⟨[], false, false, t⟩

def here (p : Place) (t : Tree) : Place := { p with tree := t }

def behind (p : Place) (t u : Tree) : Place := { p with env := p.env.after t, tree := u }

def increment (o : Order) (p : Place) (body t : Tree) : Place :=
  match o with
  | .written => p.here t
  | .executed => p.behind body t

def each (p : Place) : List Tree → List Place
  | [] => []
  | t :: ts => p.here t :: each { p with env := p.env.after t } ts

/-- The places that the parts of a tree have, apart from the names that are declared and those of
types and members. -/
def parts (o : Order) (p : Place) : List Place :=
  match p.tree with
  | .binary l _ r _ => p.each [l, r]
  | .unary _ e _ _ => [p.here e]
  | .cast _ e _ _ => [p.here e]
  | .ternary c a b _ => p.each [c, a, b]
  | .assign t _ v _ => p.each [t, v]
  | .sequence cs _ => p.each cs
  | .call _ args _ => p.each args
  | .switch s cs _ => p.here s :: each { p with inSwitch := true } cs
  | .caseLabel v _ => [p.here v]
  | .ifElse c a b _ => p.each [c, a, b]
  | .forLoop s c i b _ =>
    p.each [s, c] ++ [p.increment o b i, { p with inLoop := true, tree := b }]
  | .whileLoop c b _ => [p.here c, { p with inLoop := true, tree := b }]
  | .doWhile c b _ => [{ p with inLoop := true, tree := b }, p.behind b c]
  | .returning v _ => [p.here v]
  | .block cs _ => each { p with env := [] :: p.env } cs
  | .body cs _ => p.each cs
  | .program cs _ => each { p with env := [] :: p.env } cs
  | .function t name ps b n =>
    [⟨Env.declare (declarationsOf ps) ([] :: p.env.after (.function t name ps b n)), false, false, b⟩]
  | _ => []

inductive Occurs (o : Order) : Place → Place → Prop
  | self (p : Place) : Occurs o p p
  | part {p q r : Place} (hq : q ∈ p.parts o) (hr : Occurs o q r) : Occurs o p r

end Place

def Tree.isDefault : Tree → Bool
  | defaultLabel .. => true
  | _ => false

def Place.Fine (p : Place) : Prop :=
  match p.tree with
  -- Variables and the structures of fields are declared.
  | .var k _ => (p.env.find? k.value.render).isSome = true
  | .field _ (.var k _) _ _ => (p.env.find? k.value.render).isSome = true
  -- Only functions are called, with one argument for each parameter unless they take any.
  | .call name args _ =>
    (p.env.find? name).map Declaration.meaning = some (.function none) ∨
      (p.env.find? name).map Declaration.meaning = some (.function (some args.length))
  -- The structure of a variable is declared.
  | .varDecl _ (.structName (.struct s) _) _ =>
    (p.env.find? s.name).map Declaration.meaning = some .tag
  -- Behind the default label of a switch there is no label.
  | .switch _ cs _ => cs.Pairwise fun t u => t.isDefault = true → u.isLabel = false
  | .continuing _ => p.inLoop = true
  | .breaking _ => p.inLoop = true ∨ p.inSwitch = true
  -- A scope has no two declarations of a name.
  | .program cs _ => (namesOf (declarationsOf cs)).Nodup
  | .function _ _ ps b _ => (namesOf (declarationsOf ps ++ b.declarations)).Nodup
  | .block cs _ => (namesOf (declarationsOf cs)).Nodup
  | _ => True

def Tree.variable? : Tree → Option String
  | .var k _ => some k.value.render
  | _ => none

theorem Place.not_fine_of_unbound {p : Place} {name : String} (h : p.tree.variable? = some name)
    (hnone : p.env.find? name = none) : ¬ p.Fine := by
  obtain ⟨Γ, l, w, t⟩ := p
  cases t with
  | var k n =>
    obtain rfl := Option.some.inj h
    intro hfine
    change (Γ.find? k.value.render).isSome = true at hfine
    rw [hnone] at hfine
    cases hfine
  | _ => cases h

def Place.follow (o : Order) : List Nat → Place → Option Place
  | [], p => some p
  | i :: path, p => (p.parts o)[i]?.bind (follow o path)

theorem Place.occurs_of_follow {o : Order} {path : List Nat} {p q : Place}
    (h : p.follow o path = some q) : p.Occurs o q := by
  induction path generalizing p with
  | nil =>
    obtain rfl := Option.some.inj h
    exact .self p
  | cons i path ih =>
    obtain ⟨r, hr, hq⟩ := Option.bind_eq_some_iff.1 h
    exact .part (List.mem_of_getElem? hr) (ih hq)

def Tree.WellFormed (o : Order) (program : Tree) : Prop :=
  ∀ p, (Place.start program).Occurs o p → p.Fine

/-! ## Environments behind trees -/

namespace Env

def afterAll (Γ : Env) (ts : List Tree) : Env :=
  ts.foldl after Γ

/-- Declarations can be added to the innermost scope: their names are new, and differ. -/
def Fresh : Env → List Declaration → Prop
  | [], _ => True
  | c :: _, ds => (namesOf ds).Nodup ∧ ∀ n ∈ namesOf ds, n ∉ namesOf c

theorem after_library {name : String} {l : Library} (h : Library.find? name = some l) (Γ : Env)
    (n : Nat) : Γ.after (.library name n) = Γ.includeLibrary l (.library name n) := by
  simp only [after, h, Option.elim]

theorem fresh_nil (Γ : Env) : Γ.Fresh [] := by
  cases Γ with
  | nil => trivial
  | cons c Γ => exact ⟨List.nodup_nil, List.forall_mem_nil _⟩

theorem declare_nil (Γ : Env) : Γ.declare [] = Γ := by
  cases Γ <;> rfl

theorem declare_append (Γ : Env) (ds es : List Declaration) :
    Γ.declare (ds ++ es) = (Γ.declare ds).declare es := by
  cases Γ with
  | nil => rfl
  | cons c Γ => simp only [declare, List.reverse_append, List.append_assoc]

/-- What can be added behind a declaration of a new name can be added together with it. -/
theorem Fresh.cons {Γ : Env} {d : Declaration} {ds : List Declaration}
    (hd : ∀ c ∈ Γ.head?, d.name ∉ namesOf c) (h : (Γ.declare [d]).Fresh ds) : Γ.Fresh (d :: ds) := by
  cases Γ with
  | nil => trivial
  | cons c Γ =>
    obtain ⟨hnodup, hnew⟩ := h
    have hne : d.name ∉ namesOf ds := fun hmem => hnew d.name hmem (List.mem_cons_self ..)
    refine ⟨List.nodup_cons.2 ⟨hne, hnodup⟩, ?_⟩
    exact List.forall_mem_cons.2 ⟨hd c rfl, fun n hn hc => hnew n hn (List.mem_cons_of_mem _ hc)⟩

theorem Fresh.ofInclude {Γ : Env} {l : Library} {t : Tree} {ds : List Declaration}
    (h : (Γ.includeLibrary l t).Fresh ds) : Γ.Fresh ds := by
  cases Γ with
  | nil => trivial
  | cons c Γ =>
    obtain ⟨hnodup, hnew⟩ := h
    refine ⟨hnodup, fun n hn hc => hnew n hn ?_⟩
    simp only [namesOf, List.map_append]
    exact List.mem_append_right _ (List.mem_append_left _ hc)

end Env

/-- Behind a tree is what it declares; this is so of all trees but those that include a library. -/
def Tree.Plain (t : Tree) : Prop :=
  ∀ Γ : Env, Γ.after t = Γ.declare t.declarations

theorem Env.afterAll_eq {ts : List Tree} (hts : ∀ t ∈ ts, t.Plain) (Γ : Env) :
    Γ.afterAll ts = Γ.declare (declarationsOf ts) := by
  induction ts generalizing Γ with
  | nil => exact Γ.declare_nil.symm
  | cons t ts ih =>
    obtain ⟨ht, hts⟩ := List.forall_mem_cons.1 hts
    calc
      (Γ.after t).afterAll ts = (Γ.declare t.declarations).declare (declarationsOf ts) := by
        rw [ih hts, ht]
      _ = Γ.declare (t.declarations ++ declarationsOf ts) := (Γ.declare_append ..).symm

namespace Tree

theorem Grammatical.plain {k : Category} {t : Tree} (ht : t.Grammatical k) (h : k ≠ .topLevel) :
    t.Plain := by
  cases t with
  | library l n =>
    exfalso
    generalize hl : Tree.library l n = t at ht
    induction ht with
    | library => exact h rfl
    | ofExpression _ ih | simple _ ih | ofStatement _ ih | ofDeclaration _ ih | ofItem _ ih =>
      exact ih nofun hl
    | declared _ ih => exact h rfl
    | _ => cases hl
  | _ => exact fun Γ => rfl

theorem Grammatical.declarations_eq_nil {t : Tree} (ht : t.Grammatical .expression) :
    t.declarations = [] := by
  cases ht <;> rfl

theorem Grammatical.optional_declarations {t : Tree} (ht : t.Grammatical .optional) :
    t.declarations = [] := by
  cases ht with
  | absentExpression => rfl
  | ofExpression he => exact he.declarations_eq_nil

theorem declarationsOf_eq_nil {ts : List Tree} (hts : ∀ t ∈ ts, t.declarations = []) :
    declarationsOf ts = [] := by
  induction ts with
  | nil => rfl
  | cons t ts ih =>
    obtain ⟨ht, hts⟩ := List.forall_mem_cons.1 hts
    rw [declarationsOf, ht, ih hts, List.append_nil]

end Tree

end MiniC
