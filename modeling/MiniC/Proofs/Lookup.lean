import MiniC.Proofs.Accepted
import MiniC.Proofs.Places

/-!
# Lookups of names

The evaluation of a tree looks up names: that of a variable, of the variable from which the target
of an assignment or of a step is reached, of the base of a field, of what is called, and the tag of
a structure of which a variable is declared. A lookup goes right if it finds the binding that was
made by the declaration to which the name is resolved where the tree stands. In an accepted program
such a declaration is always there.
-/

namespace MiniC

open Eval (callMain)

namespace Tree

def placeName? : Tree → Option String
  | .var k _ => some k.value.render
  | .unary _ e _ _ => e.name?
  | .cast _ e _ _ => e.name?
  | .field _ b _ _ => b.name?
  | .binary l _ _ _ => l.name?
  | _ => none

/-- The name that the rule for a tree looks up before it does anything else. -/
def firstName? : Tree → Option String
  | .var k _ => some k.value.render
  | .field _ b _ _ => b.name?
  | .assign t _ _ _ => t.placeName?
  | .binary l op _ _ => if op.kind = .arrow then l.name? else none
  | .unary op e inFront _ =>
    match op.kind with
    | .ampersand => if inFront then e.name? else none
    | .incOp | .decOp => e.placeName?
    | _ => none
  | _ => none

end Tree

/-- An evaluation looks up a name, in a machine and after the given events inside the evaluation. -/
inductive Visit.Looks (v : Visit) : String → Machine → List Event → Prop
  | first {name : String} (h : v.tree.firstName? = some name) : Looks v name v.before []
  /-- What is called is looked up behind the arguments. -/
  | called {f : String} {args : List Tree} {n : Nat} {vs : List Value} {s : Machine × Journal}
      (h : v.tree = .call f args n)
      (ha : (Eval.arguments (record (v.fuel - 1)) args).execute
        (Recorded.startAt v.before (v.tree :: v.context)) = (.ok vs, s)) :
      Looks v f s.1 s.2.events
  /-- The tag of a structure is looked up when the variable has been declared. -/
  | tag {k : Token} {t : StructType} {i j n : Nat} {m : Machine}
      (h : v.tree = .varDecl (.var k i) (.structName (.struct t) j) n) (ht : t.pointer = false)
      (hd : (Run.declare k.value.render Run.structSize (.record [])).execute v.before =
        (.ok (), m)) :
      Looks v t.name m []

def Visit.frame (v : Visit) : List Tree :=
  v.context.dropWhile fun t => !t.isBody

/-- What has happened since the body was begun in which an evaluation happens, out of what has
happened before. The beginning of the body is the first of it. -/
def Visit.activation (v : Visit) (before : List Event) : List Event :=
  before.takeWhile (fun e => v.frame.length ≤ e.visit.context.length) ++
    (before.dropWhile fun e => v.frame.length ≤ e.visit.context.length).take 1

def Visit.since (v : Visit) (during before : List Event) : List Event :=
  during ++ .enter v :: v.activation before

/-! ## Declarations that have been executed -/

/-- How deep the scopes of a function lie that are open inside some trees, innermost first: as deep
as there are trees from the one on that has opened the scope. -/
def scopeDepths : List Tree → List Nat
  | [] => []
  | .body _ _ :: c => [c.length + 1]
  | .block _ _ :: c => (c.length + 1) :: scopeDepths c
  | _ :: c => scopeDepths c

/-- A declaration has been executed in a scope when an event happens. -/
def Event.Executes (d : Declaration) (depth : Nat) : Event → Prop
  | .leave u (.ok _) _ => u.tree = d.tree ∧ (scopeDepths u.context).head? = some depth
  | _ => False

/-- A declaration has been executed in a scope since the scope was opened. -/
def Declaration.ExecutedIn (d : Declaration) (depth : Nat) (es : List Event) : Prop :=
  ∃ e ∈ es.takeWhile (fun e => depth ≤ e.visit.context.length), e.Executes d depth

/-- A declaration stands in a switch of the body that comes first, and in no block inside it. -/
def Declaration.InSwitch (d : Declaration) (frame : List Tree) : Prop :=
  ∃ b ∈ frame.head?, ∃ s cs n, Tree.Within (.switch s cs n) b ∧ d ∈ declarationsOf cs

/-! ## Lookups that go right -/

def Store.Binds (s : Store) (name : String) (b : Binding) : Prop :=
  ∃ c, s.currentScope? = some c ∧ c.entries.get? name = some b

/-- A declaration of a program has made a binding when an event happens. A parameter is bound when
the body of its function begins, and everything else when the declaration has been executed. -/
def Declaration.Makes (program : Tree) (d : Declaration) (b : Binding) : Event → Prop
  | .enter u => u.before.store.Binds d.name b ∧
      ∃ type f ps n, Tree.Within (.function type f ps u.tree n) program ∧ d.tree ∈ ps
  | .leave u (.ok _) m => m.store.Binds d.name b ∧ u.tree = d.tree
  | .leave _ (.error _) _ => False

/-- Where the tree stands that is evaluated: in the program, inside the same trees of its function,
or it is the call of `main`, which comes behind the whole program. -/
inductive Visit.StandsAt (program : Tree) (v : Visit) (p : Place) : Prop
  | within {ts : List Tree} (h : (Place.start program).Chain .executed ts p)
      (htree : p.tree = v.tree)
      (haround : v.around = (ts.takeWhile fun t => !t.isBody).filter fun t => !t.isLabel)
  | behind {cs : List Tree} {n : Nat} (h : program = .program cs n) (hcontext : v.context = [])
      (htree : v.tree = callMain) (hp : p = ⟨Env.afterAll [[]] cs, false, false, callMain⟩)

/-- The state of the analysis of a program at a place: when it comes to the check of the tree there,
or, for the call of `main`, when it is through with the program. -/
inductive Analysis.ComesTo (program : Tree) (p : Place) (s : Analysis) : Prop
  | within (h : Comes program start p.tree s) (hs : s.At p)
  | behind {cs : List Tree} {n : Nat} (hp : program = .program cs n) (ht : p.tree = callMain)
      (h : (checkAll cs).Gives (start.enter (.inside [] "global")) () s) (hs : s.At p)

/-- A name is resolved to a declaration at a place of a program: the one that is in scope, and for
which the analysis finds a symbol in the state in which it comes to the place. -/
def Place.Resolves (program : Tree) (p : Place) (name : String) (d : Declaration) : Prop :=
  p.env.find? name = some d ∧ ∃ s y, Analysis.ComesTo program p s ∧
    SymbolTable.lookup? s.tables name = some y ∧ y.meaning = d.meaning

/-- A lookup finds the binding that was made by the declaration to which the name is resolved. If
this is not a declaration at the top of the program, it was made since the function began. -/
def Visit.FindsDeclared (program : Tree) (v : Visit) (name : String) (m : Machine)
    (during before : List Event) : Prop :=
  ∃ p d b, v.StandsAt program p ∧ p.Resolves program name d ∧ m.store.lookup name = .ok b ∧
    ∃ e, d.Makes program b e ∧ e ∈ during ++ .enter v :: before ∧
      ((Env.find? p.env.dropLast name).isSome → e ∈ v.since during before)

/-- If a parameter of a function has the name, there were as many arguments as parameters. -/
def Given (program : Tree) (name : String) (frame : List Tree) : Prop :=
  ∀ b f args i rest, frame = b :: .call f args i :: rest →
    ∀ type g ps n, Tree.Within (.function type g ps b n) program →
      name ∈ namesOf (declarationsOf ps) → args.length = ps.length

/-- What the lookup of a name needs to go right. -/
structure Visit.Undisturbed (program : Tree) (v : Visit) (name : String)
    (during before : List Event) : Prop where
  /-- No call since the function began has ended without a value. -/
  returned : ∀ e ∈ v.since during before, e.valueless = false
  given : Given program name v.frame
  /-- The declaration to which the name is resolved has not been jumped over: if it stands in a
  switch, it has been executed since its scope was opened. -/
  reached : ∀ p, v.StandsAt program p → ∀ x ∈ p.env.zip (scopeDepths v.context), ∀ d ∈ x.1,
    p.env.find? name = some d → d.InSwitch v.frame → d.ExecutedIn x.2 (v.since during before)
  /-- A declaration of the name in a switch that stands further behind has not been executed, in an
  earlier turn of a loop. -/
  ahead : ∀ p, v.StandsAt program p → ∀ x ∈ p.env.zip (scopeDepths v.context), ∀ d : Declaration,
    d.name = name → d.InSwitch v.frame → d.ExecutedIn x.2 (v.since during before) → d ∈ x.1
  /-- A variable of a structure does not have the name of the structure. -/
  untagged : ∀ k i t j n, v.tree = .varDecl (.var k i) (.structName (.struct t) j) n →
    k.value.render ≠ t.name
  /-- The top of the program, with the libraries that it includes, declares the name once. -/
  once : (namesOf program.globals).count name ≤ 1

/-! ## Names that are declared -/

namespace Analysis

theorem isPlace_of_assignType {op : Kind} {line : Nat} {t : Tree} {l r : Typing}
    {res : Typing × Option Warning} (h : assignType op line t l r = .ok res) :
    isPlace t = .ok true := by
  unfold assignType at h
  cases hp : isPlace t with
  | error e =>
    rw [hp] at h
    cases h
  | ok b =>
    cases b with
    | false =>
      rw [hp] at h
      cases h
    | true => rfl

theorem isPlace_of_unaryType {op : Kind} {line : Nat} {e : Tree} {t res : Typing}
    (hop : op = .incOp ∨ op = .decOp) (h : unaryType op line e t = .ok res) :
    isPlace e = .ok true := by
  have hstep : isStep op = true := by
    obtain rfl | rfl := hop
    · rfl
    · rfl
  unfold unaryType at h
  rw [if_pos hstep] at h
  cases hp : isPlace e with
  | error e =>
    rw [hp] at h
    cases h
  | ok b =>
    cases b with
    | false =>
      rw [hp] at h
      cases h
    | true => rfl

end Analysis

def Tree.isExpression : Tree → Bool
  | num .. | string .. | var .. | binary .. | unary .. | cast .. | ternary .. | assign ..
  | sequence .. | call .. | field .. => true
  | _ => false

theorem isExpression_of_grammatical {t : Tree} (h : t.Grammatical .expression) :
    t.isExpression = true := by
  cases h <;> rfl

theorem Tree.Grammatical.toExpression {k : Category} {t : Tree} (h : t.Grammatical k)
    (ht : t.isExpression = true) : t.Grammatical .expression := by
  cases t <;> first | exact h.own | cases ht

namespace Place

variable {A : Tree → Analysis → Prop} {Γ : Env} {l w : Bool} {t : Tree} {name : String}

theorem Accepted.isPlace_target {x y : Tree} {op : Token} {n : Nat}
    (h : Accepted A ⟨Γ, l, w, .assign x op y n⟩) : Analysis.isPlace x = .ok true := by
  obtain ⟨-, s, a, s', -, -, hgives⟩ := h
  simp only [Analysis.checkPart, Analysis.check, Check.gives_bind, Check.gives_ofExcept] at hgives
  obtain ⟨_, _, _, _, _, _, _, _, ⟨htype, -⟩, -⟩ := hgives
  exact Analysis.isPlace_of_assignType htype

theorem Accepted.isPlace_operand {e : Tree} {op : Token} {f : Bool} {n : Nat}
    (h : Accepted A ⟨Γ, l, w, .unary op e f n⟩) (hop : op.kind = .incOp ∨ op.kind = .decOp) :
    Analysis.isPlace e = .ok true := by
  obtain ⟨-, s, a, s', -, -, hgives⟩ := h
  simp only [Analysis.checkPart, Analysis.check, Check.gives_bind, Check.gives_ofExcept] at hgives
  obtain ⟨_, _, _, htype, -⟩ := hgives
  exact Analysis.isPlace_of_unaryType hop htype

def Passable (A : Tree → Analysis → Prop) (p : Place) : Prop :=
  ∀ r, p.Occurs .executed r → r.Accepted A

theorem Passable.part {p r : Place} (h : p.Passable A) (hr : r ∈ p.parts .executed) :
    r.Passable A :=
  fun _ hq => h _ (.part hr hq)

theorem Passable.var {k : Token} {i : Nat} (h : Passable A ⟨Γ, l, w, .var k i⟩) :
    (Γ.find? k.value.render).isSome = true :=
  (h _ (.self _)).1

theorem Passable.placeName (h : Passable A ⟨Γ, l, w, t⟩) (hg : t.Grammatical .expression)
    (hplace : Analysis.isPlace t = .ok true) (hname : t.placeName? = some name) :
    (Γ.find? name).isSome = true := by
  cases hg with
  | var k i =>
    obtain rfl := Option.some.inj hname
    exact h.var
  | @unary e op f n _ he =>
    cases he with
    | var k i =>
      obtain rfl := Option.some.inj hname
      exact (h.part (List.mem_singleton.2 rfl)).var
    | _ => cases hplace
  | field op b m i j n =>
    obtain rfl := Option.some.inj hname
    exact (h _ (.self _)).1
  | _ => cases hplace

theorem Passable.firstName {k : Tree.Category} (h : Passable A ⟨Γ, l, w, t⟩) (hg : t.Grammatical k)
    (hname : t.firstName? = some name) : (Γ.find? name).isSome = true := by
  have haccepted := h _ (.self _)
  cases t with
  | var k i =>
    obtain rfl := Option.some.inj hname
    exact h.var
  | field op b m n =>
    cases hg.toExpression rfl with
    | field =>
      obtain rfl := Option.some.inj hname
      exact haccepted.1
  | binary x op y n =>
    cases hg.toExpression rfl with
    | binary _ _ ho =>
      rw [Tree.firstName?, if_neg ho] at hname
      cases hname
  | assign x op y n =>
    cases hg.toExpression rfl with
    | assign _ _ hx =>
      have hpart : (⟨Γ, l, w, x⟩ : Place) ∈ Place.parts .executed ⟨Γ, l, w, .assign x op y n⟩ :=
        List.mem_cons_self ..
      exact (h.part hpart).placeName hx haccepted.isPlace_target hname
  | unary op e f n =>
    have hpart : (⟨Γ, l, w, e⟩ : Place) ∈ Place.parts .executed ⟨Γ, l, w, .unary op e f n⟩ :=
      List.mem_singleton.2 rfl
    cases hg.toExpression rfl with
    | unary _ _ _ ho he =>
      have hstep (hk : op.kind = .incOp ∨ op.kind = .decOp) (hname : e.placeName? = some name) :
          (Γ.find? name).isSome = true :=
        (h.part hpart).placeName he (haccepted.isPlace_operand hk) hname
      simp only [Tree.firstName?] at hname
      split at hname
      · next hk =>
        obtain ⟨k, i, rfl⟩ := ho hk
        split at hname
        · obtain rfl := Option.some.inj hname
          exact (h.part hpart).var
        · cases hname
      · next hk => exact hstep (.inl hk) hname
      · next hk => exact hstep (.inr hk) hname
      · cases hname
  | _ => cases hname

end Place

namespace Analysis

variable {program : Tree} (hp : program.Grammatical .program) (ha : (analyze program).1.isOk = true)

include hp ha

theorem isPlace_target {x y : Tree} {op : Token} {n : Nat}
    (h : (Tree.assign x op y n).Within program) : isPlace x = .ok true := by
  obtain ⟨⟨Γ, l, w, _⟩, hq, rfl⟩ := Place.exists_occurs hp h rfl
  exact (accepted_places hp ha hq).isPlace_target

theorem isPlace_operand {e : Tree} {op : Token} {f : Bool} {n : Nat}
    (h : (Tree.unary op e f n).Within program) (hop : op.kind = .incOp ∨ op.kind = .decOp) :
    isPlace e = .ok true := by
  obtain ⟨⟨Γ, l, w, _⟩, hq, rfl⟩ := Place.exists_occurs hp h rfl
  exact (accepted_places hp ha hq).isPlace_operand hop

end Analysis

/-! ## Lookups in scopes that bind what has been executed -/

theorem find?_eq_none_iff {ds : List Declaration} {name : String} :
    ds.find? (·.name = name) = none ↔ name ∉ namesOf ds := by
  simp [namesOf]

theorem Option.Rel.mono {α β : Type} {R R' : α → β → Prop} (hR : ∀ a b, R a b → R' a b)
    {o : Option α} {o' : Option β} (h : Option.Rel R o o') : Option.Rel R' o o' := by
  cases h with
  | some hab => exact .some (hR _ _ hab)
  | none => exact .none

/-- A scope of a function: how deep it lies, and what it declares in front of a tree. -/
structure Layer where
  depth : Nat
  declared : List Declaration

/-- A scope binds a name as the declarations say that have been executed in it: all that it declares
in front of a tree, as far as they do not stand in a switch, and some of those in switches. -/
structure Layer.Binds (program : Tree) (name : String) (frame : List Tree) (es : List Event)
    (l : Layer) (x : Scope) : Prop where
  made : ∀ b, x.entries.get? name = some b → ∃ d : Declaration, d.name = name ∧
    (∃ e ∈ es, d.Makes program b e) ∧
      (d ∈ l.declared ∧ ¬ d.InSwitch frame ∨ d.InSwitch frame ∧ d.ExecutedIn l.depth es)
  bound : ∀ d ∈ l.declared, d.name = name → ¬ d.InSwitch frame →
    (x.entries.get? name).isSome = true
  executed : ∀ d : Declaration, d.name = name → d.InSwitch frame → d.ExecutedIn l.depth es →
    (x.entries.get? name).isSome = true

abbrev Layers := List Layer

def Layers.env (Δ : Layers) : Env :=
  Δ.map Layer.declared

namespace Store

variable {name : String} {s : Store} {f : Frame} {fs : List Frame} {c : Scope} {b : Binding}

/-- If what is resolved has been executed, and nothing ahead of its place, the scope that binds a
name is the one that declares it. -/
theorem find?_of_binds {program : Tree} {frame : List Tree} {es : List Event} {Δ : Layers}
    {scopes : List Scope} (h : List.Forall₂ (Layer.Binds program name frame es) Δ scopes)
    (hdistinct : ∀ l ∈ Δ, ∀ d ∈ l.declared, ∀ e ∈ l.declared, d.name = e.name → d = e)
    (hreached : ∀ l ∈ Δ, ∀ d ∈ l.declared, Δ.env.find? name = some d → d.InSwitch frame →
      d.ExecutedIn l.depth es)
    (hahead : ∀ l ∈ Δ, ∀ d : Declaration, d.name = name → d.InSwitch frame →
      d.ExecutedIn l.depth es → d ∈ l.declared) :
    Option.Rel (fun d c => ∃ b, (∃ e ∈ es, d.Makes program b e) ∧
        Table.get? c.entries name = some b) (Δ.env.find? name)
      (scopes.find? (·.entries.has name)) := by
  induction h with
  | nil => exact .none
  | @cons l x Δ xs hx _ ih =>
    obtain ⟨hdistinct, hdistincts⟩ := List.forall_mem_cons.1 hdistinct
    obtain ⟨hreached, hreacheds⟩ := List.forall_mem_cons.1 hreached
    obtain ⟨hahead, haheads⟩ := List.forall_mem_cons.1 hahead
    have hmade (b : Binding) (hb : x.entries.get? name = some b) : ∃ d ∈ l.declared,
        d.name = name ∧ ∃ e ∈ es, d.Makes program b e := by
      obtain ⟨d, hname, hmakes, ⟨hd, -⟩ | ⟨hswitch, hexecuted⟩⟩ := hx.made b hb
      · exact ⟨d, hd, hname, hmakes⟩
      · exact ⟨d, hahead d hname hswitch hexecuted, hname, hmakes⟩
    simp only [Layers.env, Env.find?, List.map_cons, List.findSome?_cons, List.find?_cons,
      Table.has] at ih hreached hreacheds ⊢
    cases hfind : l.declared.find? (·.name = name) with
    | none =>
      cases hget : x.entries.get? name with
      | none =>
        rw [hfind] at hreacheds
        exact ih hdistincts hreacheds haheads
      | some b =>
        obtain ⟨d, hd, hname, -⟩ := hmade b hget
        exact absurd (List.mem_map.2 ⟨d, hd, hname⟩) (find?_eq_none_iff.1 hfind)
    | some d =>
      have hd : d ∈ l.declared := List.mem_of_find?_eq_some hfind
      have hname : d.name = name := by simpa using List.find?_some hfind
      have hbound : (x.entries.get? name).isSome = true := by
        by_cases hswitch : d.InSwitch frame
        · exact hx.executed d hname hswitch (hreached d hd (by rw [hfind]) hswitch)
        · exact hx.bound d hd hname hswitch
      obtain ⟨b, hget⟩ := Option.isSome_iff_exists.1 hbound
      obtain ⟨e, he, hsame, hmakes⟩ := hmade b hget
      obtain rfl := hdistinct d hd e he (hname.trans hsame.symm)
      rw [hget]
      exact .some ⟨b, hmakes, hget⟩

theorem lookup_of_scopeOf (h : s.scopeOf name = .ok c) (hb : c.entries.get? name = some b) :
    s.lookup name = .ok b := by
  rw [lookup, h]
  change (c.entries.get? name).elim _ _ = _
  rw [hb]
  rfl

variable {R : Declaration → Binding → Prop} {d : Declaration}

theorem lookup_of_some (hf : s.frames = f :: fs)
    (h : Option.Rel (fun d c => ∃ b, R d b ∧ Table.get? c.entries name = some b) (some d)
      (f.scopes.find? (·.entries.has name))) : ∃ b, R d b ∧ s.lookup name = .ok b := by
  cases hc : f.scopes.find? (·.entries.has name) with
  | none =>
    rw [hc] at h
    cases h
  | some c =>
    rw [hc] at h
    cases h with
    | some h =>
      obtain ⟨b, hR, hb⟩ := h
      exact ⟨b, hR, lookup_of_scopeOf (by simp only [scopeOf, hf, hc]) hb⟩

/-- A name that no scope of the frame declares is looked up in the global scope. -/
theorem lookup_of_none (hf : s.frames = f :: fs)
    (h : Option.Rel (fun d c => ∃ b, R d b ∧ Table.get? c.entries name = some b) none
      (f.scopes.find? (·.entries.has name))) (hb : s.globals.entries.get? name = some b) :
    s.lookup name = .ok b := by
  have hhas : s.globals.entries.has name = true := by
    rw [Table.has, hb]
    rfl
  cases hc : f.scopes.find? (·.entries.has name) with
  | none => exact lookup_of_scopeOf (by simp only [scopeOf, hf, hc, hhas, if_true]) hb
  | some c =>
    rw [hc] at h
    cases h

end Store

end MiniC
