import MiniC.Proofs.Bindings
import MiniC.Proofs.Returns

/-!
# Where trees stand

The places inside a place are taken together with the trees around them. What the rule for a tree
evaluates stands in the environment of the tree, with at most some declarations more that the tree
makes itself; and a tree that is not itself a declaration makes declarations only in switches. The
functions of a program stand at its top, and so does everything that is in scope around them.
-/

namespace MiniC

/-- The places inside a place, with the trees around them, innermost first. -/
inductive Place.Chain (o : Order) (p : Place) : List Tree → Place → Prop
  | self : Chain o p [] p
  | part {ts : List Tree} {q r : Place} (hq : Chain o p ts q) (hr : r ∈ q.parts o) :
      Chain o p (q.tree :: ts) r

namespace Place

variable {o : Order} {p q r : Place} {ts us : List Tree}

theorem Occurs.ofPart (h : p.Occurs o q) (hr : r ∈ q.parts o) : p.Occurs o r := by
  induction h with
  | self => exact .part hr (.self r)
  | part hq _ ih => exact .part hq (ih hr)

theorem Chain.occurs (h : p.Chain o ts q) : p.Occurs o q := by
  induction h with
  | self => exact .self p
  | part _ hr ih => exact ih.ofPart hr

theorem Chain.trans (h : p.Chain o ts q) (h' : q.Chain o us r) : p.Chain o (us ++ ts) r := by
  induction h' with
  | self => exact h
  | part _ hr ih => exact .part ih hr

theorem tree_of_mem_each {ts : List Tree} (hr : r ∈ p.each ts) : r.tree ∈ ts := by
  induction ts generalizing p with
  | nil => exact absurd hr List.not_mem_nil
  | cons t ts ih =>
    obtain rfl | hr := List.mem_cons.1 hr
    · exact List.mem_cons_self ..
    · exact List.mem_cons_of_mem _ (ih hr)

theorem exists_tree_of_mem {ts : List Tree} {u : Tree} (hu : u ∈ ts) (p : Place) :
    ∃ r ∈ p.each ts, r.tree = u := by
  induction ts generalizing p with
  | nil => exact absurd hu List.not_mem_nil
  | cons t ts ih =>
    obtain rfl | hu := List.mem_cons.1 hu
    · exact ⟨p.here u, List.mem_cons_self .., rfl⟩
    · obtain ⟨r, hr, htree⟩ := ih hu { p with env := p.env.after t }
      exact ⟨r, List.mem_cons_of_mem _ hr, htree⟩

/-- What is in scope at a place is in scope in an environment, or it is one of some declarations, as
is what the tree there declares. -/
def Extends (Γ : Env) (es : List Declaration) (r : Place) : Prop :=
  ∃ ds, r.env = Γ.declare ds ∧ ∀ d ∈ ds ++ r.tree.declarations, d ∈ es

/-- What is in scope at one of several trees is declared around them, or by those in front of it. -/
theorem extends_of_mem_each {ts : List Tree} (hts : ∀ t ∈ ts, t.Plain) (hr : r ∈ p.each ts) :
    r.Extends p.env (declarationsOf ts) := by
  induction ts generalizing p with
  | nil => exact absurd hr List.not_mem_nil
  | cons t ts ih =>
    obtain ⟨ht, hrest⟩ := List.forall_mem_cons.1 hts
    obtain rfl | hr := List.mem_cons.1 hr
    · exact ⟨[], p.env.declare_nil.symm, fun d hd => List.mem_append_left _ hd⟩
    · obtain ⟨ds, henv, hds⟩ := ih hrest hr
      refine ⟨t.declarations ++ ds, ?_, fun d hd => ?_⟩
      · rw [henv, ht, ← Env.declare_append]
      · rw [List.append_assoc] at hd
        exact List.mem_append.2 ((List.mem_append.1 hd).imp_right (hds d))

end Place

namespace Place

variable {o : Order} {p q r : Place} {ts : List Tree}

theorem tree_of_mem_parts (hr : r ∈ q.parts o) : r.tree ∈ q.tree.parts := by
  obtain ⟨Γ, l, w, t⟩ := q
  cases t with
  | binary | ternary | assign | sequence | call | ifElse | block | body | program =>
    exact tree_of_mem_each hr
  | unary | caseLabel | returning =>
    obtain rfl := List.mem_singleton.1 hr
    exact List.mem_cons_self ..
  | cast =>
    obtain rfl := List.mem_singleton.1 hr
    exact List.mem_cons_of_mem _ (List.mem_cons_self ..)
  | switch =>
    obtain rfl | hr := List.mem_cons.1 hr
    · exact List.mem_cons_self ..
    · exact List.mem_cons_of_mem _ (tree_of_mem_each hr)
  | forLoop =>
    simp only [Place.parts, each, List.cons_append, List.nil_append, List.mem_cons,
      List.not_mem_nil, or_false] at hr
    obtain rfl | rfl | rfl | rfl := hr
    · simp [here, Tree.parts]
    · simp [here, Tree.parts]
    · cases o <;> simp [increment, here, behind, Tree.parts]
    · simp [Tree.parts]
  | whileLoop | doWhile =>
    simp only [Place.parts, List.mem_cons, List.not_mem_nil, or_false] at hr
    obtain rfl | rfl := hr
    · simp [here, Tree.parts]
    · simp [behind, Tree.parts]
  | function =>
    obtain rfl := List.mem_singleton.1 hr
    simp [Tree.parts]
  | _ => exact absurd hr List.not_mem_nil

theorem Chain.within (h : p.Chain o ts q) : q.tree.Within p.tree := by
  induction h with
  | self => exact .self _
  | part _ hr ih => exact ih.ofPart (tree_of_mem_parts hr)

end Place

/-- Whether a tree has a place wherever it stands: it is not a name, a type or a parameter. -/
def Tree.isPlaced : Tree → Bool
  | var .. | typeName .. | structName .. | param .. => false
  | _ => true

theorem Tree.Grammatical.not_isPlaced {k : Category} {t : Tree} (h : t.Grammatical k)
    (hk : k = .typeName ∨ k = .parameter) : t.isPlaced = false := by
  cases h with
  | typeName | structName | param => rfl
  | _ => simp at hk

namespace Place

variable {o : Order} {t u : Tree}

/-- The place of a tree that stands directly in another one. -/
theorem exists_part {k : Tree.Category} (hg : t.Grammatical k) (hu : u ∈ t.parts)
    (hplaced : u.isPlaced = true) (Γ : Env) (l w : Bool) :
    ∃ r ∈ Place.parts o ⟨Γ, l, w, t⟩, r.tree = u := by
  -- Types and parameters have no place.
  have hnone {j : Tree.Category} (h : u.Grammatical j) (hj : j = .typeName ∨ j = .parameter) :
      False := by
    rw [h.not_isPlaced hj] at hplaced
    cases hplaced
  induction hg with
  | binary | ternary | assign | sequence | call | ifElse | initializer | block | body | program =>
    exact exists_tree_of_mem hu _
  | unary | returning | caseLabel =>
    obtain rfl := List.mem_singleton.1 hu
    exact ⟨_, List.mem_singleton.2 rfl, rfl⟩
  | cast _ _ ht =>
    obtain rfl | hu := List.mem_cons.1 hu
    · exact (hnone ht (.inl rfl)).elim
    · obtain rfl := List.mem_singleton.1 hu
      exact ⟨_, List.mem_singleton.2 rfl, rfl⟩
  | @switch s cs n =>
    obtain rfl | hu := List.mem_cons.1 hu
    · exact ⟨_, List.mem_cons_self .., rfl⟩
    · obtain ⟨r, hr, htree⟩ := exists_tree_of_mem hu ⟨Γ, l, true, .switch s cs n⟩
      exact ⟨r, List.mem_cons_of_mem _ hr, htree⟩
  | forLoop | whileLoop | doWhile =>
    simp only [Tree.parts, List.mem_cons, List.not_mem_nil, or_false] at hu
    cases o <;> simpa [Place.parts, each, here, behind, increment, eq_comm, or_comm] using hu
  | function _ _ ht hps =>
    obtain rfl | hu := List.mem_cons.1 hu
    · exact (hnone ht (.inl rfl)).elim
    obtain rfl | hu := List.mem_cons.1 hu
    · exact ⟨_, List.mem_singleton.2 rfl, rfl⟩
    · exact (hnone (hps u hu) (.inr rfl)).elim
  | field =>
    simp only [Tree.parts, List.mem_cons, List.not_mem_nil, or_false] at hu
    obtain rfl | rfl := hu
    · cases hplaced
    · cases hplaced
  | varDecl _ _ _ ht | param _ _ _ ht =>
    simp only [Tree.parts, List.mem_cons, List.not_mem_nil, or_false] at hu
    obtain rfl | rfl := hu
    · cases hplaced
    · exact (hnone ht (.inl rfl)).elim
  | ofExpression _ ih | simple _ ih | ofStatement _ ih | ofDeclaration _ ih | ofItem _ ih
  | declared _ ih => exact ih hu
  | _ => exact absurd hu List.not_mem_nil

/-- Every tree of a program that has a place wherever it stands has one in the program. -/
theorem exists_occurs {program : Tree} {k : Tree.Category} (hg : program.Grammatical k)
    (hu : u.Within program) (hplaced : u.isPlaced = true) :
    ∃ q, (start program).Occurs o q ∧ q.tree = u := by
  induction hu with
  | self => exact ⟨_, .self _, rfl⟩
  | @part u v p hv hvp ih =>
    obtain ⟨j, hj⟩ := hvp.grammatical hg
    have hpart (Γ : Env) (l w : Bool) := exists_part (o := o) hj hv hplaced Γ l w
    have hvplaced : v.isPlaced = true := by
      obtain ⟨r, hr, -⟩ := hpart [] false false
      cases v with
      | var | typeName | structName | param => exact absurd hr List.not_mem_nil
      | _ => rfl
    obtain ⟨⟨Γ, l, w, t⟩, hq, rfl⟩ := ih hg hvplaced
    obtain ⟨r, hr, htree⟩ := hpart Γ l w
    exact ⟨r, hq.ofPart hr, htree⟩

end Place

theorem exists_of_mem_declarationsOf {ts : List Tree} {d : Declaration}
    (hd : d ∈ declarationsOf ts) : ∃ t ∈ ts, d ∈ t.declarations := by
  induction ts with
  | nil => exact absurd hd List.not_mem_nil
  | cons u ts ih =>
    obtain hd | hd := List.mem_append.1 hd
    · exact ⟨u, List.mem_cons_self .., hd⟩
    · obtain ⟨t, ht, hd⟩ := ih hd
      exact ⟨t, List.mem_cons_of_mem _ ht, hd⟩

namespace Tree

/-! ## Trees in functions -/

def Category.isInner : Category → Bool
  | .expression | .optional | .declaration | .statement | .item | .switchItem => true
  | _ => false

def Inner (t : Tree) : Prop :=
  ∃ k, t.Grammatical k ∧ k.isInner = true

theorem Inner.plain {t : Tree} (h : t.Inner) : t.Plain := by
  obtain ⟨k, hg, hk⟩ := h
  exact hg.plain fun he => by
    rw [he] at hk
    cases hk

theorem Grammatical.category_eq {k : Category} {t : Tree} (hg : t.Grammatical k)
    (ht : t.category.isInner = false) : k = t.category := by
  induction hg with
  | ofExpression _ ih | simple _ ih | ofStatement _ ih | ofDeclaration _ ih | ofItem _ ih
  | declared _ ih =>
    rw [← ih ht] at ht
    cases ht
  | initializer => cases ht
  | _ => rfl

theorem Grammatical.inner_not_isBody {k : Category} {t : Tree} (hg : t.Grammatical k)
    (hk : k.isInner = true) : t.isBody = false := by
  cases t with
  | body =>
    rw [hg.category_eq rfl] at hk
    cases hk
  | _ => rfl

/-- A statement declares something only in a switch. -/
theorem Grammatical.declared_in_switch {k : Category} {t : Tree} (hg : t.Grammatical k)
    (hk : k = .expression ∨ k = .optional ∨ k = .statement) {d : Declaration}
    (hd : d ∈ t.declarations) :
    ∃ s cs n, Within (.switch s cs n) t ∧ d ∈ declarationsOf cs := by
  have inPart {t u : Tree} (hu : u ∈ t.parts)
      (h : ∃ s cs n, Within (.switch s cs n) u ∧ d ∈ declarationsOf cs) :
      ∃ s cs n, Within (.switch s cs n) t ∧ d ∈ declarationsOf cs := by
    obtain ⟨s, cs, n, hs, hd⟩ := h
    exact ⟨s, cs, n, hs.trans (.part hu (.self t)), hd⟩
  induction hg with
  | ofExpression _ ih => exact ih (.inl rfl) hd
  | simple _ ih => exact ih (.inr (.inl rfl)) hd
  | switch n => exact ⟨_, _, n, .self _, hd⟩
  | ifElse n _ _ _ _ iha ihb =>
    obtain hd | hd := List.mem_append.1 hd
    · exact inPart (by simp [parts]) (iha (.inr (.inr rfl)) hd)
    · exact inPart (by simp [parts]) (ihb (.inr (.inr rfl)) hd)
  | forLoop _ _ _ _ _ _ _ _ ih | whileLoop _ _ _ _ ih | doWhile _ _ _ _ ih =>
    exact inPart (by simp [parts]) (ih (.inr (.inr rfl)) hd)
  | ofStatement | ofDeclaration | ofItem | declared | structDecl | varDecl | param | body
  | function => simp at hk
  | _ => exact absurd hd List.not_mem_nil

/-- A tree inside a function that is not a declaration declares something only in a switch. -/
theorem Inner.declared_in_switch {t : Tree} (h : t.Inner) (ht : t.touchesScopes = false)
    {d : Declaration} (hd : d ∈ t.declarations) :
    ∃ s cs n, Within (.switch s cs n) t ∧ d ∈ declarationsOf cs := by
  have ofItem (hg : t.Grammatical .item) :
      ∃ s cs n, Within (.switch s cs n) t ∧ d ∈ declarationsOf cs := by
    cases hg with
    | ofStatement hs => exact hs.declared_in_switch (.inr (.inr rfl)) hd
    | ofDeclaration hg =>
      cases hg with
      | varDecl | structDecl => cases ht
      | initializer => exact absurd hd List.not_mem_nil
  obtain ⟨k, hg, hk⟩ := h
  cases k with
  | expression => exact hg.declared_in_switch (.inl rfl) hd
  | optional => exact hg.declared_in_switch (.inr (.inl rfl)) hd
  | statement => exact hg.declared_in_switch (.inr (.inr rfl)) hd
  | declaration => exact ofItem (.ofDeclaration hg)
  | item => exact ofItem hg
  | switchItem =>
    cases hg with
    | ofItem hg => exact ofItem hg
    | caseLabel | defaultLabel => exact absurd hd List.not_mem_nil
  | _ => cases hk

def isDeclaration : Tree → Bool
  | varDecl .. => true
  | structDecl .. => true
  | _ => false

/-- What stands in a function and declares names holds one declaration for each of them. -/
theorem Grammatical.tree_of_declared {k : Category} {t : Tree} (hg : t.Grammatical k)
    (hk : k.isInner = true) {d : Declaration} (hd : d ∈ t.declarations) :
    d.tree.isDeclaration = true ∧ d.tree.declarations = [d] := by
  induction hg with
  | ofExpression _ ih | simple _ ih | ofStatement _ ih | ofDeclaration _ ih | ofItem _ ih =>
    exact ih rfl hd
  | varDecl | structDecl =>
    obtain rfl := List.mem_singleton.1 hd
    exact ⟨rfl, rfl⟩
  | switch _ _ _ _ ihc =>
    obtain ⟨c, hcs, hd⟩ := exists_of_mem_declarationsOf hd
    exact ihc c hcs rfl hd
  | ifElse _ _ _ _ _ iha ihb => exact (List.mem_append.1 hd).elim (iha rfl) (ihb rfl)
  | forLoop _ _ _ _ _ _ _ _ ihb | whileLoop _ _ _ _ ihb | doWhile _ _ _ _ ihb => exact ihb rfl hd
  | function | library | declared | param | body | program => cases hk
  | _ => exact absurd hd List.not_mem_nil

end Tree

/-! ## Operands -/

def Tree.hasScope : Tree → Bool
  | block .. | function .. | program .. => true
  | _ => false

namespace Place

variable {q r : Place} {t u : Tree} {Γ : Env} {l w : Bool} {k : Tree.Category}

namespace Extends

variable {es : List Declaration} {b : Tree}

theorem mono {ds : List Declaration} (h : r.Extends Γ ds) (hds : ∀ d ∈ ds, d ∈ es) :
    r.Extends Γ es := by
  obtain ⟨ds', henv, hmem⟩ := h
  exact ⟨ds', henv, fun d hd => hds d (hmem d hd)⟩

theorem optional (ts : List Tree) (hts : ∀ u ∈ ts, u.Grammatical .optional)
    (hr : r ∈ Place.each ⟨Γ, l, w, t⟩ ts) : r.Extends Γ es := by
  refine (extends_of_mem_each (fun u hu => (hts u hu).plain (by decide)) hr).mono fun d hd => ?_
  rw [Tree.declarationsOf_eq_nil fun u hu => (hts u hu).optional_declarations] at hd
  exact absurd hd List.not_mem_nil

theorem expressions (ts : List Tree) (hts : ∀ u ∈ ts, u.Grammatical .expression) :
    r ∈ Place.each ⟨Γ, l, w, t⟩ ts → r.Extends Γ es :=
  optional ts fun u hu => .ofExpression (hts u hu)

/-- The body of a loop. -/
theorem turn (hr : r = ⟨Γ, true, w, b⟩) : r.Extends Γ b.declarations :=
  ⟨[], hr ▸ Γ.declare_nil.symm, hr ▸ fun _ hd => hd⟩

/-- What is evaluated behind the body of a loop. -/
theorem follow (hb : b.Grammatical .statement) (ht : t.Grammatical .optional)
    (hr : r = ⟨Γ.after b, l, w, t⟩) : r.Extends Γ b.declarations := by
  subst hr
  refine ⟨b.declarations, hb.plain (by decide) Γ, ?_⟩
  rw [ht.optional_declarations, List.append_nil]
  exact fun _ hd => hd

/-- What is in scope at a part of a tree without a scope of its own is in scope at the tree, or
declared by the tree. -/
theorem ofPart (hg : t.Grammatical k) (ht : t.hasScope = false)
    (hr : r ∈ Place.parts .executed ⟨Γ, l, w, t⟩) : r.Extends Γ t.declarations := by
  induction hg with
  | ofExpression _ ih | simple _ ih | ofStatement _ ih | ofDeclaration _ ih | ofItem _ ih
  | declared _ ih => exact ih ht hr
  | @unary e _ _ _ _ he | @cast _ e _ _ _ he | @caseLabel e _ he =>
    exact expressions [e] (List.forall_mem_singleton.2 he) hr
  | @binary x y _ _ _ hx hy | @assign x y _ _ hx hy =>
    exact expressions [x, y] (by simp [hx, hy]) hr
  | @initializer e v _ i _ he =>
    exact expressions [.var v i, e] (by simp [he, Tree.Grammatical.var]) hr
  | @ternary c x y _ hc hx hy => exact expressions [c, x, y] (by simp [hc, hx, hy]) hr
  | @sequence cs _ hc | @call cs _ _ hc => exact expressions cs hc hr
  | @returning e _ he => exact optional [e] (List.forall_mem_singleton.2 he) hr
  | @switch s cs n hs hc =>
    obtain rfl | hr := List.mem_cons.1 hr
    · exact expressions [s] (List.forall_mem_singleton.2 hs) (List.mem_singleton.2 rfl)
    · exact extends_of_mem_each (fun c hcs => (hc c hcs).plain (by decide)) hr
  | @ifElse c x y _ hc hx hy =>
    have hplain : ∀ u ∈ [c, x, y], u.Plain := by
      simp only [List.forall_mem_cons]
      exact ⟨hc.plain (by decide), hx.plain (by decide), hy.plain (by decide),
        List.forall_mem_nil _⟩
    refine (extends_of_mem_each hplain hr).mono fun d hd => ?_
    simpa [declarationsOf, hc.declarations_eq_nil, Tree.declarations] using hd
  | body _ hc => exact extends_of_mem_each (fun c hcs => (hc c hcs).plain (by decide)) hr
  | @whileLoop c b n hc hb =>
    obtain rfl | hr := List.mem_cons.1 hr
    · exact expressions [c] (List.forall_mem_singleton.2 hc) (List.mem_singleton.2 rfl)
    · exact turn (b := b) (List.mem_singleton.1 hr)
  | @doWhile c b n hc hb =>
    obtain hr | hr := List.mem_cons.1 hr
    · exact turn (b := b) hr
    · exact follow (b := b) hb (.ofExpression hc) (List.mem_singleton.1 hr)
  | @forLoop x c i b n hx hc hi hb =>
    obtain hr | hr := List.mem_append.1 hr
    · exact optional [x, c] (by simp [hx, hc]) hr
    obtain hr | hr := List.mem_cons.1 hr
    · exact follow (b := b) hb hi hr
    · exact turn (b := b) (List.mem_singleton.1 hr)
  | block | function | program => cases ht
  | _ => exact absurd hr List.not_mem_nil

end Extends

structure Operand (q : Place) (u : Tree) (r : Place) : Prop where
  tree : r.tree = u
  /-- Only a label may stand between the tree and what is evaluated. -/
  chain : ∃ us, q.Chain .executed us r ∧ us.filter (fun t => !t.isLabel) = [q.tree]
  inner : u.Inner
  env : ∃ ds, r.env = q.env.declare ds ∧ ∀ d ∈ ds ++ u.declarations, d ∈ q.tree.declarations

/-- Whatever the rule for a tree in a function evaluates stands in the tree, or in a label of it, if
the tree opens no scope. -/
theorem exists_operand_part (hg : t.Grammatical k) (hk : k.isInner = true)
    (ht : t.touchesScopes = false) (hu : u ∈ t.operands) (Γ : Env) (l w : Bool) :
    u.Inner ∧ ((∃ r ∈ Place.parts .executed ⟨Γ, l, w, t⟩, r.tree = u) ∨
      u.declarations = [] ∧
        ∃ r ∈ Place.parts .executed ⟨Γ, l, w, t⟩, ∃ i, r.tree = .caseLabel u i) := by
  have ofEach {p : Place} {ts : List Tree} {ps : List Place} (hts : ∀ t ∈ ts, t.Inner)
      (hps : ∀ r ∈ p.each ts, r ∈ ps) (hu : u ∈ ts) :
      u.Inner ∧ ((∃ r ∈ ps, r.tree = u) ∨
        u.declarations = [] ∧ ∃ r ∈ ps, ∃ i, r.tree = .caseLabel u i) := by
    obtain ⟨r, hr, htree⟩ := exists_tree_of_mem hu p
    exact ⟨hts u hu, .inl ⟨r, hps r hr, htree⟩⟩
  have expressions (ts : List Tree) (hts : ∀ t ∈ ts, t.Grammatical .expression) :
      ∀ t ∈ ts, t.Inner := fun t ht => ⟨_, hts t ht, rfl⟩
  induction hg with
  | ofExpression _ ih | simple _ ih | ofStatement _ ih | ofDeclaration _ ih | ofItem _ ih =>
    exact ih rfl ht hu
  | @unary e _ _ _ _ he | @cast _ e _ _ _ he =>
    exact ofEach (expressions _ (List.forall_mem_singleton.2 he)) (fun r hr => hr) hu
  | @returning e _ he =>
    exact ofEach (List.forall_mem_singleton.2 ⟨_, he, rfl⟩) (fun r hr => hr) hu
  | @binary x y _ _ _ hx hy =>
    exact ofEach (expressions [x, y] (by simp [hx, hy])) (fun r hr => hr) hu
  | @assign x y _ _ hx hy =>
    exact ofEach (expressions [x, y] (by simp [hx, hy])) (fun r hr => hr)
      (List.mem_cons_of_mem _ hu)
  | @initializer e v _ i _ he =>
    exact ofEach (expressions [.var v i, e] (by simp [he, Tree.Grammatical.var]))
      (fun r hr => hr) (List.mem_cons_of_mem _ hu)
  | @sequence cs _ hc | @call cs _ _ hc => exact ofEach (expressions _ hc) (fun r hr => hr) hu
  | @ifElse c x y _ hc hx hy =>
    refine ofEach ?_ (fun r hr => hr) hu
    simp only [List.forall_mem_cons]
    exact ⟨⟨_, hc, rfl⟩, ⟨_, hx, rfl⟩, ⟨_, hy, rfl⟩, List.forall_mem_nil _⟩
  | @switch s cs n hs hc =>
    obtain rfl | hu := List.mem_cons.1 hu
    · exact ⟨⟨_, hs, rfl⟩, .inl ⟨_, List.mem_cons_self .., rfl⟩⟩
    obtain ⟨c, hcs, hu⟩ := List.mem_flatMap.1 hu
    obtain ⟨r, hr, htree⟩ := exists_tree_of_mem hcs ⟨Γ, l, true, .switch s cs n⟩
    cases hc c hcs with
    | ofItem hg =>
      rw [Tree.unlabelled_eq (hg.not_isLabel (by decide))] at hu
      obtain rfl := List.mem_singleton.1 hu
      exact ⟨⟨_, hg, rfl⟩, .inl ⟨r, List.mem_cons_of_mem _ hr, htree⟩⟩
    | @caseLabel v i hv =>
      obtain rfl := List.mem_singleton.1 hu
      exact ⟨⟨_, hv, rfl⟩, .inr ⟨hv.declarations_eq_nil, r, List.mem_cons_of_mem _ hr, i, htree⟩⟩
    | defaultLabel => exact absurd hu List.not_mem_nil
  | whileLoop n hc hb | doWhile n hc hb =>
    simp only [Tree.operands, List.mem_cons, List.not_mem_nil, or_false] at hu
    refine ⟨?_, .inl (by simpa [parts, here, behind, eq_comm, or_comm] using hu)⟩
    obtain rfl | rfl := hu
    · exact ⟨_, hc, rfl⟩
    · exact ⟨_, hb, rfl⟩
  | forLoop n hx hc hi hb =>
    simp only [Tree.operands, List.mem_cons, List.not_mem_nil, or_false] at hu
    refine ⟨?_, .inl (by simpa [parts, each, here, behind, increment, eq_comm] using hu)⟩
    obtain rfl | rfl | rfl | rfl := hu
    · exact ⟨_, hx, rfl⟩
    · exact ⟨_, hc, rfl⟩
    · exact ⟨_, hi, rfl⟩
    · exact ⟨_, hb, rfl⟩
  | varDecl | structDecl | block | function => cases ht
  | body | program | param | declared => cases hk
  | _ => exact absurd hu List.not_mem_nil

/-- Whatever the rule for a tree in a function evaluates has a place, if the tree opens no scope. -/
theorem exists_operand (hg : t.Grammatical k) (hk : k.isInner = true)
    (ht : t.touchesScopes = false) (hu : u ∈ t.operands) (Γ : Env) (l w : Bool) :
    ∃ r, Operand ⟨Γ, l, w, t⟩ u r := by
  have hscope : t.hasScope = false := by
    cases t with
    | block | function => cases ht
    | program =>
      rw [hg.category_eq rfl] at hk
      cases hk
    | _ => rfl
  have hlabel : t.isLabel = false := by
    cases t with
    | caseLabel | defaultLabel => exact absurd hu List.not_mem_nil
    | _ => rfl
  obtain ⟨hinner, ⟨r, hr, rfl⟩ | ⟨hnone, r, hr, i, htree⟩⟩ := exists_operand_part hg hk ht hu Γ l w
  · exact ⟨r, rfl, ⟨[t], .part .self hr, by simp [hlabel]⟩, hinner, Extends.ofPart hg hscope hr⟩
  · have hin : r.here u ∈ r.parts .executed := by
      rw [parts, htree]
      exact List.mem_singleton.2 rfl
    have hr' : r.tree.isLabel = true := by rw [htree, Tree.isLabel]
    refine ⟨r.here u, rfl, ⟨[r.tree, t], .part (.part .self hr) hin, by simp [hr', hlabel]⟩, hinner,
      ?_⟩
    obtain ⟨ds, henv, hds⟩ := Extends.ofPart hg hscope hr
    refine ⟨ds, henv, fun d hd => hds d ?_⟩
    rw [hnone, List.append_nil] at hd
    exact List.mem_append_left _ hd

end Place

/-- No body is evaluated as a part of a tree. -/
theorem Tree.Grammatical.operand_not_isBody {k : Category} {t u : Tree} (ht : t.Grammatical k)
    (hu : u ∈ t.operands) : u.isBody = false := by
  have hinner (hk : t.category.isInner = true) (hs : t.touchesScopes = false) :
      u.isBody = false := by
    obtain ⟨r, hr⟩ := Place.exists_operand ht.own hk hs hu [] false false
    obtain ⟨j, hj, hj'⟩ := hr.inner
    exact hj.inner_not_isBody hj'
  cases t with
  | block =>
    cases ht.own with
    | block _ hc => exact (hc u hu).inner_not_isBody rfl
    | simple he => cases he with
      | ofExpression he => cases he
  | body =>
    cases ht.own with
    | body _ hc => exact (hc u hu).inner_not_isBody rfl
  | program =>
    cases ht.own with
    | program _ hc =>
      cases hc u hu with
      | function | library => rfl
      | declared hd => exact hd.inner_not_isBody rfl
  | absent | typeName | structName | param | varDecl | structDecl | function | library =>
    exact absurd hu List.not_mem_nil
  | _ => exact hinner rfl rfl

/-! ## The top of a program -/

/-- A function of a program stands at its top. -/
theorem Tree.Within.function_mem {type b : Tree} {f : String} {ps cs : List Tree} {i n : Nat}
    (h : Within (.function type f ps b i) (.program cs n))
    (hp : Grammatical .program (.program cs n)) : .function type f ps b i ∈ cs := by
  cases h with
  | part ht hu =>
    obtain ⟨j, hj⟩ := hu.grammatical hp
    obtain ⟨k, hk, -, htop⟩ := hj.part ht
    obtain ⟨ds, m, rfl⟩ := htop (hk.category_eq rfl)
    cases hu with
    | self => exact ht
    | part hv hw =>
      obtain ⟨j', hj'⟩ := hw.grammatical hp
      obtain ⟨k', hk', hne, -⟩ := hj'.part hv
      exact absurd (hk'.category_eq rfl) hne

theorem Env.after_introduces (c : List Declaration) (t : Tree) :
    ∃ c', Env.after [c] t = [c'] ∧ ∀ d ∈ c', d ∈ c ∨ d ∈ t.introduces := by
  cases t with
  | library name n =>
    cases hl : Library.find? name with
    | none => exact ⟨c, by simp [after, hl], fun d => .inl⟩
    | some l =>
      refine ⟨_, after_library hl [c] n, fun d hd => ?_⟩
      simp only [Tree.introduces, hl, Option.elim, List.mem_append, List.mem_reverse] at hd ⊢
      obtain hd | hd | hd := hd
      · exact .inr (.inr hd)
      · exact .inl hd
      · exact .inr (.inl hd)
  | _ =>
    refine ⟨_, rfl, fun d hd => ?_⟩
    exact (List.mem_append.1 hd).symm.imp_right List.mem_reverse.1

/-- What is in scope at the top of a program is declared there. -/
theorem Env.afterAll_introduces (c : List Declaration) (ts : List Tree) :
    ∃ c', Env.afterAll [c] ts = [c'] ∧ ∀ d ∈ c', d ∈ c ∨ d ∈ ts.flatMap Tree.introduces := by
  induction ts generalizing c with
  | nil => exact ⟨c, rfl, fun d => .inl⟩
  | cons t ts ih =>
    obtain ⟨c₁, hc₁, hfirst⟩ := after_introduces c t
    obtain ⟨c₂, hc₂, hrest⟩ := ih c₁
    refine ⟨c₂, ?_, fun d hd => ?_⟩
    · rw [afterAll, List.foldl_cons, hc₁]
      exact hc₂
    · rw [List.flatMap_cons, List.mem_append]
      obtain hd | hd := hrest d hd
      · exact (hfirst d hd).imp_right .inl
      · exact .inr (.inr hd)

theorem Place.each_append (p : Place) (ts us : List Tree) :
    p.each (ts ++ us) = p.each ts ++ Place.each { p with env := p.env.afterAll ts } us := by
  induction ts generalizing p with
  | nil => rfl
  | cons t ts ih =>
    simp only [List.cons_append, Place.each, ih]
    rfl

/-- The body of a function stands in the scope of its parameters and of what is declared at the top of
the program up to the function. -/
theorem Place.exists_body {type b : Tree} {f : String} {ps ds : List Tree} {i : Nat}
    (h : .function type f ps b i ∈ ds) (us : List Tree) (n : Nat) :
    ∃ g, (∀ d ∈ g, d ∈ ds.flatMap Tree.introduces) ∧
      (Place.start (.program (ds ++ us) n)).Chain .executed
        [.function type f ps b i, .program (ds ++ us) n]
        ⟨[(declarationsOf ps).reverse, g], false, false, b⟩ := by
  obtain ⟨ts, rest, rfl⟩ := List.append_of_mem h
  obtain ⟨c, hc, hts⟩ := Env.afterAll_introduces [] ts
  obtain ⟨g, hg, hfun⟩ := Env.after_introduces c (.function type f ps b i)
  refine ⟨g, fun d hd => ?_, ?_⟩
  · have hd : d ∈ ts.flatMap Tree.introduces ∨ d ∈ Tree.introduces (.function type f ps b i) := by
      obtain hd | hd := hfun d hd
      · exact .inl ((hts d hd).resolve_left List.not_mem_nil)
      · exact .inr hd
    simp only [List.flatMap_append, List.flatMap_cons, List.mem_append]
    exact hd.imp_right .inl
  · rw [List.append_assoc, List.cons_append]
    have hplace : (⟨[c], false, false, .function type f ps b i⟩ : Place) ∈
        (Place.start (.program (ts ++ .function type f ps b i :: (rest ++ us)) n)).parts
          .executed := by
      change _ ∈ Place.each ⟨[[]], false, false, _⟩ (ts ++ .function type f ps b i :: (rest ++ us))
      rw [Place.each_append, hc]
      exact List.mem_append_right _ (List.mem_cons_self ..)
    refine .part (.part .self hplace) ?_
    have hbody : Place.parts .executed ⟨[c], false, false, .function type f ps b i⟩ =
        [⟨Env.declare (declarationsOf ps) ([] :: Env.after [c] (.function type f ps b i)), false,
          false, b⟩] := rfl
    rw [hbody, hg]
    simp [Env.declare]

/-! ## Names in a scope -/

def Env.Distinct (Γ : Env) : Prop :=
  ∀ c ∈ Γ.dropLast, ∀ d ∈ c, ∀ e ∈ c, d.name = e.name → d = e

theorem Env.Distinct.cons {Γ : Env} {c ds : List Declaration} (h : Γ.Distinct)
    (hds : (namesOf ds).Nodup) (hc : ∀ d ∈ c, d ∈ ds) : Distinct (c :: Γ) := by
  intro x hx
  cases Γ with
  | nil => exact absurd hx List.not_mem_nil
  | cons y Γ =>
    obtain rfl | hx := List.mem_cons.1 hx
    · exact fun d hd e he => List.inj_on_of_nodup_map hds (hc d hd) (hc e he)
    · exact h x hx

theorem Env.Distinct.ofDeclare {Γ : Env} {ds es : List Declaration} (h : (Γ.declare ds).Distinct)
    (hes : ∀ d ∈ es, d ∈ ds) : (Γ.declare es).Distinct := by
  cases Γ with
  | nil => exact h
  | cons c Γ =>
    cases Γ with
    | nil => exact fun x hx => absurd hx List.not_mem_nil
    | cons y Γ =>
      refine List.forall_mem_cons.2 ⟨fun d hd e he => ?_, (List.forall_mem_cons.1 h).2⟩
      have hsub (d : Declaration) (hd : d ∈ es.reverse ++ c) : d ∈ ds.reverse ++ c := by
        simp only [List.mem_append, List.mem_reverse] at hd ⊢
        exact hd.imp_left (hes d)
      exact (List.forall_mem_cons.1 h).1 d (hsub d hd) e (hsub e he)

theorem Place.env_of_mem_program {p r : Place} {ts : List Tree} {c : List Declaration}
    (hp : p.env = [c]) (hr : r ∈ p.each ts) : ∃ c', r.env = [c'] := by
  induction ts generalizing p c with
  | nil => exact absurd hr List.not_mem_nil
  | cons t ts ih =>
    obtain rfl | hr := List.mem_cons.1 hr
    · exact ⟨c, hp⟩
    · obtain ⟨c', hc', -⟩ := Env.after_introduces c t
      exact ih (by rw [hp, hc']) hr

/-- In a program that is well formed, a name has one declaration in each scope around a place. -/
theorem Place.Chain.distinct {program : Tree} (hp : program.Grammatical .program)
    (hwell : program.WellFormed .executed) {ts : List Tree} {q : Place}
    (h : (Place.start program).Chain .executed ts q) :
    Env.Distinct (q.env.declare q.tree.declarations) := by
  induction h with
  | self => exact fun c hc => absurd hc List.not_mem_nil
  | @part ts q r hq hr ih =>
    obtain ⟨j, hj⟩ := hq.within.grammatical hp
    have hfine := hwell q hq.occurs
    obtain ⟨Γ, l, w, t⟩ := q
    cases ht : t.hasScope with
    | false =>
      obtain ⟨ds, henv, hds⟩ := Place.Extends.ofPart hj ht hr
      rw [henv, ← Env.declare_append]
      exact ih.ofDeclare hds
    | true =>
      cases t with
      | block cs n =>
        have hplain : ∀ c ∈ cs, c.Plain := by
          cases hj.own with
          | block _ hc => exact fun c hcs => (hc c hcs).plain (by decide)
          | simple he => cases he with
            | ofExpression he => cases he
        obtain ⟨ds, henv, hds⟩ := extends_of_mem_each hplain hr
        rw [henv, ← Env.declare_append]
        refine Env.Distinct.cons ?_ hfine fun d hd => ?_
        · have hin : Env.Distinct (Γ.declare []) := ih
          rwa [Env.declare_nil] at hin
        · exact hds d (by simpa [or_comm] using hd)
      | function type f ps b n =>
        obtain rfl := List.mem_singleton.1 hr
        rw [← Env.declare_append]
        refine Env.Distinct.cons ih hfine fun d hd => ?_
        simpa [or_comm] using hd
      | program cs n =>
        cases hq with
        | self =>
          obtain ⟨c, hc⟩ := env_of_mem_program rfl hr
          rw [hc]
          exact fun x hx => absurd hx List.not_mem_nil
        | part hq hr =>
          obtain ⟨i, hi⟩ := hq.within.grammatical hp
          obtain ⟨k, hk, hne, -⟩ := hi.part (tree_of_mem_parts hr)
          exact absurd (hk.category_eq rfl) hne
      | _ => cases ht

end MiniC
