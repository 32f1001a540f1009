import MiniC.Proofs.Checks
import MiniC.Proofs.Clashes

/-!
# Where the analysis fails

The analysis of a program may end without a verdict: it asks for a part of a type that is not there,
or for the common type of things that have none. This happens at a tree whose parts have been checked
and found fine, but do not fit together: operands without a type or of structure types, a label of
another type than the subject of its switch, a conversion to a structure type, a field of something
unknown. All of these are told here by the types of the parts. The analysis ends so exactly if it
comes to such a tree.
-/

namespace MiniC

variable {cs ts : List Tree} {name : String} {n : Nat}

/-! ## Where the analysis comes to -/

namespace Analysis

/-- The last two characters of a name are digits, but not all of them are decimal. -/
def BadlyNumbered (name : String) : Prop :=
  (∀ c ∈ name.toList.drop (name.toList.length - 2), Text.isDigit c = true) ∧
    ∃ c ∈ name.toList.drop (name.toList.length - 2), Text.decimalValue? c = none

/-- The parts of a tree have been checked, but do not fit together. -/
inductive Misfit : Tree → Analysis → Fault → Prop
  | library {name : String} {n : Nat} {s : Analysis} (h : Library.find? name = none) :
      Misfit (.library name n) s (.noSuchLibrary name)
  | binary {l r : Tree} {op : Token} {n : Nat} {s s₁ s₂ : Analysis} {a b : Typing} {f : Fault}
      (hl : (check l).Gives s a s₁) (hr : (check r).Gives s₁ b s₂)
      (h : Typing.Clash op.kind a b f) : Misfit (.binary l op r n) s f
  | unary {e : Tree} {op : Token} {b : Bool} {n : Nat} {s s₁ : Analysis} {a : Typing}
      (he : (check e).Gives s a s₁) (h : Typing.Unfit op.kind e a) :
      Misfit (.unary op e b n) s .noSuchPart
  | assign {t v : Tree} {op : Token} {n : Nat} {s s₁ s₂ : Analysis} {a b : Typing}
      (ht : (check t).Gives s a s₁) (hv : (check v).Gives s₁ b s₂)
      (h : Typing.Unassignable op.kind t a b) : Misfit (.assign t op v n) s .noSuchPart
  | cast {e : Tree} {t : VarType} {b : Bool} {i n : Nat} {s s₁ : Analysis} {a : Typing}
      (he : (check e).Gives s a s₁) : Misfit (.cast (.structName t i) e b n) s .noSuchPart
  | fieldOfUnknown {op : Kind} {b m : Token} {i j n : Nat} {s : Analysis}
      (hb : SymbolTable.lookup? s.tables b.value.render = none) :
      Misfit (.field op (.var b i) (.var m j) n) s .noSuchPart
  | fieldOfUndefined {op : Kind} {b m : Token} {i j n : Nat} {s : Analysis} {y : Symbol}
      {t : StructType} (hb : SymbolTable.lookup? s.tables b.value.render = some y)
      (hy : y.typing = .type (.struct t)) (hop : ¬ (t.pointer = true ∧ op = .dot))
      (hop' : ¬ (t.pointer = false ∧ op = .arrow))
      (ht : ∀ u fields, SymbolTable.lookup? s.tables t.name ≠ some (.struct u fields)) :
      Misfit (.field op (.var b i) (.var m j) n) s .noSuchPart
  | label {subject v : Tree} {front rest : List Tree} {i n : Nat} {s s₁ s₂ s₃ : Analysis}
      {a b : Typing} (hs : (check subject).Gives s a s₁)
      (hfront : (checkCases a n false front).Gives s₁.enterSwitch () s₂)
      (hdefault : front.any Tree.isDefault = false) (hv : (check v).Gives s₂ b s₃)
      (h : a.same b = false) :
      Misfit (.switch subject (front ++ .caseLabel v i :: rest) n) s .noSuchPart
  /-- A block in a scope whose name has no number to count up. -/
  | block {cs : List Tree} {n : Nat} {s : Analysis} {t : SymbolTable} {ts : List SymbolTable}
      (ht : s.tables = t :: ts) (h : BadlyNumbered t.name) : Misfit (.block cs n) s .outsideDomain

open Check

variable {s : Analysis} {f : Fault}

/-! ## Checks one after the other -/

/-- Checks one after the other fail at one of them, in what those before it handed on. -/
theorem fails_sequence {σ α : Type} (run : σ → List Tree → Check Unit) (step : σ → Tree → Check α)
    (next : σ → Tree → σ) (hnil : ∀ x, run x [] = pure ())
    (hcons : ∀ x t ts, run x (t :: ts) = (do let _ ← step x t; run (next x t) ts)) (x : σ) :
    (run x ts).Fails s f ↔ ∃ front u rest s₁, ts = front ++ u :: rest ∧
      (run x front).Gives s () s₁ ∧ (step (front.foldl next x) u).Fails s₁ f := by
  induction ts generalizing s x with
  | nil =>
    rw [hnil, fails_pure]
    constructor
    · exact False.elim
    · rintro ⟨front, u, rest, _, h, _⟩
      cases front <;> cases h
  | cons t ts ih =>
    rw [hcons, fails_bind]
    constructor
    · rintro (h | ⟨a, s₁, ht, h⟩)
      · exact ⟨[], t, ts, s, rfl, hnil x ▸ gives_pure.2 ⟨rfl, rfl⟩, h⟩
      · obtain ⟨front, u, rest, s₂, rfl, hfront, hu⟩ := (ih _).1 h
        exact ⟨t :: front, u, rest, s₂, rfl, hcons .. ▸ gives_bind.2 ⟨a, s₁, ht, hfront⟩, hu⟩
    · rintro ⟨front, u, rest, s₂, hts, hfront, hu⟩
      cases front with
      | nil =>
        obtain ⟨rfl, rfl⟩ := List.cons.inj hts
        obtain ⟨-, rfl⟩ := gives_pure.1 (hnil x ▸ hfront)
        exact .inl hu
      | cons t' front =>
        obtain ⟨rfl, rfl⟩ := List.cons.inj hts
        obtain ⟨a, s₁, ht, hfront⟩ := gives_bind.1 (hcons .. ▸ hfront)
        exact .inr ⟨a, s₁, ht, (ih _).2 ⟨front, u, rest, s₂, rfl, hfront, hu⟩⟩

theorem checkAll_fails :
    (checkAll ts).Fails s f ↔ ∃ front u rest s₁, ts = front ++ u :: rest ∧
      (checkAll front).Gives s () s₁ ∧ (check u).Fails s₁ f :=
  fails_sequence (fun _ : Unit => checkAll) (fun _ => check) (fun x _ => x) (fun _ => rfl)
    (fun _ _ _ => rfl) ()

theorem checkLast_fails {r : Typing} : (checkLast r ts).Fails s f ↔ (checkAll ts).Fails s f := by
  induction ts generalizing s r with
  | nil => rw [checkLast, checkAll, fails_pure, fails_pure]
  | cons t ts ih => simp only [checkLast, checkAll, fails_bind, ih]

theorem checkArgs_fails {params : List Typing} (hlength : ts.length = params.length)
    (hparams : ∀ p ∈ params, p.isParameter = true) :
    (checkArgs params ts).Fails s f ↔ (checkAll ts).Fails s f := by
  induction ts generalizing s params with
  | nil => rw [checkArgs, checkAll, fails_pure, fails_pure]
  | cons t ts ih =>
    cases params with
    | nil => cases hlength
    | cons p params =>
      obtain ⟨hp, hrest⟩ := List.forall_mem_cons.1 hparams
      have hargs (s : Analysis) := ih (s := s) (Nat.succ.inj hlength) hrest
      obtain ⟨name, type, rfl⟩ : ∃ name type, p = .parameter name type := by
        cases p with
        | parameter name type => exact ⟨name, type, rfl⟩
        | _ => cases hp
      simp only [checkArgs, checkAll, fails_bind, Typing.parameterType, fails_ofExcept,
        gives_ofExcept, fails_pure, hargs]
      simp

/-- The children of a switch fail at one of them. -/
theorem checkCases_fails {subject : Typing} {line : Nat} {seen : Bool} :
    (checkCases subject line seen ts).Fails s f ↔ ∃ front u rest s₁, ts = front ++ u :: rest ∧
      (checkCases subject line seen front).Gives s () s₁ ∧
      (checkChild subject line (seen || front.any Tree.isDefault) u).Fails s₁ f := by
  have hseen (front : List Tree) : front.foldl (fun b t => b || t.isDefault) seen =
      (seen || front.any Tree.isDefault) := by
    induction front generalizing seen with
    | nil => simp
    | cons t front ih => simp [ih, Bool.or_assoc]
  simp only [← hseen]
  exact fails_sequence (checkCases subject line) (checkChild subject line) _ (fun _ => rfl)
    (checkCases_cons subject line) seen

theorem checkChild_fails {subject : Typing} {line : Nat} {seen : Bool} {u : Tree} :
    (checkChild subject line seen u).Fails s f ↔ u.isLabel = false ∧ (check u).Fails s f ∨
      seen = false ∧ ∃ v i, u = .caseLabel v i ∧ ((check v).Fails s f ∨
        ∃ b s', (check v).Gives s b s' ∧ subject.same b = false ∧ f = .noSuchPart) := by
  cases hl : u.isLabel with
  | false =>
    have hchild : checkChild subject line seen u = (do let _ ← check u) := by
      cases u with
      | caseLabel | defaultLabel => cases hl
      | _ => rfl
    have hnone : ¬∃ v i, u = .caseLabel v i := by
      rintro ⟨v, i, rfl⟩
      cases hl
    rw [hchild, fails_bind]
    simp only [fails_pure, and_false, exists_false, or_false, true_and]
    constructor
    · exact .inl
    · rintro (h | ⟨-, v, i, hu, -⟩)
      · exact h
      · exact absurd ⟨v, i, hu⟩ hnone
  | true =>
    cases u with
    | defaultLabel n => cases seen <;> simp [checkChild, fails_pure, fails_reject]
    | caseLabel v n =>
      cases seen with
      | false =>
        simp only [checkChild, Bool.false_eq_true, if_false, fails_bind, fails_ite, fails_fail,
          fails_pure]
        simp
      | true => simp [checkChild, fails_bind, fails_reject, gives_reject]
    | _ => cases hl

/-! ## From a part to the whole -/

variable {depth : Nat} {t u : Tree} {s₁ : Analysis}

theorem fails_first {α β : Type} {p : Check α} {g : α → Check β} (h : p.Fails s f) :
    (p >>= g).Fails s f :=
  fails_bind.2 (.inl h)

theorem fails_then {α β : Type} {p : Check α} {g : α → Check β} {a : α} (hp : p.Gives s a s₁)
    (h : (g a).Fails s₁ f) : (p >>= g).Fails s f :=
  fails_bind.2 (.inr ⟨a, s₁, hp, h⟩)

theorem lookup_gives {y : Symbol} (h : SymbolTable.lookup? s.tables name = some y) :
    (Check.lookup name).Gives s (some y) s := by
  cases htables : s.tables with
  | nil =>
    rw [htables] at h
    cases h
  | cons t ts =>
    refine gives_bind.2 ⟨t, s, gives_current.2 ⟨⟨ts, htables⟩, rfl⟩, ?_⟩
    refine gives_bind.2 ⟨s, s, gives_get.2 ⟨rfl, rfl⟩, gives_pure.2 ⟨h.symm, rfl⟩⟩

theorem lookup_gives_none (hs : s.Sound depth) (h : SymbolTable.lookup? s.tables name = none) :
    (Check.lookup name).Gives s none s := by
  obtain ⟨t, ts, htables⟩ := hs.exists_table
  refine gives_bind.2 ⟨t, s, gives_current.2 ⟨⟨ts, htables⟩, rfl⟩, ?_⟩
  refine gives_bind.2 ⟨s, s, gives_get.2 ⟨rfl, rfl⟩, gives_pure.2 ⟨h.symm, rfl⟩⟩

theorem fails_of_inOrder (h : (checkAll t.inOrder).Fails s f) : (check t).Fails s f := by
  have one {t : Tree} {g : Typing → Check Typing} (h : (checkAll [t]).Fails s f) :
      (check t >>= g).Fails s f := by
    simp only [checkAll, fails_bind, fails_pure, and_false, exists_false, or_false] at h
    exact fails_first h
  have two {t u : Tree} {g : Typing → Typing → Check Typing} (h : (checkAll [t, u]).Fails s f) :
      (check t >>= fun a => check u >>= g a).Fails s f := by
    simp only [checkAll, fails_bind, fails_pure, and_false, exists_false, or_false] at h
    obtain h | ⟨a, s₁, ht, h⟩ := h
    · exact fails_first h
    · exact fails_then ht (fails_first h)
  have three {t u v : Tree} {g : Typing → Typing → Typing → Check Typing}
      (h : (checkAll [t, u, v]).Fails s f) :
      (check t >>= fun a => check u >>= fun b => check v >>= g a b).Fails s f := by
    simp only [checkAll, fails_bind, fails_pure, and_false, exists_false, or_false] at h
    obtain h | ⟨a, s₁, ht, h | ⟨b, s₂, hu, h⟩⟩ := h
    · exact fails_first h
    · exact fails_then ht (fails_first h)
    · exact fails_then ht (fails_then hu (fails_first h))
  cases t with
  | unary | cast | whileLoop | switch => exact one h
  | binary | assign | forLoop => exact two h
  | ternary | ifElse => exact three h
  | returning v n =>
    simp only [Tree.inOrder, checkAll, fails_bind, fails_pure, and_false, exists_false,
      or_false] at h
    exact h
  | sequence cs n => exact checkLast_fails.2 h
  | body cs n => exact fails_first h
  | _ => exact (fails_pure.1 h).elim

theorem inLoop_gives {α : Type} {p : Check α} {a : α} (h : p.Gives s.enterLoop a s₁) :
    (Check.inLoop p).Gives s a s₁.leaveLoop := by
  refine gives_bind.2 ⟨(), s.enterLoop, gives_modify.2 rfl, gives_bind.2 ⟨a, s₁, h, ?_⟩⟩
  exact gives_bind.2 ⟨(), s₁.leaveLoop, gives_modify.2 rfl, gives_pure.2 ⟨rfl, rfl⟩⟩

theorem switch_fails {subject : Tree} {a : Typing} (hs : (check subject).Gives s a s₁)
    (h : (checkCases a n false ts).Fails s₁.enterSwitch f) :
    (check (.switch subject ts n)).Fails s f :=
  fails_then hs (fails_first (fails_inSwitch.2 h))

theorem Opens.fails (hs : s.Sound depth) (h : Opens t s u s₁) (hu : (check u).Fails s₁ f) :
    (check t).Fails s f := by
  cases h with
  | inOrder ht hfront => exact fails_of_inOrder (checkAll_fails.2 ⟨_, _, _, _, ht, hfront, hu⟩)
  | loopBody hb hfront =>
    rw [check_loop hb]
    exact fails_then hfront (fails_first (fails_inLoop.2 hu))
  | behindBody hb hbehind hfront hbody =>
    rw [check_loop hb, hbehind]
    refine fails_then hfront (fails_then (inLoop_gives hbody) (fails_first ?_))
    exact checkAll_fails.2 ⟨[], u, [], _, rfl, gives_pure.2 ⟨rfl, rfl⟩, hu⟩
  | @argument name g u front rest n s s₁ type params hg hparams hfront =>
    have hargs : (checkAll (front ++ u :: rest)).Fails s f :=
      checkAll_fails.2 ⟨front, u, rest, s₁, rfl, hfront, hu⟩
    refine fails_then (lookup_gives hg) ?_
    cases params with
    | none => exact fails_first hargs
    | some ps =>
      have hparameters : ∀ p ∈ ps, p.isParameter = true := hs.lookup hg
      refine fails_guard.2 ⟨?_, fails_first ((checkArgs_fails (hparams ps rfl) hparameters).2 hargs)⟩
      simp [hparams ps rfl]
  | child hsubject hfront hlabel =>
    refine switch_fails hsubject (checkCases_fails.2 ⟨_, _, _, _, rfl, hfront, ?_⟩)
    exact checkChild_fails.2 (.inl ⟨hlabel, hu⟩)
  | label hsubject hfront hdefault =>
    refine switch_fails hsubject (checkCases_fails.2 ⟨_, _, _, _, rfl, hfront, ?_⟩)
    exact checkChild_fails.2 (.inr ⟨by rw [hdefault]; rfl, _, _, rfl, .inl hu⟩)
  | block ht hfront =>
    refine fails_then ht (fails_first (fails_within.2 ?_))
    exact checkAll_fails.2 ⟨_, _, _, _, rfl, hfront, hu⟩
  | program hfront =>
    refine fails_first (fails_within.2 (fails_first ?_))
    exact checkAll_fails.2 ⟨_, _, _, _, rfl, hfront, hu⟩
  | functionBody hname htype hinsert hparams houtside =>
    refine fails_then (lookup_gives_none hs hname) (fails_guard.2 ⟨by simp, ?_⟩)
    refine fails_then (gives_typeOf.2 ⟨htype, rfl⟩) (fails_then hinsert ?_)
    refine fails_then (gives_get.2 ⟨rfl, rfl⟩) (fails_first (fails_within.2 ?_))
    exact fails_then hparams (fails_then houtside (fails_first hu))

/-! ## Trees whose parts do not fit -/

theorem mapM_eq_none {α β : Type} {g : α → Option β} {as : List α} :
    as.mapM g = none ↔ ∃ a ∈ as, g a = none := by
  induction as with
  | nil => simp
  | cons a as ih =>
    rw [List.mapM_cons]
    cases h : g a with
    | none => simp [h]
    | some b =>
      rw [List.exists_mem_cons_iff, h, ← ih]
      cases as.mapM g <;> simp

theorem innerName_eq_error :
    SymbolTable.innerName name = .error f ↔ BadlyNumbered name ∧ f = .outsideDomain := by
  unfold SymbolTable.innerName BadlyNumbered
  dsimp only
  generalize name.toList.drop (name.toList.length - 2) = back
  rw [← mapM_eq_none, ← List.all_eq_true]
  cases hall : back.all Text.isDigit with
  | false => simp
  | true =>
    cases back with
    | nil => simp
    | cons c back =>
      rw [if_pos (by rfl)]
      cases (c :: back).mapM Text.decimalValue? with
      | none => exact ⟨fun h => ⟨⟨rfl, rfl⟩, (Except.error.inj h).symm⟩, fun h => by rw [h.2]⟩
      | some ds => simp

theorem blockTable_fails (hs : s.Sound depth) : blockTable.Fails s f ↔
    ∃ t ts, s.tables = t :: ts ∧ BadlyNumbered t.name ∧ f = .outsideDomain := by
  obtain ⟨t, ts, htables⟩ := hs.exists_table
  have hcurrent : Check.current.Gives s t s := gives_current.2 ⟨⟨ts, htables⟩, rfl⟩
  constructor
  · intro h
    obtain h | ⟨u, _, hgives, hname⟩ := fails_bind.1 h
    · rw [fails_current, htables] at h
      cases h.1
    · obtain ⟨⟨us, hus⟩, rfl⟩ := gives_current.1 hgives
      refine ⟨u, us, hus, ?_⟩
      split at hname
      · simp only [fails_bind, fails_get, fails_pure, and_false, exists_false, or_false] at hname
      · next e he =>
        obtain rfl := fails_fail.1 hname
        exact innerName_eq_error.1 he
  · rintro ⟨u, us, hus, hbad, rfl⟩
    obtain ⟨rfl, rfl⟩ := List.cons.inj (htables.symm.trans hus)
    refine fails_then hcurrent ?_
    rw [innerName_eq_error.2 ⟨hbad, rfl⟩]
    exact fails_fail.2 rfl

theorem not_lookup_fails (hs : s.Sound depth) : ¬ (Check.lookup name).Fails s f := by
  obtain ⟨t, ts, htables⟩ := hs.exists_table
  simp only [Check.lookup, fails_bind, fails_current, fails_get, fails_pure, htables]
  simp

theorem fieldType_fails {op : Kind} {b m : Token} {i j : Nat} (hs : s.Sound depth) :
    (fieldType op (.var b i) (.var m j) n).Fails s f ↔
      Misfit (.field op (.var b i) (.var m j) n) s f := by
  have hname (k : Token) (l : Nat) (s : Analysis) :
      (nameOf (.var k l)).Gives s k.value.render s ∧ ¬(nameOf (.var k l)).Fails s f :=
    ⟨gives_nameOf.2 ⟨rfl, rfl⟩, fun h => fails_pure.1 h⟩
  constructor
  · intro h
    obtain hfirst | ⟨_, _, hb, hfound⟩ := fails_bind.1 h
    · exact absurd hfirst (hname b i s).2
    obtain ⟨⟨⟩, rfl⟩ := gives_nameOf.1 hb
    obtain hlookup | ⟨r, _, hr, hsymbol⟩ := fails_bind.1 hfound
    · exact absurd hlookup (not_lookup_fails hs)
    obtain ⟨rfl, rfl⟩ := gives_lookup hr
    split at hsymbol
    · next y hy =>
      split at hsymbol
      · next t ht =>
        obtain ⟨hop, hdefinition⟩ := fails_guard.1 hsymbol
        obtain hlookup | ⟨r, _, hr, hfield⟩ := fails_bind.1 hdefinition
        · exact absurd hlookup (not_lookup_fails hs)
        obtain ⟨rfl, rfl⟩ := gives_lookup hr
        obtain hfirst | ⟨_, _, hm, hfield⟩ := fails_bind.1 hfield
        · exact absurd hfirst (hname m j _).2
        obtain ⟨⟨⟩, rfl⟩ := gives_nameOf.1 hm
        split at hfield
        · split at hfield
          · exact (fails_pure.1 hfield).elim
          · exact (fails_pure.1 hfield).elim
          · exact (fails_reject.1 hfield).elim
        · next hnone =>
          obtain rfl := fails_fail.1 hfield
          simp only [Bool.or_eq_true, Bool.and_eq_true, Bool.not_eq_true', decide_eq_true_eq,
            not_or] at hop
          exact .fieldOfUndefined hy ht hop.1 hop.2 hnone
      · exact (fails_reject.1 hsymbol).elim
    · next hnone =>
      obtain rfl := fails_fail.1 hsymbol
      refine .fieldOfUnknown ?_
      cases hy : SymbolTable.lookup? _ b.value.render with
      | none => rfl
      | some y => exact (hnone y hy).elim
  · intro h
    cases h with
    | fieldOfUnknown hb =>
      exact fails_then (hname b i s).1 (fails_then (lookup_gives_none hs hb) (fails_fail.2 rfl))
    | @fieldOfUndefined _ _ _ _ _ _ _ y t hb hy hop hop' ht =>
      refine fails_then (hname b i s).1 (fails_then (lookup_gives hb) ?_)
      dsimp only
      rw [hy]
      refine fails_guard.2 ⟨by simp [hop, hop'], ?_⟩
      cases hl : SymbolTable.lookup? s.tables t.name with
      | none =>
        exact fails_then (lookup_gives_none hs hl) (fails_then (hname m j s).1 (fails_fail.2 rfl))
      | some z =>
        refine fails_then (lookup_gives hl) (fails_then (hname m j s).1 ?_)
        cases z with
        | struct u fields => exact absurd hl (ht u fields)
        | _ => exact fails_fail.2 rfl

theorem not_insert_fails (hs : s.Sound depth) {y : Symbol} : ¬ (Check.insert y).Fails s f := by
  obtain ⟨t, ts, htables⟩ := hs.exists_table
  simp only [Check.insert, fails_bind, fails_get, gives_get, false_or]
  rintro ⟨_, _, ⟨rfl, rfl⟩, h⟩
  rw [htables] at h
  exact fails_modify.1 h

theorem not_declare_fails (hs : s.Sound depth) {y : Symbol} {line : Nat} :
    ¬ (Check.declare y line).Fails s f := by
  intro h
  obtain hcurrent | ⟨t, _, hgives, hinsert⟩ := fails_bind.1 h
  · obtain ⟨t, ts, htables⟩ := hs.exists_table
    rw [fails_current, htables] at hcurrent
    cases hcurrent.1
  · obtain ⟨-, rfl⟩ := gives_current.1 hgives
    exact not_insert_fails hs (fails_guard.1 hinsert).2

theorem not_forM_fails {α : Type} {g : α → Check Unit} (hkeeps : ∀ a, (g a).Keeps)
    (hg : ∀ a, ∀ s : Analysis, s.Sound depth → ¬ (g a).Fails s f) (as : List α)
    (hs : s.Sound depth) : ¬ (as.forM g).Fails s f := by
  induction as generalizing s with
  | nil => exact fun h => fails_pure.1 h
  | cons a as ih =>
    intro h
    obtain hfirst | ⟨_, s₁, hgives, h⟩ := fails_bind.1 h
    · exact hg a s hs hfirst
    · exact ih (hkeeps a hs hgives) h

theorem includeLibrary_fails (hs : s.Sound depth) :
    (includeLibrary name).Fails s f ↔ Library.find? name = none ∧ f = .noSuchLibrary name := by
  unfold includeLibrary
  split
  · next l hl =>
    rw [hl]
    refine ⟨fun h => ?_, fun h => by cases h.1⟩
    obtain hfunctions | ⟨_, s₁, hgives, hconstants⟩ := fails_bind.1 h
    · refine absurd hfunctions (not_forM_fails keeping.includeFunction (fun g s hs h => ?_) _ hs)
      obtain hlookup | ⟨_, _, hr, hinsert⟩ := fails_bind.1 h
      · exact not_lookup_fails hs hlookup
      · obtain ⟨-, rfl⟩ := gives_lookup hr
        obtain ⟨-, hinsert⟩ | ⟨-, hpure⟩ := fails_ite.1 hinsert
        · exact not_insert_fails hs hinsert
        · exact fails_pure.1 hpure
    · have hs₁ := keeping.forM keeping.includeFunction _ hs hgives
      refine absurd hconstants (not_forM_fails keeping.includeConstant (fun c s hs => ?_) _ hs₁)
      exact not_insert_fails hs
  · next hl =>
    rw [fails_fail, hl]
    exact ⟨fun h => ⟨rfl, h⟩, And.right⟩

theorem Misfit.fails (hs : s.Sound depth) (h : Misfit t s f) : (check t).Fails s f := by
  cases h with
  | library h => exact fails_first ((includeLibrary_fails hs).2 ⟨h, rfl⟩)
  | binary hl hr h =>
    exact fails_then hl (fails_then hr (fails_ofExcept.2 (Rejection.faults_binaryType.2 h)))
  | unary he h =>
    exact fails_then he (fails_ofExcept.2 (Rejection.faults_unaryType.2 ⟨h, rfl⟩))
  | assign ht hv h =>
    refine fails_then ht (fails_then hv (fails_first (fails_ofExcept.2 ?_)))
    exact Rejection.faults_assignType.2 ⟨h, rfl⟩
  | cast he => exact fails_then he (fails_ofExcept.2 rfl)
  | fieldOfUnknown hb => exact (fieldType_fails hs).2 (.fieldOfUnknown hb)
  | fieldOfUndefined hb hy hop hop' ht =>
    exact (fieldType_fails hs).2 (.fieldOfUndefined hb hy hop hop' ht)
  | label hsubject hfront hdefault hv h =>
    refine switch_fails hsubject (checkCases_fails.2 ⟨_, _, _, _, rfl, hfront, ?_⟩)
    exact checkChild_fails.2 (.inr ⟨by rw [hdefault]; rfl, _, _, rfl, .inr ⟨_, _, hv, h, rfl⟩⟩)
  | block ht h => exact fails_first ((blockTable_fails hs).2 ⟨_, _, ht, h, rfl⟩)

/-! ## From the whole to a part -/

theorem not_typeName_fails (ht : t.Grammatical .typeName) (hs : s.Sound depth) :
    ¬ (check t).Fails s f := by
  intro h
  cases ht with
  | typeName c n =>
    rw [check, fails_ofExcept] at h
    dsimp only [namedType] at h
    generalize (if c.pointer then c.dereference else c).isArithmetic = known at h
    cases known <;> cases h
  | structName c n =>
    obtain hlookup | ⟨r, _, -, h⟩ := fails_bind.1 h
    · exact not_lookup_fails hs hlookup
    · split at h
      · exact fails_pure.1 h
      · exact fails_reject.1 h

theorem not_typeOf_fails (ht : t.Grammatical .typeName) : ¬ (typeOf t).Fails s f := by
  cases ht with
  | typeName | structName => exact fun h => fails_pure.1 h

theorem not_variable_fails (k : Token) (n : Nat) (hs : s.Sound depth) :
    ¬ (check (.var k n)).Fails s f := by
  intro h
  obtain hlookup | ⟨r, _, -, h⟩ := fails_bind.1 h
  · exact not_lookup_fails hs hlookup
  · split at h
    · exact fails_pure.1 h
    · exact fails_reject.1 h

theorem not_literalType_fails {k : Token} : literalType k ≠ .error (.fault f) := by
  unfold literalType
  split
  all_goals
    intro h
    cases h

theorem not_varDecl_fails {v : Token} {i : Nat} (ht : t.Grammatical .typeName)
    (hs : s.Sound depth) : ¬ (check (.varDecl (.var v i) t n)).Fails s f := by
  intro h
  obtain htype | ⟨_, _, hgives, hnamed⟩ := fails_bind.1 h
  · exact not_typeName_fails ht hs htype
  obtain ⟨rfl, -⟩ := gives_typeName ht hgives
  obtain hname | ⟨_, _, hgives, htyped⟩ := fails_bind.1 hnamed
  · exact fails_pure.1 hname
  obtain ⟨⟨⟩, rfl⟩ := gives_nameOf.1 hgives
  obtain htype | ⟨_, _, hgives, hdeclared⟩ := fails_bind.1 htyped
  · exact not_typeOf_fails ht htype
  obtain ⟨-, rfl⟩ := gives_typeOf.1 hgives
  obtain hdeclare | ⟨_, _, -, hpure⟩ := fails_bind.1 hdeclared
  · exact not_declare_fails hs hdeclare
  · exact fails_pure.1 hpure

theorem not_param_fails (ht : t.Grammatical .parameter) (hs : s.Sound depth) :
    ¬ (check t).Fails s f := by
  intro h
  cases ht with
  | param v i n ht =>
    simp only [check, declareParam, fails_bind, fails_pure] at h
    obtain h | ⟨_, _, hname, h | ⟨_, _, htype, h | ⟨_, _, _, h⟩⟩⟩ := h
    · exact fails_pure.1 h
    · exact not_typeOf_fails ht h
    · obtain ⟨⟨⟩, rfl⟩ := gives_nameOf.1 hname
      obtain ⟨-, rfl⟩ := gives_typeOf.1 htype
      exact not_declare_fails hs h
    · exact h

theorem not_checkEach_fails {ps : List Tree} (hps : ∀ p ∈ ps, p.Grammatical .parameter)
    (hs : s.Sound depth) : ¬ (checkEach ps).Fails s f := by
  induction ps generalizing s with
  | nil => exact fun h => fails_pure.1 h
  | cons p ps ih =>
    obtain ⟨hp, hps⟩ := List.forall_mem_cons.1 hps
    intro h
    obtain hfirst | ⟨_, s₁, hgives, hrest⟩ := fails_bind.1 h
    · exact not_param_fails hp hs hfirst
    obtain hrest | ⟨_, _, -, hpure⟩ := fails_bind.1 hrest
    · exact ih hps ((check_keeps hp).1 hs hgives) hrest
    · exact fails_pure.1 hpure

def Located (t : Tree) (s : Analysis) (f : Fault) : Prop :=
  (∃ u s', Opens t s u s' ∧ (check u).Fails s' f) ∨ Misfit t s f

theorem Located.ofParts (h : (checkAll t.inOrder).Fails s f) : Located t s f := by
  obtain ⟨front, u, rest, s₁, hsplit, hfront, hu⟩ := checkAll_fails.1 h
  exact .inl ⟨u, s₁, .inOrder hsplit hfront, hu⟩

theorem Located.function {type b : Tree} {ps : List Tree} (ht : type.Grammatical .typeName)
    (hps : ∀ p ∈ ps, p.Grammatical .parameter) (hs : s.Sound depth)
    (h : (check (.function type name ps b n)).Fails s f) :
    Located (.function type name ps b n) s f := by
  obtain hlookup | ⟨r, _, hr, hguard⟩ := fails_bind.1 h
  · exact absurd hlookup (not_lookup_fails hs)
  obtain ⟨rfl, rfl⟩ := gives_lookup hr
  obtain ⟨hnew, hdeclared⟩ := fails_guard.1 hguard
  obtain htype | ⟨vtype, _, hgives, hinserted⟩ := fails_bind.1 hdeclared
  · exact absurd htype (not_typeOf_fails ht)
  obtain ⟨htype, rfl⟩ := gives_typeOf.1 hgives
  obtain hinsert | ⟨_, s₁, hinsert, hentered⟩ := fails_bind.1 hinserted
  · exact absurd hinsert (not_insert_fails hs)
  have hs₁ := Keeps.insert (y := .function name (some vtype) (some [])) (List.forall_mem_nil _) hs
    hinsert
  simp only [fails_bind, fails_get, gives_get, fails_within, fails_pure, false_or, and_false,
    exists_false, or_false] at hentered
  obtain ⟨_, _, ⟨rfl, rfl⟩, hbody⟩ := hentered
  obtain hparams | ⟨params, s₂, hparams, houtside | ⟨_, s₃, houtside, hb⟩⟩ := hbody
  · exact absurd hparams (not_checkEach_fails hps (hs₁.enter name _))
  · exact (fails_modify.1 houtside).elim
  · exact .inl ⟨b, s₃, .functionBody (by simpa using hnew) htype hinsert hparams houtside, hb⟩

theorem Located.call {args : List Tree} (hs : s.Sound depth)
    (h : (check (.call name args n)).Fails s f) : Located (.call name args n) s f := by
  have ofArgs {g : String} {type : Option VarType} {params : Option (List Typing)}
      (hg : SymbolTable.lookup? s.tables name = some (.function g type params))
      (hparams : ∀ ps ∈ params, args.length = ps.length) (hargs : (checkAll args).Fails s f) :
      Located (.call name args n) s f := by
    obtain ⟨front, u, rest, s₁, rfl, hfront, hu⟩ := checkAll_fails.1 hargs
    exact .inl ⟨u, s₁, .argument hg hparams hfront, hu⟩
  rw [check] at h
  obtain hlookup | ⟨r, _, hr, hsymbol⟩ := fails_bind.1 h
  · exact absurd hlookup (not_lookup_fails hs)
  obtain ⟨hfound, rfl⟩ := gives_lookup hr
  split at hsymbol
  · next g type params =>
    split at hsymbol
    · next ps =>
      obtain ⟨hcount, hcompared⟩ := fails_guard.1 hsymbol
      have hlength : args.length = ps.length := by simpa using hcount
      obtain hargs | ⟨r, _, -, hwarned⟩ := fails_bind.1 hcompared
      · have hparams : ∀ p ∈ ps, p.isParameter = true := hs.lookup hfound.symm
        refine ofArgs hfound.symm ?_ ((checkArgs_fails hlength hparams).1 hargs)
        rintro _ ⟨⟩
        exact hlength
      · simp only [fails_ite, fails_bind, fails_warn, fails_pure, and_false, exists_false, or_false]
          at hwarned
    · obtain hargs | ⟨_, _, -, hpure⟩ := fails_bind.1 hsymbol
      · exact ofArgs hfound.symm (fun _ h => (by cases h)) hargs
      · exact (fails_pure.1 hpure).elim
  · exact (fails_reject.1 hsymbol).elim
  · exact (fails_reject.1 hsymbol).elim

theorem Located.switch {subject : Tree} (h : (check (.switch subject cs n)).Fails s f) :
    Located (.switch subject cs n) s f := by
  obtain hsubject | ⟨a, s₁, hsubject, hcases⟩ := fails_bind.1 h
  · exact .ofParts (fails_first hsubject)
  obtain hchildren | ⟨_, _, -, hpure⟩ := fails_bind.1 hcases
  · obtain ⟨front, u, rest, s₂, rfl, hfront, hu⟩ := checkCases_fails.1 (fails_inSwitch.1 hchildren)
    rw [Bool.false_or] at hu
    obtain ⟨hlabel, hu⟩ | ⟨hdefault, v, i, rfl, hv | ⟨b, s₃, hv, hsame, rfl⟩⟩ :=
      checkChild_fails.1 hu
    · exact .inl ⟨u, s₂, .child hsubject hfront hlabel, hu⟩
    · exact .inl ⟨v, s₂, .label hsubject hfront hdefault, hv⟩
    · exact .inr (.label hsubject hfront hdefault hv hsame)
  · exact (fails_pure.1 hpure).elim

theorem Located.loop {b : Tree} (hb : t.loopBody? = some b) (h : (check t).Fails s f) :
    Located t s f := by
  rw [check_loop hb] at h
  obtain hfront | ⟨_, s₁, hfront, hrest⟩ := fails_bind.1 h
  · exact .ofParts hfront
  obtain hbody | ⟨a, _, hgives, hbehind⟩ := fails_bind.1 hrest
  · exact .inl ⟨b, _, .loopBody hb hfront, fails_inLoop.1 hbody⟩
  obtain hbehind | ⟨_, _, -, hpure⟩ := fails_bind.1 hbehind
  · obtain ⟨s₂, hbody, rfl⟩ := gives_inLoop hgives
    cases hu : t.behindBody? with
    | none =>
      rw [hu] at hbehind
      exact (fails_pure.1 hbehind).elim
    | some u =>
      rw [hu] at hbehind
      obtain hfails | ⟨_, _, -, hnone⟩ := fails_bind.1 hbehind
      · exact .inl ⟨u, _, .behindBody hb hu hfront hbody, hfails⟩
      · exact (fails_pure.1 hnone).elim
  · exact (fails_pure.1 hpure).elim

theorem Located.block (hs : s.Sound depth) (h : (check (.block cs n)).Fails s f) :
    Located (.block cs n) s f := by
  obtain htable | ⟨t, _, ht, hinside⟩ := fails_bind.1 h
  · obtain ⟨t, ts, htables, hbad, rfl⟩ := (blockTable_fails hs).1 htable
    exact .inr (.block htables hbad)
  obtain ⟨-, -, -, rfl⟩ := gives_blockTable ht
  obtain hchildren | ⟨_, _, -, hpure⟩ := fails_bind.1 hinside
  · obtain ⟨front, u, rest, s₁, rfl, hfront, hu⟩ := checkAll_fails.1 (fails_within.1 hchildren)
    exact .inl ⟨u, s₁, .block ht hfront, hu⟩
  · exact (fails_pure.1 hpure).elim

theorem Located.assign {target v : Tree} {op : Token}
    (h : (check (.assign target op v n)).Fails s f) : Located (.assign target op v n) s f := by
  obtain htarget | ⟨a, s₁, htarget, hrest⟩ := fails_bind.1 h
  · exact .ofParts (fails_first htarget)
  obtain hvalue | ⟨b, s₂, hvalue, htypes⟩ := fails_bind.1 hrest
  · exact .ofParts (fails_then htarget (fails_first hvalue))
  obtain htypes | ⟨⟨r, w⟩, s₃, -, hwarned⟩ := fails_bind.1 htypes
  · obtain ⟨hfit, rfl⟩ := Rejection.faults_assignType.1 (fails_ofExcept.1 htypes)
    exact .inr (.assign htarget hvalue hfit)
  · cases w with
    | none => exact (fails_pure.1 hwarned).elim
    | some w =>
      obtain hwarn | ⟨_, _, -, hpure⟩ := fails_bind.1 hwarned
      · exact (fails_warn.1 hwarn).elim
      · exact (fails_pure.1 hpure).elim

/-- The check of what stands in a program, labels left out, fails at a part to which it comes, or
because the parts do not fit together. -/
theorem located_of_fails {k : Tree.Category} (ht : t.Grammatical k) (hk : k ≠ .program)
    (hl : t.isLabel = false) (hs : s.Sound depth) (h : (check t).Fails s f) : Located t s f := by
  have three {t u v : Tree} {g : Typing → Typing → Typing → Check Typing}
      (hg : ∀ a b c s, ¬ (g a b c).Fails s f)
      (h : (check t >>= fun a => check u >>= fun b => check v >>= g a b).Fails s f) :
      (checkAll [t, u, v]).Fails s f := by
    simp only [checkAll, fails_bind, fails_pure, and_false, exists_false, or_false, hg] at h ⊢
    exact h
  induction ht with
  | ofExpression _ ih | simple _ ih | ofStatement _ ih | ofDeclaration _ ih | ofItem _ ih
  | declared _ ih => exact ih (by decide) hl h
  | num k n => exact absurd (fails_ofExcept.1 h) not_literalType_fails
  | string | absentExpression => exact (fails_pure.1 h).elim
  | var k n => exact absurd h (not_variable_fails k n hs)
  | typeName c n => exact absurd h (not_typeName_fails (.typeName c n) hs)
  | structName c n => exact absurd h (not_typeName_fails (.structName c n) hs)
  | field op b m i j n => exact .inr ((fieldType_fails hs).1 h)
  | binary =>
    obtain hleft | ⟨a, s₁, hleft, hrest⟩ := fails_bind.1 h
    · exact .ofParts (fails_first hleft)
    obtain hright | ⟨b, s₂, hright, htypes⟩ := fails_bind.1 hrest
    · exact .ofParts (fails_then hleft (fails_first hright))
    · exact .inr (.binary hleft hright (Rejection.faults_binaryType.1 (fails_ofExcept.1 htypes)))
  | unary =>
    obtain he | ⟨a, s₁, he, htypes⟩ := fails_bind.1 h
    · exact .ofParts (fails_first he)
    · obtain ⟨hfit, rfl⟩ := Rejection.faults_unaryType.1 (fails_ofExcept.1 htypes)
      exact .inr (.unary he hfit)
  | cast _ _ ht =>
    obtain he | ⟨a, s₁, he, htypes⟩ := fails_bind.1 h
    · exact .ofParts (fails_first he)
    · cases ht with
      | typeName => cases fails_ofExcept.1 htypes
      | structName =>
        cases fails_ofExcept.1 htypes
        exact .inr (.cast he)
  | ternary =>
    refine .ofParts (three (fun _ _ _ s hwarned => ?_) h)
    simp only [fails_ite, fails_bind, fails_warn, fails_pure, and_false, exists_false, or_false]
      at hwarned
  | assign | initializer => exact .assign h
  | sequence n hc => exact .ofParts (checkLast_fails.1 h)
  | call f n _ ha => exact .call hs h
  | varDecl v i n ht => exact absurd h (not_varDecl_fails ht hs)
  | structDecl name fields mark n =>
    obtain hdeclare | ⟨_, _, -, hpure⟩ := fails_bind.1 h
    · exact absurd (fails_guard.1 hdeclare).2 (not_declare_fails hs)
    · exact (fails_pure.1 hpure).elim
  | switch => exact .switch h
  | ifElse n _ _ _ hc ha hb => exact .ofParts (three (fun _ _ _ _ h => fails_pure.1 h) h)
  | forLoop | whileLoop | doWhile => exact .loop rfl h
  | returning n hv => exact .ofParts (fails_first h)
  | breaking | continuing =>
    simp only [check, fails_bind, fails_get, gives_get, fails_ite, fails_reject, gives_reject,
      fails_pure, and_false, exists_false, or_false] at h
  | block => exact .block hs h
  | caseLabel | defaultLabel => cases hl
  | param v i n ht => exact absurd h (not_param_fails (.param v i n ht) hs)
  | body n hc =>
    obtain hchildren | ⟨_, _, -, hpure⟩ := fails_bind.1 h
    · exact .ofParts hchildren
    · exact (fails_pure.1 hpure).elim
  | function f n ht hps hb => exact .function ht hps hs h
  | library l n =>
    obtain hlibrary | ⟨_, _, -, hpure⟩ := fails_bind.1 h
    · obtain ⟨hnone, rfl⟩ := (includeLibrary_fails hs).1 hlibrary
      exact .inr (.library hnone)
    · exact (fails_pure.1 hpure).elim
  | program => exact absurd rfl hk

end Analysis

/-! ## Down to the tree that fails -/

namespace Analysis

open Check

variable {s s₁ : Analysis} {f : Fault} {depth : Nat} {t u : Tree} {k : Tree.Category}

/-- What the check of a tree comes to stands in the tree, and is no label. -/
theorem Opens.inside (ht : t.Grammatical k) (h : Opens t s u s₁) :
    (∃ j, u.Grammatical j ∧ j ≠ .program) ∧ u.isLabel = false ∧ sizeOf u < sizeOf t := by
  have ofPart (hu : u ∈ t.parts) (hl : u.isLabel = false) :
      (∃ j, u.Grammatical j ∧ j ≠ .program) ∧ u.isLabel = false ∧ sizeOf u < sizeOf t := by
    obtain ⟨j, hj, hne, -⟩ := ht.part hu
    exact ⟨⟨j, hj, hne⟩, hl, Tree.sizeOf_lt_of_mem_parts hu⟩
  cases h with
  | inOrder hsplit _ =>
    have hu : u ∈ t.inOrder := by simp [hsplit]
    refine ofPart (t.inOrder_subset_parts hu) (ht.part_not_isLabel (t.inOrder_subset_parts hu) ?_)
    rintro subject cs n rfl
    exact List.mem_singleton.1 hu
  | loopBody hb _ =>
    have hu := Tree.loopBody_mem_parts hb
    refine ofPart hu (ht.part_not_isLabel hu ?_)
    rintro subject cs n rfl
    cases hb
  | behindBody _ hbehind _ _ =>
    have hu := Tree.behindBody_mem_parts hbehind
    refine ofPart hu (ht.part_not_isLabel hu ?_)
    rintro subject cs n rfl
    cases hbehind
  | argument | block | program | functionBody =>
    refine ofPart (by simp [Tree.parts]) (ht.part_not_isLabel (by simp [Tree.parts]) ?_)
    exact fun _ _ _ h => (by cases h)
  | child _ _ hl => exact ofPart (by simp [Tree.parts]) hl
  | @label subject u front rest i n =>
    have hlabel :
        .caseLabel u i ∈ (Tree.switch subject (front ++ .caseLabel u i :: rest) n).parts := by
      simp [Tree.parts]
    have hu : u ∈ (Tree.caseLabel u i).parts := List.mem_singleton.2 rfl
    obtain ⟨j, hj, -⟩ := ht.part hlabel
    obtain ⟨j', hj', hne, -⟩ := hj.part hu
    refine ⟨⟨j', hj', hne⟩, hj.part_not_isLabel hu fun _ _ _ h => (by cases h), ?_⟩
    exact (Tree.sizeOf_lt_of_mem_parts hu).trans (Tree.sizeOf_lt_of_mem_parts hlabel)

theorem Opens.sound (ht : t.Grammatical k) (hs : s.Sound depth) (h : Opens t s u s₁) :
    ∃ depth, s₁.Sound depth := by
  have all {cs : List Tree} (hcs : cs ⊆ t.parts) : (checkAll cs).Keeps :=
    keeping.checkAll fun c hc => by
      obtain ⟨j, hj, -⟩ := ht.part (hcs hc)
      exact (check_keeps hj).1
  cases h with
  | inOrder hsplit hfront =>
    refine ⟨depth, all (fun c hc => t.inOrder_subset_parts ?_) hs hfront⟩
    simp [hsplit, hc]
  | loopBody hb hfront =>
    exact ⟨depth, (all t.inOrder_subset_parts hs hfront).ofTables rfl⟩
  | behindBody hb _ hfront hbody =>
    obtain ⟨j, hj, -⟩ := ht.part (Tree.loopBody_mem_parts hb)
    have hs₁ : (Analysis.enterLoop _).Sound depth :=
      (all t.inOrder_subset_parts hs hfront).ofTables rfl
    exact ⟨depth, ((check_keeps hj).1 hs₁ hbody).ofTables rfl⟩
  | argument _ _ hfront =>
    refine ⟨depth, all (fun c hc => ?_) hs hfront⟩
    simp [Tree.parts, hc]
  | @child subject _ front rest n _ _ _ a hsubject hfront _
  | @label subject _ front rest _ n _ _ _ a hsubject hfront _ =>
    have keeps {c : Tree} (hc : c ∈ subject :: front) : (check c).Keeps ∧ (checkPart c).Keeps := by
      obtain ⟨j, hj, -⟩ := ht.part (List.cons_subset_cons _ (List.subset_append_left ..) hc)
      exact check_keeps hj
    have hs₁ : (Analysis.enterSwitch _).Sound depth :=
      ((keeps (List.mem_cons_self ..)).1 hs hsubject).ofTables rfl
    exact ⟨depth, keeping.checkCases (fun c hc => (keeps (List.mem_cons_of_mem _ hc)).2) a n false hs₁
      hfront⟩
  | block htable hfront =>
    obtain ⟨name, level, rfl, -⟩ := gives_blockTable htable
    refine ⟨depth + 1, all (fun c hc => ?_) (hs.enter name level) hfront⟩
    simp [Tree.parts, hc]
  | program hfront =>
    refine ⟨depth + 1, all (fun c hc => ?_) (hs.enter "global" 1) hfront⟩
    simp [Tree.parts, hc]
  | @functionBody _ _ name _ _ _ s₁ _ _ type params _ _ hinsert hparams houtside =>
    have hps := ht.function_parameters
    have hs₁ : s₁.Sound depth :=
      Keeps.insert (y := .function name (some type) (some [])) (List.forall_mem_nil _) hs hinsert
    have hs₂ := keeping.checkEach (fun p hp => (check_keeps (hps p hp)).1) (hs₁.enter name _) hparams
    refine ⟨depth + 1, Keeps.insertOutside ?_ hs₂ houtside⟩
    exact checkEach_parameters hps hparams

/-- Where a check fails, it comes to a tree whose parts do not fit together. -/
theorem exists_misfit (ht : t.Grammatical k) (hk : k ≠ .program) (hl : t.isLabel = false)
    (hs : s.Sound depth) (h : (check t).Fails s f) : ∃ u s', Comes t s u s' ∧ Misfit u s' f := by
  induction hn : sizeOf t using Nat.strongRecOn generalizing t s depth k with
  | ind n ih =>
    obtain ⟨u, s₁, hu, hfails⟩ | hmisfit := located_of_fails ht hk hl hs h
    · obtain ⟨⟨j, hj, hne⟩, hlabel, hsize⟩ := hu.inside ht
      obtain ⟨depth', hs₁⟩ := hu.sound ht hs
      obtain ⟨v, s₂, hv, hmisfit⟩ := ih (sizeOf u) (hn ▸ hsize) hj hne hlabel hs₁ hfails rfl
      exact ⟨v, s₂, .part hu hv, hmisfit⟩
    · exact ⟨t, s, .self t s, hmisfit⟩

theorem Comes.fails {s' : Analysis} (ht : t.Grammatical k) (hs : s.Sound depth)
    (h : Comes t s u s') (hu : Misfit u s' f) : (check t).Fails s f := by
  induction h generalizing k depth with
  | self => exact hu.fails hs
  | part hopens _ ih =>
    obtain ⟨⟨j, hj, -⟩, -⟩ := hopens.inside ht
    obtain ⟨depth', hs₁⟩ := hopens.sound ht hs
    exact hopens.fails hs (ih hj hs₁ hu)

theorem start_sound : (start.enter (.inside [] "global")).Sound 0 := by
  refine ⟨rfl, List.forall_mem_singleton.2 fun name y hy => ?_⟩
  cases hy

theorem opens_program (h : Opens (.program cs n) s u s₁) :
    ∃ front rest, cs = front ++ u :: rest ∧
      (checkAll front).Gives (s.enter (.inside [] "global")) () s₁ := by
  cases h with
  | @inOrder _ _ front _ _ _ hsplit => cases front <;> cases hsplit
  | loopBody hb => cases hb
  | behindBody hb => cases hb
  | program hfront => exact ⟨_, _, rfl, hfront⟩

theorem topLevel_keeps (ht : Tree.Grammatical k (.program cs n)) : ∀ c ∈ cs, (check c).Keeps := by
  intro c hc
  obtain ⟨j, hj, -⟩ := ht.part hc
  exact (check_keeps hj).1

/-- A program fails where one of its parts does. That there is no main function is found out without
a fault. -/
theorem program_fails (ht : Tree.Grammatical k (.program cs n)) :
    (check (.program cs n)).Fails start f ↔
      ∃ u s₁, Opens (.program cs n) start u s₁ ∧ (check u).Fails s₁ f := by
  constructor
  · intro h
    obtain hinside | ⟨_, _, -, hpure⟩ := fails_bind.1 h
    · obtain hparts | ⟨_, s₁, hgives, hmain⟩ := fails_bind.1 (fails_within.1 hinside)
      · obtain ⟨front, u, rest, s₁, rfl, hfront, hu⟩ := checkAll_fails.1 hparts
        exact ⟨u, s₁, .program hfront, hu⟩
      · have hs₁ := keeping.checkAll (topLevel_keeps ht) start_sound hgives
        obtain hlookup | ⟨_, _, -, hmissing⟩ := fails_bind.1 hmain
        · exact absurd hlookup (not_lookup_fails hs₁)
        · simp only [fails_ite, fails_reject, fails_pure, and_false, or_false] at hmissing
    · exact (fails_pure.1 hpure).elim
  · rintro ⟨u, s₁, hu, hfails⟩
    obtain ⟨front, rest, rfl, hfront⟩ := opens_program hu
    refine fails_first (fails_within.2 (fails_first ?_))
    exact checkAll_fails.2 ⟨front, u, rest, s₁, rfl, hfront, hfails⟩

/-- A program is checked in vain exactly if the check comes to a tree whose parts do not fit. -/
theorem program_fails_iff (ht : t.Grammatical .program) :
    (check t).Fails start f ↔ ∃ u s', Comes t start u s' ∧ Misfit u s' f := by
  cases ht with
  | @program cs n hc =>
    have ht : Tree.Grammatical .program (.program cs n) := .program n hc
    have sound {u : Tree} {s₁ : Analysis} (h : Opens (.program cs n) start u s₁) : s₁.Sound 0 := by
      obtain ⟨front, rest, rfl, hfront⟩ := opens_program h
      have hkeeps := topLevel_keeps ht
      refine keeping.checkAll (fun c hc => hkeeps c ?_) start_sound hfront
      exact List.mem_append_left _ hc
    rw [program_fails ht]
    constructor
    · rintro ⟨u, s₁, hu, hfails⟩
      obtain ⟨⟨j, hj, hne⟩, hlabel, -⟩ := hu.inside ht
      obtain ⟨v, s₂, hv, hmisfit⟩ := exists_misfit hj hne hlabel (sound hu) hfails
      exact ⟨v, s₂, .part hu hv, hmisfit⟩
    · rintro ⟨v, s₂, hcomes, hmisfit⟩
      cases hcomes with
      | self => cases hmisfit
      | part hu hv =>
        obtain ⟨⟨j, hj, -⟩, -⟩ := hu.inside ht
        exact ⟨_, _, hu, hv.fails hj (sound hu) hmisfit⟩

theorem Misfit.fault_eq (h : Misfit t s f) :
    f = .noSuchPart ∨ f = .outsideDomain ∨ ∃ name, f = .noSuchLibrary name := by
  cases h with
  | library => exact .inr (.inr ⟨_, rfl⟩)
  | binary _ _ h =>
    cases h with
    | noCommonType => exact .inr (.inl rfl)
    | _ => exact .inl rfl
  | block => exact .inr (.inl rfl)
  | _ => exact .inl rfl

theorem analyze_fault : (analyze t).1 = .error (.fault f) ↔ (check t).Fails start f := by
  change (do let _ ← check t : Check Unit).Fails start f ↔ (check t).Fails start f
  simp only [fails_bind, fails_pure, and_false, exists_false, or_false]

end Analysis

/-- The analysis of a program ends with a fault exactly if it comes to a tree whose parts do not fit
together. Then it asks for a part of a type that is not there, or for a common type or a number that
there is not, or the program names a library that does not exist. -/
theorem analysis_fails_iff {code : String} {program : Tree} (hp : Program.parse code = .ok program)
    {f : Fault} :
    ((Analysis.analyze program).1 = .error (.fault f) ↔
      ∃ t s, Analysis.Comes program Analysis.start t s ∧ Analysis.Misfit t s f) ∧
    ((Analysis.analyze program).1 = .error (.fault f) →
      f = .noSuchPart ∨ f = .outsideDomain ∨ ∃ name, f = .noSuchLibrary name) := by
  have hiff := Analysis.analyze_fault.trans
    (Analysis.program_fails_iff (f := f) (Program.parse_grammatical hp))
  refine ⟨hiff, fun h => ?_⟩
  obtain ⟨t, s, -, hmisfit⟩ := hiff.1 h
  exact hmisfit.fault_eq

theorem analysis_fails_iff_label : ∃ program t s,
    Program.parse "int main()\x7b switch (1) \x7b case 1.0: ; \x7d return 0; \x7d" = .ok program ∧
    (Analysis.analyze program).1 = .error (.fault .noSuchPart) ∧
    Analysis.Comes program Analysis.start t s ∧ Analysis.Misfit t s .noSuchPart := by
  have hparsed : ∃ program,
      Program.parse "int main()\x7b switch (1) \x7b case 1.0: ; \x7d return 0; \x7d" = .ok program ∧
      decide ((Analysis.analyze program).1 = .error (.fault .noSuchPart)) = true := by
    refine Program.exists_parsed
      (P := fun t => (Analysis.analyze t).1 = .error (.fault .noSuchPart)) ?_
    decide +kernel
  obtain ⟨program, hp, hfault⟩ := hparsed
  have hfault := of_decide_eq_true hfault
  obtain ⟨t, s, hcomes, hmisfit⟩ := (analysis_fails_iff hp).1.1 hfault
  exact ⟨program, t, s, hp, hfault, hcomes, hmisfit⟩

end MiniC
