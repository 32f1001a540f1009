import MiniC.Proofs.Effects
import MiniC.Proofs.Parsed
import MiniC.Proofs.Scoping
import Mathlib.Data.List.Forall2

/-!
# What the analysis accepts

The tables of the analysis follow the environments of places: when a tree is checked, the tables
describe the environment at its place, and when the check succeeds, they describe the environment
behind it. So whatever the analysis looks up is what the environment says, and a program that is
accepted is well formed, with the increment of a loop behind its body.
-/

namespace MiniC

variable {a : Typing} {c : List Declaration} {t : Tree} {name : String} {y : Symbol}
  {s s' : Analysis} {cs ts : List Tree} {d : Declaration}

/-! ## Checks that succeed -/

namespace Check

variable {α β : Type} {s s' : Analysis}

variable {p : Check α}

def Gives (p : Check α) (s : Analysis) (a : α) (s' : Analysis) : Prop :=
  p.run s = (.ok a, s')

theorem gives_bind {f : α → Check β} {b : β} :
    (p >>= f).Gives s b s' ↔ ∃ a s₁, p.Gives s a s₁ ∧ (f a).Gives s₁ b s' :=
  run_bind_ok

theorem gives_pure {a b : α} : (pure a : Check α).Gives s b s' ↔ b = a ∧ s' = s := by
  constructor
  · rintro ⟨⟩
    exact ⟨rfl, rfl⟩
  · rintro ⟨rfl, rfl⟩
    rfl

theorem gives_reject {e : SemanticError} {a : α} : (reject e : Check α).Gives s a s' ↔ False :=
  ⟨nofun, False.elim⟩

theorem gives_fail {f : Fault} {a : α} : (fail f : Check α).Gives s a s' ↔ False :=
  ⟨nofun, False.elim⟩

theorem gives_get {a : Analysis} : (get : Check Analysis).Gives s a s' ↔ a = s ∧ s' = s := by
  constructor
  · rintro ⟨⟩
    exact ⟨rfl, rfl⟩
  · rintro ⟨rfl, rfl⟩
    rfl

theorem gives_modify {f : Analysis → Analysis} {a : Unit} :
    (modify f : Check Unit).Gives s a s' ↔ s' = f s := by
  constructor
  · rintro ⟨⟩
    rfl
  · rintro rfl
    rfl

theorem gives_ite {c : Prop} [Decidable c] {q : Check α} {a : α} :
    (if c then p else q).Gives s a s' ↔ c ∧ p.Gives s a s' ∨ ¬c ∧ q.Gives s a s' := by
  by_cases h : c
  · rw [if_pos h]
    simp [h]
  · rw [if_neg h]
    simp [h]

/-- A check that is rejected on a condition, and goes on otherwise. -/
theorem gives_guard {c : Prop} [Decidable c] {e : SemanticError} {a : α} :
    (if c then (do reject e; p) else p).Gives s a s' ↔ ¬c ∧ p.Gives s a s' := by
  simp only [gives_ite, gives_bind, gives_reject, false_and, exists_false, and_false, false_or]

theorem gives_ofExcept {r : Except Rejection α} {a : α} :
    (ofExcept r).Gives s a s' ↔ r = .ok a ∧ s' = s := by
  cases r with
  | error e => exact ⟨nofun, nofun⟩
  | ok b =>
    rw [ofExcept, gives_pure, Except.ok.injEq]
    exact and_congr_left' eq_comm

theorem gives_current {t : SymbolTable} :
    current.Gives s t s' ↔ (∃ ts, s.tables = t :: ts) ∧ s' = s := by
  simp only [current, gives_bind, gives_get]
  constructor
  · rintro ⟨_, _, ⟨rfl, rfl⟩, h⟩
    split at h
    · next u us htables =>
      obtain ⟨rfl, rfl⟩ := gives_pure.1 h
      exact ⟨⟨us, htables⟩, rfl⟩
    · exact (gives_fail.1 h).elim
  · rintro ⟨⟨ts, htables⟩, rfl⟩
    refine ⟨_, _, ⟨rfl, rfl⟩, ?_⟩
    rw [htables]
    exact gives_pure.2 ⟨rfl, rfl⟩

theorem gives_lookup {r : Option Symbol} (h : (lookup name).Gives s r s') :
    r = SymbolTable.lookup? s.tables name ∧ s' = s := by
  simp only [lookup, gives_bind, gives_current, gives_get, gives_pure] at h
  obtain ⟨_, _, ⟨_, rfl⟩, _, _, ⟨rfl, rfl⟩, rfl, rfl⟩ := h
  exact ⟨rfl, rfl⟩

theorem gives_insert {a : Unit} (h : (Check.insert y).Gives s a s') :
    ∃ t ts, s.tables = t :: ts ∧ s' = { s with tables := t.insert y :: ts } := by
  simp only [Check.insert, gives_bind, gives_get] at h
  obtain ⟨_, _, ⟨rfl, rfl⟩, h⟩ := h
  split at h
  · next t ts htables => exact ⟨t, ts, htables, gives_modify.1 h⟩
  · exact (gives_fail.1 h).elim

theorem gives_declare {line : Nat} {a : Unit} (h : (declare y line).Gives s a s') :
    ∃ t ts, s.tables = t :: ts ∧ t.find? y.name = none ∧
      s' = { s with tables := t.insert y :: ts } := by
  simp only [declare, gives_bind, gives_current, gives_guard] at h
  obtain ⟨t, _, ⟨⟨ts, htables⟩, rfl⟩, hnone, h⟩ := h
  obtain ⟨u, us, htables', rfl⟩ := gives_insert h
  rw [htables] at htables'
  obtain ⟨rfl, rfl⟩ := List.cons.inj htables'
  exact ⟨t, ts, htables, Option.not_isSome_iff_eq_none.1 hnone, rfl⟩

theorem gives_within {t : SymbolTable} {a : α} (h : (within t p).Gives s a s') :
    ∃ s₁, p.Gives { s with tables := t :: s.tables } a s₁ ∧
      s' = { s₁ with tables := s₁.tables.tail } := by
  simp only [within, gives_bind, gives_modify, gives_pure] at h
  obtain ⟨_, _, rfl, _, s₁, hp, _, _, rfl, rfl, rfl⟩ := h
  exact ⟨s₁, hp, rfl⟩

theorem gives_inLoop {a : α} (h : (inLoop p).Gives s a s') :
    ∃ s₁, p.Gives { s with loops := s.loops + 1 } a s₁ ∧
      s' = { s₁ with loops := s₁.loops - 1 } := by
  simp only [inLoop, gives_bind, gives_modify, gives_pure] at h
  obtain ⟨_, _, rfl, _, s₁, hp, _, _, rfl, rfl, rfl⟩ := h
  exact ⟨s₁, hp, rfl⟩

theorem gives_inSwitch {a : α} (h : (inSwitch p).Gives s a s') :
    ∃ s₁, p.Gives { s with switches := s.switches + 1 } a s₁ ∧
      s' = { s₁ with switches := s₁.switches - 1 } := by
  simp only [inSwitch, gives_bind, gives_modify, gives_pure] at h
  obtain ⟨_, _, rfl, _, s₁, hp, _, _, rfl, rfl, rfl⟩ := h
  exact ⟨s₁, hp, rfl⟩

end Check

/-- The parts of a tree that are checked first, one after the other, in the state of the tree. -/
def Tree.inOrder : Tree → List Tree
  | binary l _ r _ => [l, r]
  | unary _ e _ _ => [e]
  | cast _ e _ _ => [e]
  | ternary c a b _ => [c, a, b]
  | assign t _ v _ => [t, v]
  | sequence cs _ => cs
  | switch s _ _ => [s]
  | ifElse c a b _ => [c, a, b]
  | forLoop s c _ _ _ => [s, c]
  | whileLoop c _ _ => [c]
  | returning v _ => [v]
  | body cs _ => cs
  | _ => []

def Tree.checked : Tree → List Tree
  | call _ args _ => args
  | t => t.inOrder

def Tree.loopBody? : Tree → Option Tree
  | forLoop _ _ _ b _ => some b
  | whileLoop _ b _ => some b
  | doWhile _ b _ => some b
  | _ => none

def Tree.behindBody? : Tree → Option Tree
  | forLoop _ _ i _ _ => some i
  | doWhile c _ _ => some c
  | _ => none

/-- Whether a tree declares nothing itself and has no scope, loop or switch of its own. -/
def Tree.isFlat : Tree → Bool
  | noOp .. | num .. | string .. | var .. | typeName .. | structName .. | binary .. | unary ..
  | cast .. | ternary .. | assign .. | sequence .. | call .. | field .. | ifElse .. | returning ..
  | breaking .. | continuing .. | body .. => true
  | _ => false

namespace Tree

variable {u : Tree}

theorem inOrder_subset_parts (t : Tree) : t.inOrder ⊆ t.parts := by
  intro u hu
  cases t <;> simp only [inOrder, parts, List.mem_cons, List.not_mem_nil, or_false] at hu ⊢ <;>
    tauto

theorem checked_subset_parts (t : Tree) : t.checked ⊆ t.parts := by
  unfold checked
  split
  · exact fun _ h => h
  · exact inOrder_subset_parts _

theorem loopBody_mem_parts (h : t.loopBody? = some u) : u ∈ t.parts := by
  cases t <;> cases h <;> simp [parts]

theorem behindBody_mem_parts (h : t.behindBody? = some u) : u ∈ t.parts := by
  cases t <;> cases h <;> simp [parts]

end Tree

/-! ## Where the analysis comes to -/

namespace Analysis

open Check

def enterLoop (s : Analysis) : Analysis :=
  { s with loops := s.loops + 1 }

def leaveLoop (s : Analysis) : Analysis :=
  { s with loops := s.loops - 1 }

def enterSwitch (s : Analysis) : Analysis :=
  { s with switches := s.switches + 1 }

def enter (t : SymbolTable) (s : Analysis) : Analysis :=
  { s with tables := t :: s.tables }

/-- The check of a tree that begins in a state comes to the check of a part of the tree in another
state. Names, types and parameters are left out; their checks do not fail. -/
inductive Opens : Tree → Analysis → Tree → Analysis → Prop
  | inOrder {t u : Tree} {front rest : List Tree} {s s₁ : Analysis}
      (ht : t.inOrder = front ++ u :: rest) (hfront : (checkAll front).Gives s () s₁) :
      Opens t s u s₁
  | loopBody {t b : Tree} {s s₁ : Analysis} (hb : t.loopBody? = some b)
      (hfront : (checkAll t.inOrder).Gives s () s₁) : Opens t s b s₁.enterLoop
  | behindBody {t b u : Tree} {s s₁ s₂ : Analysis} {a : Typing} (hb : t.loopBody? = some b)
      (hu : t.behindBody? = some u) (hfront : (checkAll t.inOrder).Gives s () s₁)
      (hbody : (check b).Gives s₁.enterLoop a s₂) : Opens t s u s₂.leaveLoop
  | argument {name g : String} {u : Tree} {front rest : List Tree} {n : Nat} {s s₁ : Analysis}
      {type : Option VarType} {params : Option (List Typing)}
      (hg : SymbolTable.lookup? s.tables name = some (.function g type params))
      (hparams : ∀ ps ∈ params, (front ++ u :: rest).length = ps.length)
      (hfront : (checkAll front).Gives s () s₁) :
      Opens (.call name (front ++ u :: rest) n) s u s₁
  | child {subject u : Tree} {front rest : List Tree} {n : Nat} {s s₁ s₂ : Analysis} {a : Typing}
      (hs : (check subject).Gives s a s₁)
      (hfront : (checkCases a n false front).Gives s₁.enterSwitch () s₂) (hu : u.isLabel = false) :
      Opens (.switch subject (front ++ u :: rest) n) s u s₂
  | label {subject v : Tree} {front rest : List Tree} {i n : Nat} {s s₁ s₂ : Analysis} {a : Typing}
      (hs : (check subject).Gives s a s₁)
      (hfront : (checkCases a n false front).Gives s₁.enterSwitch () s₂)
      (hdefault : front.any Tree.isDefault = false) :
      Opens (.switch subject (front ++ .caseLabel v i :: rest) n) s v s₂
  | block {u : Tree} {front rest : List Tree} {n : Nat} {s s₁ : Analysis} {t : SymbolTable}
      (ht : blockTable.Gives s t s) (hfront : (checkAll front).Gives (s.enter t) () s₁) :
      Opens (.block (front ++ u :: rest) n) s u s₁
  | program {u : Tree} {front rest : List Tree} {n : Nat} {s s₁ : Analysis}
      (hfront : (checkAll front).Gives (s.enter (.inside [] "global")) () s₁) :
      Opens (.program (front ++ u :: rest) n) s u s₁
  | functionBody {t b : Tree} {name : String} {ps : List Tree} {n : Nat} {s s₁ s₂ s₃ : Analysis}
      {type : VarType} {params : List Typing} (hname : SymbolTable.lookup? s.tables name = none)
      (htype : t.type? = some type)
      (hinsert : (Check.insert (.function name (some type) (some []))).Gives s () s₁)
      (hparams : (checkEach ps).Gives (s₁.enter (.inside s₁.tables name)) params s₂)
      (houtside : (Check.insertOutside (.function name (some type) (some params))).Gives s₂ () s₃) :
      Opens (.function t name ps b n) s b s₃

/-- The check of a tree that begins in a state comes to the check of another tree in a state. -/
inductive Comes : Tree → Analysis → Tree → Analysis → Prop
  | self (t : Tree) (s : Analysis) : Comes t s t s
  | part {t u v : Tree} {s s₁ s₂ : Analysis} (hu : Opens t s u s₁) (hv : Comes u s₁ v s₂) :
      Comes t s v s₂

theorem Comes.opens {u v : Tree} {s₁ s₂ : Analysis} (h : Comes t s u s₁) (hv : Opens u s₁ v s₂) :
    Comes t s v s₂ := by
  induction h with
  | self => exact .part hv (.self v s₂)
  | part hu _ ih => exact .part hu (ih hv)

/-! ## Checks in order -/

def checkChild (subject : Typing) (line : Nat) (seen : Bool) : Tree → Check Unit
  | .defaultLabel _ => if seen then reject (.secondDefault line) else return ()
  | .caseLabel v _ => do
    if seen then reject (.labelBehindDefault line)
    let t ← check v
    unless subject.same t do fail .noSuchPart
  | t => do let _ ← check t

theorem checkCases_cons (subject : Typing) (line : Nat) (seen : Bool) (t : Tree) (ts : List Tree) :
    checkCases subject line seen (t :: ts) = (do
      checkChild subject line seen t
      checkCases subject line (seen || t.isDefault) ts) := by
  cases t with
  | defaultLabel n =>
    cases seen with
    | false => rfl
    | true => rfl
  | caseLabel v n =>
    cases seen with
    | false =>
      simp only [checkCases, checkChild, Tree.isDefault, Bool.or_false, Bool.false_eq_true,
        if_false, bind_assoc]
      congr 1
      funext t
      split <;> simp
    | true => rfl
  | _ => simp only [checkCases, checkChild, Tree.isDefault, Bool.or_false, bind_assoc, pure_bind]

theorem check_loop {b : Tree} (hb : t.loopBody? = some b) :
    check t = (do
      checkAll t.inOrder
      let _ ← Check.inLoop (check b)
      checkAll t.behindBody?.toList
      return .nothing) := by
  cases t with
  | forLoop | whileLoop | doWhile =>
    obtain rfl := Option.some.inj hb
    simp only [check, Tree.inOrder, Tree.behindBody?, Option.toList, checkAll, bind_assoc,
      pure_bind]
  | _ => cases hb

/-- Two states of the analysis agree up to warnings. -/
structure Same (s s' : Analysis) : Prop where
  tables : s'.tables = s.tables
  loops : s'.loops = s.loops
  switches : s'.switches = s.switches

theorem Same.refl (s : Analysis) : s.Same s := ⟨rfl, rfl, rfl⟩

theorem Same.trans {s'' : Analysis} (h : s.Same s') (h' : s'.Same s'') : s.Same s'' :=
  ⟨h'.tables.trans h.tables, h'.loops.trans h.loops, h'.switches.trans h.switches⟩

theorem same_warn {w : Warning} {a : Unit} (h : (warn w).Gives s a s') : s.Same s' := by
  obtain rfl := gives_modify.1 h
  exact ⟨rfl, rfl, rfl⟩

/-- A result that is given with or without a warning. -/
theorem gives_warnUnless {α : Type} {c : Prop} [Decidable c] {w : Warning} {b a : α}
    (h : (if c then pure b else (do warn w; pure b) : Check α).Gives s a s') :
    a = b ∧ s.Same s' := by
  simp only [gives_ite, gives_bind, gives_pure] at h
  obtain ⟨_, ha, rfl⟩ | ⟨_, _, s₁, hw, ha, rfl⟩ := h
  · exact ⟨ha, .refl s'⟩
  · exact ⟨ha, same_warn hw⟩

theorem gives_nameOf : (nameOf t).Gives s name s' ↔ t.name? = some name ∧ s' = s := by
  unfold nameOf
  cases t.name? with
  | none => exact ⟨nofun, nofun⟩
  | some u => rw [gives_pure, Option.some.injEq, eq_comm (a := u)]

/-- The structure variable of a field is found, and nothing is changed. -/
theorem gives_fieldType {op : Kind} {b m : Tree} {line : Nat}
    (h : (fieldType op b m line).Gives s a s') :
    ∃ name y, b.name? = some name ∧ SymbolTable.lookup? s.tables name = some y ∧ s' = s := by
  simp only [fieldType, gives_bind] at h
  obtain ⟨name, _, hb, r, _, hr, h⟩ := h
  obtain ⟨hname, rfl⟩ := gives_nameOf.1 hb
  obtain ⟨hlookup, rfl⟩ := gives_lookup hr
  cases r with
  | none => exact (gives_fail.1 h).elim
  | some y =>
    refine ⟨name, y, hname, hlookup.symm, ?_⟩
    dsimp only at h
    split at h
    · simp only [gives_guard, gives_bind] at h
      obtain ⟨_, r', _, hr', _, _, hmember, h⟩ := h
      obtain ⟨_, rfl⟩ := gives_lookup hr'
      obtain ⟨_, rfl⟩ := gives_nameOf.1 hmember
      split at h
      · split at h
        · exact (gives_pure.1 h).2
        · exact (gives_pure.1 h).2
        · exact (gives_reject.1 h).elim
      · exact (gives_fail.1 h).elim
    · exact (gives_reject.1 h).elim

theorem gives_blockTable {t : SymbolTable} (h : blockTable.Gives s t s') :
    ∃ name level, t = ⟨name, level, []⟩ ∧ s' = s := by
  simp only [blockTable, gives_bind, gives_current] at h
  obtain ⟨u, _, ⟨_, rfl⟩, h⟩ := h
  split at h
  · simp only [gives_bind, gives_get, gives_pure] at h
    obtain ⟨_, _, ⟨rfl, rfl⟩, rfl, rfl⟩ := h
    exact ⟨_, _, rfl, rfl⟩
  · exact (gives_fail.1 h).elim

theorem gives_typeOf {type : VarType} :
    (typeOf t).Gives s type s' ↔ t.type? = some type ∧ s' = s := by
  unfold typeOf
  cases t.type? with
  | none => exact ⟨nofun, nofun⟩
  | some u => rw [gives_pure, Option.some.injEq, eq_comm (a := u)]

theorem gives_structType {c : VarType} {line : Nat} (h : (structType c line).Gives s a s') :
    ∃ st y fields, c = .struct st ∧
      SymbolTable.lookup? s.tables st.name = some (.struct y fields) ∧ s' = s := by
  cases c with
  | number => exact (gives_fail.1 h).elim
  | struct st =>
    obtain ⟨r, _, hr, hfound⟩ := gives_bind.1 h
    obtain ⟨hlookup, rfl⟩ := gives_lookup hr
    split at hfound
    · next y fields => exact ⟨st, y, fields, rfl, hlookup.symm, (gives_pure.1 hfound).2⟩
    · exact (gives_reject.1 hfound).elim

theorem gives_typeName (ht : t.Grammatical .typeName) (h : (check t).Gives s a s') :
    s' = s ∧ ∀ st n, t = .structName (.struct st) n →
      ∃ y fields, SymbolTable.lookup? s.tables st.name = some (.struct y fields) := by
  cases ht with
  | typeName c n =>
    rw [check, gives_ofExcept] at h
    exact ⟨h.2, nofun⟩
  | structName c n =>
    obtain ⟨_, y, fields, ⟨⟩, hlookup, rfl⟩ := gives_structType h
    refine ⟨rfl, ?_⟩
    rintro _ _ ⟨⟩
    exact ⟨y, fields, hlookup⟩

theorem gives_insertOutside {a : Unit} {t u : SymbolTable} {ts : List SymbolTable}
    (hs : s.tables = t :: u :: ts) (h : (insertOutside y).Gives s a s') :
    s' = { s with tables := t :: u.insert y :: ts } := by
  obtain rfl := gives_modify.1 h
  simp only [hs]

/-- The check of what may stand in a switch, labels included. -/
def checkPart : Tree → Check Typing
  | .caseLabel v _ => check v
  | .defaultLabel _ => return .nothing
  | t => check t

theorem checkPart_eq (ht : t.isLabel = false) : checkPart t = check t := by
  cases t with
  | caseLabel | defaultLabel => cases ht
  | _ => simp only [checkPart]

theorem checkPart_gives (h : (check t).Gives s a s') : (checkPart t).Gives s a s' := by
  cases ht : t.isLabel with
  | false => rwa [checkPart_eq ht]
  | true =>
    cases t with
    | caseLabel | defaultLabel => simp only [check, gives_fail] at h
    | _ => cases ht

def Checks : List Tree → Analysis → Analysis → Prop
  | [], s, s' => s' = s
  | t :: ts, s, s' => ∃ a s₁, (checkPart t).Gives s a s₁ ∧ Checks ts s₁ s'

theorem Checks.cons {s₁ : Analysis} (h : (check t).Gives s a s₁) (hs : Checks ts s₁ s') :
    Checks (t :: ts) s s' :=
  ⟨a, s₁, checkPart_gives h, hs⟩

/-- What is no label is checked by `checkAll`. -/
theorem Checks.all (hts : ∀ t ∈ ts, t.isLabel = false) (h : Checks ts s s') :
    (checkAll ts).Gives s () s' := by
  induction ts generalizing s with
  | nil => exact gives_pure.2 ⟨rfl, h⟩
  | cons t ts ih =>
    obtain ⟨ht, hts⟩ := List.forall_mem_cons.1 hts
    obtain ⟨a, s₁, hfirst, hrest⟩ := h
    rw [checkPart_eq ht] at hfirst
    exact gives_bind.2 ⟨a, s₁, hfirst, ih hts hrest⟩

theorem checkAll_checks {a : Unit} (h : (checkAll ts).Gives s a s') : Checks ts s s' := by
  induction ts generalizing s with
  | nil =>
    rw [checkAll, gives_pure] at h
    exact h.2
  | cons t ts ih =>
    rw [checkAll, gives_bind] at h
    obtain ⟨_, s₁, ht, hts⟩ := h
    exact .cons ht (ih hts)

theorem checkLast_checks {r : Typing} (h : (checkLast r ts).Gives s a s') : Checks ts s s' := by
  induction ts generalizing s r with
  | nil =>
    rw [checkLast, gives_pure] at h
    exact h.2
  | cons t ts ih =>
    rw [checkLast, gives_bind] at h
    obtain ⟨_, s₁, ht, hts⟩ := h
    exact .cons ht (ih hts)

theorem checkEach_checks {rs : List Typing} (h : (checkEach ts).Gives s rs s') :
    Checks ts s s' ∧ rs.length = ts.length := by
  induction ts generalizing s rs with
  | nil =>
    rw [checkEach, gives_pure] at h
    obtain ⟨rfl, rfl⟩ := h
    exact ⟨rfl, rfl⟩
  | cons t ts ih =>
    simp only [checkEach, gives_bind, gives_pure] at h
    obtain ⟨_, s₁, ht, rs, _, hts, rfl, rfl⟩ := h
    obtain ⟨hchecks, hlen⟩ := ih hts
    exact ⟨.cons ht hchecks, congrArg (· + 1) hlen⟩

theorem checkArgs_checks {params : List Typing} {r : List Typing × List Typing}
    (h : (checkArgs params ts).Gives s r s') : Checks ts s s' := by
  induction ts generalizing s r params with
  | nil =>
    rw [checkArgs, gives_pure] at h
    exact h.2
  | cons t ts ih =>
    rw [checkArgs, gives_bind] at h
    obtain ⟨_, s₁, ht, hts⟩ := h
    refine .cons ht ?_
    cases params with
    | nil => exact (gives_fail.1 hts).elim
    | cons p params =>
      simp only [gives_bind, gives_ofExcept, gives_pure] at hts
      obtain ⟨_, _, ⟨_, rfl⟩, _, _, hts, _, rfl⟩ := hts
      exact ih hts

/-- A function is declared before its parameters, which are then known in its body. -/
theorem gives_function {b : Tree} {f : String} {ps : List Tree} {n : Nat}
    (h : (check (.function t f ps b n)).Gives s a s') :
    ∃ type level g gs rs s₁ s₂ r s₃, t.type? = some type ∧ s.tables = g :: gs ∧
      SymbolTable.lookup? s.tables f = none ∧
      Checks ps { s with
        tables := ⟨f, level, []⟩ :: g.insert (.function f (some type) (some [])) :: gs } s₁ ∧
      rs.length = ps.length ∧
      (insertOutside (.function f (some type) (some rs))).Gives s₁ () s₂ ∧
      (check b).Gives s₂ r s₃ ∧ s' = { s₃ with tables := s₃.tables.tail } ∧
      Opens (.function t f ps b n) s b s₂ := by
  simp only [check, gives_bind, gives_guard, gives_pure, gives_get, gives_typeOf] at h
  obtain ⟨_, _, hr, hnew, type, _, ⟨htype, rfl⟩, _, s₂, hinsert, _, _, ⟨rfl, rfl⟩, _, s₃, h, _,
    rfl⟩ := h
  obtain ⟨rfl, rfl⟩ := gives_lookup hr
  have hnone := Option.not_isSome_iff_eq_none.1 hnew
  obtain ⟨s₄, hin, rfl⟩ := gives_within h
  simp only [gives_bind, gives_pure] at hin
  obtain ⟨rs, s₅, hparams, _, s₆, houtside, r, _, hbody, _, rfl⟩ := hin
  have hopens := Opens.functionBody (b := b) (n := n) hnone htype hinsert hparams houtside
  obtain ⟨g, gs, htables, rfl⟩ := gives_insert hinsert
  obtain ⟨hchecks, hlen⟩ := checkEach_checks hparams
  exact ⟨type, _, g, gs, rs, s₅, s₆, r, s₄, htype, htables, hnone, hchecks, hlen, houtside, hbody,
    rfl, hopens⟩

theorem gives_checkChild {subject : Typing} {line : Nat} {seen : Bool} {a : Unit}
    (h : (checkChild subject line seen t).Gives s a s') :
    (∃ a, (checkPart t).Gives s a s') ∧ (seen = true → t.isLabel = false) := by
  cases t with
  | defaultLabel n =>
    simp only [checkChild, gives_ite, gives_reject, and_false, false_or] at h
    exact ⟨⟨_, gives_pure.2 ⟨rfl, (gives_pure.1 h.2).2⟩⟩, fun hs => absurd hs h.1⟩
  | caseLabel v n =>
    simp only [checkChild, gives_guard, gives_bind] at h
    obtain ⟨hseen, t, s₁, hv, h⟩ := h
    simp only [gives_ite, gives_fail, gives_pure, and_false, or_false] at h
    obtain ⟨-, -, rfl⟩ := h
    exact ⟨⟨t, hv⟩, fun hs => absurd hs hseen⟩
  | _ =>
    obtain ⟨t, s₁, ht, hpure⟩ := gives_bind.1 h
    obtain ⟨-, rfl⟩ := gives_pure.1 hpure
    exact ⟨⟨t, checkPart_gives ht⟩, fun _ => rfl⟩

/-- A switch whose children pass has no label behind its default label, and no label at all if a
default label has been seen before. -/
theorem checkCases_checks {subject : Typing} {line : Nat} {seen : Bool} {a : Unit}
    (h : (checkCases subject line seen cs).Gives s a s') :
    Checks cs s s' ∧ (cs.Pairwise fun t u => t.isDefault = true → u.isLabel = false) ∧
      (seen = true → ∀ t ∈ cs, t.isLabel = false) := by
  induction cs generalizing s seen with
  | nil =>
    rw [checkCases, gives_pure] at h
    exact ⟨h.2, .nil, fun _ => List.forall_mem_nil _⟩
  | cons c cs ih =>
    rw [checkCases_cons, gives_bind] at h
    obtain ⟨_, s₁, hchild, h⟩ := h
    obtain ⟨⟨t, hc⟩, hlabel⟩ := gives_checkChild hchild
    obtain ⟨hchecks, hpair, hlabels⟩ := ih h
    refine ⟨⟨t, s₁, hc, hchecks⟩, List.pairwise_cons.2 ⟨fun u hu hd => ?_, hpair⟩, fun hs => ?_⟩
    · exact hlabels (by rw [hd, Bool.or_true]) u hu
    · exact List.forall_mem_cons.2 ⟨hlabel hs, hlabels (by rw [hs, Bool.true_or])⟩

/-- The first children of a switch pass by themselves. -/
theorem checkCases_front {subject : Typing} {line : Nat} {seen : Bool} {a : Unit}
    {front rest : List Tree} {s₁ : Analysis}
    (h : (checkCases subject line seen (front ++ rest)).Gives s a s') (hfront : Checks front s s₁) :
    (checkCases subject line seen front).Gives s () s₁ := by
  induction front generalizing s seen with
  | nil => exact gives_pure.2 ⟨rfl, hfront⟩
  | cons c front ih =>
    obtain ⟨_, s₂, hc, hfront⟩ := hfront
    rw [List.cons_append, checkCases_cons, gives_bind] at h
    obtain ⟨_, s₃, hchild, h⟩ := h
    obtain ⟨⟨_, hc'⟩, -⟩ := gives_checkChild hchild
    cases hc.symm.trans hc'
    rw [checkCases_cons]
    exact gives_bind.2 ⟨_, s₂, hchild, ih h hfront⟩

/-- What is called is a function, and a call has its type. The arguments are checked one after the
other. -/
theorem gives_call {f : String} {n : Nat} (h : (check (.call f ts n)).Gives s a s') :
    ∃ g type params, SymbolTable.lookup? s.tables f = some (.function g type params) ∧
      a = type.elim .nothing Typing.type ∧ (∀ ps ∈ params, ts.length = ps.length) ∧
      ∃ s₁, Checks ts s s₁ ∧ s₁.Same s' := by
  rw [check, gives_bind] at h
  obtain ⟨r, s₁, hr, h⟩ := h
  obtain ⟨hlookup, rfl⟩ := gives_lookup hr
  split at h
  · next g type params =>
    refine ⟨g, type, params, hlookup.symm, ?_⟩
    cases params with
    | none =>
      simp only [gives_bind, gives_pure] at h
      obtain ⟨_, s₂, h, ha, rfl⟩ := h
      exact ⟨ha, nofun, s', checkAll_checks h, .refl s'⟩
    | some params =>
      simp only [gives_guard, gives_bind] at h
      obtain ⟨hlen, _, s₂, hargs, h⟩ := h
      obtain ⟨ha, hsame⟩ := gives_warnUnless h
      refine ⟨ha, ?_, s₂, checkArgs_checks hargs, hsame⟩
      rintro _ ⟨⟩
      simpa using hlen
  · exact (gives_reject.1 h).elim
  · exact (gives_reject.1 h).elim

/-- A tree without a scope, loop or switch of its own has its parts checked in order. -/
theorem checks_of_gives (ht : t.isFlat = true) (h : (check t).Gives s a s') :
    ∃ s₁, Checks t.checked s s₁ ∧ s₁.Same s' := by
  cases t with
  | noOp | string =>
    obtain ⟨_, rfl⟩ := gives_pure.1 h
    exact ⟨s', rfl, .refl s'⟩
  | num | typeName =>
    obtain ⟨_, rfl⟩ := gives_ofExcept.1 h
    exact ⟨s', rfl, .refl s'⟩
  | var =>
    obtain ⟨r, _, hr, hfound⟩ := gives_bind.1 h
    obtain ⟨_, rfl⟩ := gives_lookup hr
    split at hfound
    · obtain ⟨_, rfl⟩ := gives_pure.1 hfound
      exact ⟨s', rfl, .refl s'⟩
    · exact (gives_reject.1 hfound).elim
  | structName =>
    obtain ⟨_, _, _, _, _, rfl⟩ := gives_structType h
    exact ⟨s', rfl, .refl s'⟩
  | field =>
    obtain ⟨_, _, _, _, rfl⟩ := gives_fieldType h
    exact ⟨s', rfl, .refl s'⟩
  | breaking | continuing =>
    simp only [check, gives_bind, gives_get, gives_guard, gives_pure] at h
    obtain ⟨_, _, ⟨rfl, rfl⟩, _, _, rfl⟩ := h
    exact ⟨s', rfl, .refl s'⟩
  | unary | cast =>
    simp only [check, gives_bind, gives_ofExcept] at h
    obtain ⟨_, s₁, he, _, rfl⟩ := h
    exact ⟨s', .cons he rfl, .refl s'⟩
  | binary =>
    simp only [check, gives_bind, gives_ofExcept] at h
    obtain ⟨_, s₁, hx, _, s₂, hy, _, rfl⟩ := h
    exact ⟨s', .cons hx (.cons hy rfl), .refl s'⟩
  | ternary =>
    simp only [check, gives_bind] at h
    obtain ⟨_, s₁, hc, _, s₂, hx, _, s₃, hy, h⟩ := h
    exact ⟨s₃, .cons hc (.cons hx (.cons hy rfl)), (gives_warnUnless h).2⟩
  | assign =>
    simp only [check, gives_bind, gives_ofExcept, gives_pure] at h
    obtain ⟨_, s₁, ht, _, s₂, he, ⟨_, w⟩, _, ⟨_, rfl⟩, _, s₃, hw, _, rfl⟩ := h
    refine ⟨_, .cons ht (.cons he rfl), ?_⟩
    cases w with
    | none => exact (gives_pure.1 hw).2 ▸ .refl s'
    | some w => exact same_warn hw
  | sequence => exact ⟨s', checkLast_checks h, .refl s'⟩
  | call =>
    obtain ⟨_, _, _, _, _, _, hargs⟩ := gives_call h
    exact hargs
  | ifElse =>
    simp only [check, gives_bind, gives_pure] at h
    obtain ⟨_, s₁, hc, _, s₂, hx, _, s₃, hy, _, rfl⟩ := h
    exact ⟨s', .cons hc (.cons hx (.cons hy rfl)), .refl s'⟩
  | returning => exact ⟨s', .cons h rfl, .refl s'⟩
  | body =>
    obtain ⟨_, s₁, h, hpure⟩ := gives_bind.1 h
    obtain ⟨_, rfl⟩ := gives_pure.1 hpure
    exact ⟨s', checkAll_checks h, .refl s'⟩
  | _ => cases ht

/-- The check of a flat tree comes to each of its parts. -/
theorem Opens.ofFlat {u : Tree} {s₁ : Analysis} {front rest : List Tree} (ht : t.isFlat = true)
    (h : (check t).Gives s a s') (hsplit : t.checked = front ++ u :: rest)
    (hfront : (checkAll front).Gives s () s₁) : Opens t s u s₁ := by
  cases t with
  | call =>
    obtain ⟨g, type, params, hlookup, -, hlen, -⟩ := gives_call h
    obtain rfl : _ = front ++ u :: rest := hsplit
    exact .argument hlookup hlen hfront
  | _ => exact .inOrder hsplit hfront

end Analysis

/-! ## Tables and environments -/

def Symbol.meaning : Symbol → Meaning
  | var .. => .object
  | constant .. => .constant
  | struct .. => .tag
  | function _ _ params => .function (params.map List.length)

namespace SymbolTable

def Describes (t : SymbolTable) (c : List Declaration) : Prop :=
  ∀ name, (t.find? name).map Symbol.meaning =
    (c.find? (·.name = name)).map Declaration.meaning

theorem describes_empty (name : String) (level : Nat) : Describes ⟨name, level, []⟩ [] :=
  fun _ => rfl

theorem Describes.insert {t : SymbolTable} (h : t.Describes c) (hname : d.name = y.name)
    (hd : d.meaning = y.meaning) : (t.insert y).Describes (d :: c) := by
  intro name
  by_cases hn : y.name = name
  · have hfind : (d :: c).find? (·.name = name) = some d := by
      rw [List.find?_cons_of_pos]
      exact decide_eq_true (hname.trans hn)
    rw [hfind, ← hn, find?_insert_self, Option.map_some, Option.map_some, hd]
  · have hfind : (d :: c).find? (·.name = name) = c.find? (·.name = name) := by
      rw [List.find?_cons_of_neg]
      simpa using fun he => hn (hname.symm.trans he)
    rw [hfind, find?_insert_of_ne t y hn]
    exact h name

/-- A symbol takes the place of one of the same name. -/
theorem Describes.replace {t : SymbolTable} (h : t.Describes (d :: c)) {e : Declaration}
    (hd : d.name = y.name) (he : e.name = y.name) (hy : e.meaning = y.meaning) :
    (t.insert y).Describes (e :: c) := by
  intro name
  have hinsert := h.insert he hy name
  rw [hinsert]
  by_cases hn : e.name = name
  · simp [List.find?_cons_of_pos, hn]
  · have hdn : d.name ≠ name := fun h' => hn (he.trans (hd.symm.trans h'))
    simp [List.find?_cons_of_neg, hn, hdn]

/-- A symbol of a new name goes behind the others. -/
theorem Describes.append {t : SymbolTable} (h : t.Describes c) (hnew : t.find? y.name = none)
    (hname : d.name = y.name) (hd : d.meaning = y.meaning) : (t.insert y).Describes (c ++ [d]) := by
  intro name
  rw [h.insert hname hd name, List.find?_append]
  by_cases hn : d.name = name
  · have hnone : c.find? (·.name = name) = none := by
      have hc := h name
      rwa [← hn, hname, hnew, Option.map_none, eq_comm, Option.map_eq_none_iff, ← hname, hn] at hc
    simp [hnone, hn]
  · simp [hn]

/-- A declaration behind one of the same name is not seen. -/
theorem Describes.hidden {t : SymbolTable} (h : t.Describes c) (hd : t.find? d.name ≠ none) :
    t.Describes (c ++ [d]) := by
  intro name
  rw [h name, List.find?_append]
  by_cases hn : d.name = name
  · have hsome : c.find? (·.name = name) ≠ none := by
      intro hnone
      have hc := h name
      rw [hnone, Option.map_none, Option.map_eq_none_iff, ← hn] at hc
      exact hd hc
    obtain ⟨e, he⟩ := Option.ne_none_iff_exists'.1 hsome
    rw [he, Option.some_or]
  · simp [hn]

theorem Describes.not_mem {t : SymbolTable} (h : t.Describes c) (hname : t.find? name = none) :
    name ∉ namesOf c := by
  intro hmem
  obtain ⟨d, hd, rfl⟩ := List.mem_map.1 hmem
  have hnone := h d.name
  rw [hname, Option.map_none, eq_comm, Option.map_eq_none_iff, List.find?_eq_none] at hnone
  exact hnone d hd (decide_eq_true rfl)

/-- What tables give for a name is what the environment says of it. -/
theorem lookup?_meaning {ts : List SymbolTable} {Γ : Env} (h : List.Forall₂ Describes ts Γ)
    (name : String) :
    (lookup? ts name).map Symbol.meaning = (Γ.find? name).map Declaration.meaning := by
  induction h with
  | nil => rfl
  | @cons t c ts Γ ht _ ih =>
    have hc := ht name
    simp only [lookup?, Env.find?, List.findSome?_cons] at ih ⊢
    cases hfind : c.find? (·.name = name) with
    | none =>
      rw [hfind, Option.map_none, Option.map_eq_none_iff] at hc
      rw [hc]
      exact ih
    | some d =>
      rw [hfind] at hc
      obtain ⟨y, hy, _⟩ := Option.map_eq_some_iff.1 hc
      rw [hy] at hc ⊢
      exact hc

end SymbolTable

namespace Analysis

structure At (s : Analysis) (p : Place) : Prop where
  tables : List.Forall₂ SymbolTable.Describes s.tables p.env
  loops : s.loops = 0 ↔ p.inLoop = false
  switches : s.switches = 0 ↔ p.inSwitch = false

/-- What is checked of a tree has a property in a state. Of a label it is the value. -/
def Arrives (A : Tree → Analysis → Prop) (t : Tree) (s : Analysis) : Prop :=
  ∀ u ∈ t.unlabelled, A u s

theorem arrives_iff {A : Tree → Analysis → Prop} (ht : t.isLabel = false) :
    Arrives A t s ↔ A t s := by
  rw [Arrives, Tree.unlabelled_eq ht, List.forall_mem_singleton]

theorem arrives_caseLabel {A : Tree → Analysis → Prop} {v : Tree} {n : Nat} :
    Arrives A (.caseLabel v n) s ↔ A v s :=
  List.forall_mem_singleton

def Carried (A : Tree → Analysis → Prop) : Prop :=
  ∀ ⦃t s u s₁⦄, Opens t s u s₁ → A t s → A u s₁

theorem At.find? {p : Place} (hs : s.At p) (h : SymbolTable.lookup? s.tables name = some y) :
    ∃ d, p.env.find? name = some d ∧ d.meaning = y.meaning := by
  have hlookup := SymbolTable.lookup?_meaning hs.tables name
  rw [h, Option.map_some, eq_comm] at hlookup
  exact Option.map_eq_some_iff.1 hlookup

end Analysis

/-- A place is fine, and the analysis gets there in a state of which `A` holds, and goes on. -/
def Place.Accepted (A : Tree → Analysis → Prop) (p : Place) : Prop :=
  p.Fine ∧ ∃ s a s', Analysis.At s p ∧ Analysis.Arrives A p.tree s ∧
    (Analysis.checkPart p.tree).Gives s a s'

/-- Places have been passed by the analysis. They declare `ds`, and the environment `Γ'` is behind
them if `Γ` is before them. -/
structure Passed (A : Tree → Analysis → Prop) (s : Analysis) (Γ : Env) (ps : List Place)
    (ds : List Declaration) (Γ' : Env) (s' : Analysis) : Prop where
  accepted : ∀ p ∈ ps, ∀ q, p.Occurs .executed q → q.Accepted A
  fresh : ∀ es, Γ'.Fresh es → Γ.Fresh (ds ++ es)
  tables : List.Forall₂ SymbolTable.Describes s'.tables Γ'
  loops : s'.loops = s.loops
  switches : s'.switches = s.switches

namespace Passed

variable {A : Tree → Analysis → Prop} {s s₁ s' : Analysis} {Γ Γ₁ Γ' : Env} {ps qs : List Place}
  {ds es : List Declaration}

theorem nil (hs : List.Forall₂ SymbolTable.Describes s.tables Γ) : Passed A s Γ [] [] Γ s :=
  ⟨List.forall_mem_nil _, fun _ => id, hs, rfl, rfl⟩

theorem same (h : Passed A s Γ ps ds Γ' s₁) (hs : s₁.Same s') : Passed A s Γ ps ds Γ' s' :=
  ⟨h.accepted, h.fresh, hs.tables ▸ h.tables, hs.loops.trans h.loops, hs.switches.trans h.switches⟩

theorem declareNone (h : Passed A s Γ ps ds Γ' s') : Passed A s Γ ps ds (Γ'.declare []) s' := by
  rwa [Env.declare_nil]

theorem append (h : Passed A s Γ ps ds Γ₁ s₁) (h' : Passed A s₁ Γ₁ qs es Γ' s') :
    Passed A s Γ (ps ++ qs) (ds ++ es) Γ' s' where
  accepted p hp := (List.mem_append.1 hp).elim (h.accepted p) (h'.accepted p)
  fresh es' hes := by
    rw [List.append_assoc]
    exact h.fresh _ (h'.fresh es' hes)
  tables := h'.tables
  loops := h'.loops.trans h.loops
  switches := h'.switches.trans h.switches

/-- A place whose parts have been passed. -/
theorem node {p : Place} (hfine : p.Fine) (hs : s.At p) (hself : Analysis.Arrives A p.tree s)
    (hgives : (Analysis.checkPart p.tree).Gives s a s') (h : Passed A s Γ ps ds Γ' s')
    (hparts : ∀ q ∈ p.parts .executed, q ∈ ps) : Passed A s Γ [p] ds Γ' s' := by
  refine ⟨?_, h.fresh, h.tables, h.loops, h.switches⟩
  intro q hq r hr
  obtain rfl := List.mem_singleton.1 hq
  cases hr with
  | self => exact ⟨hfine, s, a, s', hs, hself, hgives⟩
  | part hq hr => exact h.accepted _ (hparts _ hq) r hr

/-- The state of the analysis behind places that have been passed. -/
theorem at_behind {l w : Bool} (h : Passed A s Γ ps ds Γ' s') (hs : s.At ⟨Γ, l, w, t⟩) (u : Tree) :
    s'.At ⟨Γ', l, w, u⟩ := by
  refine ⟨h.tables, ?_, ?_⟩
  · rw [h.loops]
    exact hs.loops
  · rw [h.switches]
    exact hs.switches

/-- A name is declared that is new in its scope. -/
theorem declare {t : SymbolTable} {ts : List SymbolTable}
    (hs : List.Forall₂ SymbolTable.Describes s.tables Γ) (htables : s.tables = t :: ts)
    (hnew : t.find? y.name = none) (hname : d.name = y.name) (hd : d.meaning = y.meaning) :
    Passed A s Γ [] [d] (Γ.declare [d]) { s with tables := t.insert y :: ts } := by
  rw [htables] at hs
  cases hs with
  | @cons _ c _ Γ ht hts =>
    refine ⟨List.forall_mem_nil _, fun es hes => ?_, .cons (ht.insert hname hd) hts, rfl, rfl⟩
    refine Env.Fresh.cons (fun c' hc' => ?_) hes
    obtain rfl := Option.some.inj hc'
    rw [hname]
    exact ht.not_mem hnew

theorem inLoop (h : Passed A { s with loops := s.loops + 1 } Γ ps ds Γ' s₁) :
    Passed A s Γ ps ds Γ' { s₁ with loops := s₁.loops - 1 } := by
  refine ⟨h.accepted, h.fresh, h.tables, ?_, h.switches⟩
  change s₁.loops - 1 = s.loops
  rw [h.loops, Nat.add_sub_cancel]

theorem inSwitch (h : Passed A { s with switches := s.switches + 1 } Γ ps ds Γ' s₁) :
    Passed A s Γ ps ds Γ' { s₁ with switches := s₁.switches - 1 } := by
  refine ⟨h.accepted, h.fresh, h.tables, h.loops, ?_⟩
  change s₁.switches - 1 = s.switches
  rw [h.switches, Nat.add_sub_cancel]

/-- What is passed in a scope of its own declares nothing around it. -/
theorem enclosed {t : SymbolTable}
    (h : Passed A { s with tables := t :: s.tables } ([] :: Γ) ps ds (c :: Γ) s₁) :
    Passed A s Γ ps [] Γ { s₁ with tables := s₁.tables.tail } := by
  refine ⟨h.accepted, fun _ => id, ?_, h.loops, h.switches⟩
  obtain ⟨u, us, _, hus, htables⟩ := List.forall₂_cons_right_iff.1 h.tables
  change List.Forall₂ SymbolTable.Describes s₁.tables.tail Γ
  rw [htables]
  exact hus

/-- The names that are declared in a new scope differ. -/
theorem nodup (h : Passed A s ([] :: Γ) ps ds Γ' s') : (namesOf ds).Nodup := by
  have hfresh := h.fresh [] Γ'.fresh_nil
  rw [List.append_nil] at hfresh
  exact hfresh.1

end Passed

def Place.Passes (p : Place) : Prop :=
  ∀ ⦃A : Tree → Analysis → Prop⦄ ⦃s s' : Analysis⦄ ⦃a : Typing⦄, Analysis.Carried A → s.At p →
    Analysis.Arrives A p.tree s → (Analysis.checkPart p.tree).Gives s a s' →
    Passed A s p.env [p] p.tree.declarations (p.env.after p.tree) s'

def Tree.Passes (t : Tree) : Prop :=
  ∀ Γ l w, Place.Passes ⟨Γ, l, w, t⟩

namespace Analysis

variable {A : Tree → Analysis → Prop} {p : Place}

theorem Checks.passed (hts : ∀ q ∈ p.each ts, q.Passes) (hA : Carried A) (hs : s.At p)
    (hfront : ∀ front t rest s₁, ts = front ++ t :: rest → Checks front s s₁ → Arrives A t s₁)
    (h : Checks ts s s') :
    Passed A s p.env (p.each ts) (declarationsOf ts) (p.env.afterAll ts) s' := by
  induction ts generalizing p s with
  | nil =>
    obtain rfl : s' = s := h
    exact .nil hs.tables
  | cons t ts ih =>
    obtain ⟨ht, hts⟩ := List.forall_mem_cons.1 hts
    obtain ⟨a, s₁, hgives, hchecks⟩ := h
    have hfirst := ht hA ⟨hs.tables, hs.loops, hs.switches⟩ (hfront [] t ts s rfl rfl) hgives
    refine hfirst.append (ih hts (hfirst.at_behind hs p.tree) (fun front u rest s₂ hsplit hc => ?_)
      hchecks)
    exact hfront (t :: front) u rest s₂ (congrArg _ hsplit) ⟨a, s₁, hgives, hc⟩

/-- Trees that are no labels are passed one after the other. -/
theorem Checks.passed_all (hts : ∀ q ∈ p.each ts, q.Passes) (hlabels : ∀ t ∈ ts, t.isLabel = false)
    (hA : Carried A) (hs : s.At p)
    (hfront : ∀ front t rest s₁, ts = front ++ t :: rest → (checkAll front).Gives s () s₁ → A t s₁)
    (h : Checks ts s s') :
    Passed A s p.env (p.each ts) (declarationsOf ts) (p.env.afterAll ts) s' := by
  refine h.passed hts hA hs fun front t rest s₁ hsplit hc => ?_
  rw [hsplit, List.forall_mem_append, List.forall_mem_cons] at hlabels
  exact (arrives_iff hlabels.2.1).2 (hfront front t rest s₁ hsplit (hc.all hlabels.1))

end Analysis

theorem Tree.Passes.each (hts : ∀ t ∈ ts, t.Passes) (p : Place) : ∀ q ∈ p.each ts, q.Passes := by
  induction ts generalizing p with
  | nil => exact List.forall_mem_nil _
  | cons t ts ih =>
    obtain ⟨ht, hts⟩ := List.forall_mem_cons.1 hts
    exact List.forall_mem_cons.2 ⟨ht p.env p.inLoop p.inSwitch, ih hts _⟩

theorem Tree.Passes.ofFlat {k : Category} (hg : t.Grammatical k) (ht : t.isFlat = true)
    (hplain : ∀ u ∈ t.checked, u.Plain) (hpass : ∀ u ∈ t.checked, u.Passes)
    (hds : t.declarations = declarationsOf t.checked)
    (hfine : ∀ ⦃Γ l w s s' a⦄, Analysis.At s ⟨Γ, l, w, t⟩ → (Analysis.check t).Gives s a s' →
      Place.Fine ⟨Γ, l, w, t⟩) : t.Passes := by
  intro Γ l w A s s' a hA hs hself hgives
  have hparts : Place.parts .executed ⟨Γ, l, w, t⟩ = Place.each ⟨Γ, l, w, t⟩ t.checked ∧
      Γ.after t = Γ.declare t.declarations ∧ t.isLabel = false ∧ ∀ e cs n, t ≠ .switch e cs n := by
    cases t <;> first | exact ⟨rfl, rfl, rfl, nofun⟩ | cases ht
  obtain ⟨hparts, hafter, hlabel, hswitch⟩ := hparts
  have hcheck := Analysis.checkPart_eq hlabel ▸ hgives
  obtain ⟨s₁, hchecks, hsame⟩ := Analysis.checks_of_gives ht hcheck
  have hlabels (u : Tree) (hu : u ∈ t.checked) : u.isLabel = false :=
    hg.part_not_isLabel (t.checked_subset_parts hu) fun e cs n h => absurd h (hswitch e cs n)
  have hpassed := hchecks.passed_all (each hpass _) hlabels hA hs fun _ _ _ _ hsplit hfront =>
    hA (.ofFlat ht hcheck hsplit hfront) ((Analysis.arrives_iff hlabel).1 hself)
  rw [Env.afterAll_eq hplain, ← hds, ← hafter] at hpassed
  exact .node (hfine hs hcheck) hs hself hgives (hpassed.same hsame) fun q hq => hparts ▸ hq

namespace Tree.Passes

open Check Analysis

variable {A : Tree → Analysis → Prop}

/-! ## Expressions -/

/-- An expression whose check succeeds is fine. -/
theorem fine_expression (ht : t.Grammatical .expression) {Γ : Env} {l w : Bool}
    (hs : s.At ⟨Γ, l, w, t⟩) (h : (check t).Gives s a s') : Place.Fine ⟨Γ, l, w, t⟩ := by
  have found {name : String} {y : Symbol} (h : SymbolTable.lookup? s.tables name = some y) :
      (Γ.find? name).isSome = true :=
    have ⟨d, hd, _⟩ := hs.find? h
    Option.isSome_iff_exists.2 ⟨d, hd⟩
  cases ht with
  | var k n =>
    obtain ⟨r, _, hr, hfound⟩ := gives_bind.1 h
    obtain ⟨hlookup, -⟩ := gives_lookup hr
    cases r with
    | none => exact (gives_reject.1 hfound).elim
    | some y => exact found hlookup.symm
  | field =>
    obtain ⟨_, y, ⟨⟩, hlookup, -⟩ := gives_fieldType h
    exact found hlookup
  | call f =>
    obtain ⟨g, type, params, hlookup, -, hlen, -⟩ := gives_call h
    obtain ⟨d, hd, hden⟩ := hs.find? hlookup
    have hfind : (Γ.find? f).map Declaration.meaning =
        some (.function (params.map List.length)) := by
      rw [hd, Option.map_some, hden]
      rfl
    cases params with
    | none => exact .inl hfind
    | some ps =>
      refine .inr ?_
      rw [hfind, Option.map_some, hlen ps rfl]
  | _ => trivial

theorem ofExpression (ht : t.Grammatical .expression)
    (hts : ∀ u ∈ t.checked, u.Grammatical .expression) (hpass : ∀ u ∈ t.checked, u.Passes) :
    t.Passes := by
  refine ofFlat ht (by cases ht <;> rfl) (fun u hu => (hts u hu).plain nofun) hpass ?_
    fun _ _ _ _ _ _ => fine_expression ht
  rw [ht.declarations_eq_nil, declarationsOf_eq_nil fun u hu => (hts u hu).declarations_eq_nil]

theorem leaf (ht : t.Grammatical .expression) (hts : t.checked = []) : t.Passes :=
  ofExpression ht (hts ▸ List.forall_mem_nil _) (hts ▸ List.forall_mem_nil _)

/-! ## Statements -/

theorem noOp (n : Nat) : Passes (.noOp n) :=
  ofFlat (.absentExpression n) rfl (List.forall_mem_nil _) (List.forall_mem_nil _) rfl
    fun _ _ _ _ _ _ _ _ => trivial

/-- A part that declares nothing. -/
theorem silent (ht : t.Grammatical .optional) (hp : t.Passes) (hA : Carried A) {Γ : Env}
    {l w : Bool} {u : Tree} (hs : s.At ⟨Γ, l, w, u⟩) (hself : A t s) (h : (check t).Gives s a s') :
    Passed A s Γ [⟨Γ, l, w, t⟩] [] Γ s' := by
  have hpassed := hp Γ l w hA ⟨hs.tables, hs.loops, hs.switches⟩
    ((arrives_iff (ht.not_isLabel (by decide))).2 hself) (checkPart_gives h)
  rwa [ht.plain nofun, ht.optional_declarations, Env.declare_nil] at hpassed

theorem silent_all (hts : ∀ t ∈ ts, t.Grammatical .optional) (hp : ∀ t ∈ ts, t.Passes)
    (hA : Carried A) {p : Place} (hs : s.At p)
    (hfront : ∀ front t rest s₁, ts = front ++ t :: rest → (checkAll front).Gives s () s₁ → A t s₁)
    (h : (checkAll ts).Gives s () s') : Passed A s p.env (p.each ts) [] p.env s' := by
  have hpassed := (checkAll_checks h).passed_all (each hp p)
    (fun t ht => (hts t ht).not_isLabel (by decide)) hA hs hfront
  rwa [Env.afterAll_eq fun t ht => (hts t ht).plain nofun,
    declarationsOf_eq_nil fun t ht => (hts t ht).optional_declarations, Env.declare_nil] at hpassed

theorem ifElse {c x y : Tree} (n : Nat) (hc : c.Grammatical .expression)
    (hx : x.Grammatical .statement) (hy : y.Grammatical .statement) (hpc : c.Passes)
    (hpx : x.Passes) (hpy : y.Passes) : Passes (.ifElse c x y n) := by
  refine ofFlat (.ifElse n hc hx hy) rfl (by simp [checked, inOrder, hc.plain, hx.plain, hy.plain])
    (by simp [checked, inOrder, hpc, hpx, hpy]) ?_ fun _ _ _ _ _ _ _ _ => trivial
  simp only [Tree.declarations, declarationsOf, checked, inOrder, hc.declarations_eq_nil,
    List.nil_append, List.append_nil]

theorem returning {v : Tree} (n : Nat) (hv : v.Grammatical .optional) (hpv : v.Passes) :
    Passes (.returning v n) := by
  refine ofFlat (.returning n hv) rfl (by simp [checked, inOrder, hv.plain])
    (by simp [checked, inOrder, hpv]) ?_ fun _ _ _ _ _ _ _ _ => trivial
  simp only [Tree.declarations, declarationsOf, checked, inOrder, hv.optional_declarations,
    List.append_nil]

theorem breaking (n : Nat) : Passes (.breaking n) := by
  refine ofFlat (.breaking n) rfl (List.forall_mem_nil _) (List.forall_mem_nil _) rfl
    fun Γ l w s s' a hs h => ?_
  simp only [check, gives_bind, gives_get, gives_guard, gives_pure] at h
  obtain ⟨_, _, ⟨rfl, rfl⟩, hcount, _, rfl⟩ := h
  change l = true ∨ w = true
  rw [hs.loops, hs.switches] at hcount
  cases l with
  | true => exact .inl rfl
  | false => exact .inr (by simpa using hcount)

theorem continuing (n : Nat) : Passes (.continuing n) := by
  refine ofFlat (.continuing n) rfl (List.forall_mem_nil _) (List.forall_mem_nil _) rfl
    fun Γ l w s s' a hs h => ?_
  simp only [check, gives_bind, gives_get, gives_guard, gives_pure] at h
  obtain ⟨_, _, ⟨rfl, rfl⟩, hcount, _, rfl⟩ := h
  rw [hs.loops] at hcount
  exact eq_true_of_ne_false hcount

theorem body (n : Nat) (hc : ∀ c ∈ cs, c.Grammatical .item) (hpc : ∀ c ∈ cs, c.Passes) :
    Passes (.body cs n) :=
  ofFlat (.body n hc) rfl (fun c hcs => (hc c hcs).plain nofun) hpc rfl
    fun _ _ _ _ _ _ _ _ => trivial

theorem block (n : Nat) (hc : ∀ c ∈ cs, c.Grammatical .item) (hpc : ∀ c ∈ cs, c.Passes) :
    Passes (.block cs n) := by
  intro Γ l w A s s' a hA hs hself hgives
  have h := hgives
  simp only [checkPart, check, gives_bind, gives_pure] at h
  obtain ⟨t, s₀, ht, _, s₁, h, _, rfl⟩ := h
  obtain ⟨name, level, rfl, rfl⟩ := gives_blockTable ht
  obtain ⟨s₂, hall, rfl⟩ := gives_within h
  have hin : At (s₀.enter ⟨name, level, []⟩) ⟨[] :: Γ, l, w, .block cs n⟩ :=
    ⟨.cons (SymbolTable.describes_empty name level) hs.tables, hs.loops, hs.switches⟩
  have hinner := (checkAll_checks hall).passed_all (each hpc _)
    (fun c hcs => (hc c hcs).not_isLabel (by decide)) hA hin fun front u rest s₁ hsplit hfront => by
      subst hsplit
      exact hA (.block ht hfront) ((arrives_iff rfl).1 hself)
  rw [Env.afterAll_eq fun c hcs => (hc c hcs).plain nofun] at hinner
  exact .node hinner.nodup hs hself hgives hinner.enclosed.declareNone fun q hq => hq

theorem parts_loop {b : Tree} (hloop : t.loopBody? = some b) (Γ : Env) (l w : Bool) :
    ∀ q ∈ Place.parts .executed ⟨Γ, l, w, t⟩, q ∈ Place.each ⟨Γ, l, w, t⟩ t.inOrder ++
      ([⟨Γ, true, w, b⟩] ++ Place.each ⟨Γ.after b, l, w, t⟩ t.behindBody?.toList) := by
  intro q hq
  cases t with
  | forLoop | whileLoop | doWhile =>
    obtain rfl := Option.some.inj hloop
    simp only [Place.parts, Place.here, Place.increment, Place.behind, Place.each, inOrder,
      behindBody?, Option.toList, List.cons_append, List.nil_append, List.append_nil, List.mem_cons,
      List.not_mem_nil, or_false] at hq ⊢
    tauto
  | _ => cases hloop

/-- A loop declares what its body declares. -/
theorem loop {b : Tree} (hloop : t.loopBody? = some b)
    (hg : ∀ u ∈ t.inOrder, u.Grammatical .optional) (hgb : b.Grammatical .statement)
    (hgl : ∀ u ∈ t.behindBody?, u.Grammatical .optional) (hp : ∀ u ∈ t.parts, u.Passes) :
    t.Passes := by
  intro Γ l w A s s' a hA hs hself hgives
  have htree : t.isLabel = false ∧ t.declarations = b.declarations ∧
      Γ.after t = Γ.declare b.declarations ∧ Place.Fine ⟨Γ, l, w, t⟩ := by
    cases t <;> first | cases hloop; exact ⟨rfl, rfl, rfl, trivial⟩ | cases hloop
  obtain ⟨hlabel, hds, hafter, hfine⟩ := htree
  have hroot := (arrives_iff hlabel).1 hself
  have h := hgives
  simp only [checkPart_eq hlabel, check_loop hloop, gives_bind, gives_pure] at h
  obtain ⟨_, s₁, hfront, _, _, hb, _, _, hbehind, _, rfl⟩ := h
  obtain ⟨s₂, hturn, rfl⟩ := gives_inLoop hb
  have hhead := silent_all hg (fun u hu => hp u (t.inOrder_subset_parts hu)) hA hs
    (fun _ _ _ _ hsplit hfirst => hA (.inOrder hsplit hfirst) hroot) hfront
  have hin : At s₁.enterLoop ⟨Γ, true, w, b⟩ :=
    ⟨hhead.tables, by simp [enterLoop], (hhead.at_behind hs b).switches⟩
  have hbody := (hp b (loopBody_mem_parts hloop) Γ true w hA hin
    ((arrives_iff (hgb.not_isLabel (by decide))).2 (hA (.loopBody hloop hfront) hroot))
    (checkPart_gives hturn)).inLoop
  have hcomes (front : List Tree) (u : Tree) (rest : List Tree) (s₃ : Analysis)
      (hsplit : t.behindBody?.toList = front ++ u :: rest)
      (hfirst : (checkAll front).Gives s₂.leaveLoop () s₃) : A u s₃ := by
    have hu : t.behindBody? = some u :=
      Option.mem_toList.1 (hsplit ▸ List.mem_append_right front (List.mem_cons_self ..))
    rw [hu, Option.toList, List.singleton_eq_append_iff] at hsplit
    obtain ⟨rfl, -⟩ | ⟨-, ⟨⟩⟩ := hsplit
    obtain ⟨-, rfl⟩ := gives_pure.1 hfirst
    exact hA (.behindBody hloop hu hfront hturn) hroot
  have hlast := silent_all (fun u hu => hgl u (Option.mem_toList.1 hu))
    (fun u hu => hp u (behindBody_mem_parts (Option.mem_toList.1 hu))) hA
    (hbody.at_behind (hhead.at_behind hs t) t) hcomes hbehind
  have hpassed := hhead.append (hbody.append hlast)
  rw [List.nil_append, List.append_nil, hgb.plain nofun, ← hafter, ← hds] at hpassed
  refine .node hfine hs hself hgives hpassed fun q hq => ?_
  rw [hafter, ← hgb.plain nofun]
  exact parts_loop hloop Γ l w q hq

theorem switch {e : Tree} (n : Nat) (he : e.Grammatical .expression)
    (hc : ∀ c ∈ cs, c.Grammatical .switchItem) (hpe : e.Passes) (hpc : ∀ c ∈ cs, c.Passes) :
    Passes (.switch e cs n) := by
  intro Γ l w A s s' a hA hs hself hgives
  have hroot := (arrives_iff rfl).1 hself
  have h := hgives
  simp only [checkPart, check, gives_bind, gives_pure] at h
  obtain ⟨_, s₁, he', _, s₂, h, _, rfl⟩ := h
  obtain ⟨s₃, hcases, rfl⟩ := gives_inSwitch h
  obtain ⟨hchecks, hlabels, _⟩ := checkCases_checks hcases
  have hopens : Opens (.switch e cs n) s e s :=
    .inOrder (List.nil_append [e]).symm (gives_pure.2 ⟨rfl, rfl⟩)
  have hsubject := silent (.ofExpression he) hpe hA hs (hA hopens hroot) he'
  have hin : At s₁.enterSwitch ⟨Γ, l, true, .switch e cs n⟩ :=
    ⟨hsubject.tables, (hsubject.at_behind hs e).loops, by simp [enterSwitch]⟩
  have hchildren := (hchecks.passed (each hpc _) hA hin fun front u rest s₂ hsplit hfront => by
    subst hsplit
    have hbefore := checkCases_front hcases hfront
    cases hu : u.isLabel with
    | false => exact (arrives_iff hu).2 (hA (.child he' hbefore hu) hroot)
    | true =>
      cases u with
      | defaultLabel => exact List.forall_mem_nil _
      | caseLabel v i =>
        refine arrives_caseLabel.2 (hA (.label he' hbefore ?_) hroot)
        rw [List.any_eq_false]
        intro c hcs hd
        exact Bool.false_ne_true
          ((List.pairwise_append.1 hlabels).2.2 c hcs _ (List.mem_cons_self ..) hd).symm
      | _ => cases hu).inSwitch
  rw [Env.afterAll_eq fun c hcs => (hc c hcs).plain nofun] at hchildren
  exact .node hlabels hs hself hgives (hsubject.append hchildren) fun q hq => hq

theorem caseLabel {v : Tree} (n : Nat) (hv : v.Grammatical .expression) (hpv : v.Passes) :
    Passes (.caseLabel v n) := by
  intro Γ l w A s s' a hA hs hself hgives
  have hpassed := silent (.ofExpression hv) hpv hA hs (arrives_caseLabel.1 hself) hgives
  exact .node trivial hs hself hgives hpassed.declareNone fun q hq => hq

theorem defaultLabel (n : Nat) : Passes (.defaultLabel n) := by
  intro Γ l w A s s' a hA hs hself hgives
  obtain ⟨_, rfl⟩ := gives_pure.1 hgives
  exact .node trivial hs hself hgives (Passed.nil hs.tables).declareNone fun q hq => hq

/-! ## Declarations -/

theorem varDecl (v : Token) (i n : Nat) (ht : t.Grammatical .typeName) :
    Passes (.varDecl (.var v i) t n) := by
  intro Γ l w A s s' a hA hs hself hgives
  have h := hgives
  simp only [checkPart, check, gives_bind, gives_nameOf, gives_typeOf, gives_pure] at h
  obtain ⟨_, s₁, htype, _, _, ⟨⟨⟩, rfl⟩, type, _, ⟨_, rfl⟩, _, s₃, hdeclare, _, rfl⟩ := h
  obtain ⟨rfl, htag⟩ := gives_typeName ht htype
  obtain ⟨u, us, htables, hnew, rfl⟩ := gives_declare hdeclare
  have hpassed := Passed.declare (A := A)
    (d := ⟨v.value.render, .object, .varDecl (.var v i) t n⟩) hs.tables htables hnew rfl rfl
  refine .node ?_ hs hself hgives hpassed fun q hq => hq
  cases ht with
  | typeName => trivial
  | structName st m =>
    obtain ⟨y, fields, hlookup⟩ := htag st m rfl
    obtain ⟨d, hd, hden⟩ := hs.find? hlookup
    change (Γ.find? st.name).map Declaration.meaning = some .tag
    rw [hd, Option.map_some, hden]
    rfl

theorem structDecl (name : String) (fields : Table VarType) (mark n : Nat) :
    Passes (.structDecl name fields mark n) := by
  intro Γ l w A s s' a hA hs hself hgives
  have h := hgives
  simp only [checkPart, check, declareStruct, gives_bind, gives_guard, gives_pure] at h
  obtain ⟨_, s₁, ⟨_, hdeclare⟩, _, rfl⟩ := h
  obtain ⟨u, us, htables, hnew, rfl⟩ := gives_declare hdeclare
  have hpassed := Passed.declare (A := A) (d := ⟨name, .tag, .structDecl name fields mark n⟩)
    hs.tables htables hnew rfl rfl
  exact .node trivial hs hself hgives hpassed fun q hq => hq

theorem param (v : Token) (i n : Nat) : Passes (.param t (.var v i) n) := by
  intro Γ l w A s s' a hA hs hself hgives
  have h := hgives
  simp only [checkPart, check, declareParam, gives_bind, gives_nameOf, gives_typeOf,
    gives_pure] at h
  obtain ⟨_, _, ⟨⟨⟩, rfl⟩, type, _, ⟨_, rfl⟩, _, s₁, hdeclare, _, rfl⟩ := h
  obtain ⟨u, us, htables, hnew, rfl⟩ := gives_declare hdeclare
  have hpassed := Passed.declare (A := A) (d := ⟨v.value.render, .object, .param t (.var v i) n⟩)
    hs.tables htables hnew rfl rfl
  exact .node trivial hs hself hgives hpassed fun q hq => hq

def inFunction : Category → Bool
  | .typeName | .topLevel | .program => false
  | _ => true

/-- What stands in functions passes. -/
theorem ofGrammatical {k : Category} (ht : t.Grammatical k) (hk : inFunction k = true) :
    t.Passes := by
  induction ht with
  | num k n => exact leaf (.num k n) rfl
  | string k n => exact leaf (.string k n) rfl
  | var k n => exact leaf (.var k n) rfl
  | field op b m i j n => exact leaf (.field op b m i j n) rfl
  | binary op n ho hl hr ihl ihr =>
    exact ofExpression (.binary op n ho hl hr) (by simp [checked, inOrder, hl, hr])
      (by simp [checked, inOrder, ihl, ihr, hk])
  | unary op b n ho he ihe =>
    exact ofExpression (.unary op b n ho he) (by simp [checked, inOrder, he])
      (by simp [checked, inOrder, ihe, hk])
  | cast b n ht he _ ihe =>
    exact ofExpression (.cast b n ht he) (by simp [checked, inOrder, he])
      (by simp [checked, inOrder, ihe, hk])
  | ternary n hc ha hb ihc iha ihb =>
    exact ofExpression (.ternary n hc ha hb) (by simp [checked, inOrder, hc, ha, hb])
      (by simp [checked, inOrder, ihc, iha, ihb, hk])
  | assign op n ht hv iht ihv =>
    exact ofExpression (.assign op n ht hv) (by simp [checked, inOrder, ht, hv])
      (by simp [checked, inOrder, iht, ihv, hk])
  | sequence n hc ih => exact ofExpression (.sequence n hc) hc fun c hcs => ih c hcs rfl
  | call f n ha ih => exact ofExpression (.call f n ha) ha fun c hcs => ih c hcs rfl
  | absentExpression n => exact noOp n
  | ofExpression _ ih | simple _ ih | ofStatement _ ih | ofDeclaration _ ih | ofItem _ ih =>
    exact ih rfl
  | typeName | structName => cases hk
  | varDecl v i n ht => exact varDecl v i n ht
  | structDecl s fields mark n => exact structDecl s fields mark n
  | initializer v op i n he ih =>
    have hvar := leaf (.var v i) rfl
    exact ofExpression (.assign op n (.var v i) he)
      (by simp [checked, inOrder, he, Grammatical.var]) (by simp [checked, inOrder, ih rfl, hvar])
  | switch n hs hc ihs ihc =>
    exact switch n hs hc (ihs rfl) fun c hcs => ihc c hcs rfl
  | ifElse n hc ha hb ihc iha ihb =>
    exact ifElse n hc ha hb (ihc rfl) (iha rfl) (ihb rfl)
  | forLoop n hs hc hi hb ihs ihc ihi ihb =>
    exact loop rfl (by simp [inOrder, hs, hc]) hb (by simp [behindBody?, hi])
      (by simp [parts, ihs rfl, ihc rfl, ihi rfl, ihb rfl])
  | whileLoop n hc hb ihc ihb =>
    exact loop rfl (by simp [inOrder, hc, Grammatical.ofExpression]) hb (by simp [behindBody?])
      (by simp [parts, ihc rfl, ihb rfl])
  | doWhile n hc hb ihc ihb =>
    exact loop rfl (by simp [inOrder]) hb (by simp [behindBody?, hc, Grammatical.ofExpression])
      (by simp [parts, ihc rfl, ihb rfl])
  | returning n hv ih => exact returning n hv (ih rfl)
  | breaking n => exact breaking n
  | continuing n => exact continuing n
  | block n hc ih => exact block n hc fun c hcs => ih c hcs rfl
  | caseLabel n hv ih => exact caseLabel n hv (ih rfl)
  | defaultLabel n => exact defaultLabel n
  | param v i n => exact param v i n
  | body n hc ih => exact body n hc fun c hcs => ih c hcs rfl
  | function | library | declared | program => cases hk

/-! ## Programs -/

theorem function {b : Tree} {ps : List Tree} (f : String) (n : Nat)
    (hp : ∀ p ∈ ps, p.Grammatical .parameter) (hb : b.Grammatical .functionBody) (Γ : Env) :
    Place.Passes ⟨Γ, false, false, .function t f ps b n⟩ := by
  intro A s s' a hA hs hself hgives
  have h := hgives
  rw [checkPart_eq rfl] at h
  obtain ⟨type, level, g, gs, rs, s₁, s₂, r, s₃, -, htables, hnone, hparams, hlen, houtside, hbody,
    rfl, hopens⟩ := gives_function h
  have hg := hs.tables
  rw [htables] at hg hnone
  cases hg with
  | @cons _ c _ Γ hg hgs =>
    have hnew : f ∉ namesOf c := by
      refine hg.not_mem (Option.eq_none_iff_forall_ne_some.2 fun y hy => ?_)
      rw [SymbolTable.lookup?, List.findSome?_cons, hy] at hnone
      cases hnone
    -- The parameters are checked while the function has none, and the body when it has them.
    have hin : At { s with
        tables := ⟨f, level, []⟩ :: g.insert (.function f (some type) (some [])) :: gs }
        ⟨[] :: (⟨f, .function (some 0), .function t f ps b n⟩ :: c) :: Γ, false, false, b⟩ :=
      ⟨.cons (SymbolTable.describes_empty f level) (.cons (hg.insert rfl rfl) hgs), hs.loops,
        hs.switches⟩
    have hfirst := hparams.passed (A := fun _ _ => True)
      (each (fun p hps => ofGrammatical (hp p hps) rfl) _) (fun _ _ _ _ _ => id) hin
      fun _ _ _ _ _ _ _ _ => trivial
    rw [Env.afterAll_eq fun p hps => (hp p hps).plain nofun] at hfirst
    obtain ⟨q, qs, hq, hqs, htables₁⟩ := List.forall₂_cons_right_iff.1 hfirst.tables
    obtain ⟨u, us, hu, hus, rfl⟩ := List.forall₂_cons_right_iff.1 hqs
    obtain rfl := gives_insertOutside htables₁ houtside
    have hat : At { s₁ with tables := q :: u.insert (.function f (some type) (some rs)) :: us }
        ⟨Env.declare (declarationsOf ps) ([] :: Env.after (c :: Γ) (.function t f ps b n)), false,
          false, b⟩ := by
      refine ⟨.cons hq (.cons (hu.replace rfl rfl ?_) hus), ?_, ?_⟩
      · change Meaning.function (some ps.length) = .function (some rs.length)
        rw [hlen]
      · exact (hfirst.at_behind hin b).loops
      · exact (hfirst.at_behind hin b).switches
    have hlast := ofGrammatical hb rfl _ _ _ hA hat ((arrives_iff (hb.not_isLabel (by decide))).2
      (hA hopens ((arrives_iff rfl).1 hself))) (checkPart_gives hbody)
    have hfine : (namesOf (declarationsOf ps ++ b.declarations)).Nodup := by
      have hfresh := hlast.fresh [] (Env.fresh_nil _)
      rw [List.append_nil] at hfresh
      exact (hfirst.fresh _ hfresh).1
    rw [hb.plain nofun] at hlast
    obtain ⟨v, vs, _, hvs, htables₃⟩ := List.forall₂_cons_right_iff.1 hlast.tables
    refine .node hfine hs hself hgives ⟨hlast.accepted, fun es hes => ?_, ?_, ?_, ?_⟩ fun q hq => hq
    · exact Env.Fresh.cons (fun c' hc' => Option.some.inj hc' ▸ hnew) hes
    · change List.Forall₂ SymbolTable.Describes s₃.tables.tail _
      rw [htables₃]
      exact hvs
    · exact hlast.loops.trans hfirst.loops
    · exact hlast.switches.trans hfirst.switches

end Tree.Passes

theorem librarySymbol_meaning (f : Builtin) :
    (Analysis.librarySymbol f).meaning = .function (f.parameterTypes.map List.length) := by
  cases hp : f.parameterTypes with
  | none => simp [Analysis.librarySymbol, Symbol.meaning, hp]
  | some ts => simp [Analysis.librarySymbol, Symbol.meaning, hp]

namespace Check

open SymbolTable (Describes)

theorem gives_functions {fs : List Builtin} (t : Tree) {a : Unit} {g : SymbolTable}
    (hs : s.tables = [g]) (hg : g.Describes c) (h : Gives (fs.forM fun f => do
      if (← Check.lookup f.name).isNone then Check.insert (Analysis.librarySymbol f)) s a s') :
    ∃ g', s' = { s with tables := [g'] } ∧ g'.Describes (c ++ fs.map (Builtin.declaration t)) := by
  induction fs generalizing s g c with
  | nil =>
    obtain ⟨_, rfl⟩ := gives_pure.1 h
    exact ⟨g, by rw [← hs], by rwa [List.map_nil, List.append_nil]⟩
  | cons f fs ih =>
    simp only [List.forM, gives_bind] at h
    obtain ⟨_, s₁, ⟨r, s₀, hr, hf⟩, h⟩ := h
    obtain ⟨hlookup, rfl⟩ := gives_lookup hr
    have hstep : ∃ g₁, s₁ = { s₀ with tables := [g₁] } ∧
        g₁.Describes (c ++ [Builtin.declaration t f]) := by
      have hfind : r = g.find? f.name := by
        rw [hlookup, hs]
        cases hg : g.find? f.name <;> simp [SymbolTable.lookup?, hg]
      rw [hfind] at hf
      split at hf
      · next hnone =>
        obtain ⟨u, us, htables, rfl⟩ := gives_insert hf
        rw [hs] at htables
        obtain ⟨rfl, rfl⟩ := List.cons.inj htables
        refine ⟨_, rfl, hg.append (Option.isNone_iff_eq_none.1 hnone) rfl ?_⟩
        exact (librarySymbol_meaning f).symm
      · next hsome =>
        obtain ⟨_, rfl⟩ := gives_pure.1 hf
        refine ⟨g, by rw [← hs], hg.hidden fun hnone => hsome ?_⟩
        exact Option.isNone_iff_eq_none.2 hnone
    obtain ⟨g₁, rfl, hg₁⟩ := hstep
    obtain ⟨g', hs', hg'⟩ := ih rfl hg₁ h
    refine ⟨g', hs', ?_⟩
    rw [List.append_assoc] at hg'
    exact hg'

theorem gives_constants {cs : List (String × Int)} (t : Tree) {a : Unit} {g : SymbolTable}
    (hs : s.tables = [g]) (hg : g.Describes c)
    (h : Gives (cs.forM fun c => Check.insert (.constant c.1 (.number .int))) s a s') :
    ∃ g', s' = { s with tables := [g'] } ∧
      g'.Describes ((cs.map (Library.constantDeclaration t)).reverse ++ c) := by
  induction cs generalizing s g c with
  | nil =>
    obtain ⟨_, rfl⟩ := gives_pure.1 h
    exact ⟨g, by rw [← hs], hg⟩
  | cons k cs ih =>
    simp only [List.forM, gives_bind] at h
    obtain ⟨_, s₁, hk, h⟩ := h
    obtain ⟨u, us, htables, rfl⟩ := gives_insert hk
    rw [hs] at htables
    obtain ⟨rfl, rfl⟩ := List.cons.inj htables
    have hk : (g.insert (.constant k.1 (.number .int))).Describes
        (Library.constantDeclaration t k :: c) := hg.insert rfl rfl
    obtain ⟨g', hs', hg'⟩ := ih rfl hk h
    refine ⟨g', hs', ?_⟩
    rw [List.map_cons, List.reverse_cons, List.append_assoc]
    exact hg'

end Check

namespace Tree.Passes

open Check Analysis

theorem library (c : List Declaration) (l w : Bool) (name : String) (n : Nat) :
    Place.Passes ⟨[c], l, w, .library name n⟩ := by
  intro A s s' a hA hs hself hgives
  have h := hgives
  simp only [checkPart, check, includeLibrary, gives_bind, gives_pure] at h
  obtain ⟨_, s₁, h, _, rfl⟩ := h
  refine .node trivial hs hself hgives ?_ fun q hq => hq
  cases hfind : Library.find? name with
  | none =>
    rw [hfind] at h
    exact (gives_fail.1 h).elim
  | some lib =>
    rw [hfind, gives_bind] at h
    obtain ⟨_, s₂, hf, hc⟩ := h
    obtain ⟨g, gs, hg, hgs, htables⟩ := List.forall₂_cons_right_iff.1 hs.tables
    obtain rfl := List.forall₂_nil_right_iff.1 hgs
    obtain ⟨g₁, rfl, hg₁⟩ := gives_functions (.library name n) htables hg hf
    obtain ⟨g₂, rfl, hg₂⟩ := gives_constants (.library name n) rfl hg₁ hc
    change Passed A s [c] [] [] (Env.after [c] (.library name n)) _
    rw [Env.after_library hfind]
    exact ⟨List.forall_mem_nil _, fun es hes => hes.ofInclude, .cons hg₂ .nil, rfl, rfl⟩

theorem topLevel (ht : t.Grammatical .topLevel) (c : List Declaration) :
    Place.Passes ⟨[c], false, false, t⟩ := by
  cases ht with
  | function f n _ hp hb => exact function f n hp hb [c]
  | library name n => exact library c false false name n
  | declared ht => exact ofGrammatical ht rfl [c] false false

end Tree.Passes

theorem Env.after_global (c : List Declaration) (t : Tree) : ∃ c', Env.after [c] t = [c'] := by
  cases t with
  | library name n =>
    cases h : Library.find? name with
    | none => exact ⟨c, by simp [after, h]⟩
    | some l => exact ⟨_, after_library h [c] n⟩
  | _ => exact ⟨_, rfl⟩

theorem Tree.Passes.topLevel_each (hts : ∀ t ∈ ts, t.Grammatical .topLevel) (u : Tree)
    (c : List Declaration) : ∀ q ∈ Place.each ⟨[c], false, false, u⟩ ts, q.Passes := by
  induction ts generalizing c with
  | nil => exact List.forall_mem_nil _
  | cons t ts ih =>
    obtain ⟨ht, hts⟩ := List.forall_mem_cons.1 hts
    obtain ⟨c', hc'⟩ := Env.after_global c t
    refine List.forall_mem_cons.2 ⟨topLevel ht c, ?_⟩
    change ∀ q ∈ Place.each ⟨Env.after [c] t, false, false, u⟩ ts, q.Passes
    rw [hc']
    exact ih hts c'

theorem Analysis.gives_of_analyze (h : (analyze t).1.isOk = true) :
    ∃ a s, (check t).Gives start a s := by
  cases hr : (check t).run start with
  | mk r s =>
    cases r with
    | ok a => exact ⟨a, s, hr⟩
    | error e =>
      exfalso
      have hrun : (do let _ ← check t : Check Unit).run start = (.error e, s) := by
        rw [run_bind, hr]
      rw [analyze, hrun] at h
      cases h

/-- The analysis of a program that it accepts passes the top of the program, and finds `main` behind
it. -/
theorem Analysis.passed_program {n : Nat} (hp : Tree.Grammatical .program (.program cs n))
    (ha : (analyze (.program cs n)).1.isOk = true) :
    ∃ s, (checkAll cs).Gives (start.enter (.inside [] "global")) () s ∧
      (start.enter (.inside [] "global")).At ⟨[[]], false, false, .program cs n⟩ ∧
      Passed (Comes (.program cs n) start) (start.enter (.inside [] "global")) [[]]
        (Place.each ⟨[[]], false, false, .program cs n⟩ cs) (declarationsOf cs)
        (Env.afterAll [[]] cs) s ∧
      (SymbolTable.lookup? s.tables "main").isSome = true := by
  obtain ⟨a, s', hgives⟩ := gives_of_analyze ha
  cases hp with
  | program _ hc =>
    simp only [check, Check.gives_bind, Check.gives_pure] at hgives
    obtain ⟨_, s₁, hglobal, _, rfl⟩ := hgives
    obtain ⟨s₂, hin, rfl⟩ := Check.gives_within hglobal
    simp only [Check.gives_bind] at hin
    obtain ⟨_, s₃, hall, r, s₄, hlookup, hmain⟩ := hin
    have hat : (start.enter (.inside [] "global")).At ⟨[[]], false, false, .program cs n⟩ :=
      ⟨.cons (SymbolTable.describes_empty "global" 1) .nil, by simp [start, enter], by
        simp [start, enter]⟩
    refine ⟨s₃, hall, hat, (checkAll_checks hall).passed_all (Tree.Passes.topLevel_each hc _ [])
      ?_ ?_ hat ?_, ?_⟩
    · exact fun t ht => (hc t ht).not_isLabel (by decide)
    · exact fun _ _ _ _ ho h => h.opens ho
    · intro front t rest s₁ hsplit hfront
      subst hsplit
      exact .part (.program hfront) (.self t s₁)
    · obtain ⟨hr, rfl⟩ := Check.gives_lookup hlookup
      cases hs : SymbolTable.lookup? s₄.tables "main" with
      | some y => rfl
      | none =>
        rw [hr, hs] at hmain
        exact (Check.gives_reject.1 hmain).elim

/-- The analysis gets to every place of a program that it accepts. -/
theorem Analysis.accepted_places {program : Tree} (hp : program.Grammatical .program)
    (ha : (analyze program).1.isOk = true) {p : Place}
    (h : (Place.start program).Occurs .executed p) : p.Accepted (Comes program start) := by
  cases hp with
  | @program cs n hc =>
    obtain ⟨s, -, -, hpassed, -⟩ := passed_program (.program n hc) ha
    cases h with
    | self =>
      obtain ⟨a, s₁, hgives⟩ := gives_of_analyze ha
      exact ⟨hpassed.nodup, start, a, s₁, ⟨.nil, by simp [start, Place.start], by
        simp [start, Place.start]⟩, (arrives_iff rfl).2 (.self _ _), checkPart_gives hgives⟩
    | part hq hr => exact hpassed.accepted _ hq p hr

/-- A program that is accepted is well formed, with the increment of a loop behind its body. -/
theorem accepted_wellFormed {code : String} {program : Tree}
    (hp : Program.parse code = .ok program) (ha : (Analysis.analyze program).1.isOk = true) :
    program.WellFormed .executed :=
  fun _ h => (Analysis.accepted_places (Program.parse_grammatical hp) ha h).1

/-- The increment of a loop may use what its body declares in a switch. -/
theorem accepted_wellFormed_increment : ∃ program,
    Program.parse "int main()\x7b for (;; y) switch (1) \x7b int y; \x7d return 0; \x7d" =
      .ok program ∧
    (Analysis.analyze program).1.isOk = true ∧ program.WellFormed .executed := by
  refine (Program.exists_accepted (P := fun _ => true) ?_).imp fun t ht =>
    ⟨ht.1, ht.2.1, accepted_wellFormed ht.1 ht.2.1⟩
  decide +kernel

/-- As it is written, the increment comes before the body. -/
theorem accepted_not_wellFormed_written : ∃ program,
    Program.parse "int main()\x7b for (;; y) switch (1) \x7b int y; \x7d return 0; \x7d" =
      .ok program ∧
    (Analysis.analyze program).1.isOk = true ∧ ¬ program.WellFormed .written := by
  refine (Program.exists_accepted (P := fun t => ((Place.start t).follow .written
    [0, 0, 0, 2]).any fun p => p.tree.variable?.any fun name => (p.env.find? name).isNone)
    ?_).imp fun t ht => ⟨ht.1, ht.2.1, fun hwell => ?_⟩
  · decide +kernel
  · obtain ⟨p, hp, hfind⟩ := (Option.any_eq_true ..).1 ht.2.2
    obtain ⟨name, hname, hnone⟩ := (Option.any_eq_true ..).1 hfind
    have hbound := hwell p (Place.occurs_of_follow hp)
    exact Place.not_fine_of_unbound hname (Option.isNone_iff_eq_none.1 hnone) hbound

end MiniC
