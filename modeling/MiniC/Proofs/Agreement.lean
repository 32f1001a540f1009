import Mathlib.Logic.Relation
import MiniC.Proofs.Launch
import MiniC.Proofs.ResultTypes

/-!
# Types found out and types of numbers

The analysis finds out the type of an expression, and the number to which it is evaluated has a
type. An expression is followed here through both, so that one and the same node is looked at. If
the parts of a node agree, the node itself agrees unless it is of one of a few kinds, for which it
is said when the types differ: a real literal, a comparison, a logical operator, a negation, an
assignment to a place of another type, and whatever is read from a place, or given by a function,
that does not have the type it was declared with.
-/

namespace MiniC

open Analysis (check)
open Eval (eval Yields place)

variable {e : Tree} {i : Nat} {op : Kind} {s₁ : Analysis} {q : Occurrence}

def Typing.Is (a : Typing) (t : CType) : Prop :=
  a.same (.type (.number t)) = true

def Store.typeOf? (s : Store) (name : String) : Option CType :=
  match s.lookup name with
  | .ok (.at a) => s.typeAt? a
  | .ok (.constant n) => some n.ctype
  | .error _ => none

/-- A tree that is checked in a state of the analysis and evaluated by a machine. -/
structure Occurrence where
  analysis : Analysis
  fuel : Nat
  machine : Machine
  tree : Tree

namespace Occurrence

def Gives (q : Occurrence) (a : Typing) (n : Number) : Prop :=
  (∃ s, (check q.tree).Gives q.analysis a s) ∧ ∃ m, Yields q.fuel q.tree q.machine n m

/-- If a number is given, it has the type that was found out. -/
def Agrees (q : Occurrence) : Prop :=
  ∀ a n, q.Gives a n → a.Is n.ctype

/-- Trees are checked and evaluated one after the other, until one of them. -/
inductive Along (fuel : Nat) : Analysis → Machine → List Tree → Occurrence → Prop
  | here (s : Analysis) (m : Machine) (t : Tree) (ts : List Tree) :
      Along fuel s m (t :: ts) ⟨s, fuel, m, t⟩
  | there {s s' : Analysis} {m m' : Machine} {t : Tree} {ts : List Tree} {a : Typing} {v : Value}
      {q : Occurrence} (hc : (check t).Gives s a s') (he : (eval fuel t).execute m = (.ok v, m'))
      (hq : Along fuel s' m' ts q) : Along fuel s m (t :: ts) q

def Continues (op : Kind) (v : Value) : Prop :=
  op = .logAndOp ∧ v.truth = true ∨ op = .logOrOp ∧ v.truth = false ∨
    (Eval.operator? op).isSome = true

inductive Operand : Occurrence → Occurrence → Prop
  | left {s : Analysis} {fuel n : Nat} {m : Machine} {l r : Tree} {op : Token}
      (hop : Eval.Implemented op.kind) :
      Operand ⟨s, fuel + 1, m, .binary l op r n⟩ ⟨s, fuel, m, l⟩
  | right {s s' : Analysis} {fuel n : Nat} {m m' : Machine} {l r : Tree} {op : Token} {a : Typing}
      {v : Value} (hc : (check l).Gives s a s') (he : (eval fuel l).execute m = (.ok v, m'))
      (hop : Continues op.kind v) :
      Operand ⟨s, fuel + 1, m, .binary l op r n⟩ ⟨s', fuel, m', r⟩
  | unary {s : Analysis} {fuel n : Nat} {m : Machine} {e : Tree} {op : Token}
      (hop : Eval.onPlace op.kind = false) :
      Operand ⟨s, fuel + 1, m, .unary op e true n⟩ ⟨s, fuel, m, e⟩
  | cast {s : Analysis} {fuel n : Nat} {m : Machine} {t e : Tree} :
      Operand ⟨s, fuel + 1, m, .cast t e true n⟩ ⟨s, fuel, m, e⟩
  /-- The old value of the place is read before the right side is evaluated. -/
  | assign {s s' : Analysis} {fuel n : Nat} {m m₀ m' : Machine} {t e : Tree} {op : Token}
      {a : Typing} {address : Scalar} {old : Value} (hc : (check t).Gives s a s')
      (hp : (place t).execute m = (.ok address, m₀))
      (hr : (Run.readAt address).execute m₀ = (.ok old, m')) :
      Operand ⟨s, fuel + 1, m, .assign t op e n⟩ ⟨s', fuel, m', e⟩
  | sequence {s : Analysis} {fuel n : Nat} {m : Machine} {ts : List Tree} {q : Occurrence}
      (hq : Along fuel s m ts q) : Operand ⟨s, fuel + 1, m, .sequence ts n⟩ q
  | call {s : Analysis} {fuel n : Nat} {m : Machine} {f : String} {ts : List Tree}
      {q : Occurrence} (hq : Along fuel s m ts q) : Operand ⟨s, fuel + 1, m, .call f ts n⟩ q

/-- What is evaluated inside an expression, the expression included. -/
def Inside : Occurrence → Occurrence → Prop :=
  Relation.ReflTransGen Operand

/-! ## Where types differ -/

def compares : Kind → Bool
  | .ltOp | .gtOp | .leOp | .geOp | .eqOp | .neOp => true
  | _ => false

def Decider (fuel : Nat) (m : Machine) (l : Tree) (op : Kind) (r : Tree) (x : Number) : Prop :=
  (∃ v m', (eval fuel l).execute m = (.ok v, m') ∧ v.number? = some x ∧
      (op = .logAndOp ∧ v.truth = false ∨ op = .logOrOp ∧ v.truth = true)) ∨
    ∃ v m' m'', (eval fuel l).execute m = (.ok v, m') ∧ Yields fuel r m' x m'' ∧
      (op = .logAndOp ∧ v.truth = true ∨ op = .logOrOp ∧ v.truth = false)

def Misplaced (a : Typing) (m : Machine) (e : Tree) : Prop :=
  ∃ address m₀ v m₁ x, (place e).execute m = (.ok address, m₀) ∧
    (Run.readAt address).execute m₀ = (.ok v, m₁) ∧ v.number? = some x ∧ ¬ a.Is x.ctype

def UnaryReason (s : Analysis) (fuel : Nat) (m : Machine) (op : Kind) (e : Tree) (inFront : Bool) :
    Prop :=
  match op, inFront with
  | .minus, true => ∃ x m' t, Yields fuel e m x m' ∧ CType.combine .int x.ctype = .ok t ∧
      x.ctype.same t = false
  | .logNeg, true => ∃ x m', Yields fuel e m x m' ∧ x.ctype.same .int = false
  | .asterisk, true => ∃ a s' b v address m' t, (check e).Gives s a s' ∧ a.dereference = .ok b ∧
      (eval fuel e).execute m = (.ok v, m') ∧ v.content = .ok address ∧
      m'.store.typeAt? address = some t ∧ ¬ b.Is t
  | .incOp, _ | .decOp, _ => ∃ a s', (check e).Gives s a s' ∧ Misplaced a m e
  | _, _ => False

/-- Why a number is not of the type that was found out, apart from the parts of the tree. -/
def Reason (s : Analysis) (fuel : Nat) (m : Machine) : Tree → Prop
  | .num k _ => k.kind = .realConst
  | .var k _ => ∃ y t, SymbolTable.lookup? s.tables k.value.render = some y ∧
      m.store.typeOf? k.value.render = some t ∧ ¬ y.typing.Is t
  | .field op base member n => ∃ a s' address m' t,
      (Analysis.fieldType op base member n).Gives s a s' ∧
      (Eval.fieldAddress op base member).execute m = (.ok address, m') ∧
      m'.store.typeAt? address = some t ∧ ¬ a.Is t
  | .binary l op r _ =>
      (compares op.kind = true ∧ ∃ x m₁ y m₂ t, Yields fuel l m x m₁ ∧ Yields fuel r m₁ y m₂ ∧
        x.ctype.combine y.ctype = .ok t ∧ t.same .int = false) ∨
      ∃ a s₁ b s₂ c x, (check l).Gives s a s₁ ∧ (check r).Gives s₁ b s₂ ∧
        Typing.combine a b = .ok c ∧ Decider fuel m l op.kind r x ∧ ¬ c.Is x.ctype
  | .unary op e inFront _ => UnaryReason s fuel m op.kind e inFront
  | .assign target _ value _ => ∃ a s₁ b s₂, (check target).Gives s a s₁ ∧
      (check value).Gives s₁ b s₂ ∧ Misplaced b m target
  | .call f args _ => ∃ g type params vs m₁ v m₂ t,
      SymbolTable.lookup? s.tables f = some (.function g type params) ∧
      (Eval.arguments (eval fuel) args).execute m = (.ok vs, m₁) ∧
      (Run.readName f).execute m₁ = (.ok v, m₂) ∧ v.returnType? = some t ∧
      ¬ (type.elim .nothing Typing.type).Is t
  | _ => False

/-- A number is given that is not of the type that was found out, and not because of a part. -/
def Diverges (q : Occurrence) : Prop :=
  (∃ a n, q.Gives a n) ∧ Reason q.analysis (q.fuel - 1) q.machine q.tree

end Occurrence

/-! ## One node -/

theorem Typing.is_iff {a : Typing} {t : CType} :
    a.Is t ↔ ∃ c, a = .type (.number c) ∧ c.same t = true := by
  constructor
  · intro h
    cases a with
    | type b =>
      cases b with
      | number c => exact ⟨c, rfl, h⟩
      | struct => cases h
    | _ => cases h
  · rintro ⟨c, rfl, h⟩
    exact h

theorem Typing.is_self (t : CType) : Typing.Is (.type (.number t)) t :=
  CType.same_refl t

theorem Typing.Is.congr {a : Typing} {t u : CType} (h : a.Is t) : a.Is u ↔ t.same u = true := by
  obtain ⟨c, rfl, hc⟩ := Typing.is_iff.1 h
  unfold Is same
  rw [CType.same_iff] at hc ⊢
  rw [CType.same_iff, hc]

namespace Analysis

variable {op : Kind} {line : Nat} {a b c : Typing}

theorem unaryType_cases (h : unaryType op line e a = .ok c) :
    op = .asterisk ∧ a.dereference = .ok c ∨
      op ≠ .asterisk ∧ c = if op = .ampersand then .int else a := by
  simp only [unaryType, throw_bind, ite_eq_ok, bind_eq_ok, reduceCtorEq, and_false, or_false,
    pure, Except.pure, Except.ok.injEq] at h
  rcases h with ⟨-, _, -, -, hrest⟩ | ⟨-, hrest⟩
  all_goals
    rcases hrest with ⟨hop, _, -, ⟨-, hc⟩ | ⟨-, _, -, -, hc⟩⟩ | ⟨hop, _, -, ⟨-, -, hc⟩ | ⟨-, hc⟩⟩
    · exact .inl ⟨hop, hc⟩
    · exact .inl ⟨hop, hc⟩
    · exact .inr ⟨hop, hc.symm⟩
    · exact .inr ⟨hop, hc.symm⟩

/-- An assignment has the type of its right side. -/
theorem assignType_right {target : Tree} {w : Option Warning}
    (h : assignType op line target a b = .ok (c, w)) : c = b := by
  simp only [assignType, throw_bind, ite_eq_ok, bind_eq_ok, reduceCtorEq, and_false, or_false,
    pure, Except.pure, Except.ok.injEq, Prod.mk.injEq] at h
  rcases h with ⟨_, -, -, _, -, ⟨-, _, -, -, rfl, -⟩ | ⟨-, ⟨-, rfl, -⟩ | ⟨-, rfl, -⟩⟩⟩
  · rfl
  · rfl
  · rfl

/-- The logical operators are for operands that can be combined. -/
theorem binaryType_logical (hop : op = .logAndOp ∨ op = .logOrOp)
    (h : binaryType op line a b = .ok c) : Typing.combine a b = .ok c := by
  have hbits : isBitwise op = false := by rcases hop with rfl | rfl <;> rfl
  have htakes : takesPointer op = false := by rcases hop with rfl | rfl <;> rfl
  simp only [binaryType, hbits, htakes, throw_bind, ite_eq_ok, bind_eq_ok, reduceCtorEq, and_false,
    or_false, false_or, exists_false, Bool.false_eq_true, if_false] at h
  rcases h with ⟨_, -, -, _, -, -, hc⟩
  exact hc

end Analysis

namespace Occurrence

variable {s s' : Analysis} {fuel : Nat} {m m' : Machine} {a : Typing} {n : Number} {w : Value}

theorem num_agrees {k : Token} (hc : (check (.num k i)).Gives s a s')
    (he : Yields (fuel + 1) (.num k i) m n m') : a.Is n.ctype ↔ ¬ Reason s fuel m (.num k i) := by
  rcases he with ⟨w, he, hw⟩
  simp only [check, Check.gives_ofExcept, Analysis.literalType] at hc
  change (Eval.literal k).execute m = _ at he
  unfold Eval.literal at he
  have hmade {t : CType} (h : (do return .number (← Run.makeNumber t k.value) :
      Run Value).execute m = (.ok w, m')) : n.ctype = t := by
    obtain ⟨n', _, hn', hpure⟩ := Run.execute_bind_ok h
    cases hpure
    cases hw
    exact Run.makeNumber_type hn'
  change a.Is n.ctype ↔ ¬ k.kind = .realConst
  split at he
  · next hk =>
    rw [hk] at hc ⊢
    obtain ⟨⟨⟩, -⟩ := hc
    exact iff_of_true (hmade he ▸ Typing.is_self _) (by rintro ⟨⟩)
  · next hk =>
    rw [hk] at hc ⊢
    obtain ⟨⟨⟩, -⟩ := hc
    exact iff_of_true (hmade he ▸ Typing.is_self _) (by rintro ⟨⟩)
  · next hk =>
    rw [hk] at hc ⊢
    obtain ⟨⟨⟩, -⟩ := hc
    rw [hmade he]
    exact iff_of_false (by unfold Typing.Is; decide) fun h => h rfl
  · cases he

/-- What the name of a variable is evaluated to has the type that the store shows. -/
theorem typeOf?_of_yields {k : Token} (he : Yields fuel (.var k i) m n m') :
    m.store.typeOf? k.value.render = some n.ctype := by
  rcases he with ⟨w, he, hw⟩
  unfold Store.typeOf?
  rcases Eval.eval_var he with ⟨n', hn', rfl, -⟩ | ⟨address, hat, -, hread⟩
  · rw [hn']
    cases hw
    rfl
  · rw [hat]
    exact Run.readAt_type hread hw

theorem var_agrees {k : Token} (hc : (check (.var k i)).Gives s a s')
    (he : Yields (fuel + 1) (.var k i) m n m') : a.Is n.ctype ↔ ¬ Reason s fuel m (.var k i) := by
  have htype := typeOf?_of_yields he
  obtain ⟨r, s₁, hlookup, hrest⟩ := Check.gives_bind.1 hc
  obtain ⟨rfl, rfl⟩ := Check.gives_lookup hlookup
  split at hrest
  · next y hy =>
    obtain ⟨rfl, -⟩ := Check.gives_pure.1 hrest
    constructor
    · rintro his ⟨y', t, hy', ht, hnot⟩
      cases hy.symm.trans hy'
      cases htype.symm.trans ht
      exact hnot his
    · intro hno
      by_contra hnot
      exact hno ⟨y, n.ctype, hy, htype, hnot⟩
  · exact (Check.gives_reject.1 hrest).elim

theorem field_agrees {base member : Tree} (hc : (check (.field op base member i)).Gives s a s')
    (he : Yields (fuel + 1) (.field op base member i) m n m') :
    a.Is n.ctype ↔ ¬ Reason s fuel m (.field op base member i) := by
  rcases he with ⟨w, he, hw⟩
  obtain ⟨address, m₁, haddress, hread⟩ := Run.execute_bind_ok he
  have htype := Run.readAt_type hread hw
  constructor
  · rintro his ⟨b, s₁, address', m₁', t, hb, haddress', ht, hnot⟩
    cases hc.symm.trans hb
    cases haddress.symm.trans haddress'
    cases htype.symm.trans ht
    exact hnot his
  · intro hno
    by_contra hnot
    exact hno ⟨a, s', address, m₁, n.ctype, hc, haddress, htype, hnot⟩

theorem cast_agrees {target : Tree} {f : Bool} (hc : (check (.cast target e f i)).Gives s a s')
    (he : Yields (fuel + 1) (.cast target e f i) m n m') : a.Is n.ctype := by
  rcases he with ⟨w, he, hw⟩
  simp only [check, Check.gives_bind, Check.gives_ofExcept] at hc
  obtain ⟨_, _, -, htype, -⟩ := hc
  change (Eval.cast (eval fuel) target e f).execute m = _ at he
  unfold Eval.cast at he
  split at he
  · cases htype
    obtain ⟨v, _, -, hconvert⟩ := Run.execute_bind_ok he
    obtain ⟨n', rfl, rfl⟩ := Eval.convert_type hconvert
    cases hw
    exact Typing.is_self _
  · cases he

/-- The place of a number is as it was found out, or it is misplaced. -/
theorem is_iff_not_misplaced {address : Scalar} {m₀ m₁ : Machine} {v : Value} {x : Number}
    (hplace : (place e).execute m = (.ok address, m₀))
    (hread : (Run.readAt address).execute m₀ = (.ok v, m₁)) (hx : v.number? = some x) :
    a.Is x.ctype ↔ ¬ Misplaced a m e := by
  constructor
  · rintro his ⟨address', m₀', v', m₁', x', hplace', hread', hx', hnot⟩
    cases hplace.symm.trans hplace'
    cases hread.symm.trans hread'
    cases hx.symm.trans hx'
    exact hnot his
  · intro hno
    by_contra hnot
    exact hno ⟨address, m₀, v, m₁, x, hplace, hread, hx, hnot⟩

theorem assign_agrees {target value : Tree} {op : Token}
    (hc : (check (.assign target op value i)).Gives s a s')
    (he : Yields (fuel + 1) (.assign target op value i) m n m') :
    a.Is n.ctype ↔ ¬ Reason s fuel m (.assign target op value i) := by
  rcases he with ⟨w, he, hw⟩
  obtain ⟨address, m₀, old, m₁, given, m₂, x, n', hplace, hread, -, hx, rfl, htype⟩ :=
    Eval.assign_type he
  cases hw
  simp only [check, Check.gives_bind, Check.gives_ofExcept] at hc
  obtain ⟨c, s₁, htarget, b, s₂, hvalue, ⟨d, warning⟩, _, ⟨hd, -⟩, _, _, -, hpure⟩ := hc
  obtain ⟨rfl, -⟩ := Check.gives_pure.1 hpure
  obtain rfl : a = b := Analysis.assignType_right hd
  rw [htype, is_iff_not_misplaced hplace hread hx]
  constructor
  · rintro hno ⟨c', s₁', b', s₂', htarget', hvalue', hmis⟩
    cases htarget.symm.trans htarget'
    cases hvalue.symm.trans hvalue'
    exact hno hmis
  · exact fun hno hmis => hno ⟨c, s₁, a, s₂, htarget, hvalue, hmis⟩

theorem step_agrees {f : Value → Value → Except Fault Value} {r : Value × Value}
    (hc : (check e).Gives s a s₁) (he : (Eval.step f e).execute m = (.ok r, m'))
    (hr : r.1.number? = some n ∨ r.2.number? = some n) :
    a.Is n.ctype ↔ ¬ ∃ a' s', (check e).Gives s a' s' ∧ Misplaced a' m e := by
  obtain ⟨address, m₀, m₁, x, n', hplace, hread, hx, hn', htype⟩ := Eval.step_type he
  have hn : n.ctype = x.ctype := by
    rcases hr with hold | hnew
    · cases hx.symm.trans hold
      rfl
    · rw [hn'] at hnew
      cases hnew
      exact htype
  rw [hn, is_iff_not_misplaced hplace hread hx]
  constructor
  · rintro hno ⟨a', s', hc', hmis⟩
    cases hc.symm.trans hc'
    exact hno hmis
  · exact fun hno hmis => hno ⟨a, s₁, hc, hmis⟩

theorem dereference_agrees {b : Typing} (hc : (check e).Gives s b s₁) (hb : b.dereference = .ok a)
    (he : (eval fuel e >>= Eval.dereference).execute m = (.ok w, m')) (hw : w.number? = some n) :
    a.Is n.ctype ↔ ¬ ∃ b s' a v address m' t, (check e).Gives s b s' ∧ b.dereference = .ok a ∧
      (eval fuel e).execute m = (.ok v, m') ∧ v.content = .ok address ∧
      m'.store.typeAt? address = some t ∧ ¬ a.Is t := by
  obtain ⟨v, m₁, hv, hrest⟩ := Run.execute_bind_ok he
  obtain ⟨address, m₂, hcontent, hread⟩ := Run.execute_bind_ok hrest
  obtain ⟨haddress, rfl⟩ := Eval.execute_ofExcept_ok hcontent
  have htype := Run.readAt_type hread hw
  constructor
  · rintro his ⟨b', s', a', v', address', m₁', t, hc', hb', hv', haddress', ht, hnot⟩
    cases hc.symm.trans hc'
    cases hb.symm.trans hb'
    cases hv.symm.trans hv'
    cases haddress.symm.trans haddress'
    cases htype.symm.trans ht
    exact hnot his
  · intro hno
    by_contra hnot
    exact hno ⟨b, s₁, a, v, address, m₂, n.ctype, hc, hb, hv, haddress, htype, hnot⟩

theorem minus_agrees (hc : (check e).Gives s a s₁)
    (he : (Eval.before (eval fuel) .minus e).execute m = (.ok w, m')) (hw : w.number? = some n)
    (hq : Agrees ⟨s, fuel, m, e⟩) :
    a.Is n.ctype ↔ ¬ ∃ x m' t, Yields fuel e m x m' ∧ CType.combine .int x.ctype = .ok t ∧
      x.ctype.same t = false := by
  obtain ⟨one, m₀, hone, hrest⟩ := Run.execute_bind_ok he
  obtain ⟨v, m₁, hv, hmul⟩ := Run.execute_bind_ok hrest
  have hproduct := (Eval.execute_ofExcept_ok hmul).1
  obtain ⟨k, hk, hint⟩ := Eval.execute_makeNumber_int (-1) m
  cases hk.symm.trans hone
  obtain ⟨_, x, ⟨⟩, hx⟩ := Value.operate_ok hproduct hw
  have hyields : Yields fuel e m x m₁ := ⟨v, hv, hx⟩
  have his : a.Is x.ctype := hq a x ⟨⟨s₁, hc⟩, m₁, hyields⟩
  have hcombine : CType.combine .int x.ctype = .ok n.ctype := by
    have hmul : Value.mul (.number one) v = .number <$> one.mul x :=
      Value.operate_numbers _ _ rfl hx
    rw [← hint]
    exact (Number.mul_decided.of_ok (Eval.number_map_ok (hmul.symm.trans hproduct) hw)).2
  rw [his.congr]
  constructor
  · rintro hsame ⟨x', m₁', t, ⟨v', hv', hx'⟩, ht, hnot⟩
    cases hv.symm.trans hv'
    cases hx.symm.trans hx'
    cases hcombine.symm.trans ht
    exact Bool.noConfusion (hsame.symm.trans hnot)
  · intro hno
    by_contra hnot
    exact hno ⟨x, m₁, n.ctype, hyields, hcombine, Bool.eq_false_iff.2 hnot⟩

theorem logNeg_agrees (hc : (check e).Gives s a s₁)
    (he : (eval fuel e >>= Eval.negate).execute m = (.ok w, m')) (hw : w.number? = some n)
    (hq : Agrees ⟨s, fuel, m, e⟩) :
    a.Is n.ctype ↔ ¬ ∃ x m', Yields fuel e m x m' ∧ x.ctype.same .int = false := by
  obtain ⟨v, m₁, hv, hrest⟩ := Run.execute_bind_ok he
  obtain ⟨x, _, hx, hrest⟩ := Run.execute_bind_ok hrest
  obtain ⟨n', _, hn', hpure⟩ := Run.execute_bind_ok hrest
  cases hpure
  cases hw
  have hnumber := Eval.number?_of_asNumber (Eval.execute_ofExcept_ok hx).1
  have hyields : Yields fuel e m x m₁ := ⟨v, hv, hnumber⟩
  have his : a.Is x.ctype := hq a x ⟨⟨s₁, hc⟩, m₁, hyields⟩
  have hint : n.ctype = .int := by
    obtain ⟨k, hk, htype⟩ := Number.logNeg_gives x
    cases hk.symm.trans (Eval.execute_ofExcept_ok hn').1
    exact htype
  rw [hint, his.congr]
  constructor
  · rintro hsame ⟨x', m₁', ⟨v', hv', hx'⟩, hnot⟩
    cases hv.symm.trans hv'
    cases hnumber.symm.trans hx'
    exact Bool.noConfusion (hsame.symm.trans hnot)
  · intro hno
    by_contra hnot
    exact hno ⟨x, m₁, hyields, Bool.eq_false_iff.2 hnot⟩

/-- The analysis gives an operator of which it knows the operands the type of the result, unless it
compares. -/
theorem operator_types {line : Nat} {x y : Number} {c d : CType} {t : CType}
    (h : Analysis.binaryType op line (.type (.number c)) (.type (.number d)) = .ok a)
    (hx : c.same x.ctype = true) (hy : d.same y.ctype = true) (hadmits : Number.Admits op x y)
    (hresults : Number.Results op x y t) (hop : compares op = false) : a.Is t := by
  have hpointer {z : Number} (hz : z.ctype.pointer = true) : z.ctype.isArithmetic ≠ true :=
    fun hz' => Bool.noConfusion (hz.symm.trans (CType.pointer_of_isArithmetic hz'))
  have hxp := CType.pointer_of_same hx
  have hyp := CType.pointer_of_same hy
  rcases (Analysis.binaryType_cases h).2 with
    ⟨hc, -, -, htakes, rfl⟩ | ⟨hc, hd, -, htakes, -⟩ | ⟨hc, -, u, hu, rfl⟩
  · rw [hc] at hxp
    rcases Analysis.takesPointer_cases htakes with rfl | rfl | rfl
    · simp only [Number.Results, if_pos hxp.symm] at hresults
      rw [hresults]
      exact hx
    · exact absurd hadmits.1 (hpointer hxp.symm)
    · cases hop
  · rw [hd] at hyp
    rw [hc] at hxp
    rcases Analysis.takesPointer_cases htakes with rfl | rfl | rfl
    · simp only [Number.Admits, ← hxp, Bool.false_eq_true, if_false] at hadmits
      exact absurd hadmits.2 (hpointer hyp.symm)
    · exact absurd hadmits.2 (hpointer hyp.symm)
    · cases hop
  · rw [hc] at hxp
    rw [CType.combine_of_same hx hy] at hu
    have ht : x.ctype.combine y.ctype = .ok t := by
      cases op
      case plus => simpa only [Number.Results, ← hxp, Bool.false_eq_true, if_false] using hresults
      case ltOp | gtOp | leOp | geOp | eqOp | neOp => cases hop
      all_goals exact hresults
    cases hu.symm.trans ht
    exact Typing.is_self _

/-- The analysis gives a comparison the combined type of the operands. -/
theorem comparison_types {line : Nat} {x y : Number} {c d : CType}
    (h : Analysis.binaryType op line (.type (.number c)) (.type (.number d)) = .ok a)
    (hx : c.same x.ctype = true) (hy : d.same y.ctype = true) (hadmits : Number.Admits op x y)
    (hop : compares op = true) : ∃ t, x.ctype.combine y.ctype = .ok t ∧ a.Is t := by
  have hcombine : Number.Combine x y := by
    cases op <;> cases hop <;> exact hadmits
  have hxp := CType.pointer_of_same hx
  have hyp := CType.pointer_of_same hy
  rw [CType.pointer_of_isArithmetic hcombine.1] at hxp
  rw [CType.pointer_of_isArithmetic hcombine.2] at hyp
  rcases (Analysis.binaryType_cases h).2 with ⟨hc, -⟩ | ⟨-, hd, -⟩ | ⟨-, -, u, hu, rfl⟩
  · exact Bool.noConfusion (hxp.symm.trans hc)
  · exact Bool.noConfusion (hyp.symm.trans hd)
  · rw [CType.combine_of_same hx hy] at hu
    exact ⟨u, hu, Typing.is_self u⟩

theorem binary_eq {l r : Tree} {op : Token} {f : Store → Value → Value → Except Fault Value}
    (hf : Eval.operator? op.kind = some f) :
    Eval.binary (eval fuel) l op r =
      eval fuel l >>= fun v => eval fuel r >>= fun u => Eval.combine f v u := by
  unfold Eval.binary
  split
  · next hk =>
    rw [hk] at hf
    cases hf
  · next hk =>
    rw [hk] at hf
    cases hf
  · next hk =>
    rw [hk] at hf
    cases hf
  · rw [hf]
    rfl

theorem Decider.logical {l r : Tree} {x : Number} (h : Decider fuel m l op r x) :
    op = .logAndOp ∨ op = .logOrOp := by
  rcases h with ⟨_, _, -, -, ⟨hop, -⟩ | ⟨hop, -⟩⟩ | ⟨_, _, _, -, -, ⟨hop, -⟩ | ⟨hop, -⟩⟩
  · exact .inl hop
  · exact .inr hop
  · exact .inl hop
  · exact .inr hop

theorem Decider.unique {l r : Tree} {x y : Number} (h : Decider fuel m l op r x)
    (h' : Decider fuel m l op r y) : x = y := by
  rcases h with ⟨v, m₁, hv, hx, hop⟩ | ⟨v, m₁, m₂, hv, ⟨u, hu, hx⟩, hop⟩
  · rcases h' with ⟨v', m₁', hv', hy, hop'⟩ | ⟨v', m₁', m₂', hv', -, hop'⟩
    · cases hv.symm.trans hv'
      exact Option.some.inj (hx.symm.trans hy)
    · cases hv.symm.trans hv'
      rcases hop with ⟨rfl, ht⟩ | ⟨rfl, ht⟩ <;> simp [ht] at hop'
  · rcases h' with ⟨v', m₁', hv', -, hop'⟩ | ⟨v', m₁', m₂', hv', ⟨u', hu', hy⟩, hop'⟩
    · cases hv.symm.trans hv'
      rcases hop with ⟨rfl, ht⟩ | ⟨rfl, ht⟩ <;> simp [ht] at hop'
    · cases hv.symm.trans hv'
      cases hu.symm.trans hu'
      exact Option.some.inj (hx.symm.trans hy)

theorem operator_agrees {l r : Tree} {op : Token} {f : Store → Value → Value → Except Fault Value}
    (hf : Eval.operator? op.kind = some f) (hc : (check (.binary l op r i)).Gives s a s')
    (he : (Eval.binary (eval fuel) l op r).execute m = (.ok w, m')) (hw : w.number? = some n)
    (hl : Agrees ⟨s, fuel, m, l⟩)
    (hr : ∀ b s₁ v m₁, (check l).Gives s b s₁ → (eval fuel l).execute m = (.ok v, m₁) →
      Agrees ⟨s₁, fuel, m₁, r⟩) : a.Is n.ctype ↔ ¬ Reason s fuel m (.binary l op r i) := by
  simp only [check, Check.gives_bind, Check.gives_ofExcept] at hc
  obtain ⟨b, s₁, hb, c, s₂, hc, htype, -⟩ := hc
  rw [binary_eq hf] at he
  obtain ⟨v, m₁, hv, hrest⟩ := Run.execute_bind_ok he
  obtain ⟨u, m₂, hu, hcombine⟩ := Run.execute_bind_ok hrest
  obtain ⟨store, _, -, hresult⟩ := Run.execute_bind_ok hcombine
  have hresult := (Eval.execute_ofExcept_ok hresult).1
  obtain ⟨x, y, hx, hy⟩ := Eval.operator_ok hf hresult hw
  obtain ⟨d, hd, hdecided⟩ := Eval.operator_decided hf store hx hy
  obtain ⟨hadmits, hresults⟩ := hdecided.of_ok (Eval.number_map_ok (hd.symm.trans hresult) hw)
  obtain ⟨b, rfl, hbx⟩ := Typing.is_iff.1 (hl b x ⟨⟨s₁, hb⟩, m₁, v, hv, hx⟩)
  obtain ⟨c, rfl, hcy⟩ := Typing.is_iff.1 (hr _ s₁ v m₁ hb hv c y ⟨⟨s₂, hc⟩, m₂, u, hu, hy⟩)
  by_cases hcmp : compares op.kind = true
  · obtain ⟨t, ht, hat⟩ := comparison_types htype hbx hcy hadmits hcmp
    have hint : n.ctype = .int := by
      cases hk : op.kind <;> rw [hk] at hcmp hresults <;> cases hcmp <;> exact hresults
    rw [hint, hat.congr]
    constructor
    · rintro hsame (⟨-, x', m₁', y', m₂', t', ⟨v', hv', hx'⟩, ⟨u', hu', hy'⟩, ht', hnot⟩ |
        ⟨_, _, _, _, _, _, -, -, -, hdecider, -⟩)
      · cases hv.symm.trans hv'
        cases hx.symm.trans hx'
        cases hu.symm.trans hu'
        cases hy.symm.trans hy'
        cases ht.symm.trans ht'
        exact Bool.noConfusion (hsame.symm.trans hnot)
      · rcases hdecider.logical with hk | hk <;> rw [hk] at hf <;> cases hf
    · intro hno
      by_contra hnot
      exact hno (.inl ⟨hcmp, x, m₁, y, m₂, t, ⟨v, hv, hx⟩, ⟨u, hu, hy⟩, ht,
        Bool.eq_false_iff.2 hnot⟩)
  · refine iff_of_true
      (operator_types htype hbx hcy hadmits hresults (Bool.eq_false_iff.2 hcmp)) ?_
    rintro (⟨hcmp', -⟩ | ⟨_, _, _, _, _, _, -, -, -, hdecider, -⟩)
    · exact hcmp hcmp'
    · rcases hdecider.logical with hk | hk <;> rw [hk] at hf <;> cases hf

theorem logical_agrees {l r : Tree} {op : Token} (hc : (check (.binary l op r i)).Gives s a s')
    (hn : Decider fuel m l op.kind r n) : a.Is n.ctype ↔ ¬ Reason s fuel m (.binary l op r i) := by
  simp only [check, Check.gives_bind, Check.gives_ofExcept] at hc
  obtain ⟨b, s₁, hb, c, s₂, hc, htype, -⟩ := hc
  have hcombine := Analysis.binaryType_logical hn.logical htype
  constructor
  · rintro his (⟨hcmp, -⟩ | ⟨b', s₁', c', s₂', d, x, hb', hc', hd, hx, hnot⟩)
    · rcases hn.logical with hk | hk <;> rw [hk] at hcmp <;> cases hcmp
    · cases hb.symm.trans hb'
      cases hc.symm.trans hc'
      cases hcombine.symm.trans hd
      obtain rfl := hn.unique hx
      exact hnot his
  · intro hno
    by_contra hnot
    exact hno (.inr ⟨b, s₁, c, s₂, a, n, hb, hc, hcombine, hn, hnot⟩)

theorem binary_agrees {l r : Tree} {op : Token} (hc : (check (.binary l op r i)).Gives s a s')
    (he : Yields (fuel + 1) (.binary l op r i) m n m')
    (hq : ∀ q, Operand ⟨s, fuel + 1, m, .binary l op r i⟩ q → q.Agrees) :
    a.Is n.ctype ↔ ¬ Reason s fuel m (.binary l op r i) := by
  rcases he with ⟨w, he, hw⟩
  cases hf : Eval.operator? op.kind with
  | some f =>
    have hsome : (Eval.operator? op.kind).isSome = true := by rw [hf]; rfl
    apply operator_agrees hf hc he hw
    · exact hq _ (.left (.inr (.inr hsome)))
    · exact fun b s₁ v m₁ hb hv => hq _ (.right hb hv (.inr (.inr hsome)))
  | none =>
    apply logical_agrees hc
    change (Eval.binary (eval fuel) l op r).execute m = _ at he
    unfold Eval.binary at he
    split at he
    · next hk =>
      obtain ⟨v, m₁, hv, hrest⟩ := Run.execute_bind_ok he
      cases ht : v.truth with
      | true =>
        rw [ht] at hrest
        exact .inr ⟨v, m₁, m', hv, ⟨w, hrest, hw⟩, .inl ⟨hk, ht⟩⟩
      | false =>
        rw [ht] at hrest
        cases hrest
        exact .inl ⟨w, _, hv, hw, .inl ⟨hk, ht⟩⟩
    · next hk =>
      obtain ⟨v, m₁, hv, hrest⟩ := Run.execute_bind_ok he
      cases ht : v.truth with
      | true =>
        rw [ht] at hrest
        cases hrest
        exact .inl ⟨w, _, hv, hw, .inr ⟨hk, ht⟩⟩
      | false =>
        rw [ht] at hrest
        exact .inr ⟨v, m₁, m', hv, ⟨w, hrest, hw⟩, .inr ⟨hk, ht⟩⟩
    · obtain ⟨_, _, -, hread⟩ := Run.execute_bind_ok he
      obtain ⟨_, _, -, hentry⟩ := Run.execute_bind_ok hread
      obtain ⟨_, _, -, hcell⟩ := Run.execute_bind_ok hentry
      obtain ⟨_, _, -, hpure⟩ := Run.execute_bind_ok hcell
      cases hpure
      cases hw
    · rw [hf] at he
      cases he
      cases hw

theorem referTo_int (he : (Eval.referTo e).execute m = (.ok w, m')) (hw : w.number? = some n) :
    n.ctype = .int := by
  obtain ⟨name, _, -, hrest⟩ := Run.execute_bind_ok he
  obtain ⟨b, _, -, hrest⟩ := Run.execute_bind_ok hrest
  cases b with
  | _ =>
    obtain ⟨k, _, hk, hpure⟩ := Run.execute_bind_ok hrest
    cases hpure
    cases hw
    exact Run.makeNumber_type hk

theorem behind_agrees (hc : (check e).Gives s a s₁)
    (he : (Eval.behind op e).execute m = (.ok w, m')) (hw : w.number? = some n) :
    a.Is n.ctype ↔ ¬ UnaryReason s fuel m op e false := by
  cases op
  case incOp | decOp =>
    obtain ⟨r, _, hr, hpure⟩ := Run.execute_bind_ok he
    cases hpure
    exact step_agrees hc hr (.inl hw)
  all_goals cases he

/-- The operators before their operands, apart from those that give an address or what is there. -/
theorem before_agrees (hc : (check e).Gives s a s₁)
    (he : (Eval.before (eval fuel) op e).execute m = (.ok w, m')) (hw : w.number? = some n)
    (hop : op ≠ .asterisk ∧ op ≠ .ampersand)
    (hq : Eval.onPlace op = false → Agrees ⟨s, fuel, m, e⟩) :
    a.Is n.ctype ↔ ¬ UnaryReason s fuel m op e true := by
  cases op
  case asterisk => exact absurd rfl hop.1
  case ampersand => exact absurd rfl hop.2
  case incOp | decOp =>
    obtain ⟨r, _, hr, hpure⟩ := Run.execute_bind_ok he
    cases hpure
    exact step_agrees hc hr (.inr hw)
  case minus => exact minus_agrees hc he hw (hq rfl)
  case logNeg => exact logNeg_agrees hc he hw (hq rfl)
  case plus => exact iff_of_true (hq rfl a n ⟨⟨s₁, hc⟩, m', w, he, hw⟩) id
  all_goals cases he

theorem unary_agrees {op : Token} {f : Bool} (hc : (check (.unary op e f i)).Gives s a s')
    (he : Yields (fuel + 1) (.unary op e f i) m n m')
    (hq : ∀ q, Operand ⟨s, fuel + 1, m, .unary op e f i⟩ q → q.Agrees) :
    a.Is n.ctype ↔ ¬ UnaryReason s fuel m op.kind e f := by
  rcases he with ⟨w, he, hw⟩
  simp only [check, Check.gives_bind, Check.gives_ofExcept] at hc
  obtain ⟨b, s₁, hb, htype, -⟩ := hc
  cases f with
  | false =>
    change (Eval.behind op.kind e).execute m = _ at he
    rcases Analysis.unaryType_cases htype with ⟨hop, -⟩ | ⟨-, ha⟩
    · rw [hop] at he
      cases he
    · split at ha
      · next hamp =>
        rw [hamp] at he
        cases he
      · rw [ha]
        exact behind_agrees hb he hw
  | true =>
    change (Eval.before (eval fuel) op.kind e).execute m = _ at he
    have hoperand (hop : Eval.onPlace op.kind = false) := hq _ (.unary hop)
    rcases Analysis.unaryType_cases htype with ⟨hop, hderef⟩ | ⟨hop, ha⟩
    · rw [hop] at he ⊢
      exact dereference_agrees hb hderef he hw
    · split at ha
      · next hamp =>
        rw [hamp] at he ⊢
        rw [referTo_int he hw, ha]
        exact iff_of_true (Typing.is_self .int) id
      · next hamp =>
        rw [ha]
        exact before_agrees hb he hw ⟨hop, hamp⟩ hoperand

/-- A sequence has the type of the last of its parts. -/
theorem sequence_agrees {ts : List Tree} {b : Typing} {v : Value}
    (hc : (Analysis.checkLast b ts).Gives s a s')
    (he : (Eval.sequence (eval fuel) v ts).execute m = (.ok w, m')) (hw : w.number? = some n)
    (hv : ∀ x, v.number? = some x → b.Is x.ctype) (hq : ∀ q, Along fuel s m ts q → q.Agrees) :
    a.Is n.ctype := by
  induction ts generalizing s m b v with
  | nil =>
    simp only [Analysis.checkLast, Check.gives_pure] at hc
    obtain ⟨rfl, -⟩ := hc
    cases he
    exact hv n hw
  | cons t ts ih =>
    simp only [Analysis.checkLast, Check.gives_bind] at hc
    obtain ⟨c, s₁, ht, hrest⟩ := hc
    obtain ⟨u, m₁, hu, htail⟩ := Run.execute_bind_ok he
    apply ih hrest htail
    · intro x hx
      exact hq _ (.here s m t ts) c x ⟨⟨s₁, ht⟩, m₁, u, hu, hx⟩
    · exact fun q h => hq q (.there ht hu h)

theorem call_agrees {f : String} {args : List Tree} (hc : (check (.call f args i)).Gives s a s')
    (he : Yields (fuel + 1) (.call f args i) m n m') :
    a.Is n.ctype ↔ ¬ Reason s fuel m (.call f args i) := by
  rcases he with ⟨w, he, hw⟩
  obtain ⟨vs, m₁, v, m₂, hvs, hv, htype⟩ := Eval.call_type he hw
  obtain ⟨g, type, params, hlookup, rfl, -⟩ := Analysis.gives_call hc
  constructor
  · rintro his ⟨g', type', params', vs', m₁', v', m₂', t, hlookup', hvs', hv', ht, hnot⟩
    cases hlookup.symm.trans hlookup'
    cases hvs.symm.trans hvs'
    cases hv.symm.trans hv'
    cases htype.symm.trans ht
    exact hnot his
  · intro hno
    by_contra hnot
    exact hno ⟨g, type, params, vs, m₁, v, m₂, n.ctype, hlookup, hvs, hv, htype, hnot⟩

/-- If the parts of an expression agree, a number is of the type that was found out unless there is
a reason against it. -/
theorem is_iff_not_reason {t : Tree} (ht : t.isExpression = true)
    (hq : ∀ q, Operand ⟨s, fuel + 1, m, t⟩ q → q.Agrees)
    (hg : Gives ⟨s, fuel + 1, m, t⟩ a n) : a.Is n.ctype ↔ ¬ Reason s fuel m t := by
  rcases hg with ⟨⟨s', hc⟩, m', he⟩
  cases t with
  | num => exact num_agrees hc he
  | var => exact var_agrees hc he
  | field => exact field_agrees hc he
  | assign => exact assign_agrees hc he
  | call => exact call_agrees hc he
  | binary => exact binary_agrees hc he hq
  | unary => exact unary_agrees hc he hq
  | cast => exact iff_of_true (cast_agrees hc he) id
  | sequence ts i =>
    rcases he with ⟨w, he, hw⟩
    refine iff_of_true (sequence_agrees hc he hw ?_ fun q h => hq q (.sequence h)) id
    rintro x ⟨⟩
  | string =>
    rcases he with ⟨w, ⟨⟩, hw⟩
    cases hw
  | ternary =>
    rcases he with ⟨w, he, -⟩
    cases he
  | _ => cases ht

/-! ## Everything inside an expression -/

theorem agrees_iff (ht : q.tree.isExpression = true) (hq : ∀ p, Operand q p → p.Agrees) :
    q.Agrees ↔ ¬ q.Diverges := by
  rcases q with ⟨s, fuel, m, t⟩
  cases fuel with
  | zero =>
    have hnone {a : Typing} {n : Number} : ¬ Gives ⟨s, 0, m, t⟩ a n := by
      rintro ⟨-, m', w, he, -⟩
      cases he
    refine iff_of_true (fun a n hg => absurd hg hnone) ?_
    rintro ⟨⟨a, n, hg⟩, -⟩
    exact hnone hg
  | succ fuel =>
    constructor
    · rintro hagrees ⟨⟨a, n, hg⟩, hreason⟩
      exact (is_iff_not_reason ht hq hg).1 (hagrees a n hg) hreason
    · intro hno a n hg
      exact (is_iff_not_reason ht hq hg).2 fun hreason => hno ⟨⟨a, n, hg⟩, hreason⟩

theorem Along.grammatical {ts : List Tree} (h : Along fuel s m ts q)
    (hts : ∀ t ∈ ts, t.Grammatical .expression) :
    q.tree.Grammatical .expression ∧ q.fuel = fuel := by
  induction h with
  | here s m t ts => exact ⟨hts t (List.mem_cons_self ..), rfl⟩
  | there _ _ _ ih => exact ih fun t ht => hts t (List.mem_cons_of_mem _ ht)

/-- The parts of an expression are expressions, and are evaluated in fewer steps. -/
theorem Operand.grammatical {p : Occurrence} (h : Operand q p)
    (hq : q.tree.Grammatical .expression) :
    p.tree.Grammatical .expression ∧ q.fuel = p.fuel + 1 := by
  cases h with
  | left =>
    cases hq with
    | binary _ _ _ hl => exact ⟨hl, rfl⟩
  | right =>
    cases hq with
    | binary _ _ _ _ hr => exact ⟨hr, rfl⟩
  | unary =>
    cases hq with
    | unary _ _ _ _ he => exact ⟨he, rfl⟩
  | cast =>
    cases hq with
    | cast _ _ _ he => exact ⟨he, rfl⟩
  | assign =>
    cases hq with
    | assign _ _ _ hv => exact ⟨hv, rfl⟩
  | sequence h =>
    cases hq with
    | sequence _ hts =>
      obtain ⟨hp, hfuel⟩ := h.grammatical hts
      exact ⟨hp, congrArg (· + 1) hfuel.symm⟩
  | call h =>
    cases hq with
    | call _ _ hts =>
      obtain ⟨hp, hfuel⟩ := h.grammatical hts
      exact ⟨hp, congrArg (· + 1) hfuel.symm⟩

/-- If nothing inside an expression diverges, it agrees. The induction is on the bound on the steps,
since the arguments of a call are a list of trees. -/
theorem agrees_of_inside (hg : q.tree.Grammatical .expression)
    (h : ∀ p, Inside q p → ¬ p.Diverges) : q.Agrees := by
  induction hfuel : q.fuel generalizing q with
  | zero =>
    apply (agrees_iff (isExpression_of_grammatical hg) ?_).2 (h q .refl)
    intro p hp
    have := (hp.grammatical hg).2
    omega
  | succ fuel ih =>
    apply (agrees_iff (isExpression_of_grammatical hg) ?_).2 (h q .refl)
    intro p hp
    obtain ⟨hgp, hsucc⟩ := hp.grammatical hg
    apply ih hgp
    · exact fun r hr => h r (.head hp hr)
    · omega

theorem Inside.grammatical {p : Occurrence} (h : Inside q p) (hq : q.tree.Grammatical .expression) :
    p.tree.Grammatical .expression := by
  induction h with
  | refl => exact hq
  | tail _ hp ih => exact (hp.grammatical ih).1

/-- Everything inside an expression agrees if and only if nothing diverges. -/
theorem all_agree_iff (hq : q.tree.Grammatical .expression) :
    (∀ p, Inside q p → p.Agrees) ↔ ∀ p, Inside q p → ¬ p.Diverges := by
  constructor
  · intro h p hp
    have hexpr := isExpression_of_grammatical (hp.grammatical hq)
    exact (agrees_iff hexpr fun r hr => h r (hp.tail hr)).1 (h p hp)
  · intro h p hp
    exact agrees_of_inside (hp.grammatical hq) fun r hr => h r (hp.trans hr)

end Occurrence

/-! ## Expressions of a program -/

/-- The analysis gets to every expression of an accepted program that is evaluated, and checks
it. -/
theorem Visit.StandsAt.checked {program : Tree} {v : Visit} {p : Place}
    (hp : program.Grammatical .program) (ha : (Analysis.analyze program).1.isOk = true)
    (h : v.StandsAt program p) (hcontext : v.context ≠ []) (ht : v.tree.isExpression = true) :
    ∃ s a s', Analysis.At s p ∧ (check v.tree).Gives s a s' := by
  cases h with
  | behind _ hnil => exact absurd hnil hcontext
  | within hchain htree =>
    obtain ⟨-, s, a, s', hs, -, hgives⟩ := Analysis.accepted_places hp ha hchain.occurs
    have hlabel : v.tree.isLabel = false := by
      cases hv : v.tree with
      | caseLabel | defaultLabel =>
        rw [hv] at ht
        cases ht
      | _ => rfl
    rw [htree, Analysis.checkPart_eq hlabel] at hgives
    exact ⟨s, a, s', hs, hgives⟩

/-- In the run of an accepted program, every expression that is evaluated has been checked where it
stands. Whatever is evaluated inside it gives numbers of the types that were found out, if and only
if nothing inside it diverges. -/
theorem number_types_agree_iff {code : String} {program : Tree}
    (hp : Program.parse code = .ok program) (ha : (Analysis.analyze program).1.isOk = true)
    {fuel : Nat} {m : Machine} (hm : m.store = Store.empty) {v : Visit}
    (hv : .enter v ∈ history fuel program m) (hcontext : v.context ≠ [])
    (ht : v.tree.isExpression = true) :
    ∃ p, v.StandsAt program p ∧ (∃ s a s', Analysis.At s p ∧ (check v.tree).Gives s a s') ∧
      ∀ s, Analysis.At s p →
        ((∀ r, Occurrence.Inside ⟨s, v.fuel, v.before, v.tree⟩ r → r.Agrees) ↔
          ∀ r, Occurrence.Inside ⟨s, v.fuel, v.before, v.tree⟩ r → ¬ r.Diverges) := by
  have hg := Program.parse_grammatical hp
  obtain ⟨p, hstands⟩ := history_standsAt hg hm hv ht
  refine ⟨p, hstands, hstands.checked hg ha hcontext ht, fun s _ => ?_⟩
  apply Occurrence.all_agree_iff
  rcases (history_sound hm hv).1 with hwithin | hmain
  · obtain ⟨k, hk⟩ := hwithin.grammatical hg
    exact hk.toExpression ht
  · change v.tree = _ at hmain
    rw [hmain]
    exact .call "main" 0 (List.forall_mem_nil _)

def Visit.negatesOther (v : Visit) : Bool :=
  match v.tree with
  | .unary op e true _ => v.fuel != 0 && op.kind == .logNeg && !v.context.isEmpty &&
    Eval.yieldsSuch (v.fuel - 1) e v.before (fun x => !x.ctype.same .int) &&
    Eval.yieldsSuch v.fuel v.tree v.before fun _ => true
  | _ => false

/-- The negation of a `char` is an `int`, but the analysis takes it for a `char`. -/
theorem number_types_agree_iff_negation :
    ∃ program v p s,
      Program.parse "int main()\x7b char c; c = 1; return !c; \x7d" = .ok program ∧
      (Analysis.analyze program).1.isOk = true ∧
      Event.enter v ∈ history 20 program (Machine.start "") ∧ v.StandsAt program p ∧
      Analysis.At s p ∧
      ¬ ∀ r, Occurrence.Inside ⟨s, v.fuel, v.before, v.tree⟩ r → r.Agrees := by
  have hrun : ((Program.parse "int main()\x7b char c; c = 1; return !c; \x7d").toOption.any
      fun t => (Analysis.analyze t).1.isOk && (history 20 t (Machine.start "")).any fun e =>
        e.entered?.any Visit.negatesOther) = true := by
    decide +kernel
  obtain ⟨program, hp, haccepted, v, hv, hnegates⟩ := Program.exists_visit hrun
  unfold Visit.negatesOther at hnegates
  split at hnegates
  · next op e n htree =>
    simp only [Bool.and_eq_true, bne_iff_ne, beq_iff_eq, Bool.not_eq_true',
      List.isEmpty_eq_false_iff] at hnegates
    obtain ⟨⟨⟨⟨-, hop⟩, hcontext⟩, hoperand⟩, hresult⟩ := hnegates
    obtain ⟨x, hx, hother⟩ := Eval.exists_yields hoperand
    obtain ⟨y, hy, -⟩ := Eval.exists_yields hresult
    have hexpr : v.tree.isExpression = true := by
      rw [htree]
      rfl
    obtain ⟨p, hstands, ⟨s, a, s', hs, hgives⟩, hiff⟩ :=
      number_types_agree_iff hp haccepted rfl hv hcontext hexpr
    refine ⟨program, v, p, s, hp, haccepted, hv, hstands, hs, fun hagree => ?_⟩
    apply (hiff s hs).1 hagree ⟨s, v.fuel, v.before, v.tree⟩ .refl
    refine ⟨⟨a, y, ⟨s', hgives⟩, _, hy⟩, ?_⟩
    simp only [htree, Occurrence.Reason, hop]
    exact ⟨x, _, hx, by simpa using hother⟩
  · cases hnegates

end MiniC
