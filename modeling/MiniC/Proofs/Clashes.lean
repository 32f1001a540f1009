import MiniC.Analysis.Typing
import MiniC.Proofs.Arithmetic

/-!
# Types that do not fit

The rules for the types of operators and assignments either give a type, or find an error of the
program, or fail because a type has not the part that they ask for. When they fail is told here by
the types alone: which of them are known, are numbers, are structures or point to something.
-/

namespace MiniC

namespace Typing

def isKnown : Typing → Bool
  | type _ => true
  | _ => false

def isNumber : Typing → Bool
  | type (.number _) => true
  | _ => false

/-- A structure, and not a pointer to one. -/
def isStructure : Typing → Bool
  | type (.struct t) => !t.pointer
  | _ => false

def points : Typing → Bool
  | type (.number t) => t.pointer
  | type (.struct t) => t.pointer
  | _ => false

def hasIntBase : Typing → Bool
  | type (.number t) => t.base = some .int
  | _ => false

def isArithmetic : Typing → Bool
  | type (.number t) => t.isArithmetic
  | _ => false

inductive Clash (op : Kind) (a b : Typing) : Fault → Prop
  | bitwiseLeft (ho : Analysis.isBitwise op = true) (ha : a.isNumber = false) :
      Clash op a b .noSuchPart
  | bitwiseRight (ho : Analysis.isBitwise op = true) (ha : a.hasIntBase = true)
      (hb : b.isNumber = false) : Clash op a b .noSuchPart
  | unknown (ho : Analysis.isBitwise op = false) (h : a.isKnown = false ∨ b.isKnown = false) :
      Clash op a b .noSuchPart
  | pointerWithStructure (ho : Analysis.isBitwise op = false)
      (h : a.points = true ∧ b.isStructure = true ∨ a.isStructure = true ∧ b.points = true) :
      Clash op a b .noSuchPart
  | noCommonType (ho : Analysis.isBitwise op = false) (ha : a.isKnown = true) (hb : b.isKnown = true)
      (hpa : a.points = false) (hpb : b.points = false)
      (h : a.isArithmetic = false ∨ b.isArithmetic = false) : Clash op a b .outsideDomain

end Typing

def Tree.isCast : Tree → Bool
  | cast .. => true
  | _ => false

inductive Typing.Unfit (op : Kind) (e : Tree) (t : Typing) : Prop
  | steppedCast (ho : Analysis.isStep op = true) (he : e.isCast = true)
  | dereferenced (ho : op = .asterisk) (ht : t.isNumber = false)
  | unknown (ho : op ≠ .asterisk) (ht : t.isKnown = false)
      (he : Analysis.isStep op = true → Analysis.isPlace e = .ok true)

inductive Typing.Unassignable (op : Kind) (target : Tree) (a b : Typing) : Prop
  | castTarget (ht : target.isCast = true)
  | unknownTarget (ht : Analysis.isPlace target = .ok true) (ha : a.isKnown = false)
  | pointerTarget (ht : Analysis.isPlace target = .ok true) (ha : a.points = true)
      (hb : b.isNumber = false) (ho : op = .addAssign ∨ op = .subAssign ∨
        op = .assign ∧ ¬(b.points = true ∧ a.same b = true))

namespace Rejection

variable {α β : Type} {f : Fault}

def Faults (r : Except Rejection α) (f : Fault) : Prop :=
  r = .error (.fault f)

theorem faults_bind {r : Except Rejection α} {g : α → Except Rejection β} :
    Faults (r >>= g) f ↔ Faults r f ∨ ∃ a, r = .ok a ∧ Faults (g a) f := by
  cases r with
  | ok a =>
    constructor
    · intro h
      exact .inr ⟨a, rfl, h⟩
    · rintro (⟨⟨⟩⟩ | ⟨_, ⟨⟩, h⟩)
      exact h
  | error e =>
    constructor
    · intro h
      obtain rfl := Except.error.inj h
      exact .inl rfl
    · rintro (h | ⟨_, ⟨⟩, _⟩)
      obtain rfl := Except.error.inj h
      rfl

theorem faults_pure {a : α} : Faults (pure a) f ↔ False :=
  ⟨fun h => (by cases h), False.elim⟩

theorem faults_throw {e : SemanticError} :
    Faults (throw (.error e) : Except Rejection α) f ↔ False :=
  ⟨fun h => (by cases h), False.elim⟩

theorem throw_eq_ok {e : Rejection} {a : α} : (throw e : Except Rejection α) = .ok a ↔ False :=
  ⟨fun h => (by cases h), False.elim⟩

theorem faults_ite {c : Prop} [Decidable c] {r r' : Except Rejection α} :
    Faults (if c then r else r') f ↔ c ∧ Faults r f ∨ ¬c ∧ Faults r' f := by
  by_cases h : c
  · rw [if_pos h]
    simp [h]
  · rw [if_neg h]
    simp [h]

variable {t a b : Typing}

theorem faults_isPointer : Faults t.isPointer f ↔ t.isKnown = false ∧ f = .noSuchPart := by
  rcases t with _ | (c | c) | _ <;> simp [Faults, Typing.isPointer, Typing.isKnown, eq_comm]

theorem isPointer_eq_ok {x : Bool} : t.isPointer = .ok x ↔ t.isKnown = true ∧ x = t.points := by
  rcases t with _ | (c | c) | _ <;>
    simp [Typing.isPointer, Typing.isKnown, Typing.points, eq_comm]

theorem faults_isInt : Faults t.isInt f ↔ t.isNumber = false ∧ f = .noSuchPart := by
  rcases t with _ | (c | c) | _ <;> simp [Faults, Typing.isInt, Typing.isNumber, eq_comm]

theorem isInt_eq_ok {x : Bool} : t.isInt = .ok x ↔ t.isNumber = true ∧ x = t.hasIntBase := by
  rcases t with _ | (c | c) | _ <;>
    simp [Typing.isInt, Typing.isNumber, Typing.hasIntBase, eq_comm]

theorem faults_dereference : Faults t.dereference f ↔ t.isNumber = false ∧ f = .noSuchPart := by
  rcases t with _ | (c | c) | _ <;> simp [Faults, Typing.dereference, Typing.isNumber, eq_comm]

theorem isKnown_of_isNumber (h : t.isNumber = true) : t.isKnown = true := by
  rcases t with _ | (c | c) | _ <;> first | rfl | cases h

theorem isStructure_eq : t.isStructure = (t.isKnown && !t.isNumber && !t.points) := by
  rcases t with _ | (c | c) | _ <;> rfl

theorem isNumber_of_hasIntBase (h : t.hasIntBase = true) : t.isNumber = true := by
  rcases t with _ | (c | c) | _ <;> first | rfl | cases h

theorem isArithmetic_of_hasIntBase (h : t.hasIntBase = true) (hp : t.points = false) :
    t.isArithmetic = true := by
  rcases t with _ | (⟨l, g, e, p⟩ | c) | _ <;> first | cases h | skip
  obtain rfl : p = false := hp
  obtain rfl : e = some .int := by simpa [Typing.hasIntBase] using h
  rcases l with _ | _ | _ | _ <;> rcases g with _ | _ | _ <;> rfl

theorem combine_eq_error {x y : CType} (hx : x.pointer = false) (hy : y.pointer = false) :
    x.combine y = .error f ↔
      (x.isArithmetic = false ∨ y.isArithmetic = false) ∧ f = .outsideDomain := by
  cases hxa : x.isArithmetic with
  | false =>
    have hcombine : x.combine y = .error .outsideDomain := by
      simp [CType.combine, hx, hy, Option.not_isSome_iff_eq_none.1 (Bool.eq_false_iff.1 hxa)]
    rw [hcombine, Except.error.injEq]
    exact ⟨fun h => ⟨.inl rfl, h.symm⟩, fun h => h.2.symm⟩
  | true =>
    cases hya : y.isArithmetic with
    | false =>
      have hcombine : x.combine y = .error .outsideDomain := by
        simp [CType.combine, hx, hy, Option.not_isSome_iff_eq_none.1 (Bool.eq_false_iff.1 hya)]
      rw [hcombine, Except.error.injEq]
      exact ⟨fun h => ⟨.inr rfl, h.symm⟩, fun h => h.2.symm⟩
    | true =>
      obtain ⟨t, ht, -⟩ := CType.combine_isOk hxa hya
      rw [ht]
      simp

theorem faults_combine (ha : a.points = false) (hb : b.points = false) :
    Faults (a.combine b) f ↔
      (a.isKnown = false ∨ b.isKnown = false) ∧ f = .noSuchPart ∨
      a.isKnown = true ∧ b.isKnown = true ∧ (a.isArithmetic = false ∨ b.isArithmetic = false) ∧
        f = .outsideDomain := by
  rcases a with _ | (x | x) | _ <;> rcases b with _ | (y | y) | _ <;>
    simp [Faults, Typing.combine, Typing.isKnown, Typing.isArithmetic, eq_comm (b := f)]
  rw [← combine_eq_error ha hb]
  cases x.combine y with
  | ok t => simp
  | error e => simp

open Analysis

theorem faults_binaryType {op : Kind} {line : Nat} :
    Faults (binaryType op line a b) f ↔ Typing.Clash op a b f := by
  have h₁ := @isKnown_of_isNumber
  have h₂ := @isStructure_eq
  have h₃ := @isNumber_of_hasIntBase
  have h₄ := @isArithmetic_of_hasIntBase
  simp only [binaryType, faults_ite, faults_bind, faults_pure, faults_throw, throw_eq_ok,
    faults_isPointer, isPointer_eq_ok, faults_isInt, isInt_eq_ok, false_and, exists_false, or_false,
    and_false]
  grind [Typing.Clash, faults_combine]

theorem faults_isPlace {e : Tree} : Faults (isPlace e) f ↔ e.isCast = true ∧ f = .noSuchPart := by
  unfold isPlace
  split
  all_goals simp [Faults, Tree.isCast, eq_comm (b := f)]

theorem faults_unaryType {op : Kind} {line : Nat} {e : Tree} :
    Faults (unaryType op line e t) f ↔ Typing.Unfit op e t ∧ f = .noSuchPart := by
  have hknown := isKnown_of_isNumber (t := t)
  simp only [unaryType, faults_ite, faults_bind, faults_pure, faults_throw, throw_eq_ok,
    faults_isPointer, isPointer_eq_ok, faults_isInt, isInt_eq_ok, faults_dereference,
    faults_isPlace, false_and, exists_false, or_false, and_false]
  grind [Typing.Unfit, isStep]

theorem faults_pointerTakes {op : Kind} :
    Faults (pointerTakes op a b) f ↔ (op = .addAssign ∨ op = .subAssign ∨
        op = .assign ∧ ¬(b.points = true ∧ a.same b = true)) ∧ b.isNumber = false ∧
      f = .noSuchPart := by
  have hknown := isKnown_of_isNumber (t := b)
  have hpoints : b.points = true → b.isKnown = true := by
    rcases b with _ | _ | _ <;> simp [Typing.points, Typing.isKnown]
  unfold pointerTakes
  split
  all_goals simp only [faults_ite, faults_bind, faults_pure, faults_isPointer, isPointer_eq_ok,
    faults_isInt]
  all_goals grind

theorem faults_assignType {op : Kind} {line : Nat} {target : Tree} :
    Faults (assignType op line target a b) f ↔
      Typing.Unassignable op target a b ∧ f = .noSuchPart := by
  have hpoints : a.points = true → a.isKnown = true := by
    rcases a with _ | _ | _ <;> simp [Typing.points, Typing.isKnown]
  simp only [assignType, faults_ite, faults_bind, faults_pure, faults_throw, throw_eq_ok,
    faults_isPointer, isPointer_eq_ok, faults_isPlace, faults_pointerTakes, false_and,
    exists_false, or_false, and_false]
  grind [Typing.Unassignable]

end Rejection

end MiniC
