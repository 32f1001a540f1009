import MiniC.Proofs.Layout
import MiniC.Proofs.Lookup
import MiniC.Proofs.Operators

/-!
# Nodes whose operands are numbers

What happens to an operator, a conversion or an assignment whose operands have been evaluated to
numbers: whether it gives a number or divides by zero, and the type of the number. The analysis
accepts more than can be evaluated. For operands of the types that the analysis has found out, the
operators between two operands and the assignments for which this is so are listed.
-/

namespace MiniC

/-- The type of the number that is read from a cell. A cell that is not there is made, with an
`int`. -/
def Store.typeAt? (s : Store) (a : Scalar) : Option CType :=
  match s.read? a with
  | some v => v.number?.map (·.ctype)
  | none => some .int

namespace Eval

def Yields (fuel : Nat) (t : Tree) (m : Machine) (x : Number) (m' : Machine) : Prop :=
  ∃ a, (eval fuel t).execute m = (.ok a, m') ∧ a.number? = some x

def Decides (op : Kind) (x : Number) : Prop :=
  op = .logAndOp ∧ x.truth = false ∨ op = .logOrOp ∧ x.truth = true

instance (op : Kind) (x : Number) : Decidable (Decides op x) :=
  inferInstanceAs (Decidable (_ ∨ _))

def onPlace : Kind → Bool
  | .ampersand | .incOp | .decOp => true
  | _ => false

/-- The operands of a node are evaluated to numbers, one after the other. One that stands for a
place is not evaluated by the rule for the node, so any number of steps may be taken for it. -/
inductive Operands (fuel : Nat) (m : Machine) : Tree → List Number → Machine → Prop
  | both {l r : Tree} {op : Token} {n : Nat} {x y : Number} {m₁ m₂ : Machine}
      (hl : Yields fuel l m x m₁) (hr : Yields fuel r m₁ y m₂) :
      Operands fuel m (.binary l op r n) [x, y] m₂
  | decided {l r : Tree} {op : Token} {n : Nat} {x : Number} {m₁ : Machine}
      (hl : Yields fuel l m x m₁) (hx : Decides op.kind x) :
      Operands fuel m (.binary l op r n) [x] m₁
  | value {e : Tree} {op : Token} {b : Bool} {n : Nat} {x : Number} {m₁ : Machine}
      (he : Yields fuel e m x m₁) (hop : onPlace op.kind = false) :
      Operands fuel m (.unary op e b n) [x] m₁
  | place {e : Tree} {op : Token} {b : Bool} {k n : Nat} {x : Number} {m₁ : Machine}
      (he : Yields k e m x m₁) (hop : onPlace op.kind = true) :
      Operands fuel m (.unary op e b n) [x] m₁
  | cast {target e : Tree} {b : Bool} {n : Nat} {x : Number} {m₁ : Machine}
      (he : Yields fuel e m x m₁) : Operands fuel m (.cast target e b n) [x] m₁
  | assign {target value : Tree} {op : Token} {k n : Nat} {x y : Number} {m₁ m₂ : Machine}
      (ht : Yields k target m x m₁) (hv : Yields fuel value m₁ y m₂) :
      Operands fuel m (.assign target op value n) [x, y] m₂
  | ternary (c a b : Tree) (n : Nat) : Operands fuel m (.ternary c a b n) [] m

def NamesConstant (m : Machine) (t : Tree) : Prop :=
  ∃ k i n, t = .var k i ∧ m.store.lookup k.value.render = .ok (.constant n)

def PrefixWorks (m m' : Machine) (op : Kind) (e : Tree) (x : Number) : Prop :=
  match op with
  | .ampersand => NamesConstant m e → Number.Converts .int x.value
  | .plus | .logNeg => True
  | .minus => x.ctype.isArithmetic = true
  | .asterisk => (m'.store.typeAt? x.value.toScalar).isSome = true
  | _ => ¬ NamesConstant m e ∧ Number.Steps op x

def PrefixTypes (m' : Machine) (op : Kind) (x : Number) (t : CType) : Prop :=
  match op with
  | .ampersand | .logNeg => t = .int
  | .minus => CType.combine .int x.ctype = .ok t
  | .asterisk => m'.store.typeAt? x.value.toScalar = some t
  | _ => t = x.ctype

/-- Whether a node has a value if its operands are numbers. They are evaluated from the first of the
machines to the second. -/
def Works (m m' : Machine) : Tree → List Number → Prop
  | .binary _ op _ _, [x, y] => Number.Admits op.kind x y
  | .binary _ _ _ _, [_] => True
  | .unary op e true _, [x] => PrefixWorks m m' op.kind e x
  | .unary op e false _, [x] => ¬ NamesConstant m e ∧ Number.Steps op.kind x
  | .cast (.typeName (.number t) _) _ true _, [x] =>
    t.limits?.isSome = true ∧ Number.Converts t x.value
  | .assign target op _ _, [x, y] => ¬ NamesConstant m target ∧ Number.Takes op.kind x y
  | _, _ => False

/-- The type of what an operator between two operands gives. A logical operator gives the operand
that decides. -/
def OperatorTypes (op : Kind) (x y : Number) (t : CType) : Prop :=
  if op = .logAndOp ∨ op = .logOrOp then t = if Decides op x then x.ctype else y.ctype
  else Number.Results op x y t

def Types (m' : Machine) : Tree → List Number → CType → Prop
  | .binary _ op _ _, [x, y] => OperatorTypes op.kind x y
  | .binary _ _ _ _, [x] => fun t => t = x.ctype
  | .unary op _ true _, [x] => PrefixTypes m' op.kind x
  | .unary _ _ false _, [x] => fun t => t = x.ctype
  | .cast target _ _ _, _ => fun t => target.type? = some (.number t)
  | .assign _ _ _ _, [x, _] => fun t => t = x.ctype
  | _, _ => fun _ => False

/-! ## Outcomes -/

def Progress (r : Except Fault Value) : Prop :=
  (∃ w n, r = .ok w ∧ w.number? = some n) ∨ r = .error .divisionByZero

structure Determined (c : Prop) (T : CType → Prop) (r : Except Fault Value) : Prop where
  progress : Progress r ↔ c
  type : ∀ w n, r = .ok w → w.number? = some n → T n.ctype

variable {c : Prop} {T : CType → Prop}

theorem determined_of_ok {w : Value} {n : Number} (hn : w.number? = some n) (hc : c)
    (hT : T n.ctype) : Determined c T (.ok w) := by
  refine ⟨iff_of_true (.inl ⟨w, n, rfl, hn⟩) hc, ?_⟩
  rintro _ n' ⟨⟩ hn'
  obtain rfl := Option.some.inj (hn.symm.trans hn')
  exact hT

theorem determined_of_stops {r : Except Fault Value} (h : Stops r) (hc : ¬ c) :
    Determined c T r := by
  obtain ⟨e, rfl, he⟩ := h
  refine ⟨iff_of_false ?_ hc, ?_⟩
  · rintro (⟨w, n, hw, -⟩ | hzero)
    · cases hw
    · exact he (Except.error.inj hzero)
  · intro w n hw
    cases hw

/-- A computation of numbers by which a value is determined. -/
theorem determined_of_decided {r : Except Fault Number} {T' : CType → Prop}
    (h : Number.Decided c r T) (f : Number → Value)
    (hf : ∀ n, T n.ctype → ∃ n', (f n).number? = some n' ∧ T' n'.ctype) :
    Determined c T' (f <$> r) := by
  by_cases hc : c
  · obtain ⟨t, ht, ⟨n, rfl, rfl⟩ | rfl⟩ := h.1 hc
    · obtain ⟨n', hn', hT'⟩ := hf n ht
      exact determined_of_ok hn' hc hT'
    · refine ⟨iff_of_true (.inr rfl) hc, ?_⟩
      intro w n hw
      cases hw
  · obtain ⟨e, rfl, he⟩ := h.2 hc
    exact determined_of_stops ⟨e, rfl, he⟩ hc

theorem stops_bind {α β : Type} {p : Run α} {m : Machine} (h : Stops (p.execute m).1)
    (f : α → Run β) : Stops ((p >>= f).execute m).1 := by
  obtain ⟨e, he, hne⟩ := h
  refine ⟨e, ?_, hne⟩
  rw [Run.execute_bind]
  cases hp : p.execute m with
  | mk r m' =>
    rw [hp] at he
    obtain rfl : r = .error e := he
    rfl

theorem execute_bind_pure {α β γ : Type} {p : Run β} {m : Machine} {f : α → β}
    {r : Except Fault α} (h : (p.execute m).1 = f <$> r) (g : β → γ) :
    ((p >>= fun b => pure (g b)).execute m).1 = (fun a => g (f a)) <$> r := by
  rw [Run.execute_bind]
  cases hp : p.execute m with
  | mk r' m' =>
    rw [hp] at h
    obtain rfl : r' = f <$> r := h
    cases r <;> rfl

/-! ## Places -/

variable {fuel : Nat} {m m₁ m₂ : Machine} {a b : Value} {x y : Number}

theorem truth_of_number (ha : a.number? = some x) : a.truth = x.truth := by
  cases a with
  | number n | constant n =>
    obtain rfl := Option.some.inj ha
    rfl
  | _ => cases ha

theorem content_of_number (ha : a.number? = some x) : a.content = .ok x.value.toScalar := by
  cases a with
  | number n | constant n =>
    obtain rfl := Option.some.inj ha
    rfl
  | _ => cases ha

theorem readAt_determined (address : Scalar) (m : Machine) :
    Determined ((m.store.typeAt? address).isSome = true) (m.store.typeAt? address = some ·)
      ((Run.readAt address).execute m).1 := by
  simp only [Run.readAt, Run.execute_bind, Run.execute_getStore, Store.typeAt?]
  cases hread : m.store.read? address with
  | none =>
    obtain ⟨n, r, hmake⟩ := Number.make_nothing (t := .int) rfl m.random
    simp only [Run.makeNumber, Run.execute_bind, Run.execute_get, Run.execute_ofExcept, hmake]
    exact determined_of_ok rfl rfl (congrArg some (Number.make_ctype hmake).symm)
  | some v =>
    cases hv : v.number? with
    | none =>
      simp only [hv, Option.map_none]
      refine ⟨iff_of_false ?_ Bool.false_ne_true, ?_⟩
      · rintro (⟨w, n, ⟨⟩, hn⟩ | ⟨⟨⟩⟩)
        cases hv.symm.trans hn
      · rintro w n ⟨⟩ hn
        cases hv.symm.trans hn
    | some n =>
      simp only [hv, Option.map_some]
      exact determined_of_ok hv rfl rfl

/-- What the name of a variable is evaluated to: a constant, or what is read from its cell. -/
theorem eval_var {k : Token} {i : Nat} (h : (eval fuel (.var k i)).execute m = (.ok a, m₁)) :
    (∃ n, m.store.lookup k.value.render = .ok (.constant n) ∧ a = .constant n ∧ m₁ = m) ∨
    ∃ address, m.store.lookup k.value.render = .ok (.at address) ∧
      Run.addressOf (.at address) = .ok address ∧
      (Run.readAt address).execute m = (.ok a, m₁) := by
  cases fuel with
  | zero => cases h
  | succ fuel =>
    change (Run.readName k.value.render).execute m = _ at h
    simp only [Run.readName, Run.lookup, Run.execute_bind, Run.execute_getStore,
      Run.execute_ofExcept] at h
    cases hb : m.store.lookup k.value.render with
    | error e =>
      rw [hb] at h
      cases h
    | ok binding =>
      rw [hb] at h
      cases binding with
      | constant n =>
        cases h
        exact .inl ⟨_, rfl, rfl, rfl⟩
      | «at» address =>
        change (Run.ofExcept (Run.addressOf (.at address)) >>= Run.readAt).execute m = _ at h
        cases address with
        | int | bool => exact .inr ⟨_, rfl, rfl, h⟩
        | _ => cases h

/-- What is evaluated where something can be assigned to is what the cell of the place holds. A
constant has no place. -/
theorem place_reads {e : Tree} (hp : Analysis.isPlace e = .ok true)
    (h : (eval fuel e).execute m = (.ok a, m₁)) :
    NamesConstant m e ∧ Stops ((place e).execute m).1 ∨
    ¬ NamesConstant m e ∧ ∃ address m₀, (place e).execute m = (.ok address, m₀) ∧
      (Run.readAt address).execute m₀ = (.ok a, m₁) := by
  cases e with
  | var k i =>
    simp only [place, addressOf, Run.lookup, Run.execute_bind, Run.execute_getStore, Run.execute_ofExcept]
    obtain ⟨n, hn, -, -⟩ | ⟨address, ha, -, hread⟩ := eval_var h
    · rw [hn]
      exact .inl ⟨⟨k, i, n, rfl, hn⟩, .wrongKind, rfl, by simp⟩
    · rw [ha]
      refine .inr ⟨?_, address, m, rfl, hread⟩
      rintro ⟨_, _, n, ⟨⟩, hn⟩
      cases ha.symm.trans hn
  | unary op e b n =>
    refine .inr ⟨by rintro ⟨_, _, _, ⟨⟩, -⟩, ?_⟩
    cases e with
    | var k i =>
      have hop : op.kind = .asterisk := by simpa [Analysis.isPlace] using hp
      cases fuel with
      | zero => cases h
      | succ fuel =>
        cases b with
        | false =>
          change (behind op.kind _).execute m = _ at h
          rw [hop] at h
          cases h
        | true =>
          change (before (eval fuel) op.kind _).execute m = _ at h
          rw [hop] at h
          obtain ⟨v, m₀, hv, hrest⟩ := Run.execute_bind_ok h
          obtain ⟨address, m₀', hcontent, hread⟩ := Run.execute_bind_ok hrest
          refine ⟨address, m₀', ?_, hread⟩
          cases fuel with
          | zero => cases hv
          | succ fuel =>
            change (Run.readName k.value.render >>= fun v => Run.ofExcept v.content).execute m = _
            rw [Run.execute_bind]
            change (Run.readName k.value.render).execute m = _ at hv
            rw [hv]
            exact hcontent
    | _ => cases hp
  | field op base member n =>
    refine .inr ⟨by rintro ⟨_, _, _, ⟨⟩, -⟩, ?_⟩
    cases fuel with
    | zero => cases h
    | succ fuel =>
      obtain ⟨address, m₀, haddress, hread⟩ := Run.execute_bind_ok h
      exact ⟨address, m₀, haddress, hread⟩
  | _ => cases hp

/-! ## Nodes -/

theorem number_determined {r : Except Fault Number} (h : Number.Decided c r T) :
    Determined c T (.number <$> r) :=
  determined_of_decided h .number fun n hn => ⟨n, rfl, hn⟩

theorem binary_determined {l r : Tree} {op : Token} (hop : op.kind ≠ .arrow)
    (hl : (eval fuel l).execute m = (.ok a, m₁)) (ha : a.number? = some x)
    (hr : (eval fuel r).execute m₁ = (.ok b, m₂)) (hb : b.number? = some y) :
    Determined (Number.Admits op.kind x y) (OperatorTypes op.kind x y)
      ((binary (eval fuel) l op r).execute m).1 := by
  unfold binary
  split
  · next hk =>
    rw [Run.execute_bind, hl]
    cases hx : x.truth with
    | true =>
      simp only [truth_of_number ha, hx, if_true, hr, hk]
      exact determined_of_ok hb trivial (by simp [OperatorTypes, Decides, hx])
    | false =>
      simp only [truth_of_number ha, hx, Bool.false_eq_true, if_false, hk]
      exact determined_of_ok ha trivial (by simp [OperatorTypes, Decides, hx])
  · next hk =>
    rw [Run.execute_bind, hl]
    cases hx : x.truth with
    | true =>
      simp only [truth_of_number ha, hx, if_true, hk]
      exact determined_of_ok ha trivial (by simp [OperatorTypes, Decides, hx])
    | false =>
      simp only [truth_of_number ha, hx, Bool.false_eq_true, if_false, hr, hk]
      exact determined_of_ok hb trivial (by simp [OperatorTypes, Decides, hx])
  · next hk => exact absurd hk hop
  · next hand hor _ =>
    have htypes : OperatorTypes op.kind x y = Number.Results op.kind x y :=
      funext fun t => if_neg (not_or_intro hand hor)
    split
    · next f hf =>
      obtain ⟨r, hr', hdecided⟩ := operator_decided hf m₂.store ha hb
      have hcombine : (combine f a b).execute m₂ = (.number <$> r, m₂) := by
        simp only [combine, Run.execute_bind, Run.execute_getStore, Run.execute_ofExcept, hr']
      rw [htypes, Run.execute_bind, hl]
      dsimp only
      rw [Run.execute_bind, hr]
      change Determined _ _ ((combine f a b).execute m₂).1
      rw [hcombine]
      exact number_determined hdecided
    · next hf =>
      refine ⟨iff_of_false ?_ ?_, ?_⟩
      · rintro (⟨w, n, ⟨⟩, ⟨⟩⟩ | ⟨⟨⟩⟩)
      · cases hk : op.kind <;> simp_all [operator?, Number.Admits]
      · rintro w n ⟨⟩ ⟨⟩

theorem decided_determined {l r : Tree} {op : Token}
    (hl : (eval fuel l).execute m = (.ok a, m₁)) (ha : a.number? = some x)
    (hx : Decides op.kind x) :
    Determined True (fun t => t = x.ctype)
      ((binary (eval fuel) l op r).execute m).1 := by
  unfold binary
  rcases hx with ⟨hop, hx⟩ | ⟨hop, hx⟩
  · simp only [hop, Run.execute_bind, hl, truth_of_number ha, hx]
    exact determined_of_ok ha trivial rfl
  · simp only [hop, Run.execute_bind, hl, truth_of_number ha, hx]
    exact determined_of_ok ha trivial rfl

/-- A step, before or behind its operand. -/
theorem step_determined {f : Value → Value → Except Fault Value} {op : Kind}
    (hop : op = .incOp ∧ f = Value.add ∨ op = .decOp ∧ f = Value.sub) {e : Tree}
    (hp : Analysis.isPlace e = .ok true) (he : (eval fuel e).execute m = (.ok a, m₁))
    (ha : a.number? = some x) (g : Value × Value → Value) (hg : g = Prod.fst ∨ g = Prod.snd) :
    Determined (¬ NamesConstant m e ∧ Number.Steps op x) (fun t => t = x.ctype)
      ((step f e >>= fun r => pure (g r)).execute m).1 := by
  rcases place_reads hp he with ⟨hconstant, hstops⟩ | ⟨hno, address, m₀, hplace, hread⟩
  · exact determined_of_stops (stops_bind (stops_bind hstops _) _) fun h => h.1 hconstant
  · obtain ⟨r, hstep, hdecided⟩ := step_decided hop hplace hread ha
    rw [execute_bind_pure hstep]
    refine determined_of_decided (hdecided.congr (and_iff_right hno).symm) _ fun n hn => ?_
    rcases hg with rfl | rfl
    · exact ⟨x, ha, rfl⟩
    · exact ⟨n, rfl, hn⟩

theorem makeNumber_address {address : Scalar} (h : Run.addressOf (.at address) = .ok address)
    (m : Machine) : ∃ n, (Run.makeNumber .int address).execute m = (.ok n, m) ∧ n.ctype = .int := by
  cases address with
  | int k => exact execute_makeNumber_int k m
  | bool b => cases b <;> exact ⟨_, rfl, rfl⟩
  | _ => cases h

theorem referTo_determined {k : Token} {i : Nat}
    (h : (eval fuel (.var k i)).execute m = (.ok a, m₁)) (ha : a.number? = some x) :
    Determined (NamesConstant m (.var k i) → Number.Converts .int x.value) (fun t => t = .int)
      ((referTo (.var k i)).execute m).1 := by
  have hname : nameOf (.var k i) = pure k.value.render := rfl
  simp only [referTo, hname, pure_bind, Run.lookup, Run.execute_bind, Run.execute_getStore, Run.execute_ofExcept]
  obtain ⟨n, hn, rfl, -⟩ | ⟨address, hat, hwhole, -⟩ := eval_var h
  · obtain rfl := Option.some.inj ha
    rw [hn]
    change Determined _ _ ((convert (.number .int) (.constant n)).execute m).1
    rw [execute_convert .int rfl]
    refine number_determined ((Number.convert_decided .int n).congr ?_)
    exact ⟨fun h _ => h.2, fun h => ⟨rfl, h ⟨k, i, n, rfl, hn⟩⟩⟩
  · obtain ⟨n, hmake, htype⟩ := makeNumber_address hwhole m
    rw [hat]
    simp only [Run.execute_bind, hmake]
    refine determined_of_ok rfl ?_ htype
    rintro ⟨_, _, n', ⟨⟩, hn'⟩
    cases hat.symm.trans hn'

theorem negate_determined (ha : a.number? = some x) (m : Machine) :
    Determined True (fun t => t = .int) ((negate a).execute m).1 := by
  obtain ⟨n, hn, htype⟩ := Number.logNeg_gives x
  simp only [negate, Run.execute_bind, Run.execute_ofExcept, asNumber_eq ha, hn]
  exact determined_of_ok rfl trivial htype

theorem minus_determined {e : Tree} (he : (eval fuel e).execute m = (.ok a, m₁))
    (ha : a.number? = some x) :
    Determined (x.ctype.isArithmetic = true) (fun t => CType.combine .int x.ctype = .ok t)
      ((before (eval fuel) .minus e).execute m).1 := by
  obtain ⟨one, hone, htype⟩ := execute_makeNumber_int (-1) m
  have hmul : Value.mul (.number one) a = .number <$> one.mul x :=
    Value.operate_numbers _ _ rfl ha
  have hbefore : (before (eval fuel) .minus e).execute m = (.number <$> one.mul x, m₁) := by
    change (Run.makeNumber .int (.int (-1)) >>= fun minusOne => eval fuel e >>= fun v =>
      Run.ofExcept (Value.mul (.number minusOne) v)).execute m = _
    rw [Run.execute_bind, hone]
    dsimp only
    rw [Run.execute_bind, he]
    dsimp only
    rw [Run.execute_ofExcept, hmul]
  rw [hbefore, ← htype]
  refine number_determined (Number.mul_decided.congr ?_)
  rw [Number.Combine, htype]
  exact and_iff_right (by decide)

/-- An operator before an operand that is evaluated. -/
theorem before_determined {op : Kind} {e : Tree} (hop : onPlace op = false)
    (he : (eval fuel e).execute m = (.ok a, m₁)) (ha : a.number? = some x) :
    Determined (PrefixWorks m m₁ op e x) (PrefixTypes m₁ op x)
      ((before (eval fuel) op e).execute m).1 := by
  cases op
  case ampersand | incOp | decOp => cases hop
  case plus =>
    change Determined _ _ ((eval fuel e).execute m).1
    rw [he]
    exact determined_of_ok ha trivial rfl
  case minus => exact minus_determined he ha
  case logNeg =>
    change Determined _ _ ((eval fuel e >>= negate).execute m).1
    rw [Run.execute_bind, he]
    exact negate_determined ha m₁
  case asterisk =>
    change Determined _ _ ((eval fuel e >>= dereference).execute m).1
    rw [Run.execute_bind, he]
    simp only [dereference, content_of_number ha]
    exact readAt_determined x.value.toScalar m₁
  all_goals exact determined_of_stops ⟨_, rfl, by simp⟩ (And.right · : ¬ (_ ∧ False))

/-- An operator before an operand that stands for a place. -/
theorem before_place_determined {op : Kind} {e : Tree} {k : Nat} (hop : onPlace op = true)
    (hvar : op = .ampersand → ∃ k i, e = .var k i)
    (hplace : op = .incOp ∨ op = .decOp → Analysis.isPlace e = .ok true)
    (he : (eval k e).execute m = (.ok a, m₁)) (ha : a.number? = some x) :
    Determined (PrefixWorks m m₁ op e x) (PrefixTypes m₁ op x)
      ((before (eval fuel) op e).execute m).1 := by
  cases op <;> cases hop
  case ampersand =>
    obtain ⟨k, i, rfl⟩ := hvar rfl
    exact referTo_determined he ha
  case incOp =>
    exact step_determined (.inl ⟨rfl, rfl⟩) (hplace (.inl rfl)) he ha Prod.snd (.inr rfl)
  case decOp =>
    exact step_determined (.inr ⟨rfl, rfl⟩) (hplace (.inr rfl)) he ha Prod.snd (.inr rfl)

/-- An operator behind its operand. -/
theorem behind_determined {op : Kind} {e : Tree} {k : Nat}
    (hplace : op = .incOp ∨ op = .decOp → Analysis.isPlace e = .ok true)
    (he : (eval k e).execute m = (.ok a, m₁)) (ha : a.number? = some x) :
    Determined (¬ NamesConstant m e ∧ Number.Steps op x) (fun t => t = x.ctype)
      ((behind op e).execute m).1 := by
  cases op
  case incOp =>
    exact step_determined (.inl ⟨rfl, rfl⟩) (hplace (.inl rfl)) he ha Prod.fst (.inl rfl)
  case decOp =>
    exact step_determined (.inr ⟨rfl, rfl⟩) (hplace (.inr rfl)) he ha Prod.fst (.inl rfl)
  all_goals exact determined_of_stops ⟨_, rfl, by simp⟩ (And.right · : ¬ (_ ∧ False))

theorem cast_determined {target e : Tree} {f : Bool} {n : Nat}
    (he : (eval fuel e).execute m = (.ok a, m₁)) (ha : a.number? = some x) :
    Determined (Works m m₁ (.cast target e f n) [x]) (Types m₁ (.cast target e f n) [x])
      ((cast (eval fuel) target e f).execute m).1 := by
  have hfails {c : Prop} {T : CType → Prop} (hc : ¬ c) :
      Determined c T ((Run.fail .noSuchPart : Run Value).execute m).1 :=
    determined_of_stops ⟨_, rfl, by simp⟩ hc
  cases target with
  | typeName t i =>
    cases f with
    | false => cases t <;> exact hfails id
    | true =>
      change Determined _ _ ((eval fuel e >>= convert t).execute m).1
      rw [Run.execute_bind, he]
      cases t with
      | number t =>
        dsimp only
        rw [execute_convert t ha]
        refine determined_of_decided (Number.convert_decided t x) _ fun n hn => ?_
        exact ⟨n, rfl, congrArg (some <| VarType.number ·) hn.symm⟩
      | struct t => exact determined_of_stops ⟨_, rfl, by simp⟩ id
  | _ => exact hfails id

theorem assign_determined {target value : Tree} {op : Token} {k : Nat}
    (hp : Analysis.isPlace target = .ok true) (ht : (eval k target).execute m = (.ok a, m₁))
    (ha : a.number? = some x) (hv : (eval fuel value).execute m₁ = (.ok b, m₂))
    (hb : b.number? = some y) :
    Determined (¬ NamesConstant m target ∧ Number.Takes op.kind x y) (fun t => t = x.ctype)
      ((assign (eval fuel) target op value).execute m).1 := by
  let f (old : Value) : Run Value := do assigned op.kind old (← eval fuel value)
  change Determined _ _ ((place target >>= fun address => update address f >>= fun r =>
    pure r.2).execute m).1
  rcases place_reads hp ht with ⟨hconstant, hstops⟩ | ⟨hno, address, m₀, hplace, hread⟩
  · exact determined_of_stops (stops_bind hstops _) fun h => h.1 hconstant
  · obtain ⟨r, hassigned, hdecided⟩ := assigned_decided op.kind ha hb m₂
    have hf : ((f a).execute m₁).1 = .number <$> r := by
      simp only [f, Run.execute_bind, hv, hassigned]
    rw [Run.execute_bind, hplace]
    dsimp only
    rw [execute_bind_pure (execute_update hread hf)]
    exact number_determined (hdecided.congr (and_iff_right hno).symm)

def Sited : Tree → Prop
  | .binary _ op _ _ => op.kind ≠ .arrow
  | .unary op e _ _ => (op.kind = .ampersand → ∃ k i, e = .var k i) ∧
      (op.kind = .incOp ∨ op.kind = .decOp → Analysis.isPlace e = .ok true)
  | .assign target _ _ _ => Analysis.isPlace target = .ok true
  | _ => True

theorem node_determined {t : Tree} {xs : List Number} {m' : Machine} (ht : Sited t)
    (h : Operands fuel m t xs m') :
    Determined (Works m m' t xs) (Types m' t xs) ((eval (fuel + 1) t).execute m).1 := by
  cases h with
  | both hl hr =>
    obtain ⟨⟨a, hl, ha⟩, b, hr, hb⟩ := And.intro hl hr
    exact binary_determined ht hl ha hr hb
  | decided hl hx =>
    obtain ⟨a, hl, ha⟩ := hl
    exact decided_determined hl ha hx
  | @value e op f n x _ he hop =>
    obtain ⟨a, he, ha⟩ := he
    cases f with
    | true => exact before_determined hop he ha
    | false => exact behind_determined ht.2 he ha
  | @place e op f k n x _ he hop =>
    obtain ⟨a, he, ha⟩ := he
    cases f with
    | true => exact before_place_determined hop ht.1 ht.2 he ha
    | false => exact behind_determined ht.2 he ha
  | cast he =>
    obtain ⟨a, he, ha⟩ := he
    exact cast_determined he ha
  | assign hx hv =>
    obtain ⟨⟨a, hx, ha⟩, b, hv, hb⟩ := And.intro hx hv
    exact assign_determined ht hx ha hv hb
  | ternary => exact determined_of_stops ⟨_, rfl, by simp⟩ id

theorem sited_of_accepted {program t : Tree} (hp : program.Grammatical .program)
    (ha : (Analysis.analyze program).1.isOk = true) (ht : t.Within program) : Sited t := by
  obtain ⟨j, hj⟩ := ht.grammatical hp
  cases t with
  | binary l op r n =>
    cases hj.toExpression rfl with
    | binary _ _ hop => exact hop
  | unary op e f n =>
    cases hj.toExpression rfl with
    | unary _ _ _ hvar => exact ⟨hvar, Analysis.isPlace_operand hp ha ht⟩
  | assign target op value n => exact Analysis.isPlace_target hp ha ht
  | _ => trivial

end Eval

/-! ## What the analysis accepts -/

namespace Analysis

section

variable {ε α β : Type} {p q : Except ε α} {a : α}

theorem bind_ok {f : β → Except ε α} (b : β) : (Except.ok b >>= f) = f b := rfl

theorem throw_bind {f : β → Except ε α} (e : ε) : (throw e >>= f) = .error e := rfl

theorem bind_eq_ok {f : β → Except ε α} {r : Except ε β} :
    (r >>= f) = .ok a ↔ ∃ b, r = .ok b ∧ f b = .ok a := by
  cases r with
  | error e => exact ⟨nofun, nofun⟩
  | ok b =>
    refine ⟨fun h => ⟨b, rfl, h⟩, ?_⟩
    rintro ⟨_, ⟨⟩, h⟩
    exact h

theorem ite_eq_ok {c : Prop} [Decidable c] :
    (if c then p else q) = .ok a ↔ c ∧ p = .ok a ∨ ¬ c ∧ q = .ok a := by
  by_cases hc : c
  · simp [hc]
  · simp [hc]

end

variable {op : Kind} {line : Nat} {a b : CType} {t : Typing} {x y : Number}

theorem combine_numbers (h : Typing.combine (.type (.number a)) (.type (.number b)) = .ok t) :
    ∃ c, a.combine b = .ok c ∧ t = .type (.number c) := by
  simp only [Typing.combine] at h
  cases hc : a.combine b with
  | error e =>
    rw [hc] at h
    cases h
  | ok c =>
    rw [hc] at h
    exact ⟨c, rfl, (Except.ok.inj h).symm⟩

/-- What the analysis demands of an operator between operands of arithmetic or pointer types, and
the type that it gives to the result. -/
theorem binaryType_cases
    (h : binaryType op line (.type (.number a)) (.type (.number b)) = .ok t) :
    (isBitwise op = true → a.base = some .int ∧ b.base = some .int) ∧
    ((a.pointer = true ∧ b.pointer = false ∧ b.base = some .int ∧ takesPointer op = true ∧
        t = .type (.number a)) ∨
      (a.pointer = false ∧ b.pointer = true ∧ a.base = some .int ∧ takesPointer op = true ∧
        t = .type (.number b)) ∨
      (a.pointer = false ∧ b.pointer = false ∧ ∃ c, a.combine b = .ok c ∧
        t = .type (.number c))) := by
  simp only [binaryType, Typing.isInt, Typing.isPointer, bind_ok, throw_bind, decide_eq_true_eq,
    ite_eq_ok, reduceCtorEq, and_false, or_false, false_or, Bool.not_eq_true, pure, Except.pure,
    Except.ok.injEq] at h
  have hbits : isBitwise op = true → a.base = some .int ∧ b.base = some .int := by
    intro hop
    rcases h with ⟨-, ha, hb, -⟩ | ⟨hno, -⟩
    · exact ⟨ha, hb⟩
    · exact Bool.noConfusion (hop.symm.trans hno)
  refine ⟨hbits, ?_⟩
  obtain ⟨-, -, -, hrest⟩ | ⟨-, hrest⟩ := h
  all_goals
    rcases hrest with ⟨ha, hb, hint, hop, rfl⟩ | ⟨ha, ⟨hb, hint, hop, rfl⟩ | ⟨hb, hc⟩⟩
    · exact .inl ⟨ha, hb, hint, hop, rfl⟩
    · exact .inr (.inl ⟨ha, hb, hint, hop, rfl⟩)
    · exact .inr (.inr ⟨ha, hb, combine_numbers hc⟩)

theorem takesPointer_cases (h : takesPointer op = true) :
    op = .plus ∨ op = .minus ∨ op = .neOp := by
  cases op <;> simp [takesPointer] at h ⊢

/-- What the analysis demands of an assignment to a pointer. -/
theorem assignType_pointer {target : Tree} {r : Typing × Option Warning}
    (h : assignType op line target (.type (.number a)) (.type (.number b)) = .ok r)
    (ha : a.pointer = true) :
    (op = .assign ∧ (b.base = some .int ∨ b.pointer = true)) ∨
      (op = .addAssign ∨ op = .subAssign) ∧ b.base = some .int := by
  have hplace := isPlace_of_assignType h
  have htakes : pointerTakes op (.type (.number a)) (.type (.number b)) = .ok true := by
    simp only [assignType, hplace, Typing.isPointer, bind_ok, throw_bind, ha, if_true] at h
    cases ht : pointerTakes op (.type (.number a)) (.type (.number b)) with
    | error e =>
      rw [ht] at h
      cases h
    | ok c =>
      cases c with
      | false =>
        rw [ht] at h
        cases h
      | true => rfl
  cases op
  case assign =>
    simp only [pointerTakes, Typing.isPointer, Typing.isInt, bind_ok, ite_eq_ok, Except.ok.injEq,
      decide_eq_true_eq] at htakes
    refine .inl ⟨rfl, ?_⟩
    rcases htakes with ⟨hb, -⟩ | ⟨-, hb⟩
    · exact .inr hb
    · exact .inl hb
  case addAssign => exact .inr ⟨.inl rfl, by simpa [pointerTakes, Typing.isInt] using htakes⟩
  case subAssign => exact .inr ⟨.inr rfl, by simpa [pointerTakes, Typing.isInt] using htakes⟩
  all_goals cases htakes

end Analysis

namespace Eval

open Analysis (binaryType assignType)

def Implemented (op : Kind) : Prop :=
  op = .logAndOp ∨ op = .logOrOp ∨ (operator? op).isSome = true

/-- Where an operator between two operands of types that the analysis accepts has no value. -/
def OperatorGap (op : Kind) (x y : Number) : Prop :=
  ¬ Implemented op ∨ y.ctype.pointer = true ∨
    x.ctype.pointer = true ∧ (op = .plus → x.ctype.dereference.size? = none) ∨
    op = .modOp ∧ (x.ctype.isReal = true ∨ y.ctype.isReal = true)

/-- Where an assignment to a pointer has no value though the analysis accepts the types. -/
def PointerGap (op : Kind) (x : Number) : Prop :=
  op = .subAssign ∨ op = .addAssign ∧ x.ctype.dereference.size? = none

theorem isReal_of_base {t : CType} (h : t.base = some .int) : t.isReal = false := by
  simp [CType.isReal, h]

variable {op : Kind} {line : Nat} {t : Typing}

theorem admits_iff (h : binaryType op line (.type (.number x.ctype)) (.type (.number y.ctype)) =
    .ok t) : Number.Admits op x y ↔ ¬ OperatorGap op x y := by
  have hpointer {z : Number} (hz : z.ctype.pointer = true) : z.ctype.isArithmetic ≠ true :=
    fun hz' => Bool.noConfusion (hz.symm.trans (CType.pointer_of_isArithmetic hz'))
  obtain ⟨hbits, ⟨hx, hy, hint, htakes, -⟩ | ⟨hx, hy, -, htakes, -⟩ | ⟨hx, hy, c, hc, -⟩⟩ :=
    Analysis.binaryType_cases h
  · have hno : ¬ Number.Combine x y := fun hxy => hpointer hx hxy.1
    rcases Analysis.takesPointer_cases htakes with rfl | rfl | rfl
    · simp only [Number.Admits, if_pos hx, Number.moves_iff hx (isReal_of_base hint)]
      simp [OperatorGap, Implemented, operator?, hx, hy, Option.isSome_iff_ne_none]
    · exact iff_of_false hno fun hgap => hgap (.inr (.inr (.inl ⟨hx, by rintro ⟨⟩⟩)))
    · exact iff_of_false hno fun hgap => hgap (.inr (.inr (.inl ⟨hx, by rintro ⟨⟩⟩)))
  · have hno : ¬ Number.Combine x y := fun hxy => hpointer hy hxy.2
    refine iff_of_false ?_ fun hgap => hgap (.inr (.inl hy))
    rcases Analysis.takesPointer_cases htakes with rfl | rfl | rfl
    · simpa only [Number.Admits, hx, Bool.false_eq_true, if_false] using hno
    · exact hno
    · exact hno
  · have hcombine : Number.Combine x y :=
      ⟨(CType.combined_of_eq hc).left, (CType.combined_of_eq hc).right⟩
    have hints (hop : Analysis.isBitwise op = true) : Number.CombineInts x y :=
      ⟨hcombine, isReal_of_base (hbits hop).1, isReal_of_base (hbits hop).2⟩
    cases op
    case plus => simp [Number.Admits, OperatorGap, Implemented, operator?, hx, hy, hcombine]
    case modOp =>
      simp [Number.Admits, OperatorGap, Implemented, operator?, hx, hy, hcombine,
        Number.CombineInts]
    case ampersand | orOp | xorOp =>
      simp [Number.Admits, OperatorGap, Implemented, operator?, hx, hy, hints rfl]
    all_goals simp [Number.Admits, OperatorGap, Implemented, operator?, hx, hy, hcombine]

theorem takes_iff {target : Tree} {r : Typing × Option Warning}
    (h : assignType op line target (.type (.number x.ctype)) (.type (.number y.ctype)) = .ok r)
    (hx : x.ctype.pointer = true) : Number.Takes op x y ↔ ¬ PointerGap op x := by
  rcases Analysis.assignType_pointer h hx with ⟨rfl, hy⟩ | ⟨hop, hint⟩
  · have hreal : y.ctype.isReal = false := by
      rcases hy with hbase | hpointer
      · exact isReal_of_base hbase
      · exact Number.isReal_of_pointer hpointer
    refine iff_of_true (.inr (Number.finite_of_not_isReal hreal)) ?_
    rintro (hop | ⟨hop, -⟩) <;> cases hop
  · rcases hop with rfl | rfl
    · simp only [Number.Takes, Number.Admits, if_pos hx, PointerGap, reduceCtorEq, false_or,
        true_and, Number.moves_iff hx (isReal_of_base hint), Option.isSome_iff_ne_none]
      exact and_iff_left (Number.stores_add hx)
    · refine iff_of_false ?_ fun hgap => hgap (.inl rfl)
      rintro ⟨⟨harith, -⟩, -⟩
      exact Bool.noConfusion (hx.symm.trans (CType.pointer_of_isArithmetic harith))

/-- The analysis accepts a node whose operands have the types of two numbers. -/
def AcceptsTypes : Tree → List Number → Prop
  | .binary _ op _ line, [x, y] =>
    ∃ t, binaryType op.kind line (.type (.number x.ctype)) (.type (.number y.ctype)) = .ok t
  | .assign target op _ line, [x, y] =>
    ∃ r, assignType op.kind line target (.type (.number x.ctype)) (.type (.number y.ctype)) = .ok r
  | _, _ => True

/-- Where a node has no value though the analysis accepts the types of its operands. -/
def Gap (m m' : Machine) : Tree → List Number → Prop
  | .binary _ op _ _, [x, y] => OperatorGap op.kind x y
  | .assign target op _ _, [x, y] => NamesConstant m target ∨
      if x.ctype.pointer = true then PointerGap op.kind x
      else ¬ Number.Takes op.kind x y
  | t, xs => ¬ Works m m' t xs

theorem works_iff {t : Tree} {xs : List Number} {m' : Machine} (h : AcceptsTypes t xs) :
    Works m m' t xs ↔ ¬ Gap m m' t xs := by
  unfold Gap
  split
  · obtain ⟨t, ht⟩ := h
    exact admits_iff ht
  · next x y =>
    obtain ⟨r, hr⟩ := h
    rw [not_or]
    refine and_congr_right fun _ => ?_
    by_cases hx : x.ctype.pointer = true
    · rw [if_pos hx]
      exact takes_iff hr hx
    · rw [if_neg hx, not_not]
  · exact not_not.symm

end Eval

/-- In the run of an accepted program, an operator, a conversion, a conditional expression or an
assignment whose operands have been evaluated to numbers gives a number or divides by zero exactly
if it works for these numbers. For operands of types that the analysis accepts, this is so exactly
outside the gaps. -/
theorem progress_iff_works {code : String} {program : Tree}
    (hp : Program.parse code = .ok program) (ha : (Analysis.analyze program).1.isOk = true)
    {fuel : Nat} {m : Machine} (hm : m.store = Store.empty) {v : Visit}
    (hv : Event.enter v ∈ history fuel program m) {k : Nat} (hk : v.fuel = k + 1)
    {xs : List Number} {m' : Machine} (hx : Eval.Operands k v.before v.tree xs m') :
    (Eval.Progress ((Eval.eval v.fuel v.tree).execute v.before).1 ↔
      Eval.Works v.before m' v.tree xs) ∧
    (Eval.AcceptsTypes v.tree xs →
      (Eval.Progress ((Eval.eval v.fuel v.tree).execute v.before).1 ↔
        ¬ Eval.Gap v.before m' v.tree xs)) := by
  have hsited : Eval.Sited v.tree := by
    rcases (history_sound hm hv).1 with hwithin | hmain
    · exact Eval.sited_of_accepted (Program.parse_grammatical hp) ha hwithin
    · have htree : v.tree = Eval.callMain := hmain
      rw [htree]
      trivial
  have hprogress := (Eval.node_determined hsited hx).progress
  rw [hk]
  exact ⟨hprogress, fun haccepts => hprogress.trans (Eval.works_iff haccepts)⟩

def Eval.yieldsSuch (fuel : Nat) (t : Tree) (m : Machine) (P : Number → Bool) : Bool :=
  ((eval fuel t).execute m).1.toOption.any fun a => a.number?.any P

theorem Eval.exists_yields {fuel : Nat} {t : Tree} {m : Machine} {P : Number → Bool}
    (h : yieldsSuch fuel t m P = true) :
    ∃ x, Yields fuel t m x ((eval fuel t).execute m).2 ∧ P x = true := by
  unfold yieldsSuch at h
  cases hr : (eval fuel t).execute m with
  | mk r m' =>
    rw [hr] at h
    cases r with
    | error => cases h
    | ok a =>
      change a.number?.any P = true at h
      obtain ⟨x, hx, hP⟩ := (Option.any_eq_true ..).1 h
      exact ⟨x, ⟨a, hr, hx⟩, hP⟩

/-- The evaluation of a difference whose left operand is a pointer and whose right one an `int`. -/
def Visit.subtractsFromPointer (v : Visit) : Bool :=
  match v.tree with
  | .binary l op r _ => v.fuel != 0 && op.kind == .minus &&
    Eval.yieldsSuch (v.fuel - 1) l v.before (·.ctype == ⟨none, none, some .int, true⟩) &&
    Eval.yieldsSuch (v.fuel - 1) r ((Eval.eval (v.fuel - 1) l).execute v.before).2 (·.ctype == .int)
  | _ => false

/-- Nothing can be subtracted from a pointer, though the analysis accepts it. -/
theorem progress_iff_works_pointer :
    ∃ program v k xs m',
      Program.parse "int main()\x7b int a; int *p; p = &a; p = p - 1; return 0; \x7d" =
        .ok program ∧
      (Analysis.analyze program).1.isOk = true ∧
      Event.enter v ∈ history 20 program (Machine.start "") ∧ v.fuel = k + 1 ∧
      Eval.Operands k v.before v.tree xs m' ∧ Eval.AcceptsTypes v.tree xs ∧
      ¬ Eval.Progress ((Eval.eval v.fuel v.tree).execute v.before).1 := by
  have hrun : ((Program.parse
      "int main()\x7b int a; int *p; p = &a; p = p - 1; return 0; \x7d").toOption.any
        fun t => (Analysis.analyze t).1.isOk && (history 20 t (Machine.start "")).any fun e =>
          e.entered?.any Visit.subtractsFromPointer) = true := by
    decide +kernel
  obtain ⟨program, hp, haccepted, v, hv, hsubtracts⟩ := Program.exists_visit hrun
  unfold Visit.subtractsFromPointer at hsubtracts
  split at hsubtracts
  · next l op r n htree =>
    simp only [Bool.and_eq_true, bne_iff_ne, beq_iff_eq] at hsubtracts
    obtain ⟨⟨⟨hfuel, hop⟩, hl⟩, hr⟩ := hsubtracts
    obtain ⟨k, hk⟩ := Nat.exists_eq_succ_of_ne_zero hfuel
    obtain ⟨x, hx, hxtype⟩ := Eval.exists_yields hl
    obtain ⟨y, hy, hytype⟩ := Eval.exists_yields hr
    rw [beq_iff_eq] at hxtype hytype
    simp only [hk, Nat.succ_sub_one] at hx hy
    have hoperands : Eval.Operands k v.before (.binary l op r n) [x, y] _ := .both hx hy
    rw [← htree] at hoperands
    have haccepts : Eval.AcceptsTypes v.tree [x, y] := by
      rw [htree, Eval.AcceptsTypes, hop, hxtype, hytype]
      exact ⟨_, rfl⟩
    refine ⟨program, v, k, _, _, hp, haccepted, hv, hk, hoperands, haccepts, fun hprogress => ?_⟩
    refine ((progress_iff_works hp haccepted rfl hv hk hoperands).2 haccepts).1 hprogress ?_
    rw [htree]
    refine .inr (.inr (.inl ⟨by rw [hxtype], ?_⟩))
    rw [hop]
    exact nofun
  · cases hsubtracts

end MiniC
