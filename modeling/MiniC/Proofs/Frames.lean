import MiniC.Proofs.Parsed
import MiniC.Proofs.Reached

/-!
# The frames that calls leave

A call of a function of the program pushes a frame, and pops one only if the function ends with a
value. So the frames after a call are those before it, with one more on top for each call that was
made in between and ended without a value. Evaluating an expression therefore never touches a frame
that was there before, and a statement at most the current one.
-/

namespace MiniC

open Eval (Evaluator)

variable {s : Machine × Journal} {args : List Tree} {m m' : Machine} {fuel : Nat}

/-! ## Calls without a value -/

/-- The value of the name that is called, when its arguments have been evaluated. -/
def Visit.callee? (v : Visit) : Option Value :=
  match v.tree with
  | .call f args _ =>
    match (Eval.arguments (Eval.eval (v.fuel - 1)) args).execute v.before with
    | (.ok _, m) => ((Run.readName f).execute m).1.toOption
    | (.error _, _) => none
  | _ => none

def Visit.callsFunction (v : Visit) : Bool :=
  v.callee?.any Value.isFunction

/-- Whether a call of a function of the program ends without a value. -/
def Event.valueless : Event → Bool
  | leave v (.ok w) _ => v.callsFunction && w.isNothing
  | _ => false

def leaks (events : List Event) : Nat :=
  events.countP Event.valueless

def Visit.events (v : Visit) : List Event :=
  ((record v.fuel v.tree).execute (v.before, ⟨v.context, []⟩)).2.2.events

/-! ## Growth -/

def Extends (fs fs' : List Frame) (k : Nat) : Prop :=
  ∃ left, left.length = k ∧ fs' = left ++ fs

def Covers (fs fs' : List Frame) (k : Nat) : Prop :=
  ∃ left inner, left.length = k ∧ inner.length = fs.length ∧ inner.tail = fs.tail ∧
    fs' = left ++ inner

theorem Extends.covers {fs fs' : List Frame} {k : Nat} (h : Extends fs fs' k) :
    Covers fs fs' k := by
  obtain ⟨left, hk, rfl⟩ := h
  exact ⟨left, fs, hk, rfl, rfl, rfl⟩

theorem Extends.trans {fs fs' fs'' : List Frame} {j k : Nat} (h : Extends fs fs' j)
    (h' : Extends fs' fs'' k) : Extends fs fs'' (j + k) := by
  obtain ⟨left, rfl, rfl⟩ := h
  obtain ⟨left', rfl, rfl⟩ := h'
  refine ⟨left' ++ left, ?_, (List.append_assoc ..).symm⟩
  rw [List.length_append, Nat.add_comm]

theorem Covers.trans {fs fs' fs'' : List Frame} {j k : Nat} (h : Covers fs fs' j)
    (h' : Covers fs' fs'' k) : Covers fs fs'' (j + k) := by
  obtain ⟨left, inner, rfl, hlen, htail, rfl⟩ := h
  obtain ⟨left', inner', rfl, hlen', htail', rfl⟩ := h'
  cases left with
  | nil => exact ⟨left', inner', by simp, hlen'.trans hlen, htail'.trans htail, rfl⟩
  | cons f left =>
    cases inner' with
    | nil => simp at hlen'
    | cons f' rest =>
      refine ⟨left' ++ f' :: left, inner, ?_, hlen, htail, ?_⟩
      · simp only [List.length_append, List.length_cons]
        omega
      · obtain rfl : rest = left ++ inner := htail'
        simp

/-- The ways in which frames may grow: those that go through one after the other. -/
structure Growth where
  Rel : List Frame → List Frame → Nat → Prop
  ofExtends {fs fs' : List Frame} {k : Nat} : Extends fs fs' k → Rel fs fs' k
  trans {fs fs' fs'' : List Frame} {j k : Nat} : Rel fs fs' j → Rel fs' fs'' k → Rel fs fs'' (j + k)

def Growth.exact : Growth := ⟨Extends, id, .trans⟩

def Growth.loose : Growth := ⟨Covers, Extends.covers, .trans⟩

theorem Growth.refl (G : Growth) (fs : List Frame) : G.Rel fs fs 0 :=
  G.ofExtends ⟨[], rfl, rfl⟩

/-- The frames have grown by as many as calls have ended without a value. -/
def Growth.Between (G : Growth) (s s' : Machine × Journal) : Prop :=
  ∃ k, leaks s'.2.events = leaks s.2.events + k ∧ G.Rel s.1.store.frames s'.1.store.frames k

theorem Growth.Between.trans {G : Growth} {s' s'' : Machine × Journal} (h : G.Between s s')
    (h' : G.Between s' s'') : G.Between s s'' := by
  obtain ⟨j, hj, hG⟩ := h
  obtain ⟨k, hk, hG'⟩ := h'
  exact ⟨j + k, by omega, G.trans hG hG'⟩

def Growth.Grows {α : Type} (G : Growth) (Q : α → Prop) (p : Recorded α) : Prop :=
  ∀ s a s', p.execute s = (.ok a, s') → G.Between s s' ∧ Q a

namespace Growth

variable {α β : Type} {G : Growth} {P : α → Prop} {Q : β → Prop}

theorem grows_pure {a : α} (ha : P a) : G.Grows P (pure a) := by
  intro s b s' h
  obtain ⟨rfl, rfl⟩ : a = b ∧ s = s' := by simpa using h
  exact ⟨⟨0, rfl, G.refl _⟩, ha⟩

theorem grows_bind {p : Recorded α} {f : α → Recorded β} (hp : G.Grows P p)
    (hf : ∀ a, P a → G.Grows Q (f a)) : G.Grows Q (p >>= f) := by
  intro s b s'' h
  obtain ⟨a, s', hps, hfs⟩ := Recorded.execute_bind_ok h
  obtain ⟨hG, ha⟩ := hp s a s' hps
  obtain ⟨hG', hb⟩ := hf a ha s' b s'' hfs
  exact ⟨hG.trans hG', hb⟩

theorem grows_lift {R : Change} {p : Run α} (hp : p.Keeps (fun _ => True) R P)
    (hR : ∀ s s', R.Rel s s' → G.Rel s.frames s'.frames 0) : G.Grows P (liftM p) := by
  intro s a s' h
  obtain ⟨h, hj⟩ := Recorded.execute_lift_ok h
  obtain ⟨-, hm, hP⟩ := hp s.1 fun _ _ _ => trivial
  rw [h] at hm hP
  exact ⟨⟨0, by rw [hj]; rfl, hR _ _ hm⟩, hP a rfl⟩

def growing (G : Growth) : Correspondence Recorded Recorded where
  Fine _ := True
  fine _ _ := trivial
  Rel Q p _ := G.Grows Q p
  pure ha := grows_pure ha
  bind hp hf := grows_bind hp hf
  quiet hp := grows_lift hp fun _ _ h => by
    rw [h.2]
    exact G.refl _

def growingLoosely : MildCorrespondence Recorded Recorded where
  toCorrespondence := growing loose
  mild hp := grows_lift hp fun _ s' h => ⟨[], s'.frames, rfl, h.1, h.2, rfl⟩

end Growth

/-! ## Calls -/

theorem Eval.enterFunction_frames {name : String} {params : List Tree} {args : List Value}
    (h : (Eval.enterFunction name params args).execute m = (.ok (), m')) :
    ∃ f, m'.store.frames = f :: m.store.frames := by
  obtain ⟨⟨⟩, m₁, h₁, h₂⟩ := Run.execute_bind_ok h
  rw [Run.execute_changeStore] at h₁
  obtain ⟨-, rfl⟩ := Prod.mk.inj h₁
  obtain ⟨-, hbelow, -⟩ := Eval.bindParams_keeps (F := fun _ => True) (fun _ _ => trivial) params
    args (fun _ _ => trivial) _ fun _ _ _ => trivial
  rw [h₂] at hbelow
  obtain ⟨hlen, htail⟩ : Store.SameBelow _ _ := hbelow
  cases hf : m'.store.frames with
  | nil => simp [hf, Store.pushFrame] at hlen
  | cons f fs =>
    rw [hf] at htail
    exact ⟨f, congrArg (List.cons f) htail⟩

def Converts (type : Tree) (x v : Value) : Prop :=
  ∃ t c n, type.type? = some (.number t) ∧ x.content = .ok c ∧ Number.ofScalar t c = .ok n ∧
    v = .number n

theorem Value.content_ne_nothing {v : Value} {c : Scalar} (h : v.content = .ok c) :
    c ≠ .nothing := by
  rintro rfl
  cases v with
  | number n | constant n =>
    cases hn : n.value <;> simp [content, hn, Num.toScalar] at h
  | _ => cases h

/-- A number made from a plain value that is there. -/
theorem Run.makeNumber_ok {t : CType} {c : Scalar} {n : Number} (hc : c ≠ .nothing)
    (h : (Run.makeNumber t c).execute m = (.ok n, m')) :
    Number.ofScalar t c = .ok n ∧ m'.store = m.store := by
  have hmake : Number.make t c m.random = (do return (← Number.ofScalar t c, m.random)) := by
    cases c with
    | nothing => exact absurd rfl hc
    | _ => rfl
  simp only [Run.makeNumber, Run.execute_bind, Run.execute_get, Run.execute_ofExcept, hmake] at h
  cases hn : Number.ofScalar t c with
  | error e =>
    rw [hn] at h
    cases h
  | ok n' =>
    rw [hn] at h
    obtain ⟨hr, rfl⟩ := Prod.mk.inj h
    exact ⟨hr, rfl⟩

theorem Eval.typeOf_ok {type : Tree} {t : VarType}
    (h : (Eval.typeOf type).execute m = (.ok t, m')) : type.type? = some t ∧ m' = m := by
  unfold Eval.typeOf at h
  split at h
  · next ht =>
    obtain ⟨rfl, rfl⟩ : _ = t ∧ m = m' := by simpa using h
    exact ⟨ht, rfl⟩
  · cases h

/-- What is converted to the type of a function that returns a value. -/
theorem Eval.convert_ok {t : VarType} {c : Scalar} {r : Value} (hc : c ≠ .nothing)
    (h : (Eval.convert t (.scalar c)).execute m = (.ok r, m')) :
    ∃ t' n, t = .number t' ∧ Number.ofScalar t' c = .ok n ∧ r = .number n ∧
      m'.store = m.store := by
  cases t with
  | struct t => cases h
  | number t =>
    obtain ⟨n, m₁, h₁, h⟩ := Run.execute_bind_ok h
    obtain ⟨rfl, rfl⟩ : Value.number n = r ∧ m₁ = m' := by simpa using h
    obtain ⟨s, m₂, h₂, h₁⟩ := Run.execute_bind_ok h₁
    obtain ⟨rfl, rfl⟩ : c = s ∧ m = m₂ := by simpa [Value.plain] using h₂
    obtain ⟨hn, hm⟩ := Run.makeNumber_ok hc h₁
    exact ⟨t, n, rfl, hn, rfl, hm⟩

/-- A function that ends without a value does nothing more. One that ends with a value converts it
and pops a frame. -/
theorem Eval.leaveFunction_cases {type : Tree} {w v : Value}
    (h : (Eval.leaveFunction type w).execute m = (.ok v, m')) :
    (w.isNothing = true ∧ v = .nothing ∧ m' = m) ∨
      (w.isNothing = false ∧ Converts type w v ∧ ∃ f, m.store.frames = f :: m'.store.frames ∧
        m'.store.globals = m.store.globals) := by
  unfold Eval.leaveFunction at h
  split at h
  · next hw =>
    obtain ⟨rfl, rfl⟩ : Value.nothing = v ∧ m = m' := by simpa using h
    exact .inl ⟨hw, rfl, rfl⟩
  · next hw =>
    obtain ⟨t, m₁, h₁, h⟩ := Run.execute_bind_ok h
    obtain ⟨c, m₂, h₂, h⟩ := Run.execute_bind_ok h
    obtain ⟨r, m₃, h₃, h⟩ := Run.execute_bind_ok h
    obtain ⟨⟨⟩, m₄, h₄, h⟩ := Run.execute_bind_ok h
    obtain ⟨rfl, rfl⟩ : r = v ∧ m₄ = m' := by simpa using h
    obtain ⟨ht, rfl⟩ := Eval.typeOf_ok h₁
    obtain ⟨hc, rfl⟩ : w.content = .ok c ∧ m₁ = m₂ := by simpa using h₂
    obtain ⟨t', n, rfl, hn, rfl, hm⟩ := Eval.convert_ok (Value.content_ne_nothing hc) h₃
    refine .inr ⟨by simpa using hw, ⟨t', c, n, ht, hc, hn, rfl⟩, ?_⟩
    rw [Run.execute_changeStore] at h₄
    split at h₄
    · next s hs =>
      obtain ⟨-, rfl⟩ := Prod.mk.inj h₄
      obtain ⟨f, fs, hf, rfl⟩ := Store.popFrame_cases hs
      exact ⟨f, hm ▸ hf, hm ▸ rfl⟩
    · cases h₄

/-- The frames after a call of a function of the program. -/
theorem callFunction_frames {type : Tree} {name : String} {params : List Tree} {body : Tree}
    {args : List Value} {s' : Machine × Journal} {v : Value}
    (hbody : Growth.loose.Grows (fun _ => True) (record fuel body))
    (h : (Eval.callFunction (record fuel) type name params body args).execute s = (.ok v, s')) :
    ∃ k, leaks s'.2.events = leaks s.2.events + k ∧
      Extends s.1.store.frames s'.1.store.frames (k + if v.isNothing then 1 else 0) := by
  obtain ⟨⟨⟩, s₁, h₁, h⟩ := Recorded.execute_bind_ok h
  obtain ⟨w, s₂, h₂, h₃⟩ := Recorded.execute_bind_ok h
  obtain ⟨h₁, hj₁⟩ := Recorded.execute_lift_ok h₁
  obtain ⟨h₃, hj₃⟩ := Recorded.execute_lift_ok h₃
  obtain ⟨f, hf⟩ := Eval.enterFunction_frames h₁
  obtain ⟨⟨k, hk, hgrow⟩, -⟩ := hbody s₁ w s₂ h₂
  obtain ⟨left, inner, rfl, hlen, htail, hframes⟩ : Covers _ _ k := hgrow
  rw [hf] at hlen htail
  obtain ⟨f', rfl⟩ : ∃ f', inner = f' :: s.1.store.frames := by
    cases inner with
    | nil => simp at hlen
    | cons f' rest => exact ⟨f', congrArg (List.cons f') htail⟩
  refine ⟨left.length, by rw [hj₃, hk, hj₁], ?_⟩
  obtain ⟨-, rfl, hm⟩ | ⟨-, ⟨t, c, x, -, -, -, rfl⟩, g, hg, -⟩ := Eval.leaveFunction_cases h₃
  · -- The frame of the call stays below the frames that the body has left.
    refine ⟨left ++ [f'], by simp [Value.nothing, Value.isNothing], ?_⟩
    rw [hm, hframes, List.append_assoc, List.singleton_append]
  · -- One frame is popped: that of the call, or the topmost that the body has left.
    rw [hframes] at hg
    cases left with
    | nil =>
      obtain ⟨-, hg⟩ := List.cons.inj hg
      exact ⟨[], by simp [Value.isNothing], hg.symm⟩
    | cons l left =>
      obtain ⟨-, hg⟩ := List.cons.inj hg
      refine ⟨left ++ [f'], by simp [Value.isNothing], ?_⟩
      rw [List.append_assoc, List.singleton_append]
      exact hg.symm

/-- What a call calls is what its name stands for behind the arguments. -/
theorem Visit.callee?_eq {v : Visit} {n : Nat} {f : String} {s₁ : Machine × Journal}
    {vs : List Value} {w : Value} {m₂ : Machine} (ht : v.tree = .call f args n)
    (hfuel : v.fuel = fuel + 1) (hs : v.before = s.1)
    (hargs : (Eval.arguments (record fuel) args).execute s = (.ok vs, s₁))
    (hw : (Run.readName f).execute s₁.1 = (.ok w, m₂)) : v.callee? = some w := by
  have hplain := record_arguments fuel args s
  rw [hargs] at hplain
  simp only [callee?, ht, hfuel, hs, Nat.add_sub_cancel, hplain, hw]
  rfl

theorem callsFunction_of_not_call {t : Tree} (ht : ∀ f args n, t ≠ .call f args n) :
    (Recorded.visitAt fuel t s).callsFunction = false := by
  cases t with
  | call f args n => exact absurd rfl (ht f args n)
  | _ => rfl

theorem leaks_entered (fuel : Nat) (t : Tree) (s : Machine × Journal) :
    leaks (Recorded.entered fuel t s).2.events = leaks s.2.events :=
  List.countP_cons_of_neg nofun

theorem leaks_left (fuel : Nat) (t : Tree) (s s' : Machine × Journal) (v : Value) :
    leaks (Recorded.left fuel t s (.ok v) s').2.events =
      leaks s'.2.events +
        if (Recorded.visitAt fuel t s).callsFunction && v.isNothing then 1 else 0 :=
  List.countP_cons ..

/-- What happens in a call: the arguments are evaluated, and then what the name stands for is
called. -/
theorem call_cases {f : String} {s' : Machine × Journal} {v : Value}
    (h : (Eval.call (record fuel) f args).execute s = (.ok v, s')) :
    ∃ vs s₁ w m₂ given, (Eval.arguments (record fuel) args).execute s = (.ok vs, s₁) ∧
      (Run.readName f).execute s₁.1 = (.ok w, m₂) ∧
      ((∃ b, w = .builtin b ∧
        (Eval.callBuiltin b given).execute m₂ = (.ok v, s'.1) ∧ s'.2 = s₁.2) ∨
      ∃ type name params body, w = .function type name params body ∧
        (Eval.callFunction (record fuel) type name params body given).execute (m₂, s₁.2) =
          (.ok v, s')) := by
  obtain ⟨vs, s₁, h₁, h⟩ := Recorded.execute_bind_ok h
  obtain ⟨w, s₂, h₂, h⟩ := Recorded.execute_bind_ok h
  obtain ⟨h₂, hj⟩ := Recorded.execute_lift_ok h₂
  refine ⟨vs, s₁, w, s₂.1, if Eval.takesMemory f then vs ++ [.memory] else vs, h₁, h₂, ?_⟩
  cases w with
  | builtin b =>
    obtain ⟨h₃, hj'⟩ := Recorded.execute_lift_ok h
    exact .inl ⟨b, rfl, h₃, hj'.trans hj⟩
  | function type name params body =>
    rw [← hj]
    exact .inr ⟨type, name, params, body, rfl, h⟩
  | _ => cases h

/-! ## Evaluation -/

namespace Growth

/-- The evaluation of a call makes the frames grow as its arguments do. -/
theorem record_call (G : Growth) {f : String} {n : Nat}
    (hargs : ∀ a ∈ args, G.Grows (fun _ => True) (record fuel a))
    (hbody : ∀ t, loose.Grows (fun _ => True) (record fuel t)) :
    G.Grows (fun _ => True) (record (fuel + 1) (.call f args n)) := by
  intro s v s' h
  refine ⟨?_, trivial⟩
  obtain ⟨s₃, hr, rfl⟩ := Recorded.execute_record_ok h
  obtain ⟨vs, s₁, w, m₂, given, h₁, h₂, hcallee⟩ := call_cases hr
  have hgrows : (growing G).Rel (fun vs => ∀ v ∈ vs, (growing G).Fine v)
      (Eval.arguments (record fuel) args) (Eval.arguments (record fuel) args) :=
    (growing G).arguments hargs
  obtain ⟨⟨j, hj, hG⟩, -⟩ := hgrows _ vs s₁ h₁
  rw [leaks_entered] at hj
  have hsame : m₂.store.frames = s₁.1.store.frames :=
    ((Run.readName_keeps (fun _ _ => trivial) f).sameScopes h₂).2
  have hleft := leaks_left (fuel + 1) (.call f args n) s s₃ v
  rw [Visit.callsFunction, Visit.callee?_eq rfl rfl rfl h₁ h₂] at hleft
  obtain ⟨b, rfl, h₃, hj₃⟩ | ⟨type, name, params, body, rfl, h₃⟩ := hcallee
  · have hsame' := ((Eval.callBuiltin_keeps (fun _ _ => trivial) b given).sameScopes h₃).2
    refine ⟨j, ?_, ?_⟩
    · rw [hleft, hj₃, hj]
      rfl
    · change G.Rel _ s₃.1.store.frames j
      rw [hsame', hsame]
      exact hG
  · obtain ⟨k, hk, hext⟩ := callFunction_frames (hbody body) h₃
    refine ⟨j + (k + if v.isNothing then 1 else 0), ?_, G.trans hG (G.ofExtends ?_)⟩
    · rw [hleft, hk, hj]
      simp only [Option.any_some, Value.isFunction, Bool.true_and]
      omega
    · rw [← hsame]
      exact hext

/-- The evaluation of any other tree makes the frames grow as its rule does. -/
theorem record_of_not_call (G : Growth) {t : Tree} (ht : ∀ f args n, t ≠ .call f args n)
    (hrule : G.Grows (fun _ => True) (Eval.rule (record fuel) fuel t)) :
    G.Grows (fun _ => True) (record (fuel + 1) t) := by
  intro s v s' h
  refine ⟨?_, trivial⟩
  obtain ⟨s₁, hr, rfl⟩ := Recorded.execute_record_ok h
  obtain ⟨⟨k, hk, hG⟩, -⟩ := hrule _ v s₁ hr
  refine ⟨k, ?_, hG⟩
  rw [leaks_left, callsFunction_of_not_call ht, hk, leaks_entered]
  rfl

/-- An evaluation touches no frame below the current one, and leaves one for each call that ends
without a value. -/
theorem record_loose (fuel : Nat) (t : Tree) :
    loose.Grows (fun _ => True) (record fuel t) := by
  induction fuel generalizing t with
  | zero => exact fun s v s' h => by cases h
  | succ fuel ih =>
    by_cases ht : ∃ f args n, t = .call f args n
    · obtain ⟨f, args, n, rfl⟩ := ht
      exact record_call loose (fun a _ => ih a) ih
    · have ht : ∀ f args n, t ≠ .call f args n := fun f args n h => ht ⟨f, args, n, h⟩
      have hrule : growingLoosely.Both (Eval.rule (record fuel) fuel t)
          (Eval.rule (record fuel) fuel t) :=
        growingLoosely.rule fuel t (fun u _ => ih u) (fun f args n h => absurd h (ht f args n))
          fun _ _ _ _ _ _ => trivial
      exact record_of_not_call loose ht hrule

/-- The evaluation of an expression touches no frame, and leaves one for each call that ends without
a value. -/
theorem record_exact (fuel : Nat) {t : Tree} (ht : t.Grammatical .expression) :
    exact.Grows (fun _ => True) (record fuel t) := by
  induction fuel generalizing t with
  | zero => exact fun s v s' h => by cases h
  | succ fuel ih =>
    have hop : ∀ u ∈ t.operands, exact.Grows (fun _ => True) (record fuel u) :=
      fun u hu => ih (ht.operand hu)
    by_cases hc : ∃ f args n, t = .call f args n
    · obtain ⟨f, args, n, rfl⟩ := hc
      exact record_call exact hop (record_loose fuel)
    · have hc : ∀ f args n, t ≠ .call f args n := fun f args n h => hc ⟨f, args, n, h⟩
      have hrule : (growing exact).Both (Eval.rule (record fuel) fuel t)
          (Eval.rule (record fuel) fuel t) := by
        refine (growing exact).rule fuel t hop (fun f args n h => absurd h (hc f args n)) fun hs => ?_
        rw [ht.not_touchesScopes] at hs
        cases hs
      exact record_of_not_call exact hc hrule

end Growth

/-! ## Calls in the run of a program -/

theorem Visit.isCall_of_callee? {v : Visit} {w : Value} (h : v.callee? = some w) :
    ∃ f args n, v.tree = .call f args n := by
  cases ht : v.tree with
  | call f args n => exact ⟨f, args, n, rfl⟩
  | _ => simp [callee?, ht] at h

theorem Visit.callee?_of_callsFunction {v : Visit} (h : v.callsFunction = true) :
    ∃ type name params body, v.callee? = some (.function type name params body) := by
  cases hc : v.callee? with
  | none => simp [callsFunction, hc] at h
  | some w =>
    cases w with
    | function type name params body => exact ⟨type, name, params, body, rfl⟩
    | _ => simp [callsFunction, hc, Value.isFunction] at h

/-- A call that the run of a program reaches is an expression. -/
theorem Tree.Reachable.call_grammatical {p : Tree} {k : Category} {f : String} {n : Nat}
    (hp : p.Grammatical k) (h : p.Reachable (.call f args n)) :
    Grammatical .expression (.call f args n) := by
  obtain h | h := h
  · obtain ⟨j, hj⟩ := h.grammatical hp
    exact .call f n fun a ha => hj.argument ha
  · obtain ⟨rfl, rfl, rfl⟩ := Tree.call.inj h
    exact .call "main" 0 (List.forall_mem_nil _)

/-- An evaluation that is found by running a program. -/
theorem Program.exists_visit {code : String} {P : Visit → Bool}
    (h : ((Program.parse code).toOption.any fun t => (Analysis.analyze t).1.isOk &&
      (history fuel t (Machine.start "")).any fun e => e.entered?.any P) = true) :
    ∃ t, Program.parse code = .ok t ∧ (Analysis.analyze t).1.isOk = true ∧
      ∃ v, Event.enter v ∈ history fuel t (Machine.start "") ∧ P v = true := by
  obtain ⟨t, hp, haccepted, hany⟩ := Program.exists_accepted h
  obtain ⟨e, he, hv⟩ := List.any_eq_true.1 hany
  cases e with
  | enter v => exact ⟨t, hp, haccepted, v, he, hv⟩
  | leave => cases hv

theorem Run.exists_of_isOk {α : Type} {p : Run α} (h : (p.execute m).1.isOk = true) :
    ∃ a m', p.execute m = (.ok a, m') := by
  cases hr : p.execute m with
  | mk r m' =>
    rw [hr] at h
    cases r with
    | error => cases h
    | ok a => exact ⟨a, m', rfl⟩

/-- In the run of a program, a completed call of a function of the program keeps the frames, and has
on top of them one frame for each call during it, itself included, that ended without a value. So
the frames after it are those before it exactly if no such call ended without a value. -/
theorem frames_after_call_iff {code : String} {program : Tree}
    (hp : Program.parse code = .ok program) {fuel : Nat} {m : Machine}
    (hm : m.store = Store.empty) {v : Visit} (hv : Event.enter v ∈ history fuel program m)
    (hf : v.callsFunction = true) {w : Value} {m' : Machine}
    (hr : (Eval.eval v.fuel v.tree).execute v.before = (.ok w, m')) :
    (m'.store.frames = v.before.store.frames ↔ ∀ e ∈ v.events, e.valueless = false) ∧
      ∃ left, left.length = leaks v.events ∧
        m'.store.frames = left ++ v.before.store.frames := by
  obtain ⟨type, name, params, body, hcallee⟩ := Visit.callee?_of_callsFunction hf
  obtain ⟨f, args, n, ht⟩ := Visit.isCall_of_callee? hcallee
  have hexpr : v.tree.Grammatical .expression := by
    have hreach : program.Reachable v.tree := (history_sound hm hv).1
    rw [ht] at hreach ⊢
    exact hreach.call_grammatical (Program.parse_grammatical hp)
  have hrec := record_eval v.fuel v.tree (v.before, ⟨v.context, []⟩)
  rw [hr] at hrec
  obtain ⟨hw, hm'⟩ := Prod.mk.inj hrec
  obtain ⟨⟨k, hk, hgrow⟩, -⟩ := Growth.record_exact v.fuel hexpr _ w _ (Prod.ext hw.symm rfl)
  obtain ⟨left, hlen, hframes⟩ : Extends _ _ k := hgrow
  have hleaks : left.length = leaks v.events := by
    rw [hlen]
    exact (hk.trans (Nat.zero_add k)).symm
  rw [← hm'] at hframes
  refine ⟨?_, left, hleaks, hframes⟩
  rw [hframes, List.append_left_eq_self, ← List.length_eq_zero_iff, hleaks, leaks,
    List.countP_eq_zero]
  simp only [Bool.not_eq_true]

/-- A function that returns without a value leaves its frame. -/
theorem frames_after_call_without_value :
    ∃ program v w m',
      Program.parse "int g()\x7b return; \x7d int main()\x7b int x; x = 1; g(); return x; \x7d" =
        .ok program ∧
      (Analysis.analyze program).1.isOk = true ∧
      Event.enter v ∈ history 20 program (Machine.start "") ∧ v.callsFunction = true ∧
      (Eval.eval v.fuel v.tree).execute v.before = (.ok w, m') ∧
      m'.store.frames ≠ v.before.store.frames := by
  have hrun : ((Program.parse
      "int g()\x7b return; \x7d int main()\x7b int x; x = 1; g(); return x; \x7d").toOption.any
        fun t => (Analysis.analyze t).1.isOk &&
          (history 20 t (Machine.start "")).any fun e => e.entered?.any fun v =>
            v.callsFunction && v.events.any Event.valueless &&
              ((Eval.eval v.fuel v.tree).execute v.before).1.isOk) = true := by
    decide +kernel
  obtain ⟨program, hp, haccepted, v, hv, hcall⟩ := Program.exists_visit hrun
  simp only [Bool.and_eq_true] at hcall
  obtain ⟨⟨hf, hany⟩, hok⟩ := hcall
  obtain ⟨e, he, hval⟩ := List.any_eq_true.1 hany
  obtain ⟨w, m', hr⟩ := Run.exists_of_isOk hok
  refine ⟨program, v, w, m', hp, haccepted, hv, hf, hr, fun hframes => ?_⟩
  have hnone := (frames_after_call_iff hp rfl hv hf hr).1.1 hframes e he
  rw [hval] at hnone
  cases hnone

end MiniC
