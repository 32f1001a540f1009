import MiniC.Proofs.Operands

/-!
# Types of results

The type of the number that a computation gives if it gives one: conversions give the type that is
asked for, assignments and steps that of the number they replace, and calls that of the function.
-/

namespace MiniC

variable {m m' : Machine} {n : Number} {v w old given : Value}

def Value.returnType? : Value → Option CType
  | .builtin f => f.returnType
  | .function type _ _ _ =>
    match type.type? with
    | some (.number t) => some t
    | _ => none
  | _ => none

namespace Run

theorem makeNumber_type {t : CType} {s : Scalar} (h : (makeNumber t s).execute m = (.ok n, m')) :
    n.ctype = t := by
  obtain ⟨m₁, _, -, hmake⟩ := execute_bind_ok h
  obtain ⟨⟨n', r⟩, _, hn', hset⟩ := execute_bind_ok hmake
  obtain ⟨_, _, -, hpure⟩ := execute_bind_ok hset
  cases hpure
  rw [execute_ofExcept] at hn'
  exact Number.make_ctype (Prod.mk.inj hn').1

/-- The number that is read from a cell has the type that the cell shows. -/
theorem readAt_type {a : Scalar} (h : (readAt a).execute m = (.ok v, m'))
    (hv : v.number? = some n) : m.store.typeAt? a = some n.ctype :=
  (Eval.readAt_determined a m).type v n (congrArg Prod.fst h) hv

end Run

namespace Value

variable {a b : Value} {f : Number → Number → Except Fault Number}
  {g : Scalar → Scalar → Except Fault Scalar}

theorem operate_ok (h : operate f g a b = .ok w) (hw : w.number? = some n) :
    ∃ x y, a.number? = some x ∧ b.number? = some y := by
  unfold operate at h
  split at h
  · next x y hx hy => exact ⟨x, y, hx, hy⟩
  · cases h
  · split at h
    · next s t _ =>
      cases hg : g s t with
      | error e =>
        rw [hg] at h
        cases h
      | ok r =>
        rw [hg] at h
        cases h
        cases hw
    · cases h

theorem compare_ok {c : Comparison} (h : compare c a b = .ok w) (hw : w.number? = some n) :
    ∃ x y, a.number? = some x ∧ b.number? = some y := by
  unfold compare at h
  split at h
  · next x y hx hy => exact ⟨x, y, hx, hy⟩
  · cases h
  · cases h
  · split at h
    · next s t _ _ =>
      cases hc : s.compare c t with
      | error e =>
        rw [hc] at h
        cases h
      | ok r =>
        rw [hc] at h
        cases h
        cases hw
    · split at h
      · cases h
        cases hw
      · cases h
        cases hw
      · cases h

theorem add_ok (h : add a b = .ok w) (hw : w.number? = some n) :
    ∃ x y, a.number? = some x ∧ b.number? = some y := by
  have hsize {t : CType} {e : Fault} :
      (do let _ ← t.size; .error e : Except Fault Value) ≠ .ok w := by
    cases t.size <;> exact nofun
  unfold add at h
  split at h
  · split at h
    · exact absurd h hsize
    · cases h
  · split at h
    · exact absurd h hsize
    · exact operate_ok h hw
  · exact operate_ok h hw

end Value

namespace Eval

theorem number_map_ok {r : Except Fault Number} (h : Value.number <$> r = .ok w)
    (hw : w.number? = some n) : r = .ok n := by
  cases r with
  | error e => cases h
  | ok k =>
    cases h
    exact congrArg Except.ok (Option.some.inj hw)

/-- A number is only given by an operator if both operands are numbers. -/
theorem operator_ok {op : Kind} {f : Store → Value → Value → Except Fault Value} {s : Store}
    {a b : Value} (hf : operator? op = some f) (h : f s a b = .ok w) (hw : w.number? = some n) :
    ∃ x y, a.number? = some x ∧ b.number? = some y := by
  cases op <;> cases hf
  case plus => exact Value.add_ok h hw
  case minus =>
    simp only [Value.sub] at h
    split at h
    · split at h
      · cases h
      · exact Value.operate_ok h hw
    · exact Value.operate_ok h hw
  case modOp =>
    simp only [Value.mod] at h
    split at h
    · obtain ⟨_, -, htext⟩ := Analysis.bind_eq_ok.1 h
      obtain ⟨_, -, hpure⟩ := Analysis.bind_eq_ok.1 htext
      cases hpure
      cases hw
    · exact Value.operate_ok h hw
  case orOp =>
    simp only [Value.union] at h
    split at h
    · cases h
      cases hw
    · exact Value.operate_ok h hw
  case asterisk | divOp | ampersand | xorOp => exact Value.operate_ok h hw
  all_goals exact Value.compare_ok h hw

theorem convert_type {t : VarType} (h : (convert t v).execute m = (.ok w, m')) :
    ∃ n, w = .number n ∧ t = .number n.ctype := by
  cases t with
  | number t =>
    obtain ⟨n, _, hn, h⟩ := Run.execute_bind_ok h
    obtain ⟨s, _, -, hn⟩ := Run.execute_bind_ok hn
    cases h
    exact ⟨n, rfl, congrArg VarType.number (Run.makeNumber_type hn).symm⟩
  | struct => cases h

theorem number?_of_asNumber (h : v.asNumber = .ok n) : v.number? = some n := by
  unfold Value.asNumber at h
  cases hv : v.number? with
  | none =>
    rw [hv] at h
    cases h
  | some k =>
    rw [hv] at h
    exact congrArg some (Except.ok.inj h)

theorem execute_ofExcept_ok {α : Type} {r : Except Fault α} {a : α}
    (h : (Run.ofExcept r).execute m = (.ok a, m')) : r = .ok a ∧ m' = m := by
  rw [Run.execute_ofExcept] at h
  obtain ⟨rfl, rfl⟩ := Prod.mk.inj h
  exact ⟨rfl, rfl⟩

theorem assigned_type {op : Kind} (h : (assigned op old given).execute m = (.ok w, m')) :
    ∃ x n, old.number? = some x ∧ w = .number n ∧ n.ctype = x.ctype := by
  unfold assigned at h
  split at h
  · obtain ⟨x, _, hx, hgiven⟩ := Run.execute_bind_ok h
    obtain ⟨v, _, -, hconvert⟩ := Run.execute_bind_ok hgiven
    obtain ⟨n, rfl, htype⟩ := convert_type hconvert
    exact ⟨x, n, number?_of_asNumber (execute_ofExcept_ok hx).1, rfl,
      (VarType.number.inj htype).symm⟩
  · cases h

theorem update_ok {a : Scalar} {f : Value → Run Value} {r : Value × Value}
    (h : (update a f).execute m = (.ok r, m')) :
    ∃ m₁ m₂, (Run.readAt a).execute m = (.ok r.1, m₁) ∧ (f r.1).execute m₁ = (.ok r.2, m₂) ∧
      (Run.writeAt a r.2).execute m₂ = (.ok (), m') := by
  obtain ⟨old, m₁, hread, h⟩ := Run.execute_bind_ok h
  obtain ⟨v, m₂, hv, h⟩ := Run.execute_bind_ok h
  obtain ⟨_, m₃, hwrite, h⟩ := Run.execute_bind_ok h
  cases h
  exact ⟨m₁, m₂, hread, hv, hwrite⟩

theorem step_type {f : Value → Value → Except Fault Value} {e : Tree} {r : Value × Value}
    (h : (step f e).execute m = (.ok r, m')) :
    ∃ a m₀ m₁ x n, (place e).execute m = (.ok a, m₀) ∧
      (Run.readAt a).execute m₀ = (.ok r.1, m₁) ∧ r.1.number? = some x ∧ r.2 = .number n ∧
      n.ctype = x.ctype := by
  obtain ⟨a, m₀, hplace, h⟩ := Run.execute_bind_ok h
  obtain ⟨m₁, m₂, hread, hnew, -⟩ := update_ok h
  obtain ⟨x, _, hx, hsum⟩ := Run.execute_bind_ok hnew
  obtain ⟨one, _, -, hsum⟩ := Run.execute_bind_ok hsum
  obtain ⟨v, _, -, hconvert⟩ := Run.execute_bind_ok hsum
  obtain ⟨n, hn, htype⟩ := convert_type hconvert
  exact ⟨a, m₀, m₁, x, n, hplace, hread, number?_of_asNumber (execute_ofExcept_ok hx).1, hn,
    (VarType.number.inj htype).symm⟩

theorem assign_type {fuel : Nat} {target value : Tree} {op : Token}
    (h : (assign (eval fuel) target op value).execute m = (.ok w, m')) :
    ∃ a m₀ old m₁ given m₂ x n, (place target).execute m = (.ok a, m₀) ∧
      (Run.readAt a).execute m₀ = (.ok old, m₁) ∧
      (eval fuel value).execute m₁ = (.ok given, m₂) ∧ old.number? = some x ∧ w = .number n ∧
      n.ctype = x.ctype := by
  obtain ⟨a, m₀, hplace, hrest⟩ := Run.execute_bind_ok h
  obtain ⟨⟨old, new⟩, _, hupdate, hpure⟩ := Run.execute_bind_ok hrest
  obtain ⟨m₁, _, hread, hnew, -⟩ := update_ok hupdate
  obtain ⟨given, m₂, hgiven, hassigned⟩ := Run.execute_bind_ok hnew
  obtain ⟨x, n, hx, hn, htype⟩ := assigned_type hassigned
  cases hpure
  exact ⟨a, m₀, old, m₁, given, m₂, x, n, hplace, hread, hgiven, hx, hn, htype⟩

theorem callBuiltin_type {f : Builtin} {args : List Value}
    (h : (callBuiltin f args).execute m = (.ok w, m')) (hw : w.number? = some n) :
    f.returnType = some n.ctype := by
  obtain ⟨s, _, -, hrest⟩ := Run.execute_bind_ok h
  split at hrest
  · cases hrest
    cases hw
  · split at hrest
    · next t ht =>
      obtain ⟨n', _, hn', hpure⟩ := Run.execute_bind_ok hrest
      cases hpure
      cases hw
      rw [ht, Run.makeNumber_type hn']
    · cases hrest

theorem leaveFunction_type {type : Tree} (h : (leaveFunction type v).execute m = (.ok w, m'))
    (hw : w.number? = some n) : type.type? = some (.number n.ctype) := by
  unfold leaveFunction at h
  split at h
  · cases h
    cases hw
  · obtain ⟨t, _, ht, hrest⟩ := Run.execute_bind_ok h
    obtain ⟨content, _, -, hrest⟩ := Run.execute_bind_ok hrest
    obtain ⟨r, _, hr, hrest⟩ := Run.execute_bind_ok hrest
    obtain ⟨_, _, -, hpure⟩ := Run.execute_bind_ok hrest
    obtain ⟨n', rfl, htype⟩ := convert_type hr
    cases hpure
    cases hw
    unfold typeOf at ht
    split at ht
    · next t' ht' =>
      cases ht
      rw [ht', htype]
    · cases ht

/-- A call gives a number of the type of the function. -/
theorem call_type {fuel : Nat} {name : String} {args : List Tree}
    (h : (call (eval fuel) name args).execute m = (.ok w, m')) (hw : w.number? = some n) :
    ∃ vs m₁ g m₂, (arguments (eval fuel) args).execute m = (.ok vs, m₁) ∧
      (Run.readName name).execute m₁ = (.ok g, m₂) ∧ g.returnType? = some n.ctype := by
  obtain ⟨vs, m₁, hvs, hcall⟩ := Run.execute_bind_ok h
  obtain ⟨g, m₂, hg, hrest⟩ := Run.execute_bind_ok hcall
  refine ⟨vs, m₁, g, m₂, hvs, hg, ?_⟩
  cases g with
  | builtin f => exact callBuiltin_type hrest hw
  | function type f params body =>
    obtain ⟨_, _, -, hbody⟩ := Run.execute_bind_ok hrest
    obtain ⟨v, _, -, hleave⟩ := Run.execute_bind_ok hbody
    rw [Value.returnType?, leaveFunction_type hleave hw]
  | _ => cases hrest

end Eval

end MiniC
