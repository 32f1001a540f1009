import MiniC.Proofs.CompoundAssignment
import MiniC.Proofs.Conversions
import MiniC.Proofs.StoreTyping

/-!
# Pointers

The address of a variable is a number of type `int`, and a dereferenced number stands for the cell
at its value. So the two cancel if and only if the address is one that an `int` can have: the next
address is not bounded, and an address that is too large is brought into the range of the type as
any other integer. The same holds of an address that is assigned to a variable, with the type of
the variable. As long as every block that was asked for had a size and less than half of the range
of an unsigned `int` has been given away, the address of every variable is in the range of `int` and
of all types of pointers.
-/

namespace MiniC

/-- An address as an `int`, which is the address itself only if it is in the range. -/
theorem Number.ofScalar_address (a : Int) :
    ∃ n, ofScalar .int (.int a) = .ok n ∧ (n.value = .int a ↔ CType.int.Has (.int a)) := by
  obtain ⟨n, hn, htype⟩ := ofScalar_int (t := .int) rfl rfl a
  refine ⟨n, hn, fun hvalue => htype ▸ hvalue ▸ n.fits, fun hfits => ?_⟩
  rw [ofScalar_of_has hfits] at hn
  rw [← Except.ok.inj hn]

def addressBound : Int := 2 ^ 31

/-- A nonnegative address below the bound can be held by an `int` and by every pointer. -/
theorem CType.has_address {t : CType} (ht : t = .int ∨ t.pointer = true) {a : Int} (hlo : 0 ≤ a)
    (hhi : a < addressBound) : t.Has (.int a) := by
  obtain ⟨hsize, hreal⟩ : t.size? = some 4 ∧ t.isReal = false := by
    obtain rfl | hpointer := ht
    · exact ⟨rfl, rfl⟩
    · simp [size?, isReal, hpointer]
  refine ⟨limitsOf 4 t.isUnsigned, by rw [limits?, hsize]; rfl, hreal, ?_⟩
  have hpow : Int.pow 2 (8 * 4) = 4294967296 ∧ Int.pow 2 (8 * 4 - 1) = 2147483648 := ⟨rfl, rfl⟩
  unfold addressBound at hhi
  cases t.isUnsigned <;> simp only [limitsOf, hpow, Bool.false_eq_true, if_true, if_false] <;> omega

/-- Names stand for addresses that have been given away. -/
theorem Store.Ordered.lookup_below {s : Store} (h : s.Ordered)
    {bound : Int} (hnext : ∃ next, s.next = .int next ∧ next ≤ bound) {name : String} {c : Scalar}
    (hc : s.lookup name = .ok (.at c)) : ∃ a, 0 ≤ a ∧ a < bound ∧ c = .int a := by
  obtain ⟨next, hnext', -, -, haddresses⟩ := h
  obtain ⟨next, hnext, hbound⟩ := hnext
  rw [hnext'] at hnext
  obtain rfl := Scalar.int.inj hnext
  obtain ⟨a, hlo, hhi, rfl⟩ := haddresses c (mem_addresses_of_lookup hc)
  unfold startAddress at hlo
  exact ⟨a, by omega, by omega, rfl⟩

/-- A name is bound to a whole address, at which there is a number, constant or not. -/
structure Machine.Holds (m : Machine) (name : String) (a : Int) (v : Value) (n : Number) :
    Prop where
  bound : m.store.lookup name = .ok (.at (.int a))
  cell : m.store.read? (.int a) = some v
  number : v.number? = some n

namespace Eval

variable {m m₁ m₂ : Machine} {k : Token} {a : Int} {u v : Value} {n : Number}

theorem Ends.of_eval {t : Tree} (fuel : Nat)
    (h : (eval fuel t).execute m = (.ok v, m₁)) : Ends t m (.ok v) m₁ :=
  ⟨by rintro ⟨⟩, fuel, h⟩

theorem eval_held (h : m.Holds k.value.render a v n) (i fuel : Nat) :
    (eval (fuel + 1) (.var k i)).execute m = (.ok v, m) :=
  Run.execute_readName h.bound h.cell

theorem place_of_lookup {c : Scalar} (h : m.store.lookup k.value.render = .ok (.at c)) (i : Nat) :
    (place (.var k i)).execute m = (.ok c, m) := by
  simp only [place, addressOf, Run.execute_bind, execute_lookup, h, Run.execute_pure]

theorem eval_refer (hb : m.store.lookup k.value.render = .ok (.at (.int a)))
    (hn : Number.ofScalar .int (.int a) = .ok n) {amp : Token} (hamp : amp.kind = .ampersand)
    (i j fuel : Nat) :
    (eval (fuel + 1) (.unary amp (.var k i) true j)).execute m = (.ok (.number n), m) := by
  have hrule : eval (fuel + 1) (.unary amp (.var k i) true j) = referTo (.var k i) := by
    simp only [eval, rule, before, hamp]
    rfl
  have hname : nameOf (.var k i) = pure k.value.render := rfl
  have hmake : Number.make .int (.int a) m.random = .ok (n, m.random) := by
    simp only [Number.make, hn]
    rfl
  simp only [hrule, referTo, hname, pure_bind, Run.execute_bind, execute_lookup, hb,
    Run.makeNumber, Run.execute_get, hmake, Run.execute_ofExcept, Run.execute_set, Run.execute_pure]

/-- The dereferenced address of a variable is what is read at the address as an `int`. -/
theorem eval_dereferenced (hb : m.store.lookup k.value.render = .ok (.at (.int a)))
    (hn : Number.ofScalar .int (.int a) = .ok n) {star amp : Token} (hstar : star.kind = .asterisk)
    (hamp : amp.kind = .ampersand) (i j l fuel : Nat) :
    (eval (fuel + 2) (.unary star (.unary amp (.var k i) true j) true l)).execute m =
      (Run.readAt n.value.toScalar).execute m := by
  have hrule : eval (fuel + 2) (.unary star (.unary amp (.var k i) true j) true l) =
      (do dereference (← eval (fuel + 1) (.unary amp (.var k i) true j))) := by
    rw [eval]
    simp only [rule, before, hstar]
    rfl
  rw [hrule, Run.execute_bind, eval_refer hb hn hamp]
  rfl

theorem Ends.assign {x e : Tree} {c : Scalar} (hplace : (place x).execute m = (.ok c, m))
    (hcell : m.store.read? c = some u) (hu : u.number? = some n) {eq : Token}
    (heq : eq.kind = .assign) (he : Ends e m (.ok v) m₁) {w : Number}
    (hw : (convert (.number n.ctype) v).execute m₁ = (.ok (.number w), m₂)) (i : Nat) :
    Ends (.assign x eq e i) m (.ok (.number w))
      { m₂ with store := m₂.store.write c (.number w) } := by
  obtain ⟨-, fuel, he⟩ := he
  refine .of_eval (fuel + 1) ?_
  have hnumber : u.asNumber = .ok n := by rw [Value.asNumber, hu, Option.elim_some]
  have hassigned (v : Value) : assigned .assign u v =
      (do convert (.number n.ctype) (← Run.ofExcept (.ok v))) :=
    assigned_eq (k := .assign) (f := fun _ v => .ok v) rfl hnumber v
  rw [eval_assign, execute_map, replace]
  simp only [Run.execute_bind, hplace, update, Run.liftM_eq, Run.execute_readAt_some hcell, he, heq,
    hassigned, Run.execute_ofExcept, hw, Run.writeAt, Run.execute_getStore, Run.execute_setStore]
  rfl

theorem store_of_convert {t : VarType} {w : Value}
    (h : (convert t v).execute m = (.ok w, m₁)) : m₁.store = m.store := by
  have hsame := ((ordinarily .absent (· = m.store)).convert t v m rfl).1
  rwa [h] at hsame

/-- The address of a variable is assigned to another, or to itself. The variable keeps its type. -/
theorem ends_point (hx : m.Holds k.value.render a v n) (hint : CType.int.Has (.int a)) {p : Token}
    {b : Int} {old : Number} (hp : m.Holds p.value.render b u old) (hold : old.ctype.Has (.int a))
    {amp eq : Token} (hamp : amp.kind = .ampersand) (heq : eq.kind = .assign) (i j l o : Nat) :
    ∃ m₁ q v' x, Ends (.assign (.var p i) eq (.unary amp (.var k j) true l) o) m
        (.ok (.number q)) m₁ ∧
      q.ctype = old.ctype ∧ q.value = .int a ∧ m₁.Holds p.value.render b (.number q) q ∧
      m₁.Holds k.value.render a v' x ∧ x.ctype = n.ctype := by
  have hrefer := eval_refer hx.bound (Number.ofScalar_of_has hint) hamp j l 0
  have hconvert := execute_convert old.ctype (v := .number ⟨.int, .int a, hint⟩) rfl m
  rw [Number.convert, Num.toScalar, Number.ofScalar_of_has hold] at hconvert
  have hends := Ends.assign (place_of_lookup hp.bound i) hp.cell hp.number heq (.of_eval 1 hrefer)
    hconvert o
  have hpointer : (m.store.write (.int b) (.number ⟨old.ctype, .int a, hold⟩)).read? (.int b) =
      some (.number ⟨old.ctype, .int a, hold⟩) := Store.read?_write_self _ _ _
  by_cases hab : a = b
  · subst hab
    obtain rfl : v = u := Option.some.inj (hx.cell.symm.trans hp.cell)
    obtain rfl : n = old := Option.some.inj (hx.number.symm.trans hp.number)
    exact ⟨_, _, _, _, hends, rfl, rfl, ⟨hp.bound, hpointer, rfl⟩, ⟨hx.bound, hpointer, rfl⟩, rfl⟩
  · have hne : Address.ofScalar (.int b) ≠ Address.ofScalar (.int a) :=
      fun h => hab (congrArg Address.number h).symm
    refine ⟨_, _, v, n, hends, rfl, rfl, ⟨hp.bound, hpointer, rfl⟩, ⟨hx.bound, ?_, hx.number⟩, rfl⟩
    rw [Store.read?_write_of_ne _ _ hne, hx.cell]

theorem ends_through {p : Token} {b : Int} {q : Number}
    (hp : m.Holds p.value.render b (.number q) q) (hq : q.value = .int a)
    (hx : m.Holds k.value.render a u n) {star eq : Token} (heq : eq.kind = .assign) {e : Tree}
    {w : Value} (he : Ends e m (.ok v) m₁)
    (hbound : m₁.store.lookup k.value.render = m.store.lookup k.value.render)
    (hw : (convert (.number n.ctype) v).execute m₁ = (.ok w, m₂)) (i j l : Nat) :
    ∃ m₃, Ends (.assign (.unary star (.var p i) true j) eq e l) m (.ok w) m₃ ∧
      ∀ o, Ends (.var k o) m₃ (.ok w) m₃ := by
  obtain ⟨x, rfl, -⟩ := convert_type hw
  have hplace : (place (.unary star (.var p i) true j)).execute m = (.ok (.int a), m) := by
    change (do Run.ofExcept (← Run.readName p.value.render).content : Run Scalar).execute m = _
    rw [Run.execute_bind, Run.execute_readName hp.bound hp.cell]
    simp only [Value.content, hq, Num.toScalar, Run.execute_ofExcept]
  refine ⟨_, .assign hplace hx.cell hx.number heq he hw l,
    fun o => .of_eval 1 (eval_held (a := a) ⟨?_, ?_, rfl⟩ o 0)⟩
  · change m₂.store.lookup _ = _
    rw [store_of_convert hw, hbound, hx.bound]
  · exact Store.read?_write_self _ _ _

end Eval

open Eval

/-- At every moment of the run of a program and for every variable `x` that is bound to a whole
address and holds a number, constant or not: `*&x` ends as the reading of the address as an `int`,
and the `int` is the address if and only if it is in the range. If it is, then `*&x` ends with what
`x` holds, as `x` does, and changes nothing. If it is also in the range of the type of `p`, then `p = &x` ends, and
any assignment `*p = e` that follows it, whose value can be converted to the type of `x` and does
not rebind `x`, ends with the converted value, which `x` then has. All variables are bound to whole
addresses in the ranges of `int` and all pointers if the blocks so far had a size and the next one
begins below the bound. -/
theorem dereference_address_of {code : String} {program : Tree}
    (hparse : Program.parse code = .ok program) {fuel : Nat} {start : Machine}
    (hstart : start.store = Store.empty) {later before : List Event} {event : Event}
    (hhistory : history fuel program start = later ++ event :: before) {m : Machine}
    (hm : m = event.visit.before) (star amp eq : Token) (hstar : star.kind = .asterisk)
    (hamp : amp.kind = .ampersand) (heq : eq.kind = .assign) (i j l : Nat) :
    (∀ (x : Token) (a : Int) (u : Value) (n : Number), m.Holds x.value.render a u n →
      (∃ c, Number.ofScalar .int (.int a) = .ok c ∧ (c.value = .int a ↔ CType.int.Has (.int a)) ∧
        ∀ r m', Ends (.unary star (.unary amp (.var x i) true j) true l) m r m' ↔
          (Run.readAt c.value.toScalar).execute m = (r, m')) ∧
      (CType.int.Has (.int a) →
        Ends (.unary star (.unary amp (.var x i) true j) true l) m (.ok u) m ∧
        Ends (.var x i) m (.ok u) m ∧
        ∀ (p : Token) (b : Int) (u' : Value) (old : Number), m.Holds p.value.render b u' old →
          old.ctype.Has (.int a) →
          ∃ q m₁, Ends (.assign (.var p i) eq (.unary amp (.var x i) true j) l) m
              (.ok (.number q)) m₁ ∧
            q.ctype = old.ctype ∧ q.value = .int a ∧
            ∀ (e : Tree) (v w : Value) (m₂ m₃ : Machine), Ends e m₁ (.ok v) m₂ →
              m₂.store.lookup x.value.render = m₁.store.lookup x.value.render →
              (convert (.number n.ctype) v).execute m₂ = (.ok w, m₃) →
              ∃ m₄, Ends (.assign (.unary star (.var p i) true j) eq e l) m₁ (.ok w) m₄ ∧
                Ends (.var x i) m₄ (.ok w) m₄)) ∧
    (Allotted before → (∃ next, m.store.next = .int next ∧ next ≤ addressBound) →
      ∀ name c, m.store.lookup name = .ok (.at c) →
        ∃ a, c = .int a ∧ ∀ t : CType, t = .int ∨ t.pointer = true → t.Has (.int a)) := by
  refine ⟨fun x a u n hx => ⟨?_, fun hint => ⟨?_, .of_eval 1 (eval_held hx i 0),
    fun p b u' old hp hold => ?_⟩⟩, fun hall hnext name c hc => ?_⟩
  · obtain ⟨c, hc, hiff⟩ := Number.ofScalar_address a
    refine ⟨c, hc, hiff, fun r m' => ?_⟩
    obtain ⟨v, m₁, hread⟩ := readAt_ok c.value.toScalar m
    rw [hread, Prod.mk.injEq, @eq_comm _ _ r, @eq_comm _ _ m']
    have heval (fuel : Nat) (hfuel : 2 ≤ fuel) :
        (eval fuel (.unary star (.unary amp (.var x i) true j) true l)).execute m =
          (.ok v, m₁) := by
      obtain ⟨fuel, rfl⟩ := Nat.exists_eq_add_of_le' hfuel
      rw [eval_dereferenced hx.bound hc hstar hamp, hread]
    exact ends_iff_of_result heval (by rintro ⟨⟩) r m'
  · refine .of_eval 2 ?_
    rw [eval_dereferenced hx.bound (Number.ofScalar_of_has hint) hstar hamp]
    exact Run.execute_readAt_some hx.cell
  · obtain ⟨m₁, q, v₁, x₁, hends, htype, hvalue, hp₁, hx₁, hsame⟩ :=
      ends_point hx hint hp hold hamp heq i i j l
    refine ⟨q, m₁, hends, htype, hvalue, fun e v w m₂ m₃ he hbound hw => ?_⟩
    rw [← hsame] at hw
    obtain ⟨m₄, hthrough, hthen⟩ := ends_through hp₁ hvalue hx₁ heq he hbound hw i j l
    exact ⟨m₄, hthrough, hthen i⟩
  · have hfair : Noted (Fair program) (history fuel program start) :=
      history_fair (Program.parse_grammatical hparse) hstart
    rw [hhistory] at hfair
    have hordered : m.store.Ordered := hm ▸ hfair.of_append.ordered hall
    obtain ⟨a, hlo, hhi, rfl⟩ := hordered.lookup_below hnext hc
    exact ⟨a, rfl, fun t ht => CType.has_address ht hlo hhi⟩

def Value.constant? : Value → Option Number
  | constant n => some n
  | _ => none

theorem Value.eq_constant {v : Value} {n : Number} (h : v.constant? = some n) :
    v = .constant n := by
  cases v <;> cases h
  rfl

def Machine.cell? (m : Machine) (name : String) : Option (Int × Value) :=
  match m.store.lookup name with
  | .ok (.at (.int a)) => (m.store.read? (.int a)).map (Prod.mk a)
  | _ => none

theorem Machine.Holds.of_cell? {m : Machine} {name : String} {a : Int} {v : Value} {n : Number}
    (h : m.cell? name = some (a, v)) (hn : v.number? = some n) : m.Holds name a v n := by
  unfold cell? at h
  split at h
  · next hb =>
    obtain ⟨u, hu, hpair⟩ := Option.map_eq_some_iff.1 h
    obtain ⟨rfl, rfl⟩ := Prod.mk.inj hpair
    exact ⟨hb, hu, hn⟩
  · cases h

def Store.nextUpTo (s : Store) (bound : Int) : Bool :=
  match s.next with
  | .int next => decide (next ≤ bound)
  | _ => false

theorem Store.exists_of_nextUpTo {s : Store} {bound : Int} (h : s.nextUpTo bound = true) :
    ∃ next, s.next = .int next ∧ next ≤ bound := by
  unfold nextUpTo at h
  split at h
  · next next hnext => exact ⟨next, hnext, of_decide_eq_true h⟩
  · cases h

/-- A number that a `char` does not have is written to it by a pointer that was given `NULL`. -/
theorem dereference_address_of_sample :
    ∃ program later event before a u n b old,
      Program.parse ("#include <stdlib.h>\nint f(int *p)\x7b char x; x = 7; p = &x; " ++
        "*p = 261; return 0; \x7d int main()\x7b return f(NULL); \x7d") = .ok program ∧
      history 30 program (Machine.start "") = later ++ event :: before ∧ Allotted before ∧
      event.visit.before.Holds "x" a u n ∧ n.ctype = .char ∧ n.value = .int 7 ∧
      event.visit.before.Holds "p" b (.constant old) old ∧ old.ctype = .int ∧
      Ends (.unary (.ofKind .asterisk) (.unary (.ofKind .ampersand) (.var (.ofName "x") 1) true 1)
        true 1) event.visit.before (.ok u) event.visit.before ∧
      ∃ q m₁ w m₂, Ends (.assign (.var (.ofName "p") 1) (.ofKind .assign)
          (.unary (.ofKind .ampersand) (.var (.ofName "x") 1) true 1) 1) event.visit.before
          (.ok (.number q)) m₁ ∧
        Ends (.assign (.unary (.ofKind .asterisk) (.var (.ofName "p") 1) true 1) (.ofKind .assign)
          (.num ⟨.integerConst, .int 261⟩ 1) 1) m₁ (.ok (.number w)) m₂ ∧
        Ends (.var (.ofName "x") 1) m₂ (.ok (.number w)) m₂ ∧ w.value = .int 5 := by
  have hrun : ((Program.parse ("#include <stdlib.h>\nint f(int *p)\x7b char x; x = 7; p = &x; " ++
      "*p = 261; return 0; \x7d int main()\x7b return f(NULL); \x7d")).toOption.any
        fun t => (Analysis.analyze t).1.isOk &&
          ((history 30 t (Machine.start "")).all (fun e => e.serves fun _ _ => false) &&
          (history 30 t (Machine.start "")).any fun e =>
            (e.visit.before.cell? "x").any (fun h => h.2.number?.any fun n =>
              decide (n.ctype = .char ∧ n.value = .int 7)) &&
            (e.visit.before.cell? "p").any (fun h => h.2.constant?.any fun n =>
              decide (n.ctype = .int)) &&
            e.visit.before.store.nextUpTo addressBound)) = true := by
    decide +kernel
  obtain ⟨program, hp, -, hfound⟩ := Program.exists_accepted hrun
  obtain ⟨hserves, hfound⟩ := Bool.and_eq_true_iff.1 hfound
  obtain ⟨event, hevent, hcheck⟩ := List.any_eq_true.1 hfound
  obtain ⟨later, before, hhistory⟩ := List.append_of_mem hevent
  simp only [Bool.and_eq_true, Option.any_eq_true, decide_eq_true_eq] at hcheck
  obtain ⟨⟨⟨⟨a, u⟩, hx, n, hn, hchar, hseven⟩, ⟨b, v⟩, hpointer, old, hold, htype⟩, hnext⟩ := hcheck
  obtain rfl := Value.eq_constant hold
  have hall : Allotted before := by
    intro e he
    rw [hhistory, List.all_eq_true] at hserves
    exact Event.serves_of_none (hserves e (by simp [he])) _
  have hbelow := Store.exists_of_nextUpTo hnext
  obtain ⟨hcancel, hrange⟩ := dereference_address_of hp rfl hhistory rfl (.ofKind .asterisk)
    (.ofKind .ampersand) (.ofKind .assign) rfl rfl rfl 1 1 1
  have hheld := Machine.Holds.of_cell? hx hn
  have hgiven := Machine.Holds.of_cell? (n := old) hpointer rfl
  obtain ⟨c, hc, hhas⟩ := hrange hall hbelow "x" _ hheld.bound
  obtain rfl := Scalar.int.inj hc
  obtain ⟨-, hcancel⟩ := hcancel (.ofName "x") a u n hheld
  obtain ⟨hback, -, hpoint⟩ := hcancel (hhas .int (.inl rfl))
  obtain ⟨q, m₁, hq, -, -, hthrough⟩ := hpoint (.ofName "p") b _ old hgiven (hhas _ (.inl htype))
  obtain ⟨v, hv, hvalue⟩ : ∃ v, Number.ofScalar .int (.int 261) = .ok v ∧ v.value = .int 261 :=
    ⟨_, Number.ofScalar_of_has (CType.has_address (.inl rfl) (by decide) (by decide)), rfl⟩
  have hliteral : Ends (.num ⟨.integerConst, .int 261⟩ 1) m₁ (.ok (.number v)) m₁ := by
    refine .of_eval 1 ?_
    obtain rfl := Except.ok.inj hv
    rfl
  obtain ⟨w, hw, hfive⟩ : ∃ w, v.convert .char = .ok w ∧ w.value = .int 5 := by
    have hlimits : CType.char.limits = .ok (-128, 127) := rfl
    have hwrap : (Num.int 261).wrap (-128) 127 = .int 5 := by decide
    rw [Number.convert, hvalue]
    exact ⟨_, Number.ofScalar_eq (v := .int 261) rfl hlimits, hwrap⟩
  have hconvert := execute_convert .char (v := .number v) rfl m₁
  rw [hw] at hconvert
  obtain ⟨m₂, hassign, hthen⟩ := hthrough _ _ _ _ _ hliteral rfl (hchar ▸ hconvert)
  exact ⟨program, later, event, before, a, u, n, b, old, hp, hhistory, hall, hheld, hchar, hseven,
    hgiven, htype, hback, q, m₁, w, m₂, hq, hassign, hthen, hfive⟩

end MiniC
