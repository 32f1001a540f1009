import MiniC.Proofs.Checks
import MiniC.Proofs.RoundTrip
import MiniC.Proofs.Layout
import MiniC.Proofs.Lookup

/-!
# The shape of programs that are read

What the grammar keeps to is told here about whole programs. `WellShaped t` says what can be
assigned to in `t` and what the address is taken of, and where labels, declarations and initial
values stand. Every program that is read from a text is of this shape, whichever way its rules were
left and entered again. So the analysis never finds an assignment to something that is no place, and
the run of an accepted program never asks for the address of something that has none.
-/

namespace MiniC

namespace Tree

structure WellShaped (t : Tree) : Prop where
  /-- A variable, what a variable points to or a field of a variable is assigned to. -/
  target : ∀ {x v : Tree} {op : Token} {n : Nat}, Within (.assign x op v n) t → IsTarget x
  /-- The address of a variable is taken. -/
  referred : ∀ {op : Token} {e : Tree} {n : Nat}, Within (.unary op e true n) t →
    op.kind = .ampersand → ∃ k i, e = .var k i
  /-- Labels stand in the braces of a switch. -/
  label : ∀ {u v : Tree}, Within u t → v ∈ u.parts → v.isLabel = true →
    ∃ subject cs n, u = .switch subject cs n ∧ v ∈ cs
  /-- Declarations stand in a program, a body, a block or a switch. -/
  declaration : ∀ {u v : Tree}, Within u t → v ∈ u.parts → v.isDeclaration = true → v ∈ u.children
  /-- An initial value stands right behind the declaration of its variable. -/
  initial : ∃ cs n, t = .program cs n ∧
    ∀ {front rest : List Tree} {x v : Tree} {op : Token} {m : Nat},
      cs = front ++ .assign x op v m :: rest →
        ∃ front' k i j type l, front = front' ++ [.varDecl (.var k i) type l] ∧ x = .var k j
  sequence : ∀ {cs : List Tree} {n : Nat}, Within (.sequence cs n) t → 2 ≤ cs.length

theorem Grammatical.not_isDeclaration {k : Category} {t : Tree} (ht : t.Grammatical k)
    (hk : k.isSingle = true) : t.isDeclaration = false := by
  induction ht with
  | ofExpression _ ih | simple _ ih => exact ih rfl
  | varDecl | structDecl | initializer | ofStatement | ofDeclaration | ofItem | declared => cases hk
  | _ => rfl

theorem Grammatical.referred {k : Category} {op : Token} {e : Tree} {b : Bool} {n : Nat}
    (ht : Grammatical k (.unary op e b n)) (hop : op.kind = .ampersand) :
    ∃ v i, e = .var v i := by
  cases ht.toExpression rfl with
  | unary _ _ _ ho => exact ho hop

/-- Behind the declaration of its variable stands each assignment at the top of a program. -/
theorem Attached.initial {cs : List Tree} (h : Attached cs) {front rest : List Tree} {x v : Tree}
    {op : Token} {m : Nat} (hcs : cs = front ++ .assign x op v m :: rest) :
    ∃ front' k i j type l, front = front' ++ [.varDecl (.var k i) type l] ∧ x = .var k j := by
  induction h generalizing front with
  | nil =>
    cases front with
    | nil => cases hcs
    | cons => cases hcs
  | @initialized k _ type _ i j l _ _ _ _ ih =>
    -- The assignment is the one of this declaration, or stands behind it.
    cases front with
    | nil => cases hcs
    | cons d front =>
      obtain ⟨rfl, hbehind⟩ := List.cons.inj hcs
      cases front with
      | nil =>
        obtain ⟨hx, -⟩ := List.cons.inj hbehind
        obtain ⟨rfl, -⟩ := Tree.assign.inj hx
        exact ⟨[], k, i, j, type, l, rfl, rfl⟩
      | cons a front =>
        obtain ⟨rfl, hrest⟩ := List.cons.inj hbehind
        obtain ⟨front', k', i', j', type', l', rfl, hx⟩ := ih hrest
        exact ⟨_ :: _ :: front', k', i', j', type', l', rfl, hx⟩
  | cons ht _ ih =>
    cases front with
    | nil =>
      obtain ⟨rfl, -⟩ := List.cons.inj hcs
      cases ht
    | cons d front =>
      obtain ⟨rfl, hrest⟩ := List.cons.inj hcs
      obtain ⟨front', k, i, j, type, l, rfl, hx⟩ := ih hrest
      exact ⟨_ :: front', k, i, j, type, l, rfl, hx⟩

theorem Built.wellShaped {t : Tree} (ht : t.Built .program) : t.WellShaped where
  target hu := (ht.writable _ hu).2.2
  referred hu hop := by
    obtain ⟨k, hk⟩ := hu.grammatical ht.grammatical
    exact hk.referred hop
  label {u v} hu hv hlabel := by
    obtain ⟨k, hk⟩ := hu.grammatical ht.grammatical
    by_cases hswitch : ∃ subject cs n, u = .switch subject cs n ∧ v ∈ cs
    · exact hswitch
    · have hno : v.isLabel = false := by
        refine hk.part_not_isLabel hv ?_
        rintro subject cs n rfl
        refine (List.mem_cons.1 hv).resolve_right fun hin => hswitch ⟨subject, cs, n, rfl, hin⟩
      rw [hno] at hlabel
      cases hlabel
  declaration hu hv hdecl := by
    obtain ⟨k, hk⟩ := hu.grammatical ht.grammatical
    obtain ⟨j, hj, hsingle⟩ | ⟨j, -, -, hchild⟩ := hk.part_cases hv
    · rw [hj.not_isDeclaration hsingle] at hdecl
      cases hdecl
    · exact hchild
  initial := by
    obtain ⟨hg, hw⟩ := ht
    cases hg with
    | @program cs n => exact ⟨cs, n, rfl, fun hcs => Attached.initial (hw _ (.self _)) hcs⟩
  sequence hu := ht.writable _ hu

end Tree

/-! ## Errors that the analysis does not find -/

namespace Check

def Spares {α : Type} (p : Check α) : Prop :=
  ∀ s, Rejection.Spares (p.run s).1

theorem spares_modify (g : Analysis → Analysis) : (modify g : Check Unit).Spares := by
  rintro s e ⟨⟩

theorem Spares.bind {α β : Type} {p : Check α} {g : α → Check β} (hp : p.Spares)
    (hg : ∀ s a s', p.Gives s a s' → (g a).Spares) : (p >>= g).Spares := by
  intro s
  rw [run_bind]
  have hp := hp s
  cases h : p.run s with
  | mk r s' =>
    rw [h] at hp
    cases r with
    | ok a => exact hg s a s' h s'
    | error x =>
      rintro e ⟨⟩
      exact hp e rfl

def sparing : Law where
  Holds := Spares
  Fine _ := True
  fine _ := trivial
  pure a := by rintro s e ⟨⟩
  bind := .bind
  reject he _ := Rejection.spares_error he
  fail f _ := Rejection.spares_fault f
  ofExcept {_ r} h _ := by cases r <;> exact h
  get := by rintro s e ⟨⟩
  warn _ := spares_modify _
  insert {y} _ := by
    refine .bind (by rintro s e ⟨⟩) fun _ s _ _ => ?_
    split
    · exact spares_modify _
    · exact fun _ => Rejection.spares_fault _
  insertOutside _ := spares_modify _
  within _ _ hp := .bind (spares_modify _) fun _ _ _ _ => hp.bind fun _ _ _ _ =>
    .bind (spares_modify _) fun _ _ _ _ => by rintro s e ⟨⟩
  inLoop hp := .bind (spares_modify _) fun _ _ _ _ => hp.bind fun _ _ _ _ =>
    .bind (spares_modify _) fun _ _ _ _ => by rintro s e ⟨⟩
  inSwitch hp := .bind (spares_modify _) fun _ _ _ _ => hp.bind fun _ _ _ _ =>
    .bind (spares_modify _) fun _ _ _ _ => by rintro s e ⟨⟩

end Check

namespace Analysis

open Check

/-- The analysis of a program in which only targets are assigned to does not blame one. -/
theorem analyze_spares {t : Tree} (ht : t.WellShaped) : Rejection.Spares (analyze t).1 := by
  have hcheck : (do let _ ← check t : Check Unit).Spares := by
    refine sparing.after (sparing.check t ?_ fun _ _ _ _ _ _ _ _ _ _ _ => trivial).1
      fun _ => sparing.pure _
    intro x op v n hw a b
    refine sparing.ofExcept (assignType_spares op.kind n ?_ a b)
    cases ht.target hw with
    | var => rfl
    | pointed _ _ _ _ ho => exact congrArg Except.ok (decide_eq_true ho)
    | field => rfl
  exact hcheck start

end Analysis

/-! ## Faults that do not occur -/

namespace Run

variable {α β : Type}

def Spares (p : Run α) : Prop :=
  ∀ m, (p.execute m).1 ≠ .error .notAssignable

namespace Spares

theorem pure (a : α) : Spares (pure a) := by
  rintro m ⟨⟩

theorem bind {p : Run α} {g : α → Run β} (hp : p.Spares) (hg : ∀ a, (g a).Spares) :
    (p >>= g).Spares := by
  intro m
  rw [execute_bind]
  have hp := hp m
  cases h : p.execute m with
  | mk r m' =>
    rw [h] at hp
    cases r with
    | ok a => exact hg a m'
    | error e =>
      rintro ⟨⟩
      exact hp rfl

theorem throw {f : Fault} (h : f ≠ .notAssignable) : (throw f : Run α).Spares := by
  rintro m ⟨⟩
  exact h rfl

theorem ofExcept {r : Except Fault α} (h : r ≠ .error .notAssignable) : (ofExcept r).Spares := by
  intro m
  rwa [execute_ofExcept]

theorem lookup (name : String) : (lookup name).Spares := by
  intro m
  simp only [Run.lookup, execute_bind, execute_getStore, execute_ofExcept, Store.lookup,
    Store.scopeOf]
  have hentry (c : Scope) :
      (c.entries.get? name).elim (Except.error .noSuchKey) Except.ok ≠
        .error Fault.notAssignable := by
    cases c.entries.get? name <;> rintro ⟨⟩
  split
  · exact hentry _
  · split
    · exact hentry _
    · split
      · exact hentry _
      · rintro ⟨⟩

theorem readAt (a : Scalar) : (readAt a).Spares := by
  intro m
  simp only [Run.readAt, execute_bind, execute_getStore]
  split
  · rintro ⟨⟩
  · obtain ⟨n, r, hn⟩ := execute_makeNumber (show CType.int.size = .ok 4 from rfl) m
    simp only [execute_bind, hn]
    rintro ⟨⟩

theorem readName (name : String) : (readName name).Spares := by
  refine .bind (.lookup name) fun b => ?_
  split
  · exact .pure _
  · refine .bind (.ofExcept ?_) fun a => .readAt a
    unfold addressOf
    split <;> rintro ⟨⟩

end Spares

end Run

namespace Eval

open Run

theorem nameOf_spares (t : Tree) : (nameOf t).Spares := by
  unfold nameOf
  split
  · exact .pure _
  · exact .throw (by decide)

theorem pointedBy_spares (t : Tree) : (pointedBy t).Spares := by
  refine .bind (nameOf_spares t) fun name => .bind (.readName name) fun v => .ofExcept ?_
  unfold Value.content
  split <;> rintro ⟨⟩

theorem entryOf_spares (v : Value) (member : Tree) : (entryOf v member).Spares := by
  refine .bind (nameOf_spares member) fun name => .ofExcept ?_
  unfold Value.entry
  split
  · next fields => cases fields.get? name <;> rintro ⟨⟩
  · rintro ⟨⟩

theorem fieldAddress_spares (op : Kind) (base member : Tree) :
    (fieldAddress op base member).Spares := by
  unfold fieldAddress
  split
  · exact .bind (pointedBy_spares base) fun a => .bind (.readAt a) fun v => entryOf_spares v member
  · exact .bind (nameOf_spares base) fun name => .bind (.readName name) fun v =>
      entryOf_spares v member

/-- A place has an address, as far as its names have. -/
theorem place_spares {x : Tree} (hx : Analysis.isPlace x = .ok true) : (place x).Spares := by
  cases x with
  | var k n =>
    refine .bind (.lookup _) fun b => ?_
    split
    · exact .pure _
    · exact .throw (by decide)
  | unary op e b n => exact pointedBy_spares e
  | field op b m n => exact fieldAddress_spares op b m
  | _ => cases hx

end Eval

/-- The part of a tree of which its rule asks for the address before it does anything else. -/
def Tree.addressed? : Tree → Option Tree
  | assign x _ _ _ => some x
  | unary op e _ _ => if op.kind = .incOp ∨ op.kind = .decOp then some e else none
  | _ => none

theorem Eval.rule_of_addressed {t x : Tree} (h : t.addressed? = some x) (ev : Evaluator Run)
    (fuel : Nat) : ∃ k, rule ev fuel t = place x >>= k := by
  cases t with
  | assign y op v n =>
    obtain rfl := Option.some.inj h
    exact ⟨_, rfl⟩
  | unary op e b n =>
    rw [Tree.addressed?] at h
    split at h
    · next hop =>
      obtain rfl := Option.some.inj h
      have hstep (f : Value → Value → Except Fault Value) (g : Value × Value → Value) :
          ∃ k, (do return g (← step f e)) = place e >>= k := by
        simp only [step, bind_assoc]
        exact ⟨_, rfl⟩
      cases b with
      | true =>
        change ∃ k, before ev op.kind e = place e >>= k
        obtain hop | hop := hop
        · rw [hop]
          exact hstep Value.add Prod.snd
        · rw [hop]
          exact hstep Value.sub Prod.snd
      | false =>
        change ∃ k, behind op.kind e = place e >>= k
        obtain hop | hop := hop
        · rw [hop]
          exact hstep Value.add Prod.fst
        · rw [hop]
          exact hstep Value.sub Prod.fst
    · cases h
  | _ => cases h

/-- In an accepted program, addresses are asked for of places only. -/
theorem Analysis.isPlace_of_addressed {program u x : Tree} (hp : program.Grammatical .program)
    (ha : (analyze program).1.isOk = true) (hu : u.Within program) (hx : u.addressed? = some x) :
    isPlace x = .ok true := by
  cases u with
  | assign t op v n =>
    obtain rfl := Option.some.inj hx
    exact isPlace_target hp ha hu
  | unary op e b n =>
    rw [Tree.addressed?] at hx
    split at hx
    · next hop =>
      obtain rfl := Option.some.inj hx
      exact isPlace_operand hp ha hu hop
    · cases hx
  | _ => cases hx

/-- Every program that is read from a text is well shaped. So the analysis does not find an
assignment to something else than a place. If it accepts the program, then wherever a run of the
program comes to a tree whose rule begins with asking for the address of a part, this does not fail
because the part is something that has none. -/
theorem Program.wellShaped_of_parse {code : String} {t : Tree} (h : Program.parse code = .ok t) :
    t.WellShaped ∧
      (∀ nodeClass op line,
        (Analysis.analyze t).1 ≠ .error (.error (.assignedNoPlace nodeClass op line))) ∧
      ((Analysis.analyze t).1.isOk = true → ∀ fuel (m : Machine), m.store = Store.empty →
        ∀ e ∈ history fuel t m, ∀ x, e.visit.tree.addressed? = some x →
          (∀ ev n, ∃ k, Eval.rule ev n e.visit.tree = Eval.place x >>= k) ∧
            ((Eval.place x).execute e.visit.before).1 ≠ .error .notAssignable) := by
  have hbuilt := Program.built_of_parse h
  refine ⟨hbuilt.wellShaped, fun nodeClass op line herror => ?_, ?_⟩
  · cases Analysis.analyze_spares hbuilt.wellShaped _ herror
  · intro haccepted fuel m hm e he x hx
    refine ⟨Eval.rule_of_addressed hx, ?_⟩
    obtain hwithin | hmain := (history_sound hm he).1
    · exact Eval.place_spares
        (Analysis.isPlace_of_addressed hbuilt.grammatical haccepted hwithin hx) _
    · rw [hmain] at hx
      cases hx

theorem Program.wellShaped_sample : ∃ t,
    Program.parse "struct s \x7b int x; \x7d; int a = 3;
      int main() \x7b
        struct s r; int * p; p = &a; *p = 4, r.x = a++;
        switch (a) \x7b case 5: ; \x7d
        return 0;
      \x7d" = .ok t ∧ (Analysis.analyze t).1.isOk = true ∧ t.WellShaped ∧
      ∀ e ∈ history 1000 t (Machine.start ""), ∀ x, e.visit.tree.addressed? = some x →
        (∀ ev n, ∃ k, Eval.rule ev n e.visit.tree = Eval.place x >>= k) ∧
          ((Eval.place x).execute e.visit.before).1 ≠ .error .notAssignable := by
  refine (Program.exists_accepted (P := fun _ => true) ?_).imp fun t ht =>
    ⟨ht.1, ht.2.1, (wellShaped_of_parse ht.1).1, (wellShaped_of_parse ht.1).2.2 ht.2.1 1000 _ rfl⟩
  decide +kernel

end MiniC
