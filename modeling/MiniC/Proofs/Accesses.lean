import MiniC.Proofs.CompoundAssignment
import MiniC.Proofs.ResultTypes

/-!
# What expressions do to the cells

The rules for expressions are followed once more by computations that note each access to a cell,
and whether the cell was absent. Forgetting the notes gives the evaluation itself. An expression
without calls writes only where it has read before, and what it writes has the type of what it has
read. So the scopes, the frames and the blocks stay as they are, a number is replaced by one of its
type and anything else by nothing, and the cells that are new are those that were found absent.
-/

namespace MiniC

structure Access where
  address : Address
  absent : Bool

/-- What may take the place of a value in a cell: the value itself, or a number of the type of the
number that it is. -/
inductive Value.Follows : Value → Value → Prop
  | same (v : Value) : Follows v v
  | number {v : Value} {n n' : Number} : v.number? = some n → n'.ctype = n.ctype →
      Follows v (.number n')

theorem Value.Follows.trans {v v' v'' : Value} (h : v.Follows v') (h' : v'.Follows v'') :
    v.Follows v'' := by
  cases h with
  | same => exact h'
  | number hn ht =>
    cases h' with
    | same => exact .number hn ht
    | number hn' ht' =>
      obtain rfl := Option.some.inj hn'
      exact .number hn (ht'.trans ht)

namespace Store

/-- Scopes, frames and blocks are the same, every cell is there with a value that may take the place
of its old one, and the new cells are numbers of type `int` at the addresses that were accessed
while there was no cell. -/
structure Extends (log : List Access) (s s' : Store) : Prop where
  globals : s'.globals = s.globals
  frames : s'.frames = s.frames
  next : s'.next = s.next
  dynamic : s'.dynamic = s.dynamic
  kept : ∀ (k : Address) (c : Cell), s.cells[k]? = some c →
    ∃ c' : Cell, s'.cells[k]? = some c' ∧ c'.label = c.label ∧ c.value.Follows c'.value
  created : ∀ (k : Address) (c : Cell), s.cells[k]? = none → s'.cells[k]? = some c →
    ∃ n, c.value = .number n ∧ n.ctype = .int
  noted : ∀ k : Address, ⟨k, true⟩ ∈ log ↔ s.cells[k]? = none ∧ s'.cells[k]? ≠ none

namespace Extends

/-- Nothing is created where no cell was absent. -/
theorem still {log : List Access} (h : ∀ k, ⟨k, true⟩ ∉ log) (s : Store) : Extends log s s where
  globals := rfl
  frames := rfl
  next := rfl
  dynamic := rfl
  kept _ c hc := ⟨c, hc, rfl, .same _⟩
  created k c hnone hc := by
    rw [hnone] at hc
    cases hc
  noted k := iff_of_false (h k) fun h => h.2 h.1

theorem refl (s : Store) : Extends [] s s :=
  still (fun _ => List.not_mem_nil) s

theorem trans {log log' : List Access} {s s' s'' : Store} (h : Extends log s s')
    (h' : Extends log' s' s'') : Extends (log' ++ log) s s'' where
  globals := h'.globals.trans h.globals
  frames := h'.frames.trans h.frames
  next := h'.next.trans h.next
  dynamic := h'.dynamic.trans h.dynamic
  kept k c hc := by
    obtain ⟨c', hc', hlabel, hvalue⟩ := h.kept k c hc
    obtain ⟨c'', hc'', hlabel', hvalue'⟩ := h'.kept k c' hc'
    exact ⟨c'', hc'', hlabel'.trans hlabel, hvalue.trans hvalue'⟩
  created k c hnone hc := by
    cases hmid : s'.cells[k]? with
    | none => exact h'.created k c hmid hc
    | some c' =>
      obtain ⟨n, hn, ht⟩ := h.created k c' hnone hmid
      obtain ⟨c'', hc'', -, hvalue⟩ := h'.kept k c' hmid
      obtain rfl := Option.some.inj (hc''.symm.trans hc)
      rw [hn] at hvalue
      generalize hv : c''.value = v at hvalue
      cases hvalue with
      | same => exact ⟨n, rfl, ht⟩
      | number hn' ht' =>
        obtain rfl := Option.some.inj hn'
        exact ⟨_, rfl, ht'.trans ht⟩
  noted k := by
    rw [List.mem_append, h.noted, h'.noted]
    cases hk : s.cells[k]? with
    | none =>
      cases hk' : s'.cells[k]? with
      | none => simp
      | some c' =>
        obtain ⟨c'', hc'', -⟩ := h'.kept k c' hk'
        simp [hc'']
    | some c =>
      obtain ⟨c', hc', -⟩ := h.kept k c hk
      simp [hc']

end Extends

theorem cells_write (s : Store) (a : Scalar) (v : Value) (k : Address) :
    (s.write a v).cells[k]? = if Address.ofScalar a = k then
      some ⟨(s.cells[Address.ofScalar a]?.map (·.label)).getD a, v⟩ else s.cells[k]? := by
  simp only [write, Std.ExtTreeMap.getElem?_insert]
  by_cases hk : Address.ofScalar a = k
  · have hc : Address.compare (Address.ofScalar a) k = .eq := by
      rw [hk]
      exact Std.ReflCmp.compare_self
    rw [if_pos hc, if_pos hk]
  · have hc : Address.compare (Address.ofScalar a) k ≠ .eq :=
      fun he => hk (Std.LawfulEqCmp.eq_of_compare he)
    rw [if_neg hc, if_neg hk]

/-- A cell that is there gets a value that may take the place of the old one. -/
theorem extends_write_some {s : Store} {a : Scalar} {v w : Value} (h : s.read? a = some v)
    (hw : v.Follows w) : Extends [⟨Address.ofScalar a, false⟩] s (s.write a w) := by
  obtain ⟨c, hc, rfl⟩ := Option.map_eq_some_iff.1 h
  refine ⟨rfl, rfl, rfl, rfl, fun k d hd => ?_, fun k d hnone hd => ?_, fun k => ?_⟩
  · rw [cells_write]
    split
    · next hk =>
      obtain rfl := Option.some.inj ((hk ▸ hc).symm.trans hd)
      exact ⟨_, rfl, by rw [hc]; rfl, hw⟩
    · exact ⟨d, hd, rfl, .same _⟩
  · rw [cells_write] at hd
    split at hd
    · next hk =>
      rw [hk, hnone] at hc
      cases hc
    · rw [hnone] at hd
      cases hd
  · rw [cells_write]
    split
    · next hk => simp [← hk, hc]
    · next hk => simp

/-- A cell that is absent is created with a number of type `int`. -/
theorem extends_write_none {s : Store} {a : Scalar} {n : Number} (h : s.read? a = none)
    (hn : n.ctype = .int) : Extends [⟨Address.ofScalar a, true⟩] s (s.write a (.number n)) := by
  have hc : s.cells[Address.ofScalar a]? = none := Option.map_eq_none_iff.1 h
  refine ⟨rfl, rfl, rfl, rfl, fun k d hd => ?_, fun k d hnone hd => ?_, fun k => ?_⟩
  · rw [cells_write]
    split
    · next hk =>
      rw [← hk, hc] at hd
      cases hd
    · exact ⟨d, hd, rfl, .same _⟩
  · rw [cells_write] at hd
    split at hd
    · obtain rfl := Option.some.inj hd
      exact ⟨n, rfl, hn⟩
    · rw [hnone] at hd
      cases hd
  · rw [cells_write]
    split
    · next hk => simp [← hk, hc]
    · next hk =>
      have hne : k ≠ Address.ofScalar a := fun h => hk h.symm
      simp [hne]

end Store

/-! ## Noting the accesses -/

/-- A computation on the machine that notes the accesses to cells, the latest one first. -/
abbrev Traced := ExceptT Fault (StateM (Machine × List Access))

instance : MonadLift Run Traced where
  monadLift p := fun s => ((p.run s.1).1, (p.run s.1).2, s.2)

namespace Traced

open Eval (Evaluator nameOf entryOf)

def note (a : Scalar) : Traced Unit := fun s =>
  (.ok (), s.1, ⟨Address.ofScalar a, (s.1.store.read? a).isNone⟩ :: s.2)

def readAt (a : Scalar) : Traced Value := do
  note a
  Run.readAt a

def writeAt (a : Scalar) (v : Value) : Traced Unit := do
  note a
  Run.writeAt a v

def readName (name : String) : Traced Value := do
  match ← Run.lookup name with
  | .constant n => return .constant n
  | b => readAt (← Run.ofExcept (Run.addressOf b))

def pointedBy (t : Tree) : Traced Scalar := do
  Run.ofExcept (← readName (← nameOf t)).content

def fieldAddress (op : Kind) (base member : Tree) : Traced Scalar := do
  if op = .arrow then
    entryOf (← readAt (← pointedBy base)) member
  else
    entryOf (← readName (← nameOf base)) member

def place : Tree → Traced Scalar
  | .var token _ => Eval.addressOf token.value.render
  | .unary _ operand _ _ => pointedBy operand
  | .cast _ operand _ _ => pointedBy operand
  | .field op base member _ => fieldAddress op base member
  | .binary left _ right _ => do entryOf (← readName (← nameOf left)) right
  | _ => throw .notAssignable

def arrow (left right : Tree) : Traced Value := do
  let a ← entryOf (← readName (← nameOf left)) right
  let _ ← readAt a
  return .nothing

def update (a : Scalar) (f : Value → Traced Value) : Traced (Value × Value) := do
  let old ← readAt a
  let v ← f old
  writeAt a v
  return (old, v)

def step (f : Value → Value → Except Fault Value) (target : Tree) : Traced (Value × Value) := do
  let a ← place target
  update a fun old => do
    let n ← Run.ofExcept old.asNumber
    let one ← Run.makeNumber .int (.int 1)
    Eval.convert (.number n.ctype) (← Run.ofExcept (f old (.number one)))

def before (eval : Evaluator Traced) (op : Kind) (operand : Tree) : Traced Value := do
  match op with
  | .asterisk => readAt (← Run.ofExcept (← eval operand).content)
  | .incOp => return (← step Value.add operand).2
  | .decOp => return (← step Value.sub operand).2
  | k => Eval.before eval k operand

def behind (op : Kind) (operand : Tree) : Traced Value := do
  match op with
  | .incOp => return (← step Value.add operand).1
  | .decOp => return (← step Value.sub operand).1
  | k => Eval.behind k operand

def assign (eval : Evaluator Traced) (target : Tree) (op : Token) (value : Tree) :
    Traced Value := do
  let a ← place target
  let r ← update a fun old => do Eval.assigned op.kind old (← eval value)
  return r.2

def rule (eval : Evaluator Traced) (t : Tree) : Traced Value := do
  match t with
  | .var token _ => readName token.value.render
  | .binary left op right _ =>
    if op.kind = .arrow then arrow left right else Eval.binary eval left op right
  | .unary op operand inFront _ =>
    if inFront then before eval op.kind operand else behind op.kind operand
  | .assign target op value _ => assign eval target op value
  | .field op base member _ => readAt (← fieldAddress op base member)
  | t => Eval.rule eval 0 t

end Traced

namespace Traced

open Eval (Evaluator nameOf entryOf)

variable {α β : Type}

/-- From a machine, a computation that notes accesses does what another one does without notes, and
changes the store within what it notes. -/
def TracesAt (p : Traced α) (q : Run α) (m : Machine) : Prop :=
  ∀ log, ∃ r m' new, q.execute m = (r, m') ∧ p.run (m, log) = (r, m', new ++ log) ∧
    m.store.Extends new m'.store

def Traces (p : Traced α) (q : Run α) : Prop :=
  ∀ m, TracesAt p q m

theorem TracesAt.bind {p : Traced α} {q : Run α} {f : α → Traced β} {g : α → Run β} {m : Machine}
    (hp : TracesAt p q m)
    (hf : ∀ a m', q.execute m = (.ok a, m') → TracesAt (f a) (g a) m') :
    TracesAt (p >>= f) (q >>= g) m := by
  intro log
  obtain ⟨r, m₁, new, hq, hp, hext⟩ := hp log
  rw [Run.execute_bind, run_bind, hq, hp]
  cases r with
  | error e => exact ⟨.error e, m₁, new, rfl, rfl, hext⟩
  | ok a =>
    obtain ⟨r, m₂, new', hg, hf, hext'⟩ := hf a m₁ hq (new ++ log)
    refine ⟨r, m₂, new' ++ new, hg, ?_, hext.trans hext'⟩
    rw [List.append_assoc]
    exact hf

namespace Traces

theorem pure (a : α) : Traces (pure a) (pure a) :=
  fun m _ => ⟨.ok a, m, [], rfl, rfl, .refl _⟩

theorem throw (f : Fault) : Traces (throw f : Traced α) (throw f) :=
  fun m _ => ⟨.error f, m, [], rfl, rfl, .refl _⟩

theorem bind {p : Traced α} {q : Run α} {f : α → Traced β} {g : α → Run β} (hp : Traces p q)
    (hf : ∀ a, Traces (f a) (g a)) : Traces (p >>= f) (q >>= g) :=
  fun m => (hp m).bind fun a m' _ => hf a m'

theorem ite {c : Prop} [Decidable c] {p p' : Traced α} {q q' : Run α} (h : Traces p q)
    (h' : Traces p' q') : Traces (if c then p else p') (if c then q else q') := by
  split
  · exact h
  · exact h'

/-- What keeps the store accesses no cell that it has to note. -/
theorem lift {Q : α → Prop} {p : Run α} (h : p.Keeps (fun _ => True) .same Q) :
    Traces (liftM p) p := by
  intro m log
  refine ⟨(p.execute m).1, (p.execute m).2, [], rfl, rfl, ?_⟩
  rw [Run.store_of_keeps h]
  exact .refl _

theorem ofExcept (r : Except Fault α) : Traces (liftM (Run.ofExcept r)) (Run.ofExcept r) :=
  lift (Run.ofExcept_keeps fun _ _ => trivial)

end Traces

/-! ## Cells -/

theorem run_readAt (a : Scalar) (m : Machine) (log : List Access) :
    (readAt a).run (m, log) = (((Run.readAt a).execute m).1, ((Run.readAt a).execute m).2,
      ⟨Address.ofScalar a, (m.store.read? a).isNone⟩ :: log) := rfl

theorem run_writeAt (a : Scalar) (v : Value) (m : Machine) (log : List Access) :
    (writeAt a v).run (m, log) = (((Run.writeAt a v).execute m).1, ((Run.writeAt a v).execute m).2,
      ⟨Address.ofScalar a, (m.store.read? a).isNone⟩ :: log) := rfl

theorem readAt_traces (a : Scalar) : Traces (readAt a) (Run.readAt a) := by
  intro m log
  obtain ⟨v, m₁, hread⟩ := Eval.readAt_ok a m
  refine ⟨.ok v, m₁, [⟨Address.ofScalar a, (m.store.read? a).isNone⟩], hread, ?_, ?_⟩
  · rw [run_readAt, hread]
    rfl
  · obtain ⟨hv, rfl⟩ | ⟨hnone, n, rfl, hstore⟩ := Run.readAt_cases hread
    · rw [hv]
      exact .still (by simp) _
    · have htype := Run.readAt_type hread rfl
      rw [Store.typeAt?, hnone] at htype
      rw [hstore, hnone]
      exact Store.extends_write_none hnone (Option.some.inj htype).symm

/-- A number is written where there is a number of its type. -/
theorem writeAt_traces {a : Scalar} {w : Value} {n : Number} {m : Machine}
    (hw : m.store.read? a = some w) (hn : w.Follows (.number n)) :
    TracesAt (writeAt a (.number n)) (Run.writeAt a (.number n)) m := by
  intro log
  refine ⟨.ok (), _, [⟨Address.ofScalar a, false⟩], rfl, ?_, Store.extends_write_some hw hn⟩
  rw [run_writeAt, hw]
  rfl

/-- A value is replaced by one that may take its place, because what is evaluated in between leaves
a value of the same type where it was read. -/
theorem update_traces (a : Scalar) {f : Value → Traced Value} {g : Value → Run Value}
    (hf : ∀ old, Traces (f old) (g old))
    (hg : ∀ old v m m', (g old).execute m = (.ok v, m') →
      ∃ n n', old.number? = some n ∧ v = .number n' ∧ n'.ctype = n.ctype) :
    Traces (update a f) (Eval.update a g) := by
  refine fun m => (readAt_traces a m).bind fun old m₁ hread => ?_
  refine (hf old m₁).bind fun v m₂ hv => ?_
  obtain ⟨n, n', hn, rfl, htype⟩ := hg old v m₁ m₂ hv
  have hcell : ∃ w, m₂.store.read? a = some w ∧ w.Follows (.number n') := by
    obtain ⟨_, _, _, hrun, -, hext⟩ := hf old m₁ []
    obtain ⟨-, rfl⟩ := Prod.mk.inj (hrun.symm.trans hv)
    obtain ⟨c, hc, rfl⟩ := Option.map_eq_some_iff.1 (Run.read?_of_readAt hread)
    obtain ⟨c', hc', -, hfollows⟩ := hext.kept _ c hc
    refine ⟨c'.value, by rw [Store.read?, hc']; rfl, ?_⟩
    generalize hv' : c'.value = w at hfollows
    cases hfollows with
    | same => exact .number hn htype
    | number hn' ht' =>
      obtain rfl := Option.some.inj (hn.symm.trans hn')
      exact .number rfl (htype.trans ht'.symm)
  obtain ⟨w, hw, hfollows⟩ := hcell
  exact (writeAt_traces hw hfollows).bind fun _ m₃ _ => Traces.pure _ m₃

/-! ## Places -/

def still : Effect :=
  Run.keeping (F := fun _ => True) .same fun _ _ => trivial

theorem nameOf_traces (t : Tree) : Traces (liftM (nameOf t)) (nameOf t) :=
  .lift (still.nameOf t)

theorem entryOf_traces (v : Value) (member : Tree) :
    Traces (liftM (entryOf v member)) (entryOf v member) :=
  .lift (still.entryOf v member)

theorem readName_traces (name : String) : Traces (readName name) (Run.readName name) := by
  refine .bind (.lift (Run.lookup_keeps name)) fun b => ?_
  cases b with
  | constant n => exact .pure _
  | «at» a => exact .bind (.ofExcept _) readAt_traces

theorem pointedBy_traces (t : Tree) : Traces (pointedBy t) (Eval.pointedBy t) :=
  .bind (nameOf_traces t) fun name => .bind (readName_traces name) fun _ => .ofExcept _

theorem fieldAddress_traces (op : Kind) (base member : Tree) :
    Traces (fieldAddress op base member) (Eval.fieldAddress op base member) := by
  refine .ite ?_ ?_
  · refine .bind (pointedBy_traces base) fun a => ?_
    exact .bind (readAt_traces a) fun v => entryOf_traces v member
  · refine .bind (nameOf_traces base) fun name => ?_
    exact .bind (readName_traces name) fun v => entryOf_traces v member

theorem place_traces (t : Tree) : Traces (place t) (Eval.place t) := by
  cases t with
  | var k => exact .lift (still.addressOf _)
  | unary op e => exact pointedBy_traces e
  | cast t e => exact pointedBy_traces e
  | field op b c => exact fieldAddress_traces op b c
  | binary l op r =>
    refine .bind (nameOf_traces l) fun name => ?_
    exact .bind (readName_traces name) fun v => entryOf_traces v r
  | _ => exact .throw _

/-! ## Expressions -/

theorem convert_traces (t : VarType) (v : Value) :
    Traces (liftM (Eval.convert t v)) (Eval.convert t v) :=
  .lift (still.convert t v)

theorem arrow_traces (left right : Tree) : Traces (arrow left right) (Eval.arrow left right) := by
  refine .bind (nameOf_traces left) fun name => .bind (readName_traces name) fun v => ?_
  refine .bind (entryOf_traces v right) fun a => .bind (readAt_traces a) fun _ => .pure _

theorem step_traces (f : Value → Value → Except Fault Value) (target : Tree) :
    Traces (step f target) (Eval.step f target) := by
  refine .bind (place_traces target) fun a => update_traces a (fun old => ?_) ?_
  · refine .bind (.ofExcept _) fun n => .bind (.lift (Run.makeNumber_keeps _ _)) fun one => ?_
    exact .bind (.ofExcept _) fun v => convert_traces _ v
  · intro old v m m' h
    obtain ⟨n, _, hn, h⟩ := Run.execute_bind_ok h
    obtain ⟨one, _, -, h⟩ := Run.execute_bind_ok h
    obtain ⟨w, _, -, h⟩ := Run.execute_bind_ok h
    obtain ⟨n', rfl, htype⟩ := Eval.convert_type h
    exact ⟨n, n', Eval.number?_of_asNumber (Eval.execute_ofExcept_ok hn).1, rfl,
      (VarType.number.inj htype).symm⟩

theorem combine_traces (f : Store → Value → Value → Except Fault Value) (a b : Value) :
    Traces (liftM (Eval.combine f a b)) (Eval.combine f a b) :=
  .lift (still.after still.getStore fun _ => still.attempt _)

theorem referTo_traces (t : Tree) : Traces (liftM (Eval.referTo t)) (Eval.referTo t) :=
  .lift (still.referTo t)

variable {ev : Evaluator Traced} {ev' : Evaluator Run}

theorem binary_traces {l r : Tree} (op : Token) (hl : Traces (ev l) (ev' l))
    (hr : Traces (ev r) (ev' r)) :
    Traces (if op.kind = .arrow then arrow l r else Eval.binary ev l op r)
      (Eval.binary ev' l op r) := by
  unfold Eval.binary
  split
  · next hop =>
    rw [hop]
    exact arrow_traces l r
  · next hop =>
    split
    · exact .bind hl fun v => .ite hr (.pure v)
    · exact .bind hl fun v => .ite (.pure v) hr
    · next h => exact absurd h hop
    · split
      · next f hf =>
        exact .bind hl fun a => .bind hr fun b => combine_traces f a b
      · exact .pure _

theorem before_traces (op : Kind) {e : Tree} (he : Traces (ev e) (ev' e)) :
    Traces (before ev op e) (Eval.before ev' op e) := by
  unfold before
  split
  · exact .bind he fun v => .bind (.ofExcept _) readAt_traces
  · exact .bind (step_traces _ e) fun r => .pure _
  · exact .bind (step_traces _ e) fun r => .pure _
  · unfold Eval.before
    split
    · exact referTo_traces e
    · contradiction
    · contradiction
    · contradiction
    · refine .bind (.lift (Run.makeNumber_keeps _ _)) fun n => .bind he fun v => .ofExcept _
    · exact he
    · exact .bind he fun v => .lift (still.negate v)
    · exact .throw _

theorem behind_traces (op : Kind) (e : Tree) : Traces (behind op e) (Eval.behind op e) := by
  unfold behind
  split
  · exact .bind (step_traces _ e) fun r => .pure _
  · exact .bind (step_traces _ e) fun r => .pure _
  · unfold Eval.behind
    split
    · contradiction
    · contradiction
    · exact .throw _

theorem assign_traces (target : Tree) (op : Token) {v : Tree} (hv : Traces (ev v) (ev' v)) :
    Traces (assign ev target op v) (Eval.assign ev' target op v) := by
  refine .bind (place_traces target) fun a => ?_
  refine .bind (update_traces a (fun old => ?_) ?_) fun r => .pure _
  · exact .bind hv fun w => .lift (still.assigned op.kind old w)
  · intro old w m m' h
    obtain ⟨given, _, -, h⟩ := Run.execute_bind_ok h
    exact Eval.assigned_type h

theorem sequence_traces {cs : List Tree} (hc : ∀ c ∈ cs, Traces (ev c) (ev' c)) (v : Value) :
    Traces (Eval.sequence ev v cs) (Eval.sequence ev' v cs) := by
  induction cs generalizing v with
  | nil => exact .pure v
  | cons c cs ih =>
    have hc := List.forall_mem_cons.1 hc
    exact .bind hc.1 fun w => ih hc.2 w

theorem cast_traces (t : Tree) {e : Tree} (inFront : Bool) (he : Traces (ev e) (ev' e)) :
    Traces (Eval.cast ev t e inFront) (Eval.cast ev' t e inFront) := by
  unfold Eval.cast
  split
  · exact .bind he fun v => convert_traces _ v
  · exact .throw _

end Traced

inductive Tree.CallFree : Tree → Prop
  | noOp (n : Nat) : CallFree (.noOp n)
  | num (k : Token) (n : Nat) : CallFree (.num k n)
  | string (k : Token) (n : Nat) : CallFree (.string k n)
  | var (k : Token) (n : Nat) : CallFree (.var k n)
  | binary {l r : Tree} (op : Token) (n : Nat) : CallFree l → CallFree r →
      CallFree (.binary l op r n)
  | unary (op : Token) {e : Tree} (inFront : Bool) (n : Nat) : CallFree e →
      CallFree (.unary op e inFront n)
  | cast (t : Tree) {e : Tree} (inFront : Bool) (n : Nat) : CallFree e →
      CallFree (.cast t e inFront n)
  | ternary {c a b : Tree} (n : Nat) : CallFree c → CallFree a → CallFree b →
      CallFree (.ternary c a b n)
  | assign {t v : Tree} (op : Token) (n : Nat) : CallFree t → CallFree v →
      CallFree (.assign t op v n)
  | sequence {cs : List Tree} (n : Nat) : (∀ c ∈ cs, CallFree c) → CallFree (.sequence cs n)
  | field (op : Kind) {b c : Tree} (n : Nat) : CallFree b → CallFree c →
      CallFree (.field op b c n)

def trace : Nat → Eval.Evaluator Traced
  | 0, _ => throw .outOfFuel
  | fuel + 1, t => Traced.rule (trace fuel) t

def accesses (fuel : Nat) (t : Tree) (m : Machine) : List Access :=
  ((trace fuel t).run (m, [])).2.2

/-- Forgetting the accesses of an expression without calls gives its evaluation, which changes the
store within them. -/
theorem trace_traces {t : Tree} (ht : t.CallFree) (fuel : Nat) :
    (trace fuel t).Traces (Eval.eval fuel t) := by
  induction fuel generalizing t with
  | zero => exact .throw _
  | succ fuel ih =>
    change Traced.Traces (Traced.rule (trace fuel) t) (Eval.rule (Eval.eval fuel) fuel t)
    cases ht with
    | noOp n => exact .pure _
    | num k n => exact .lift (Traced.still.literal k)
    | string k n => exact .pure _
    | var k n => exact Traced.readName_traces _
    | binary op n hl hr => exact Traced.binary_traces op (ih hl) (ih hr)
    | unary op inFront n he =>
      exact .ite (Traced.before_traces op.kind (ih he)) (Traced.behind_traces op.kind _)
    | cast t inFront n he => exact Traced.cast_traces t inFront (ih he)
    | ternary n => exact .throw _
    | assign op n ht hv => exact Traced.assign_traces _ op (ih hv)
    | sequence n hc => exact Traced.sequence_traces (fun c hm => ih (hc c hm)) _
    | field op n => exact .bind (Traced.fieldAddress_traces op _ _) Traced.readAt_traces

/-- An expression without calls, whether its evaluation succeeds or fails, leaves the scopes, the
frames and the blocks as they are, replaces numbers by numbers of their types, keeps all other
values, and creates numbers of type `int` where it accesses a cell that is absent, and only there.
-/
theorem expression_extends {t : Tree} (ht : t.CallFree) (fuel : Nat) (m : Machine) :
    (Eval.eval fuel t).execute m =
        (((trace fuel t).run (m, [])).1, ((trace fuel t).run (m, [])).2.1) ∧
      m.store.Extends (accesses fuel t m) ((Eval.eval fuel t).execute m).2.store := by
  obtain ⟨r, m', log, heval, htrace, hext⟩ := trace_traces ht fuel m []
  rw [accesses, htrace, heval, List.append_nil]
  exact ⟨rfl, hext⟩

/-- `*p += p++` with a `p` that has no cell yet: two cells are created. -/
theorem expression_extends_pointer :
    let p : Tree := .var (.ofName "p") 1
    let t : Tree := .assign (.unary (.ofKind .asterisk) p true 1) (.ofKind .addAssign)
      (.unary (.ofKind .incOp) p false 1) 1
    let m : Machine := { Machine.start "" with
      store := { Store.empty with globals := ⟨"global_scope", [("p", .at (.int 8))]⟩ } }
    t.CallFree ∧ ((Eval.eval 5 t).execute m).1.isOk = true ∧
      (accesses 5 t m).countP (·.absent) = 2 ∧
      m.store.Extends (accesses 5 t m) ((Eval.eval 5 t).execute m).2.store := by
  intro p t m
  have hp : p.CallFree := .var _ _
  have ht : t.CallFree := .assign _ _ (.unary _ _ _ hp) (.unary _ _ _ hp)
  exact ⟨ht, by decide +kernel, by decide +kernel, (expression_extends ht 5 m).2⟩

end MiniC
