import MiniC.Grammar.Parser
import MiniC.Proofs.Lexemes

/-!
# Reading ends

Every rule of the grammar, on every stream of tokens that were read from some text, either takes
tokens from the stream and gives a result, or fails for a cause that lies in the stream; the bounds
on loops and on depth are never the cause. `Reads k p s P` says so of a rule on a stream, together
with the least number of tokens that the rule takes and with what is known of its result. The rules
that go round in a loop or enter themselves again take at least one token on each turn, which is what
the bounds count.
-/

namespace MiniC

variable {s s' : Stream}

def SyntaxError.isUnfit : SyntaxError → Bool
  | lexical _ | ampersandBehindTarget | exhausted => false
  | _ => true

theorem Token.eof_lexed : eof.Lexed :=
  ⟨⟨[], 1⟩, _, rfl⟩

namespace Stream

inductive Rest : Stream → Stream → Prop where
  | refl (s : Stream) : Rest s s
  | more {t : Token} {n : Nat} {s s' : Stream} (h : Rest s s') : Rest (.more t n s) s'

theorem Rest.trans {s'' : Stream} (h : Rest s s') (h' : Rest s' s'') : Rest s s'' := by
  induction h with
  | refl => exact h'
  | more _ ih => exact .more (ih h')

theorem Rest.error (h : Rest s s') : s'.toList.2 = s.toList.2 := by
  induction h with
  | refl => rfl
  | more _ ih => exact ih

theorem Rest.mem (h : Rest s s') {p : Token × Nat} (hp : p ∈ s'.toList.1) : p ∈ s.toList.1 := by
  induction h with
  | refl => exact hp
  | more _ ih => exact List.mem_cons_of_mem _ (ih hp)

theorem Of.rest {src : Source} (h : Of src s) (hr : Rest s s') : ∃ src', Of src' s' := by
  induction hr generalizing src with
  | refl => exact ⟨src, h⟩
  | more _ ih =>
    cases h with
    | more _ _ hrest => exact ih hrest

def head : Stream → Token
  | .more t _ _ => t
  | _ => Token.eof

def Legible (s : Stream) : Prop :=
  ∀ p ∈ s.toList.1, p.1.Lexed

theorem Legible.head (h : s.Legible) : s.head.Lexed := by
  cases s with
  | stuck e | done n => exact Token.eof_lexed
  | more t n rest => exact h (t, n) List.mem_cons_self

theorem Legible.rest (h : s.Legible) (hr : Rest s s') : s'.Legible :=
  fun p hp => h p (hr.mem hp)

theorem Of.legible {src : Source} (h : Of src s) : s.Legible := by
  induction h with
  | stuck => exact List.forall_mem_nil _
  | done => exact List.forall_mem_singleton.2 Token.eof_lexed
  | more hnext _ _ ih => exact List.forall_mem_cons.2 ⟨⟨_, _, hnext⟩, ih⟩

theorem head_mem (h : s.head.kind ≠ .eof) : ∃ n, (s.head, n) ∈ s.toList.1 := by
  cases s with
  | stuck e | done n => exact absurd rfl h
  | more t n rest => exact ⟨n, List.mem_cons_self⟩

/-- Why no rule reads a stream: it ends where there is no token, an ampersand stands in it, or its
tokens do not fit. -/
inductive Cause (s : Stream) : SyntaxError → Prop where
  | lexical {e : LexicalError} (h : s.toList.2 = some e) : Cause s (.lexical e)
  | ampersand {n : Nat} {t : Token} (h : (t, n) ∈ s.toList.1) (ht : t.kind = .ampersand) :
      Cause s .ampersandBehindTarget
  | unfit {e : SyntaxError} (h : e.isUnfit = true) : Cause s e

theorem Cause.of_rest {e : SyntaxError} (hr : Rest s s') (h : Cause s' e) : Cause s e := by
  cases h with
  | lexical h => exact .lexical (hr.error ▸ h)
  | ampersand h ht => exact .ampersand (hr.mem h) ht
  | unfit h => exact .unfit h

end Stream

namespace Parser

variable {α β : Type}

/-- On a stream of tokens that were read, a rule takes at least `k` tokens and gives something with
a property, or fails for a cause in the stream. -/
def Reads (k : Nat) (p : Parser α) (s : Stream) (P : α → Prop) : Prop :=
  s.Legible →
    match p s with
    | .ok (a, s') => s.Rest s' ∧ s'.size + k ≤ s.size ∧ P a
    | .error e => s.Cause e

theorem bind_ok {p : Parser α} {f : α → Parser β} {b : β} (h : (p >>= f) s = .ok (b, s')) :
    ∃ a s₁, p s = .ok (a, s₁) ∧ f a s₁ = .ok (b, s') := by
  change (p s >>= fun r => f r.1 r.2) = .ok (b, s') at h
  cases hps : p s with
  | error e =>
    rw [hps] at h
    cases h
  | ok r =>
    rw [hps] at h
    exact ⟨r.1, r.2, rfl, h⟩

theorem kind_ok {f : Kind → Parser α} {a : α} (h : (kind >>= f) s = .ok (a, s')) :
    f s.head.kind s = .ok (a, s') := by
  cases s with
  | stuck e => cases h
  | done n | more t n rest => exact h

theorem lookahead_ok {p : Parser α} {a : α} (h : lookahead p s = .ok (a, s')) :
    s' = s ∧ ∃ s₁, p s = .ok (a, s₁) := by
  change (p s >>= fun r => .ok (r.1, s)) = .ok (a, s') at h
  cases hps : p s with
  | error e =>
    rw [hps] at h
    cases h
  | ok r =>
    rw [hps] at h
    obtain ⟨rfl, rfl⟩ := Prod.mk.inj (Except.ok.inj h)
    exact ⟨rfl, r.2, rfl⟩

namespace Reads

variable {k : Nat} {s : Stream} {P : α → Prop} {Q : β → Prop}

variable {p : Parser α} {f : α → Parser β}

theorem pure {a : α} (ha : P a) : Reads 0 (pure a) s P :=
  fun _ => ⟨.refl s, Nat.le_refl _, ha⟩

theorem unfit {e : SyntaxError} (h : e.isUnfit = true) : Reads k (throw e) s P :=
  fun _ => Stream.Cause.unfit h

/-- More is known of a result by looking at how it comes about. -/
theorem also {P' : α → Prop} (h : Reads k p s P)
    (h' : s.Legible → ∀ a s', p s = .ok (a, s') → P' a) : Reads k p s fun a => P a ∧ P' a := by
  intro hs
  have hp := h hs
  cases hps : p s with
  | error e =>
    rw [hps] at hp
    exact hp
  | ok r =>
    rw [hps] at hp
    exact ⟨hp.1, hp.2.1, hp.2.2, h' hs r.1 r.2 hps⟩

theorem weaken {j : Nat} {P' : α → Prop} (h : Reads k p s P) (hj : j ≤ k) (hP : ∀ a, P a → P' a) :
    Reads j p s P' := by
  intro hs
  have hp := h hs
  split at hp
  · exact ⟨hp.1, by omega, hP _ hp.2.2⟩
  · exact hp

theorem any (h : Reads k p s P) : Reads 0 p s P :=
  h.weaken (Nat.zero_le _) fun _ => id

theorem imp {P' : α → Prop} (h : Reads k p s P) (hP : ∀ a, P a → P' a) : Reads k p s P' :=
  h.weaken (Nat.le_refl _) hP

/-- What comes second may depend on how the first part ends. -/
theorem bindAt {i j : Nat} (hp : Reads i p s P)
    (hf : ∀ a s', p s = .ok (a, s') → s'.size + i ≤ s.size → P a → Reads j (f a) s' Q) :
    Reads (i + j) (p >>= f) s Q := by
  intro hs
  have hbind : (p >>= f) s = (p s >>= fun r => f r.1 r.2) := rfl
  have hp := hp hs
  rw [hbind]
  cases hps : p s with
  | error e =>
    rw [hps] at hp
    exact hp
  | ok r =>
    obtain ⟨a, s'⟩ := r
    rw [hps] at hp
    obtain ⟨hrest, hsize, ha⟩ := hp
    have hfa := hf a s' hps hsize ha (hs.rest hrest)
    change match f a s' with
      | .ok (b, s'') => s.Rest s'' ∧ s''.size + (i + j) ≤ s.size ∧ Q b
      | .error e => s.Cause e
    split at hfa
    · exact ⟨hrest.trans hfa.1, by omega, hfa.2.2⟩
    · exact .of_rest hrest hfa

theorem bind {i j : Nat} (hp : Reads i p s P)
    (hf : ∀ a s', s'.size + i ≤ s.size → P a → Reads j (f a) s' Q) : Reads (i + j) (p >>= f) s Q :=
  bindAt hp fun a s' _ => hf a s'

/-- The first part takes a token, which is one of those to be taken. -/
theorem next (hp : Reads 1 p s P) (hf : ∀ a s', s'.size < s.size → P a → Reads (k - 1) (f a) s' Q) :
    Reads k (p >>= f) s Q :=
  (bind hp hf).weaken (by omega) fun _ => id

theorem after (hp : Reads 0 p s P) (hf : ∀ a s', s'.size ≤ s.size → P a → Reads k (f a) s' Q) :
    Reads k (p >>= f) s Q :=
  (bind hp hf).weaken (Nat.le_add_left _ _) fun _ => id

theorem map {f : α → β} (hp : Reads k p s P) (hf : ∀ a, P a → Q (f a)) : Reads k (f <$> p) s Q := by
  rw [← bind_pure_comp]
  exact bind hp fun a _ _ ha => pure (hf a ha)

theorem ite {c : Prop} [Decidable c] {q : Parser α} (hp : c → Reads k p s P)
    (hq : ¬c → Reads k q s P) : Reads k (if c then p else q) s P := by
  split
  · next hc => exact hp hc
  · next hc => exact hq hc

/-- Looking at the current token takes nothing and fails only where there is none. -/
theorem token {f : Token → Parser β} (hf : s.head.Lexed → Reads k (f s.head) s Q) :
    Reads k (Parser.token >>= f) s Q := by
  intro hs
  cases s with
  | stuck e => exact Stream.Cause.lexical rfl
  | done n | more t n rest => exact hf hs.head hs

theorem kind {f : Kind → Parser β} (hf : Reads k (f s.head.kind) s Q) :
    Reads k (Parser.kind >>= f) s Q := by
  cases s with
  | stuck e => exact fun _ => Stream.Cause.lexical rfl
  | done n | more t n rest => exact hf

theorem line {f : Nat → Parser β} (hf : ∀ n, Reads k (f n) s Q) :
    Reads k (Parser.line >>= f) s Q := by
  cases s with
  | stuck e => exact hf 1
  | done n | more t n rest => exact hf n

theorem left {f : Nat → Parser β} (hf : Reads k (f s.size) s Q) : Reads k (Parser.left >>= f) s Q :=
  hf

theorem advance {f : Unit → Parser β} (h : s.head.kind ≠ .eof)
    (hf : ∀ s', s'.size < s.size → Reads (k - 1) (f ()) s' Q) :
    Reads k (Parser.advance >>= f) s Q := by
  have hadvance : Reads 1 Parser.advance s fun _ => True := by
    cases s with
    | stuck e | done n => exact absurd rfl h
    | more t n rest =>
      cases rest with
      | stuck e => exact fun _ => Stream.Cause.lexical rfl
      | done m | more u m rest => exact fun _ => ⟨.more (.refl _), Nat.le_refl _, trivial⟩
  exact next hadvance fun _ s' hs' _ => hf s' hs'

theorem take {w : Kind} {f : Unit → Parser β} (h : s.head.kind = w) (hw : (w == .eof) = false)
    (hf : ∀ s', s'.size < s.size → Reads (k - 1) (f ()) s' Q) :
    Reads k (Parser.advance >>= f) s Q :=
  advance (by simpa [h] using hw) hf

theorem ofEat {w : Kind} (hw : (w == .eof) = false) (s : Stream) :
    Reads 1 (Parser.eat w) s fun _ => s.head.kind = w := by
  refine kind (ite (fun h => ?_) fun _ => line fun n => unfit rfl)
  rw [← bind_pure (Parser.advance)]
  exact take h hw fun _ _ => pure h

theorem eat {w : Kind} {f : Unit → Parser β} (hw : (w == .eof) = false)
    (hf : s.head.kind = w → ∀ s', s'.size < s.size → Reads (k - 1) (f ()) s' Q) :
    Reads k (Parser.eat w >>= f) s Q :=
  next (ofEat hw s) fun _ s' hs' hk => hf hk s' hs'

theorem lookahead {i : Nat} (hp : Reads i p s P)
    (hf : ∀ a, Parser.lookahead p s = .ok (a, s) → Reads k (f a) s Q) :
    Reads k (Parser.lookahead p >>= f) s Q := by
  have hlook : Reads 0 (Parser.lookahead p) s fun _ => True := by
    intro hs
    have hp := hp hs
    change match p s >>= fun r => .ok (r.1, s) with
      | .ok (_, s') => s.Rest s' ∧ s'.size + 0 ≤ s.size ∧ True
      | .error e => s.Cause e
    cases hps : p s with
    | error e =>
      rw [hps] at hp
      exact hp
    | ok r => exact ⟨.refl s, Nat.le_refl _, trivial⟩
  refine (bindAt hlook fun a s' h _ _ => ?_).weaken (Nat.le_add_left _ _) fun _ => id
  obtain ⟨rfl, -⟩ := lookahead_ok h
  exact hf a h

theorem start (hp : Reads k p s P) : Reads k (Parser.start p) s P := by
  cases s with
  | stuck e => exact fun _ => Stream.Cause.lexical rfl
  | done n | more t n rest => exact hp

end Reads

theorem start_ok {p : Parser α} {r : α × Stream} (h : start p s = .ok r) : p s = .ok r := by
  cases s with
  | stuck e => cases h
  | done n | more t n rest => exact h

/-! ## Loops -/

/-- Items that take a token each; the bound exceeds the number of tokens. -/
theorem itemsWhile_reads {P : α → Prop} {goesOn : Kind → Bool} {item : Parser α} {fuel : Nat}
    (hi : ∀ s' : Stream, s'.size ≤ s.size → goesOn s'.head.kind = true → Reads 1 item s' P)
    (hf : s.size < fuel) : Reads 0 (itemsWhile goesOn item fuel) s fun as => ∀ a ∈ as, P a := by
  induction fuel generalizing s with
  | zero => omega
  | succ fuel ih =>
    refine .kind (.ite (fun hg => ?_) fun _ => .pure (List.forall_mem_nil _))
    refine .next (hi s (Nat.le_refl _) hg) fun a s' hs' ha => ?_
    refine .after (ih (fun s'' hs'' => hi s'' (by omega)) (by omega)) fun as _ _ has => .pure ?_
    exact List.forall_mem_cons.2 ⟨ha, has⟩

theorem manyWhile_reads {P : α → Prop} {goesOn : Kind → Bool} {item : Parser α}
    (hi : ∀ s' : Stream, s'.size ≤ s.size → goesOn s'.head.kind = true → Reads 1 item s' P) :
    Reads 0 (manyWhile goesOn item) s fun as => ∀ a ∈ as, P a :=
  .left (itemsWhile_reads hi (Nat.lt_succ_self _))

theorem commaList_reads {P : α → Prop} {item : Parser α}
    (hi : ∀ s' : Stream, s'.size ≤ s.size → Reads 1 item s' P) :
    Reads 1 (commaList item) s fun as => as ≠ [] ∧ ∀ a ∈ as, P a := by
  refine .next (hi s (Nat.le_refl _)) fun a s' hs' ha => ?_
  refine .after (manyWhile_reads (P := P) fun s'' hs'' _ => .eat rfl fun _ s₃ hs₃ => ?_)
    fun as _ _ has => .pure ⟨List.cons_ne_nil a as, List.forall_mem_cons.2 ⟨ha, has⟩⟩
  exact (hi s₃ (by omega)).any

end Parser

end MiniC
