import MiniC.Proofs.LongestMatch
import MiniC.Token.Stream

/-!
# The stream of a text

`Stream.Of` is the reading of a text token by token, without a bound on their number. Each token
takes at least one character, so the bound with which streams are computed is never reached, and
the stream of a text is the one reading of it. Where a stream ends at a numeral, the numeral is a
run of digits that stands in the text and is the numeral of no number.
-/

namespace MiniC

namespace Source

theorem skip_suffix {g : Gap} {cs rest : List Char} {line n : Nat}
    (h : skip g cs line = .ok ⟨rest, n⟩) : rest <:+ cs := by
  fun_induction skip g cs line with
  | case1 | case6 =>
    obtain ⟨rfl, -⟩ := Source.mk.inj (Except.ok.inj h)
    exact List.suffix_refl _
  | case2 line cs ih | case3 line cs ih | case10 line cs ih =>
    have hsuf := ih h
    exact (hsuf.trans (List.suffix_cons _ _)).trans (List.suffix_cons _ _)
  | case4 line c cs _ _ hb ih => exact (ih h).trans (List.suffix_cons _ _)
  | case5 line c cs _ _ hb =>
    obtain ⟨rfl, -⟩ := Source.mk.inj (Except.ok.inj h)
    exact List.suffix_refl _
  | case7 line cs ih | case8 line c cs hc ih => exact (ih h).trans (List.suffix_cons _ _)
  | case9 => cases h
  | case11 line c cs _ ih => exact (ih h).trans (List.suffix_cons _ _)

/-- Digits, or digits with a point among them or behind them. -/
def IsDigitRun (ds : List Char) : Prop :=
  ∃ whole, whole ≠ [] ∧ (∀ c ∈ whole, Text.isDigit c = true) ∧
    (ds = whole ∨ ∃ fraction, (∀ c ∈ fraction, Text.isDigit c = true) ∧
      ds = whole ++ '.' :: fraction)

def IsBadNumeral (ds : List Char) : Prop :=
  IsDigitRun ds ∧ if '.' ∈ ds then Text.readReal ds = none else Text.readInt ds = none

/-- What stands before the rest is what was taken. -/
theorem takeWhile_infix (p : Char → Bool) (pre cs : List Char) :
    pre ++ cs.takeWhile p <:+: pre ++ cs :=
  ((List.prefix_append_right_inj pre).2 (List.takeWhile_prefix p)).isInfix

theorem readNumber_error {c : Char} {cs : List Char} {e : LexicalError}
    (hc : Text.isDigit c = true) (h : readNumber (c :: cs) = .error e) :
    ∃ ds, e = .badNumeral (String.ofList ds) ∧ IsBadNumeral ds ∧ ds <:+: c :: cs := by
  have hne : (c :: cs).takeWhile Text.isDigit ≠ [] := by simp [hc]
  have hall : ∀ d ∈ (c :: cs).takeWhile Text.isDigit, Text.isDigit d = true :=
    fun d => List.mem_takeWhile_imp
  have hpoint : '.' ∉ (c :: cs).takeWhile Text.isDigit :=
    fun hm => absurd (hall _ hm) (by decide)
  have happ : (c :: cs).takeWhile Text.isDigit ++ (c :: cs).dropWhile Text.isDigit = c :: cs :=
    List.takeWhile_append_dropWhile
  simp only [readNumber] at h
  split at h
  · next rest hrest =>
    split at h
    · cases h
    · next hr =>
      obtain rfl := Except.error.inj h
      refine ⟨_, rfl, ⟨⟨_, hne, hall, .inr ⟨_, fun d => List.mem_takeWhile_imp, rfl⟩⟩, ?_⟩, ?_⟩
      · rw [if_pos (by simp), hr]
      · have hin := takeWhile_infix Text.isDigit ((c :: cs).takeWhile Text.isDigit ++ ['.']) rest
        simpa only [List.append_assoc, List.singleton_append, ← hrest, happ] using hin
  · next rest _ =>
    split at h
    · cases h
    · next hr =>
      obtain rfl := Except.error.inj h
      refine ⟨_, rfl, ⟨⟨_, hne, hall, .inl rfl⟩, ?_⟩, (List.takeWhile_prefix _).isInfix⟩
      rw [if_neg hpoint, hr]

theorem readToken_badNumeral {c : Char} {cs : List Char} {line : Nat} {d : String}
    (h : readToken c cs line = .error (.badNumeral d)) :
    ∃ ds, d = String.ofList ds ∧ IsBadNumeral ds ∧ ds <:+: c :: cs := by
  unfold readToken at h
  split at h
  · cases h
  split at h
  · next hc =>
    obtain ⟨ds, he, hbad, hin⟩ := readNumber_error hc h
    exact ⟨ds, LexicalError.badNumeral.inj he, hbad, hin⟩
  split at h
  · unfold readString at h
    split at h <;> cases h
  split at h
  · unfold readChar at h
    split at h <;> cases h
  · unfold readOperator at h
    split at h <;> cases h

theorem skip_not_badNumeral {g : Gap} {cs : List Char} {line : Nat} {d : String} :
    skip g cs line ≠ .error (.badNumeral d) := by
  fun_induction skip g cs line <;> simp_all

/-- A token leaves less of the text; only the end of the text takes none of it. -/
theorem next_ok {s s' : Source} {t : Token} (h : s.next = .ok (t, s')) :
    s'.rest <:+ s.rest ∧
      (t = Token.eof ∧ s'.rest = [] ∨ t.kind ≠ .eof ∧ s'.rest.length < s.rest.length) := by
  obtain ⟨rfl, hrest, -⟩ | ⟨w, c, cs, hskip, hcs, hmatch⟩ := next_cases h
  · rw [hrest]
    exact ⟨List.nil_suffix, .inl ⟨rfl, rfl⟩⟩
  · obtain ⟨hk, hw⟩ := hmatch.kind_ne_eof
    have hsuffix := skip_suffix hskip
    rw [hcs] at hsuffix
    refine ⟨(List.suffix_append w _).trans hsuffix, .inr ⟨hk, ?_⟩⟩
    have hle := hsuffix.length_le
    rw [List.length_append] at hle
    have hpos := List.length_pos_iff.2 hw
    omega

theorem next_badNumeral {s : Source} {d : String} (h : s.next = .error (.badNumeral d)) :
    ∃ ds, d = String.ofList ds ∧ IsBadNumeral ds ∧ ds <:+: s.rest := by
  unfold next at h
  split at h
  · next hs =>
    obtain rfl := Except.error.inj h
    exact absurd hs skip_not_badNumeral
  · cases h
  · next c cs line hs =>
    split at h
    · next hr =>
      obtain rfl := Except.error.inj h
      obtain ⟨ds, hd, hbad, hin⟩ := readToken_badNumeral hr
      exact ⟨ds, hd, hbad, hin.trans (skip_suffix hs).isInfix⟩
    · cases h

end Source

namespace Stream

/-- The reading of a text from a position on, token by token up to its end or to the first place
where there is no token. -/
inductive Of : Source → Stream → Prop where
  | stuck {s : Source} {e : LexicalError} (h : s.next = .error e) : Of s (.stuck e)
  | done {s s' : Source} (h : s.next = .ok (Token.eof, s')) : Of s (.done s'.line)
  | more {s s' : Source} {t : Token} {rest : Stream} (h : s.next = .ok (t, s'))
      (ht : t.kind ≠ .eof) (hrest : Of s' rest) : Of s (.more t s'.line rest)

theorem read_of {fuel : Nat} {s : Source} (hf : s.rest.length < fuel) : Of s (read fuel s) := by
  induction fuel generalizing s with
  | zero => omega
  | succ fuel ih =>
    cases hn : s.next with
    | error e => simpa only [read, hn] using Of.stuck hn
    | ok r =>
      obtain ⟨t, s'⟩ := r
      obtain ⟨-, ⟨rfl, -⟩ | ⟨hk, hlt⟩⟩ := Source.next_ok hn
      · simpa only [read, hn, Token.eof, if_true] using Of.done hn
      · have hrest : Of s' (read fuel s') := ih (by omega)
        simpa only [read, hn, if_neg hk] using Of.more hn hk hrest

/-- The stream of a text is its reading: the bound on the number of tokens is never reached. -/
theorem ofText_of (text : String) : Of (Source.ofText text) (ofText text) := by
  apply read_of
  simp only [Source.ofText, String.length_toList]
  omega

theorem Of.unique {s : Source} {u v : Stream} (hu : Of s u) (hv : Of s v) : u = v := by
  induction hu generalizing v with
  | stuck h =>
    cases hv with
    | stuck h' => cases h.symm.trans h'; rfl
    | done h' | more h' => cases h.symm.trans h'
  | done h =>
    cases hv with
    | stuck h' => cases h.symm.trans h'
    | done h' => cases h.symm.trans h'; rfl
    | more h' ht =>
      cases h.symm.trans h'
      exact absurd rfl ht
  | more h ht _ ih =>
    cases hv with
    | stuck h' => cases h.symm.trans h'
    | done h' =>
      cases h.symm.trans h'
      exact absurd rfl ht
    | more h' _ hr' =>
      cases h.symm.trans h'
      rw [ih hr']

theorem Of.badNumeral {s : Source} {u : Stream} {d : String} (h : Of s u)
    (hu : u.toList.2 = some (.badNumeral d)) :
    ∃ ds, d = String.ofList ds ∧ Source.IsBadNumeral ds ∧ ds <:+: s.rest := by
  induction h with
  | stuck h =>
    obtain rfl := Option.some.inj hu
    exact Source.next_badNumeral h
  | done h => cases hu
  | more h ht _ ih =>
    obtain ⟨ds, hd, hbad, hin⟩ := ih hu
    exact ⟨ds, hd, hbad, hin.trans (Source.next_ok h).1.isInfix⟩

/-! ## Tokens without lines -/

def tokens (s : Stream) : Except LexicalError (List Token) :=
  match s.toList with
  | (ts, none) => .ok (ts.map Prod.fst)
  | (_, some e) => .error e

@[simp] theorem tokens_stuck (e : LexicalError) : (stuck e).tokens = .error e := rfl

@[simp] theorem tokens_done (n : Nat) : (done n).tokens = .ok [Token.eof] := rfl

@[simp] theorem tokens_more (t : Token) (n : Nat) (s : Stream) :
    (more t n s).tokens = s.tokens.map (t :: ·) := by
  simp only [tokens, toList]
  obtain ⟨ts, e⟩ := s.toList
  cases e with
  | none => rfl
  | some e => rfl

end Stream

end MiniC
