import MiniC.Proofs.Lexing

/-!
# How a text is used up

The positions of a text are those that are reached by reading tokens one after the other. From each
of them there is a further token behind which less of the text is left, or the end of the text, or
an error. The error is one of the four of the language, or a run of digits that stands in the rest
and is the numeral of no number. So the reading of a text ends after as many tokens as it has
characters at the latest.
-/

namespace MiniC

namespace Source

variable {text : String} {k : Nat} {s s' : Source} {t : Token}

/-- The number of characters of a text that stand before a position. -/
def offset (text : String) (s : Source) : Nat :=
  text.length - s.rest.length

/-- The positions of a text behind a number of tokens. -/
inductive ReachedIn (text : String) : Nat → Source → Prop
  | start : ReachedIn text 0 (ofText text)
  | next {k : Nat} {s s' : Source} {t : Token} (h : ReachedIn text k s)
      (hnext : s.next = .ok (t, s')) : ReachedIn text (k + 1) s'

namespace ReachedIn

theorem suffix (h : ReachedIn text k s) : s.rest <:+ text.toList := by
  induction h with
  | start => exact List.suffix_refl _
  | next _ hnext ih => exact (next_ok hnext).1.trans ih

theorem offset_add (h : ReachedIn text k s) : offset text s + s.rest.length = text.length := by
  have hle := h.suffix.length_le
  rw [String.length_toList] at hle
  exact Nat.sub_add_cancel hle

theorem rest_eq_drop (h : ReachedIn text k s) : s.rest = text.toList.drop (offset text s) := by
  have hdrop := List.suffix_iff_eq_drop.1 h.suffix
  rwa [String.length_toList] at hdrop

/-- Every token takes a character until nothing is left. -/
theorem le_offset (h : ReachedIn text k s) : k ≤ offset text s ∨ s.rest = [] := by
  induction h with
  | start => exact .inl (Nat.zero_le _)
  | next h hnext ih =>
    obtain ⟨hsuffix, ⟨-, hrest⟩ | ⟨-, hless⟩⟩ := next_ok hnext
    · exact .inr hrest
    · refine .inl ?_
      have hadd := h.offset_add
      have hadd' := (h.next hnext).offset_add
      obtain hk | hrest := ih
      · omega
      · simp [hrest] at hless

end ReachedIn

/-- There is nothing to be read from a position: the end of the text comes next, or an error. -/
def Ends (s : Source) : Prop :=
  (∃ s', s.next = .ok (Token.eof, s')) ∨ ∃ e, s.next = .error e

/-- The reading of a text ends, for each token leaves less of it. -/
theorem ReachedIn.exists_ends (h : ReachedIn text k s) (hk : k ≤ offset text s) :
    ∃ k s, k ≤ text.length ∧ ReachedIn text k s ∧ Ends s := by
  induction hn : s.rest.length using Nat.strong_induction_on generalizing k s with
  | _ n ih =>
    have hadd := h.offset_add
    cases hnext : s.next with
    | error e => exact ⟨k, s, by omega, h, .inr ⟨e, hnext⟩⟩
    | ok result =>
      obtain ⟨t, s'⟩ := result
      obtain ⟨-, ⟨rfl, -⟩ | ⟨-, hless⟩⟩ := next_ok hnext
      · exact ⟨k, s, by omega, h, .inl ⟨s', hnext⟩⟩
      · have hadd' := (h.next hnext).offset_add
        exact ih _ (hn ▸ hless) (h.next hnext) (by omega) rfl

/-- From every position of a text that is reached by reading tokens, the next call gives the end of
the text and stands at its end, or gives a token and stands further on in the text, or fails with an
error of the language, or at a run of digits for which there is no number. Until the text is used up
there are at least as many characters before a position as calls that led to it, and some call that
is not behind more calls than the text has characters gives no token. -/
theorem next_advances {text : String} {k : Nat} {s : Source} (h : ReachedIn text k s) :
    s.rest = text.toList.drop (offset text s) ∧ offset text s ≤ text.length ∧
    ((∃ s', s.next = .ok (Token.eof, s') ∧ offset text s' = text.length) ∨
      (∃ t s', s.next = .ok (t, s') ∧ t.kind ≠ .eof ∧ offset text s < offset text s' ∧
        offset text s' ≤ text.length) ∨
      (∃ e, s.next = .error e ∧ ∀ digits, e ≠ .badNumeral digits) ∨
      ∃ ds, s.next = .error (.badNumeral (String.ofList ds)) ∧ IsBadNumeral ds ∧ ds <:+: s.rest) ∧
    (k ≤ offset text s ∨ offset text s = text.length) ∧
    ∃ k s, k ≤ text.length ∧ ReachedIn text k s ∧ Ends s := by
  have hadd := h.offset_add
  refine ⟨h.rest_eq_drop, by omega, ?_, ?_, ReachedIn.start.exists_ends (Nat.zero_le _)⟩
  · cases hnext : s.next with
    | error e =>
      refine .inr (.inr ?_)
      cases e with
      | badNumeral digits =>
        obtain ⟨ds, rfl, hbad⟩ := next_badNumeral hnext
        exact .inr ⟨ds, rfl, hbad⟩
      | _ => exact .inl ⟨_, rfl, by rintro _ ⟨⟩⟩
    | ok result =>
      obtain ⟨t, s'⟩ := result
      have hadd' := (h.next hnext).offset_add
      obtain ⟨-, ⟨rfl, hrest⟩ | ⟨ht, hless⟩⟩ := next_ok hnext
      · rw [hrest] at hadd'
        exact .inl ⟨s', rfl, hadd'⟩
      · exact .inr (.inl ⟨t, s', rfl, ht, by omega, by omega⟩)
  · refine h.le_offset.imp_right fun hrest => ?_
    rwa [hrest] at hadd

/-- Behind a word there is a quote that is never closed. -/
theorem next_advances_unclosed : ∃ s, ReachedIn "a \"b" 1 s ∧ offset "a \"b" s = 1 ∧
    ∃ e, s.next = .error e ∧ ∀ digits, e ≠ .badNumeral digits := by
  have hstart : (ofText "a \"b").next = .ok (⟨.id, .text "a"⟩, ⟨[' ', '"', 'b'], 1⟩) := by
    decide +kernel
  have hreached := ReachedIn.start.next hstart
  have herror : (⟨[' ', '"', 'b'], 1⟩ : Source).next = .error (.unterminatedString 1) := by
    decide +kernel
  refine ⟨_, hreached, by decide +kernel, ?_⟩
  obtain ⟨-, -, ⟨s', heof, -⟩ | ⟨t, s', hnext, -⟩ | hlexical | ⟨ds, hbad, -⟩, -⟩ :=
    next_advances hreached
  · cases herror.symm.trans heof
  · cases herror.symm.trans hnext
  · exact hlexical
  · cases herror.symm.trans hbad

end Source

end MiniC
