import MiniC.Proofs.Parsed

/-!
# How reading ends

The rules end on every stream of tokens. For the reading of a whole text this leaves five outcomes,
`Program.Outcome`.
-/

namespace MiniC

namespace Grammar

open MiniC.Parser

/-- On the tokens of a text, a program is read up to the end of the text. -/
theorem wholeProgram_ok {src : Source} {s s' : Stream} {t : Tree} (hs : Stream.Of src s)
    (h : wholeProgram s = .ok (t, s')) :
    ∃ children n line, t = .program children n ∧ s' = .done line := by
  have hp := program_reads s hs.legible
  change (program s >>= fun r => (kind >>= fun k =>
    if k == .eof then pure r.1 else throw (.trailing k) : Parser Tree) r.2) = _ at h
  cases hps : program s with
  | error e =>
    rw [hps] at h
    cases h
  | ok r =>
    obtain ⟨node, s₁⟩ := r
    rw [hps] at h hp
    obtain ⟨src₁, hs₁⟩ := hs.rest hp.1
    obtain ⟨children, n, rfl⟩ : ∃ children n, node = .program children n := by
      cases hp.2.2.grammatical with
      | program n _ => exact ⟨_, n, rfl⟩
    cases hs₁ with
    | stuck => cases h
    | done =>
      obtain ⟨rfl, rfl⟩ := Prod.mk.inj (Except.ok.inj h)
      exact ⟨children, n, _, rfl, rfl⟩
    | more _ ht _ =>
      change (if _ == Kind.eof then pure _ else throw _ : Parser Tree) _ = _ at h
      rw [if_neg (by simpa using ht)] at h
      cases h

end Grammar

namespace Program

inductive Outcome (text : String) : Except Failure Tree → Prop where
  | program {children : List Tree} {n line : Nat}
      (h : Parser.start Grammar.wholeProgram (Stream.ofText text) =
        .ok (.program children n, .done line)) :
      Outcome text (.ok (.program children n))
  | lexical {e : LexicalError} (he : ∀ digits, e ≠ .badNumeral digits)
      (h : (Stream.ofText text).toList.2 = some e) :
      Outcome text (.error (.syntactic (.lexical e)))
  /-- A run of digits in the text has no value. -/
  | numeral {ds : List Char} (hds : Source.IsBadNumeral ds) (h : ds <:+: text.toList) :
      Outcome text (.error (.syntactic (.lexical (.badNumeral (String.ofList ds)))))
  | unfit {e : SyntaxError} (h : e.isUnfit = true) : Outcome text (.error (.syntactic e))
  /-- An ampersand stands where an assignment operator was looked for. -/
  | ampersand {t : Token} {line : Nat} (h : (t, line) ∈ (Stream.ofText text).toList.1)
      (ht : t.kind = .ampersand) : Outcome text (.error (.syntactic .ampersandBehindTarget))

theorem Outcome.of_cause {text : String} {e : SyntaxError} (h : (Stream.ofText text).Cause e) :
    Outcome text (.error (.syntactic e)) := by
  cases h with
  | unfit h => exact .unfit h
  | ampersand h ht => exact .ampersand h ht
  | lexical h =>
    next l =>
    by_cases hl : ∃ digits, l = .badNumeral digits
    · obtain ⟨digits, rfl⟩ := hl
      obtain ⟨ds, rfl, hds, hin⟩ := (Stream.ofText_of text).badNumeral h
      exact .numeral hds hin
    · exact .lexical (fun digits hd => hl ⟨digits, hd⟩) h

/-- A text that is not empty is read token by token to its end, or to the first place where there is
no token, and its tokens are read by the rules with one of five outcomes. No bound on the number of
tokens, of turns of a loop or of the depth of rules is among them. -/
theorem parse_outcome {text : String} (h : text ≠ "") :
    Stream.Of (Source.ofText text) (Stream.ofText text) ∧ Outcome text (parse text) := by
  have hof := Stream.ofText_of text
  refine ⟨hof, ?_⟩
  have hne : text.isEmpty = false := by simpa using h
  have hstart : parse text =
      match Parser.start Grammar.wholeProgram (Stream.ofText text) with
      | .ok r => .ok r.1
      | .error e => .error (.syntactic e) := by
    simp only [parse, hne, Bool.false_eq_true, if_false, Grammar.parseStream]
    cases Parser.start Grammar.wholeProgram (Stream.ofText text) <;> rfl
  rw [hstart]
  have hreads := (Grammar.wholeProgram_reads (Stream.ofText text)).start hof.legible
  cases hr : Parser.start Grammar.wholeProgram (Stream.ofText text) with
  | error e =>
    rw [hr] at hreads
    exact .of_cause hreads
  | ok r =>
    obtain ⟨t, s'⟩ := r
    obtain ⟨children, n, line, rfl, rfl⟩ := Grammar.wholeProgram_ok hof (Parser.start_ok hr)
    exact .program hr

/-- The end of the text inside the arguments of a call, behind an ampersand that is no assignment
operator. -/
theorem parse_outcome_truncated : "int main() \x7b f(a & " ≠ "" ∧
    Stream.Of (Source.ofText "int main() \x7b f(a & ") (Stream.ofText "int main() \x7b f(a & ") ∧
      Outcome "int main() \x7b f(a & " (parse "int main() \x7b f(a & ") :=
  ⟨by decide, parse_outcome (by decide)⟩

end Program

end MiniC
