import MiniC.Proofs.Lexemes

/-!
# Lexemes with spacing between them

A lexeme is a text that is read as one token, with nothing left behind it. Spacing is made of blanks
and complete comments. A blank ends every token: it continues no word and no numeral, and it stands
in no operator. So a lexeme with a blank behind it is read as the token that it is read as alone, and
the spacing that the blank starts is skipped before the next lexeme. Where no blank follows, a token
still takes as much as it can: what is taken behind spacing is the longest lexeme that stands there.
-/

namespace MiniC

namespace Text

theorem not_isBlank_slash {c : Char} (h : isBlank c = true) : c ≠ '/' := by
  rintro rfl
  exact absurd h (by decide)

end Text

def Token.IsLexeme (w : String) (t : Token) : Prop :=
  t.kind ≠ .eof ∧ ∃ n, (Source.ofText w).next = .ok (t, ⟨[], n⟩)

namespace Source

/-! ## Spacing is skipped -/

inductive Spacing : List Char → Prop where
  | nil : Spacing []
  | blank {c : Char} {cs : List Char} (hc : Text.isBlank c = true) (hcs : Spacing cs) :
      Spacing (c :: cs)
  | lineComment {body cs : List Char} (hbody : '\n' ∉ body) (hcs : Spacing cs) :
      Spacing ('/' :: '/' :: (body ++ '\n' :: cs))
  | blockComment {body cs : List Char} (hbody : ¬ ['*', '/'] <:+: body) (hcs : Spacing cs) :
      Spacing ('/' :: '*' :: (body ++ '*' :: '/' :: cs))

/-- Spacing at the end of a text, which may also end a line comment. -/
def ClosingSpacing (cs : List Char) : Prop :=
  Spacing cs ∨ ∃ before body, Spacing before ∧ '\n' ∉ body ∧ cs = before ++ '/' :: '/' :: body

theorem skip_lineComment {body : List Char} (hbody : '\n' ∉ body) (rest : List Char) (n : Nat) :
    skip .lineComment (body ++ rest) n = skip .lineComment rest n := by
  induction body with
  | nil => rfl
  | cons c body ih =>
    obtain ⟨hc, hbody⟩ := List.ne_and_not_mem_of_not_mem_cons hbody
    rw [List.cons_append, skip, if_neg hc.symm, ih hbody]

theorem skip_blockComment {body : List Char} (hbody : ¬ ['*', '/'] <:+: body) (rest : List Char)
    (n : Nat) :
    ∃ m, skip .blockComment (body ++ '*' :: '/' :: rest) n = skip .blanks rest m := by
  induction body generalizing n with
  | nil => exact ⟨n, by rw [List.nil_append, skip]⟩
  | cons c body ih =>
    obtain ⟨m, hm⟩ := ih (fun h => hbody (h.trans (List.suffix_cons _ _).isInfix)) (nextLine c n)
    refine ⟨m, ?_⟩
    rw [List.cons_append, skip, hm]
    rintro r rfl hr
    cases body with
    | nil => cases hr
    | cons e body =>
      obtain ⟨rfl, -⟩ := List.cons.inj hr
      exact hbody (List.prefix_append ['*', '/'] body).isInfix

theorem skip_spacing {cs : List Char} (h : Spacing cs) (rest : List Char) (n : Nat) :
    ∃ m, skip .blanks (cs ++ rest) n = skip .blanks rest m := by
  induction h generalizing n with
  | nil => exact ⟨n, rfl⟩
  | @blank c cs hc _ ih =>
    obtain ⟨m, hm⟩ := ih (nextLine c n)
    refine ⟨m, ?_⟩
    have hslash := Text.not_isBlank_slash hc
    rw [List.cons_append, skip, if_pos hc, hm]
    · exact fun _ h => absurd h hslash
    · exact fun _ h => absurd h hslash
  | @lineComment body cs hbody _ ih =>
    obtain ⟨m, hm⟩ := ih (n + 1)
    refine ⟨m, ?_⟩
    rw [List.cons_append, List.cons_append, List.append_assoc, skip, skip_lineComment hbody,
      List.cons_append, skip, if_pos rfl, hm]
  | @blockComment body cs hbody _ ih =>
    obtain ⟨k, hk⟩ := skip_blockComment hbody (cs ++ rest) n
    obtain ⟨m, hm⟩ := ih k
    refine ⟨m, ?_⟩
    rw [List.cons_append, List.cons_append, List.append_assoc, skip]
    exact hk.trans hm

theorem next_spacing {cs : List Char} (h : Spacing cs) (rest : List Char) (n : Nat) :
    ∃ m, next ⟨cs ++ rest, n⟩ = next ⟨rest, m⟩ := by
  obtain ⟨m, hm⟩ := skip_spacing h rest n
  exact ⟨m, by simp only [next, hm]⟩

def Remainder : Gap → List Char → Prop
  | .blanks, cs => Spacing cs
  | .lineComment, cs => ∃ body gap, '\n' ∉ body ∧ Spacing gap ∧ cs = body ++ '\n' :: gap
  | .blockComment, cs =>
    ∃ body gap, ¬ ['*', '/'] <:+: body ∧ Spacing gap ∧ cs = body ++ '*' :: '/' :: gap

theorem skip_remainder {g : Gap} {cs r : List Char} {c : Char} {n m : Nat}
    (h : skip g cs n = .ok ⟨c :: r, m⟩) : ∃ gap, Remainder g gap ∧ cs = gap ++ c :: r := by
  fun_induction skip g cs n with
  | case1 | case6 | case9 => cases h
  | case2 cs n ih =>
    obtain ⟨_, ⟨body, gap, hbody, hgap, rfl⟩, rfl⟩ := ih h
    exact ⟨_, Spacing.lineComment hbody hgap, by simp⟩
  | case3 cs n ih =>
    obtain ⟨_, ⟨body, gap, hbody, hgap, rfl⟩, rfl⟩ := ih h
    exact ⟨_, Spacing.blockComment hbody hgap, by simp⟩
  | case4 d cs n _ _ hd ih =>
    obtain ⟨gap, hgap, rfl⟩ := ih h
    exact ⟨d :: gap, Spacing.blank hd hgap, rfl⟩
  | case5 d cs n =>
    cases h
    exact ⟨[], Spacing.nil, rfl⟩
  | case7 cs n ih =>
    obtain ⟨gap, hgap, rfl⟩ := ih h
    exact ⟨'\n' :: gap, ⟨[], gap, List.not_mem_nil, hgap, rfl⟩, rfl⟩
  | case8 d cs n hd ih =>
    obtain ⟨_, ⟨body, gap, hbody, hgap, rfl⟩, rfl⟩ := ih h
    have hline : '\n' ∉ d :: body := List.not_mem_cons_of_ne_of_not_mem (Ne.symm hd) hbody
    exact ⟨d :: (body ++ '\n' :: gap), ⟨d :: body, gap, hline, hgap, rfl⟩, rfl⟩
  | case10 cs n ih =>
    obtain ⟨gap, hgap, rfl⟩ := ih h
    exact ⟨'*' :: '/' :: gap, ⟨[], gap, by simp, hgap, rfl⟩, rfl⟩
  | case11 d cs n hend ih =>
    obtain ⟨_, ⟨body, gap, hbody, hgap, rfl⟩, rfl⟩ := ih h
    refine ⟨d :: (body ++ '*' :: '/' :: gap), ⟨d :: body, gap, fun hin => ?_, hgap, rfl⟩, rfl⟩
    -- the end of a comment would start here and have been seen, or stand in the body
    obtain ⟨tail, htail⟩ | hin := List.infix_cons_iff.1 hin
    · obtain ⟨rfl, rfl⟩ := List.cons.inj htail
      exact hend _ rfl rfl
    · exact hbody hin

theorem next_append {w : String} {t : Token} (hw : t.IsLexeme w) {d : Char}
    (hd : Text.isBlank d = true) (rest : List Char) (n : Nat) :
    ∃ m, next ⟨w.toList ++ d :: rest, n⟩ = .ok (t, ⟨d :: rest, m⟩) := by
  obtain ⟨hk, k, h⟩ := hw
  obtain ⟨rfl, -⟩ | ⟨v, c, cs, hskip, hcs, hmatch⟩ := next_cases h
  · exact absurd rfl hk
  obtain ⟨gap, hgap, hrest⟩ := skip_remainder hskip
  have htext : w.toList = gap ++ v := by
    rw [← List.append_nil v, ← hcs]
    exact hrest
  obtain ⟨m, hm⟩ := next_spacing hgap (v ++ d :: rest) n
  rw [htext, List.append_assoc, hm, (hmatch.before_blank hd rest).next]
  exact ⟨m, rfl⟩

theorem next_closing {cs : List Char} (h : ClosingSpacing cs) (n : Nat) :
    ∃ m, next ⟨cs, n⟩ = .ok (Token.eof, ⟨[], m⟩) := by
  obtain h | ⟨before, body, hbefore, hbody, rfl⟩ := h
  · obtain ⟨m, hm⟩ := next_spacing h [] n
    rw [List.append_nil] at hm
    exact ⟨m, hm⟩
  · obtain ⟨m, hm⟩ := next_spacing hbefore ('/' :: '/' :: body) n
    have hskip : skip .blanks ('/' :: '/' :: body) m = .ok ⟨[], m⟩ := by
      rw [skip]
      simpa [skip] using skip_lineComment hbody [] m
    exact ⟨m, by rw [hm]; simp only [next, hskip]⟩

/-! ## The longest lexeme -/

/-- No spacing stands at the start of the characters. -/
def StartsToken (cs : List Char) : Prop :=
  ∀ gap, Spacing gap → gap <+: cs → gap = []

theorem startsToken_of_skip {s : Source} {c : Char} {cs : List Char} {n : Nat}
    (h : skip .blanks s.rest s.line = .ok ⟨c :: cs, n⟩) : StartsToken (c :: cs) := by
  obtain ⟨hb, hc⟩ := skip_head h
  rintro gap hgap ⟨r, hr⟩
  obtain ⟨m, hm⟩ := skip_spacing hgap r n
  rw [hr, skip_of_head n hb hc] at hm
  -- nothing is skipped, so that no gap is left out of what remains
  have hle := (skip_suffix hm.symm).length_le
  rw [← hr, List.length_append] at hle
  exact List.eq_nil_of_length_eq_zero (by omega)

/-- What a call takes for a token behind spacing is the longest match there. It is a lexeme of the
token, and no longer start of what is left of the text is a lexeme. -/
theorem next_takes_longest {s s' : Source} {t : Token} (h : s.next = .ok (t, s'))
    (ht : t.kind ≠ .eof) :
    ∃ gap w, s.rest = gap ++ (w ++ s'.rest) ∧ Spacing gap ∧ StartsToken (w ++ s'.rest) ∧
      LongestMatch w s'.rest t ∧ t.IsLexeme (String.ofList w) ∧
      ∀ p u, p <+: w ++ s'.rest → w.length < p.length → ¬ Token.IsLexeme (String.ofList p) u := by
  obtain ⟨rfl, -⟩ | ⟨w, c, cs, hskip, hcs, hmatch⟩ := next_cases h
  · exact absurd rfl ht
  obtain ⟨gap, hgap, hrest⟩ := skip_remainder hskip
  -- a start of the text that holds the match is read in the same way
  have hread {q : List Char} (hq : q <+: s'.rest) :
      (ofText (String.ofList (w ++ q))).next = .ok (t, ⟨q, 1⟩) := by
    rw [ofText, String.toList_ofList]
    exact (hmatch.shorten hq).next 1
  rw [hcs] at hrest
  refine ⟨gap, w, hrest, hgap, hcs ▸ startsToken_of_skip hskip, hmatch, ⟨ht, 1, ?_⟩, ?_⟩
  · have halone := hread List.nil_prefix
    rwa [List.append_nil] at halone
  · rintro p u hp hlonger ⟨-, n, hu⟩
    obtain ⟨q, rfl⟩ :=
      List.prefix_of_prefix_length_le (List.prefix_append w s'.rest) hp hlonger.le
    cases (hread ((List.prefix_append_right_inj w).1 hp)).symm.trans hu
    simp at hlonger

/-- Of the operators that start with the same character the longest is taken, and not the digits
behind it. -/
theorem next_takes_longest_shift : next ⟨" /**/<<=1".toList, 1⟩ =
      .ok (⟨.leftAssign, .text "<<="⟩, ⟨['1'], 1⟩) ∧ Kind.leftAssign ≠ .eof ∧
    ∃ gap w, " /**/<<=1".toList = gap ++ (w ++ ['1']) ∧ Spacing gap ∧ StartsToken (w ++ ['1']) ∧
      LongestMatch w ['1'] ⟨.leftAssign, .text "<<="⟩ ∧
      Token.IsLexeme (String.ofList w) ⟨.leftAssign, .text "<<="⟩ ∧
      ∀ p u, p <+: w ++ ['1'] → w.length < p.length → ¬ Token.IsLexeme (String.ofList p) u := by
  have hnext : next ⟨" /**/<<=1".toList, 1⟩ =
      .ok (⟨.leftAssign, .text "<<="⟩, ⟨['1'], 1⟩) := by
    decide +kernel
  exact ⟨hnext, by decide, next_takes_longest hnext (by decide)⟩

end Source

/-! ## Texts of lexemes -/

def IsSeparator (s : String) : Prop :=
  (∃ c ∈ s.toList.head?, Text.isBlank c = true) ∧ Source.Spacing s.toList

def IsLastSeparator (s : String) : Prop :=
  (∃ c ∈ s.toList.head?, Text.isBlank c = true) ∧ Source.ClosingSpacing s.toList

namespace Stream

def spaced (ps : List (String × String)) : List Char :=
  ps.flatMap fun p => p.1.toList ++ p.2.toList

theorem of_spaced {ps : List (String × String)} {ts : List Token}
    (hps : List.Forall₂ (fun p t => Token.IsLexeme p.1 t) ps ts)
    (hseps : ∀ p ∈ ps.dropLast, IsSeparator p.2) (hlast : ∀ p ∈ ps.getLast?, IsLastSeparator p.2)
    {before : List Char} (hbefore : Source.Spacing before) (n : Nat) :
    ∃ u, Of ⟨before ++ spaced ps, n⟩ u ∧ u.tokens = .ok (ts ++ [Token.eof]) := by
  induction hps generalizing before n with
  | nil =>
    obtain ⟨m, hm⟩ := Source.next_closing (.inl hbefore) n
    rw [← List.append_nil before] at hm
    exact ⟨_, .done hm, rfl⟩
  | @cons p t ps ts hp _ ih =>
    -- the separator behind the lexeme is the last one or is spacing before the next lexeme
    have hrest : (∃ d ∈ p.2.toList.head?, Text.isBlank d = true) ∧
        ∀ m, ∃ u, Of ⟨p.2.toList ++ spaced ps, m⟩ u ∧ u.tokens = .ok (ts ++ [Token.eof]) := by
      cases ps with
      | nil =>
        obtain ⟨hstart, hclosing⟩ := hlast p rfl
        refine ⟨hstart, fun m => ?_⟩
        obtain ⟨k, hk⟩ := Source.next_closing hclosing m
        rw [← List.append_nil p.2.toList] at hk
        cases ‹List.Forall₂ _ [] ts›
        exact ⟨_, .done hk, rfl⟩
      | cons q ps =>
        obtain ⟨hstart, hspacing⟩ := hseps p List.mem_cons_self
        refine ⟨hstart, fun m => ih (fun r hr => ?_) hlast hspacing m⟩
        exact hseps r (List.mem_cons_of_mem _ hr)
    obtain ⟨⟨d, hd, hblank⟩, hrest⟩ := hrest
    obtain ⟨r, hr⟩ := List.head?_eq_some_iff.1 hd
    obtain ⟨k, hk⟩ := Source.next_spacing hbefore (spaced (p :: ps)) n
    obtain ⟨m, hm⟩ := Source.next_append hp hblank (r ++ spaced ps) k
    obtain ⟨u, hu, htokens⟩ := hrest m
    have hspaced : spaced (p :: ps) = p.1.toList ++ d :: (r ++ spaced ps) := by
      simp [spaced, hr]
    rw [hspaced] at hk
    rw [hr, List.cons_append] at hu
    rw [hspaced]
    exact ⟨_, .more (hk.trans hm) hp.1 hu, by rw [tokens_more, htokens]; rfl⟩

/-- A text of lexemes, each with a separator behind it, is read as the tokens of the lexemes. -/
theorem tokens_ofText_spaced {ps : List (String × String)} {ts : List Token}
    (hps : List.Forall₂ (fun p t => Token.IsLexeme p.1 t) ps ts)
    (hseps : ∀ p ∈ ps.dropLast, IsSeparator p.2) (hlast : ∀ p ∈ ps.getLast?, IsLastSeparator p.2) :
    (ofText (String.join (ps.map fun p => p.1 ++ p.2))).tokens = .ok (ts ++ [Token.eof]) := by
  obtain ⟨u, hu, htokens⟩ := of_spaced hps hseps hlast .nil 1
  have hchars : (String.join (ps.map fun p => p.1 ++ p.2)).toList = spaced ps := by
    simp [spaced, List.flatMap_map]
  have hof := ofText_of (String.join (ps.map fun p => p.1 ++ p.2))
  rw [Source.ofText, hchars] at hof
  rwa [hof.unique hu]

/-- A block comment, a line comment and a line comment that ends with the text. -/
theorem tokens_ofText_spaced_comments :
    (ofText (String.join ([("n", " /* 1 **/"), ("+=", "\t// 2\n"), ("'a'", " // 3")].map
      fun p => p.1 ++ p.2))).tokens =
      .ok [⟨.id, .text "n"⟩, ⟨.addAssign, .text "+="⟩, ⟨.charConst, .int 97⟩, Token.eof] := by
  have hlast : Source.ClosingSpacing " // 3".toList :=
    .inr ⟨[' '], [' ', '3'], .blank (by decide) .nil, by decide, rfl⟩
  have hblock : Source.Spacing " /* 1 **/".toList :=
    .blank (by decide) (@Source.Spacing.blockComment [' ', '1', ' ', '*'] _ (by decide) .nil)
  have hline : Source.Spacing "\t// 2\n".toList :=
    .blank (by decide) (@Source.Spacing.lineComment [' ', '2'] _ (by decide) .nil)
  refine @tokens_ofText_spaced _ [_, _, _] ?_ ?_ ?_
  · exact .cons ⟨by decide, 1, rfl⟩ (.cons ⟨by decide, 1, rfl⟩ (.cons ⟨by decide, 1, rfl⟩ .nil))
  · simp only [List.dropLast, List.forall_mem_cons]
    exact ⟨⟨⟨_, rfl, by decide⟩, hblock⟩, ⟨⟨_, rfl, by decide⟩, hline⟩, List.forall_mem_nil _⟩
  · rintro p ⟨⟩
    exact ⟨⟨_, rfl, by decide⟩, hlast⟩

end Stream

end MiniC
