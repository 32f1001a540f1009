import Mathlib.Data.List.TakeWhile
import MiniC.Token.Lexer

/-!
# Longest matches

`LongestMatch w rest t` says that at the start of the text `w ++ rest` there stands a token `t` which
takes `w`: the characters `w` are a word, a numeral, a literal or an operator that goes as far as it
can before `rest`. The lexer reads the longest match and nothing else. Since a match is only limited
by what follows it at once, it stays one if less of the text follows, or a blank.
-/

namespace MiniC

variable {c : Char} {cs : List Char} {t : Token}

/-! ## Blanks -/

namespace Text

/-- The code points that have the property of a table. -/
def pointsFrom (first : Nat) (has : Bool) : List Nat → List Nat
  | [] => []
  | length :: lengths =>
    (if has then List.range' first length else []) ++ pointsFrom (first + length) (!has) lengths

theorem mem_pointsFrom (first : Nat) {point : Nat} {has : Bool} {lengths : List Nat}
    (h : inRanges has lengths point = true) : first + point ∈ pointsFrom first has lengths := by
  induction lengths generalizing first point has with
  | nil => cases h
  | cons length lengths ih =>
    simp only [inRanges] at h
    rw [pointsFrom, List.mem_append]
    split at h
    · next hlt => simp [h, hlt]
    · next hle =>
      have hrest := ih (first + length) h
      rw [Nat.add_assoc, Nat.add_sub_cancel' (Nat.le_of_not_lt hle)] at hrest
      exact .inr hrest

def blankPoints : List Nat :=
  32 :: List.range' 9 5 ++ List.range' 28 4 ++
    pointsFrom 0 false blankTable

theorem mem_blankPoints (h : isBlank c = true) : c.toNat ∈ blankPoints := by
  simp only [isBlank] at h
  simp only [blankPoints, List.cons_append, List.mem_cons, List.mem_append, List.mem_range'_1]
  split at h
  · simp only [Bool.or_eq_true, Bool.and_eq_true, beq_iff_eq, decide_eq_true_eq] at h
    omega
  · have hpoint := mem_pointsFrom 0 h
    rw [Nat.zero_add] at hpoint
    exact .inr (.inr hpoint)

theorem isBlank_stops (h : isBlank c = true) : Source.isWordChar c = false ∧ isDigit c = false := by
  have hall : blankPoints.all (fun n =>
      !Source.isWordChar (Char.ofNat n) && !isDigit (Char.ofNat n)) = true := by
    decide +kernel
  have hc := List.all_eq_true.1 hall _ (mem_blankPoints h)
  simpa [Char.ofNat_toNat] using hc

theorem not_isBlank (hc : Source.isWordChar c = true ∨ isDigit c = true) : isBlank c = false := by
  cases hb : isBlank c with
  | false => rfl
  | true => simp [isBlank_stops hb] at hc

end Text

namespace Source

/-! ## Where a token starts -/

def StartsComment (cs : List Char) : Prop :=
  ['/', '/'] <+: cs ∨ ['/', '*'] <+: cs

theorem StartsComment.head (h : StartsComment (c :: cs)) : c = '/' := by
  obtain ⟨r, hr⟩ | ⟨r, hr⟩ := h
  · exact (List.cons.inj hr).1.symm
  · exact (List.cons.inj hr).1.symm

/-- What is behind blanks and comments starts neither of them. -/
theorem skip_head {g : Gap} {rest : List Char} {line n : Nat}
    (h : skip g cs line = .ok ⟨c :: rest, n⟩) :
    Text.isBlank c = false ∧ ¬ StartsComment (c :: rest) := by
  fun_induction skip g cs line with
  | case1 | case6 => cases h
  | case2 _ _ ih | case3 _ _ ih | case10 _ _ ih => exact ih h
  | case4 _ _ _ _ _ _ ih | case7 _ _ ih | case8 _ _ _ _ ih | case11 _ _ _ _ ih => exact ih h
  | case5 line c cs hline hblock hb =>
    cases h
    refine ⟨by simpa using hb, ?_⟩
    rintro (⟨r, hr⟩ | ⟨r, hr⟩)
    · cases hr
      exact hline r rfl rfl
    · cases hr
      exact hblock r rfl rfl
  | case9 => cases h

/-- Nothing is skipped before a character that is neither blank nor the start of a comment. -/
theorem skip_of_head (n : Nat) (hb : Text.isBlank c = false) (hc : ¬ StartsComment (c :: cs)) :
    skip .blanks (c :: cs) n = .ok ⟨c :: cs, n⟩ := by
  rw [skip.eq_def]
  split
  · next h => cases h
  · next h =>
    obtain ⟨rfl, rfl⟩ := List.cons.inj h
    exact absurd (.inl ⟨_, rfl⟩) hc
  · next h =>
    obtain ⟨rfl, rfl⟩ := List.cons.inj h
    exact absurd (.inr ⟨_, rfl⟩) hc
  · next h =>
    obtain ⟨rfl, rfl⟩ := List.cons.inj h
    simp [hb]
  all_goals contradiction

theorem next_of_start {rest : List Char} {n : Nat} (hb : Text.isBlank c = false)
    (hc : ¬ StartsComment (c :: cs)) (h : readToken c cs n = .ok (t, rest)) :
    next ⟨c :: cs, n⟩ = .ok (t, ⟨rest, n⟩) := by
  simp only [next, skip_of_head n hb hc, h]

/-! ## Matches -/

/-- Characters that are taken for a token, the characters behind them, and the token. -/
inductive LongestMatch : List Char → List Char → Token → Prop where
  | word {c : Char} {cs rest : List Char} (hl : Text.isLetter c = true)
      (hw : ∀ d ∈ c :: cs, isWordChar d = true) (hstop : ∀ d ∈ rest.head?, isWordChar d = false) :
      LongestMatch (c :: cs) rest (Token.ofWord (String.ofList (c :: cs)))
  | integer {c : Char} {cs rest : List Char} {n : Int} (hl : Text.isLetter c = false)
      (hd : ∀ d ∈ c :: cs, Text.isDigit d = true) (hn : Text.readInt (c :: cs) = some n)
      (hstop : ∀ d ∈ rest.head?, Text.isDigit d = false ∧ d ≠ '.') :
      LongestMatch (c :: cs) rest ⟨.integerConst, .int n⟩
  | real {c : Char} {cs fraction rest : List Char} {x : Float} (hl : Text.isLetter c = false)
      (hd : ∀ d ∈ c :: cs, Text.isDigit d = true) (hf : ∀ d ∈ fraction, Text.isDigit d = true)
      (hx : Text.readReal (c :: cs ++ '.' :: fraction) = some x)
      (hstop : ∀ d ∈ rest.head?, Text.isDigit d = false) :
      LongestMatch (c :: cs ++ '.' :: fraction) rest ⟨.realConst, .real x⟩
  | string {cs rest : List Char} (hq : '"' ∉ cs) :
      LongestMatch ('"' :: (cs ++ ['"'])) rest ⟨.string, .text (String.ofList (unescape cs))⟩
  | char (c : Char) {rest : List Char} :
      LongestMatch ['\'', c, '\''] rest ⟨.charConst, .int c.toNat⟩
  | newline {rest : List Char} :
      LongestMatch ['\'', '\\', 'n', '\''] rest ⟨.charConst, .int 10⟩
  | operator {o : Token.Operator} {rest : List Char} (ho : o ∈ Token.operators)
      (hcode : ¬ StartsComment (o.spelling ++ rest))
      (hlong : ∀ p ∈ Token.operators, p.spelling <+: o.spelling ++ rest →
        p.spelling.length ≤ o.spelling.length) :
      LongestMatch o.spelling rest ⟨o.kind, .text o.value⟩

/-! ## What is read is the longest match -/

theorem readNumber_matches {rest : List Char} (hl : Text.isLetter c = false)
    (hc : Text.isDigit c = true) (h : readNumber (c :: cs) = .ok (t, rest)) :
    ∃ w, c :: cs = w ++ rest ∧ LongestMatch w rest t := by
  have hd : ∀ d ∈ c :: cs.takeWhile Text.isDigit, Text.isDigit d = true :=
    List.forall_mem_cons.2 ⟨hc, fun d => List.mem_takeWhile_imp⟩
  have hstop (cs : List Char) : ∀ d ∈ (cs.dropWhile Text.isDigit).head?, Text.isDigit d = false := by
    intro d hd
    have hstop := List.head?_dropWhile_not Text.isDigit cs
    rwa [hd] at hstop
  have happ : cs.takeWhile Text.isDigit ++ cs.dropWhile Text.isDigit = cs :=
    List.takeWhile_append_dropWhile
  simp only [readNumber, List.takeWhile_cons_of_pos hc, List.dropWhile_cons_of_pos hc] at h
  split at h
  · next r hr =>
    split at h
    · next x hx =>
      obtain ⟨rfl, rfl⟩ := Prod.mk.inj (Except.ok.inj h)
      refine ⟨_, ?_, .real hl hd (fun d => List.mem_takeWhile_imp) hx (hstop r)⟩
      rw [List.append_assoc, List.cons_append, List.cons_append, List.takeWhile_append_dropWhile,
        ← hr, happ]
    · cases h
  · next hpoint =>
    split at h
    · next n hn =>
      obtain ⟨rfl, rfl⟩ := Prod.mk.inj (Except.ok.inj h)
      refine ⟨_, by rw [List.cons_append, happ], .integer hl hd hn fun d hd => ⟨hstop cs d hd, ?_⟩⟩
      rintro rfl
      obtain ⟨r, hr⟩ := List.head?_eq_some_iff.1 hd
      exact hpoint r hr
    · cases h

theorem readString_matches {rest : List Char} {n : Nat} (h : readString cs n = .ok (t, rest)) :
    ∃ w, '"' :: cs = w ++ rest ∧ LongestMatch w rest t := by
  unfold readString at h
  split at h
  · cases h
  · next q r hr =>
    obtain ⟨rfl, rfl⟩ := Prod.mk.inj (Except.ok.inj h)
    have hquote := List.head?_dropWhile_not (· != '"') cs
    rw [hr] at hquote
    obtain rfl : q = '"' := by simpa using hquote
    refine ⟨_, ?_, .string fun hm => absurd (List.mem_takeWhile_imp hm) (by decide)⟩
    rw [List.cons_append, List.append_assoc, List.singleton_append, ← hr,
      List.takeWhile_append_dropWhile]

theorem readChar_matches {rest : List Char} {n : Nat} (h : readChar cs n = .ok (t, rest)) :
    ∃ w, '\'' :: cs = w ++ rest ∧ LongestMatch w rest t := by
  unfold readChar at h
  split at h
  · obtain ⟨rfl, rfl⟩ := Prod.mk.inj (Except.ok.inj h)
    exact ⟨_, rfl, .newline⟩
  · cases h
  · next c _ =>
    obtain ⟨rfl, rfl⟩ := Prod.mk.inj (Except.ok.inj h)
    exact ⟨_, rfl, .char c⟩
  · cases h

theorem operators_descending :
    Token.operators.Pairwise fun a b => b.spelling.length ≤ a.spelling.length := by decide

/-- No operator that the characters start with is longer than the one that is found. -/
theorem find?_longest {o p : Token.Operator}
    (h : (Token.operators.find? fun o => o.spelling.isPrefixOf cs) = some o)
    (hp : p ∈ Token.operators) (hcs : p.spelling <+: cs) :
    p.spelling.length ≤ o.spelling.length := by
  obtain ⟨-, before, behind, hops, hbefore⟩ := List.find?_eq_some_iff_append.1 h
  have hsorted := operators_descending
  rw [hops] at hp hsorted
  obtain hp | hp := List.mem_append.1 hp
  · have hnot := hbefore p hp
    simp [List.isPrefixOf_iff_prefix.2 hcs] at hnot
  · obtain rfl | hp := List.mem_cons.1 hp
    · exact Nat.le_refl _
    · exact List.rel_of_pairwise_cons (List.pairwise_append.1 hsorted).2.1 hp

theorem readOperator_matches {rest : List Char} {n : Nat} (hcode : ¬ StartsComment (c :: cs))
    (h : readOperator c cs n = .ok (t, rest)) :
    ∃ w, c :: cs = w ++ rest ∧ LongestMatch w rest t := by
  unfold readOperator at h
  split at h
  · next o ho =>
    obtain ⟨rfl, rfl⟩ := Prod.mk.inj (Except.ok.inj h)
    have hfound := List.find?_some ho
    obtain ⟨r, hr⟩ := List.isPrefixOf_iff_prefix.1 hfound
    rw [← hr] at ho hcode ⊢
    rw [List.drop_left]
    exact ⟨_, rfl, .operator (List.mem_of_find?_eq_some ho) hcode fun p hp => find?_longest ho hp⟩
  · cases h

/-- A token that is read where no comment starts is the longest match there. -/
theorem readToken_matches {rest : List Char} {n : Nat} (hcode : ¬ StartsComment (c :: cs))
    (h : readToken c cs n = .ok (t, rest)) : ∃ w, c :: cs = w ++ rest ∧ LongestMatch w rest t := by
  unfold readToken at h
  split at h
  · next hl =>
    obtain ⟨rfl, rfl⟩ := Prod.mk.inj (Except.ok.inj h)
    have hw : isWordChar c = true := by simp [isWordChar, Text.isAlphanumeric, hl]
    rw [List.takeWhile_cons_of_pos hw]
    refine ⟨c :: cs.takeWhile isWordChar, ?_, .word hl ?_ fun d hd => ?_⟩
    · rw [List.dropWhile_cons_of_pos hw, List.cons_append, List.takeWhile_append_dropWhile]
    · exact List.forall_mem_cons.2 ⟨hw, fun d => List.mem_takeWhile_imp⟩
    · have hstop := List.head?_dropWhile_not isWordChar (c :: cs)
      rwa [hd] at hstop
  next hl =>
  split at h
  · next hd => exact readNumber_matches (by simpa using hl) hd h
  split at h
  · next hc =>
    obtain rfl := hc
    exact readString_matches h
  split at h
  · next hc =>
    obtain rfl := hc
    exact readChar_matches h
  · exact readOperator_matches hcode h

/-! ## The longest match is read -/

/-- A run of characters ends before what starts with none of them. -/
theorem takeWhile_append_of_stop {p : Char → Bool} {rest : List Char} (h : ∀ c ∈ cs, p c = true)
    (hrest : ∀ d ∈ rest.head?, p d = false) :
    (cs ++ rest).takeWhile p = cs ∧ (cs ++ rest).dropWhile p = rest := by
  rw [List.takeWhile_append_of_pos h, List.dropWhile_append_of_pos h]
  cases rest with
  | nil => simp
  | cons d rest => simp [hrest d rfl]

/-- The first characters of an operator are taken for nothing else. -/
theorem operators_start : ∀ o ∈ Token.operators, ∃ c ∈ o.spelling.head?,
    Text.isBlank c = false ∧ Text.isLetter c = false ∧ Text.isDigit c = false ∧ c ≠ '"' ∧
    c ≠ '\'' := by
  -- the head is looked at, so that no instance that goes through all characters is taken
  have hall : Token.operators.all (fun o => o.spelling.head?.any fun c =>
      decide (Text.isBlank c = false ∧ Text.isLetter c = false ∧ Text.isDigit c = false ∧ c ≠ '"' ∧
        c ≠ '\'')) = true := by
    decide +kernel
  intro o ho
  obtain ⟨c, hc, hstart⟩ := (Option.any_eq_true ..).1 (List.all_eq_true.1 hall o ho)
  exact ⟨c, hc, of_decide_eq_true hstart⟩

theorem operators_inj : ∀ o ∈ Token.operators, ∀ p ∈ Token.operators, o.spelling = p.spelling →
    o.kind = p.kind ∧ o.value = p.value := by
  decide +kernel

theorem readOperator_of_longest {o : Token.Operator} {rest : List Char} (ho : o ∈ Token.operators)
    (hcs : o.spelling = c :: cs) (n : Nat)
    (hlong : ∀ p ∈ Token.operators, p.spelling <+: o.spelling ++ rest →
      p.spelling.length ≤ o.spelling.length) :
    readOperator c (cs ++ rest) n = .ok (⟨o.kind, .text o.value⟩, rest) := by
  have hstart : o.spelling <+: c :: (cs ++ rest) := by
    rw [hcs]
    exact List.prefix_append (c :: cs) rest
  rw [readOperator]
  split
  · next p hp =>
    have hmem := List.mem_of_find?_eq_some hp
    have hfound := List.find?_some hp
    have hpre := List.isPrefixOf_iff_prefix.1 hfound
    -- both start the characters, and neither is longer than the other
    have hle : p.spelling.length ≤ o.spelling.length := hlong p hmem (by rwa [hcs])
    have hsame : o.spelling = p.spelling :=
      (List.prefix_of_prefix_length_le hstart hpre (find?_longest hp ho hstart)).eq_of_length
        (Nat.le_antisymm (find?_longest hp ho hstart) hle)
    obtain ⟨hkind, hvalue⟩ := operators_inj o ho p hmem hsame
    simp [← hsame, hcs, hkind, hvalue]
  · next hnone =>
    have hnot := List.find?_eq_none.1 hnone o ho
    exact absurd (List.isPrefixOf_iff_prefix.2 hstart) hnot

theorem ofWord_kind (w : String) : (Token.ofWord w).kind ≠ .eof := by
  have hk : ∀ p ∈ Token.keywords, p.2 ≠ .eof := by decide
  unfold Token.ofWord
  cases hl : Token.keywords.lookup w with
  | none => simp
  | some k =>
    obtain ⟨p, q, hpq, -⟩ := List.lookup_eq_some_iff.1 hl
    exact hk (w, k) (by rw [hpq]; simp)

namespace LongestMatch

variable {w rest : List Char} {t : Token}

theorem next (h : LongestMatch w rest t) (n : Nat) : next ⟨w ++ rest, n⟩ = .ok (t, ⟨rest, n⟩) := by
  -- letters and digits start no comment
  have hslash {c : Char} {cs : List Char} (hc : Text.isLetter c = true ∨ Text.isDigit c = true) :
      ¬ StartsComment (c :: cs) := by
    intro h
    obtain rfl := h.head
    exact absurd hc (by decide)
  cases h with
  | @word c cs _ hl hw hstop =>
    rw [List.cons_append]
    refine next_of_start (Text.not_isBlank (.inl (hw c List.mem_cons_self))) (hslash (.inl hl)) ?_
    obtain ⟨htake, hdrop⟩ := takeWhile_append_of_stop hw hstop
    rw [List.cons_append] at htake hdrop
    simp only [readToken, hl, if_true, htake, hdrop]
  | @integer c cs _ i hl hd hn hstop =>
    have hc := hd c List.mem_cons_self
    rw [List.cons_append]
    refine next_of_start (Text.not_isBlank (.inr hc)) (hslash (.inr hc)) ?_
    obtain ⟨htake, hdrop⟩ := takeWhile_append_of_stop hd fun d hd => (hstop d hd).1
    rw [List.cons_append] at htake hdrop
    simp only [readToken, hl, hc, Bool.false_eq_true, if_false, if_true, readNumber, htake, hdrop, hn]
    split
    · exact absurd rfl (hstop _ rfl).2
    · rfl
  | @real c cs fraction _ x hl hd hf hx hstop =>
    have hc := hd c List.mem_cons_self
    have hpoint : ∀ d ∈ ('.' :: (fraction ++ rest)).head?, Text.isDigit d = false := by
      rintro d ⟨⟩
      decide
    obtain ⟨htake, hdrop⟩ := takeWhile_append_of_stop hd hpoint
    obtain ⟨htake', hdrop'⟩ := takeWhile_append_of_stop hf hstop
    rw [List.append_assoc, List.cons_append, List.cons_append]
    refine next_of_start (Text.not_isBlank (.inr hc)) (hslash (.inr hc)) ?_
    rw [List.cons_append] at htake hdrop hx
    simp only [readToken, hl, hc, Bool.false_eq_true, if_false, if_true, readNumber, htake, hdrop,
      htake', hdrop', List.cons_append, hx]
  | @string cs _ hq =>
    have hall : ∀ c ∈ cs, (c != '"') = true := by
      intro c hc
      simpa using fun h : c = '"' => hq (h ▸ hc)
    have hstop : ∀ d ∈ ('"' :: rest).head?, (d != '"') = false := by
      rintro d ⟨⟩
      rfl
    obtain ⟨htake, hdrop⟩ := takeWhile_append_of_stop hall hstop
    rw [List.cons_append, List.append_assoc, List.singleton_append]
    refine next_of_start (by decide) (fun h => absurd h.head (by decide)) ?_
    have hletter : Text.isLetter '"' = false := by decide
    have hdigit : Text.isDigit '"' = false := by decide
    simp only [readToken, hletter, hdigit, Bool.false_eq_true, if_false, if_true, readString, htake,
      hdrop]
  | char c =>
    refine next_of_start (by decide) (fun h => absurd h.head (by decide)) ?_
    change readChar (c :: '\'' :: rest) n = _
    simp [readChar]
  | newline => rfl
  | @operator o _ ho hcode hlong =>
    obtain ⟨c, hc, hblank, hletter, hdigit, hquote, htick⟩ := operators_start o ho
    obtain ⟨cs, hcs⟩ := List.head?_eq_some_iff.1 hc
    have hread := readOperator_of_longest ho hcs n hlong
    rw [hcs, List.cons_append] at hcode ⊢
    refine next_of_start hblank hcode ?_
    simpa only [readToken, hletter, hdigit, hquote, htick, Bool.false_eq_true, if_false] using hread

/-- A match takes characters, and is not the end of the text. -/
theorem kind_ne_eof (h : LongestMatch w rest t) : t.kind ≠ .eof ∧ w ≠ [] := by
  cases h with
  | word => exact ⟨ofWord_kind _, List.cons_ne_nil _ _⟩
  | operator ho =>
    have hops : ∀ o ∈ Token.operators, o.kind ≠ .eof ∧ o.spelling ≠ [] := by decide
    exact hops _ ho
  | integer | real | string | char | newline => simp

theorem shorten (h : LongestMatch w rest t) {q : List Char} (hq : q <+: rest) :
    LongestMatch w q t := by
  have hhead : ∀ d ∈ q.head?, d ∈ rest.head? := by
    intro d hd
    obtain ⟨r, rfl⟩ := List.head?_eq_some_iff.1 hd
    obtain ⟨s, rfl⟩ := hq
    rfl
  cases h with
  | word hl hw hstop => exact .word hl hw fun d hd => hstop d (hhead d hd)
  | integer hl hd hn hstop => exact .integer hl hd hn fun d hd => hstop d (hhead d hd)
  | real hl hd hf hx hstop => exact .real hl hd hf hx fun d hd => hstop d (hhead d hd)
  | string hs => exact .string hs
  | char c => exact .char c
  | newline => exact .newline
  | @operator o _ ho hcode hlong =>
    have hpre : o.spelling ++ q <+: o.spelling ++ rest := (List.prefix_append_right_inj _).2 hq
    exact .operator ho (fun h => hcode (h.imp (·.trans hpre) (·.trans hpre)))
      fun p hp h => hlong p hp (h.trans hpre)

/-- A match at the end of a text stays one if a blank follows. -/
theorem before_blank (h : LongestMatch w [] t) {d : Char} (hd : Text.isBlank d = true)
    (rest : List Char) : LongestMatch w (d :: rest) t := by
  obtain ⟨hword, hdigit⟩ := Text.isBlank_stops hd
  have hpoint : d ≠ '.' := by
    rintro rfl
    exact absurd hd (by decide)
  -- a start that reaches beyond the match holds the blank
  have hwithin {l : List Char} (hl : l.all (!Text.isBlank ·) = true) (hp : l <+: w ++ d :: rest) :
      l <+: w := by
    obtain h | ⟨r, hr⟩ := List.prefix_or_prefix_of_prefix hp (List.prefix_append w _)
    · exact h
    · rw [← hr] at hp hl
      cases r with
      | nil => simp [← hr]
      | cons e r =>
        obtain ⟨s, hs⟩ := (List.prefix_append_right_inj w).1 hp
        obtain rfl := (List.cons.inj hs).1
        simp [hd] at hl
  cases h with
  | word hl hw => exact .word hl hw (by rintro e ⟨⟩; exact hword)
  | integer hl hds hn => exact .integer hl hds hn (by rintro e ⟨⟩; exact ⟨hdigit, hpoint⟩)
  | real hl hds hf hx => exact .real hl hds hf hx (by rintro e ⟨⟩; exact hdigit)
  | string hq => exact .string hq
  | char c => exact .char c
  | newline => exact .newline
  | operator ho hcode =>
    rw [List.append_nil] at hcode
    refine .operator ho (fun h => hcode (h.imp (hwithin (by decide)) (hwithin (by decide)))) ?_
    have hops : Token.operators.all (fun p => p.spelling.all (!Text.isBlank ·)) = true := by decide
    exact fun p hp h => (hwithin (List.all_eq_true.1 hops p hp) h).length_le

end LongestMatch

/-- A call skips what stands before a token and takes the longest match, unless it comes to the end
of the text. -/
theorem next_cases {s s' : Source} (h : s.next = .ok (t, s')) :
    (t = Token.eof ∧ s'.rest = [] ∧ skip .blanks s.rest s.line = .ok s') ∨
    ∃ w c cs, skip .blanks s.rest s.line = .ok ⟨c :: cs, s'.line⟩ ∧ c :: cs = w ++ s'.rest ∧
      LongestMatch w s'.rest t := by
  unfold Source.next at h
  split at h
  · cases h
  · next n hskip =>
    obtain ⟨rfl, rfl⟩ := Prod.mk.inj (Except.ok.inj h)
    exact .inl ⟨rfl, rfl, hskip⟩
  · next c cs n hskip =>
    split at h
    · cases h
    · next u rest hread =>
      obtain ⟨rfl, rfl⟩ := Prod.mk.inj (Except.ok.inj h)
      obtain ⟨w, hw, hmatch⟩ := readToken_matches (skip_head hskip).2 hread
      exact .inr ⟨w, c, cs, hskip, hw, hmatch⟩

end Source

end MiniC
