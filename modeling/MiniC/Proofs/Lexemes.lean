import Mathlib.Tactic.IntervalCases
import MiniC.Proofs.Lexing

/-!
# Spellings of tokens

Every token that some text is read as has a spelling, which is read as that token whenever a space
follows it. The spelling of a real is left open, since a real has many numerals: it may be any
numeral that is read as the real. A list of tokens is written with a space before each of them, and
the stream of what is written is the list.
-/

namespace MiniC

def Token.Lexed (t : Token) : Prop :=
  ∃ s s' : Source, s.next = .ok (t, s')

/-- With a space behind them, the characters are read as the token. -/
def Token.ReadsAs (cs : List Char) (t : Token) : Prop :=
  ∀ (rest : List Char) (n : Nat),
    Source.next ⟨cs ++ ' ' :: rest, n⟩ = .ok (t, ⟨' ' :: rest, n⟩)

def Token.spelling (numeral : Float → List Char) (t : Token) : List Char :=
  match t.value with
  | .int n =>
    if t.kind = .charConst then ['\'', Char.ofNat n.toNat, '\''] else Nat.toDigits 10 n.toNat
  | .real x => numeral x
  | .text s =>
    if t.kind = .string then '"' :: (s.toList ++ ['"'])
    else ((operators.find? (·.kind == t.kind)).map (·.spelling)).getD s.toList
  | _ => []

namespace Source

theorem skip_space (cs : List Char) (n : Nat) :
    skip .blanks (' ' :: cs) n = skip .blanks cs n := by
  rw [skip]
  · simp [Text.isBlank, nextLine]
  · exact fun _ h => absurd h (by decide)
  · exact fun _ h => absurd h (by decide)

theorem next_space (cs : List Char) (n : Nat) : next ⟨' ' :: cs, n⟩ = next ⟨cs, n⟩ := by
  simp only [next, skip_space]

/-- A match with nothing behind it is read with a space behind it. -/
theorem LongestMatch.readsAs {w : List Char} {t : Token} (h : LongestMatch w [] t) :
    Token.ReadsAs w t :=
  fun rest n => (h.before_blank (by decide) rest).next n

theorem word_readsAs {c : Char} {cs : List Char} (hl : Text.isLetter c = true)
    (hw : ∀ d ∈ c :: cs, isWordChar d = true) :
    Token.ReadsAs (c :: cs) (Token.ofWord (String.ofList (c :: cs))) :=
  (LongestMatch.word hl hw (by simp)).readsAs

theorem operator_readsAs {o : Token.Operator} (ho : o ∈ Token.operators) :
    Token.ReadsAs o.spelling ⟨o.kind, .text o.value⟩ := by
  have hcode : ∀ o ∈ Token.operators,
      ¬ (['/', '/'] <+: o.spelling ++ [] ∨ ['/', '*'] <+: o.spelling ++ []) := by decide
  refine (LongestMatch.operator ho (hcode o ho) fun p _ h => ?_).readsAs
  rw [List.append_nil] at h
  exact h.length_le

end Source

namespace Text

theorem isPlainDigit_iff {c : Char} : isPlainDigit c = true ↔ 48 ≤ c.toNat ∧ c.toNat ≤ 57 := by
  simp only [isPlainDigit, Bool.and_eq_true, decide_eq_true_eq]
  exact Iff.rfl

theorem isPlainDigit_of_mem_toDigits {n : Nat} {c : Char} (hc : c ∈ Nat.toDigits 10 n) :
    isPlainDigit c = true := by
  have hd := Nat.isDigit_of_mem_toDigits (by decide) (by decide) hc
  simpa [isPlainDigit, Char.isDigit, Char.le_def] using hd

/-- A plain digit is none of the characters that are treated in another way. -/
theorem isBlank_of_isPlainDigit {c : Char} (hc : isPlainDigit c = true) : isBlank c = false := by
  obtain ⟨hlo, hhi⟩ := isPlainDigit_iff.1 hc
  have hlt : c.toNat < 128 := by omega
  simp only [isBlank, hlt, if_true, Bool.or_eq_false_iff, Bool.and_eq_false_iff,
    beq_eq_false_iff_ne, decide_eq_false_iff_not]
  omega

theorem isLetter_of_isPlainDigit {c : Char} (hc : isPlainDigit c = true) : isLetter c = false := by
  obtain ⟨hlo, hhi⟩ := isPlainDigit_iff.1 hc
  have hlt : c.toNat < 128 := by omega
  simp only [isLetter, hlt, if_true, Bool.or_eq_false_iff, Bool.and_eq_false_iff,
    decide_eq_false_iff_not]
  omega

theorem isDigit_of_isPlainDigit {c : Char} (hc : isPlainDigit c = true) : isDigit c = true := by
  obtain ⟨hlo, hhi⟩ := isPlainDigit_iff.1 hc
  have hlt : c.toNat < 128 := by omega
  simp [isDigit, hlt, hlo, hhi]

theorem plainDigit_of_isPlainDigit {c : Char} (hc : isPlainDigit c = true) : plainDigit c = c := by
  obtain ⟨hlo, hhi⟩ := isPlainDigit_iff.1 hc
  have hlt : c.toNat < 128 := by omega
  have hadd : 48 + (c.toNat - 48) = c.toNat := by omega
  simp [plainDigit, decimalValue?, hlt, hlo, hhi, hadd]

theorem trimMargin_of_plain {ds : List Char} (hd : ∀ c ∈ ds, isPlainDigit c = true) :
    trimMargin ds = ds := by
  have hdrop {cs : List Char} (hcs : ∀ c ∈ cs, isPlainDigit c = true) :
      cs.dropWhile isMargin = cs := by
    cases cs with
    | nil => rfl
    | cons c cs =>
      have hb := isBlank_of_isPlainDigit (hcs c List.mem_cons_self)
      exact List.dropWhile_cons_of_neg (by simp [isMargin, hb])
  have hrev : ∀ c ∈ ds.reverse, isPlainDigit c = true := fun c hc => hd c (List.mem_reverse.1 hc)
  rw [trimMargin, hdrop hd, hdrop hrev, List.reverse_reverse]

theorem dropUnderscores_of_plain {ds : List Char} (hd : ∀ c ∈ ds, isPlainDigit c = true) :
    dropUnderscores ds = some ds := by
  have hne {c : Char} (hc : isPlainDigit c = true) : c ≠ '_' := by
    rintro rfl
    exact absurd hc (by decide)
  induction ds with
  | nil => rfl
  | cons c cs ih =>
    obtain ⟨hc, hcs⟩ := List.forall_mem_cons.1 hd
    rw [dropUnderscores.eq_def]
    split
    · next h => cases h
    · next h =>
      obtain ⟨rfl, rfl⟩ := List.cons.inj h
      exact absurd rfl (hne (hcs _ List.mem_cons_self))
    · next h =>
      obtain ⟨rfl, rfl⟩ := List.cons.inj h
      simp [hne hc, ih hcs]

theorem readInt_of_plain {ds : List Char} (hd : ∀ c ∈ ds, isPlainDigit c = true)
    (hne : ds ≠ []) (hlen : ds.length ≤ maxDigits) : readInt ds = some (digitsValue ds : Int) := by
  have hmap : ds.map plainDigit = ds :=
    (List.map_congr_left fun c hc => plainDigit_of_isPlainDigit (hd c hc)).trans (List.map_id' ds)
  have hnormal : normalNumeral ds = some ds := by
    rw [normalNumeral, trimMargin_of_plain hd, hmap, dropUnderscores_of_plain hd]
  have hsign : splitSign ds = (false, ds) := by
    unfold splitSign
    split
    · exact absurd (hd _ List.mem_cons_self) (by decide)
    · exact absurd (hd _ List.mem_cons_self) (by decide)
    · rfl
  have hempty : ds.isEmpty = false := by simpa using hne
  have hall : ds.all isPlainDigit = true := List.all_eq_true.2 hd
  have hlen : decide (maxDigits < ds.length) = false := decide_eq_false (Nat.not_lt.2 hlen)
  simp only [readInt, hnormal, hsign, hempty, hall, hlen, Decimal.signed, Option.bind_eq_bind,
    Option.bind_some, Bool.not_true, Bool.or_self, Bool.false_eq_true, if_false]

theorem digitsValue_lt (ds : List Char) (hd : ∀ c ∈ ds, isPlainDigit c = true) :
    digitsValue ds < 10 ^ ds.length := by
  have hfold (n : Nat) : ∀ cs : List Char, (∀ c ∈ cs, isPlainDigit c = true) →
      cs.foldl (fun n c => 10 * n + (c.toNat - 48)) n < (n + 1) * 10 ^ cs.length := by
    intro cs
    induction cs generalizing n with
    | nil => simp
    | cons c cs ih =>
      intro hcs
      obtain ⟨hc, hcs⟩ := List.forall_mem_cons.1 hcs
      have hstep := ih (10 * n + (c.toNat - 48)) hcs
      have hle : 10 * n + (c.toNat - 48) + 1 ≤ (n + 1) * 10 := by
        have := (isPlainDigit_iff.1 hc).2
        omega
      calc
        _ < (10 * n + (c.toNat - 48) + 1) * 10 ^ cs.length := hstep
        _ ≤ (n + 1) * 10 * 10 ^ cs.length := Nat.mul_le_mul_right _ hle
        _ = (n + 1) * 10 ^ (c :: cs).length := by
          rw [List.length_cons, Nat.pow_succ', Nat.mul_assoc]
  simpa [digitsValue] using hfold 0 ds hd

theorem mem_of_dropUnderscores {cs ds : List Char} (h : dropUnderscores cs = some ds) :
    ∀ c ∈ ds, c ∈ cs := by
  fun_induction dropUnderscores cs generalizing ds with
  | case1 =>
    obtain rfl := Option.some.inj h
    exact fun c hc => hc
  | case2 d e cs hd ih =>
    obtain ⟨es, hes, rfl⟩ := Option.map_eq_some_iff.1 h
    intro c hc
    have hmem := ih hes c
    simp only [List.mem_cons] at hc hmem ⊢
    tauto
  | case3 | case4 => cases h
  | case5 c cs _ _ ih =>
    obtain ⟨es, hes, rfl⟩ := Option.map_eq_some_iff.1 h
    have hrest : ∀ d ∈ es, d ∈ c :: cs := fun d hd => List.mem_cons_of_mem _ (ih hes d hd)
    exact List.forall_mem_cons.2 ⟨List.mem_cons_self, hrest⟩

theorem mem_of_trimMargin {cs : List Char} {c : Char} (h : c ∈ trimMargin cs) : c ∈ cs := by
  have hrev := (List.dropWhile_suffix _).mem (List.mem_reverse.1 h)
  exact (List.dropWhile_suffix _).mem (List.mem_reverse.1 hrev)

/-- The value of a decimal digit is below ten. -/
theorem decimalValue?_lt {c : Char} {d : Nat} (h : decimalValue? c = some d) : d < 10 := by
  simp only [decimalValue?] at h
  split at h
  · split at h
    · next hc =>
      simp only [Bool.and_eq_true, decide_eq_true_eq] at hc
      obtain rfl := Option.some.inj h
      omega
    · cases h
  · obtain ⟨z, hz, rfl⟩ := Option.map_eq_some_iff.1 h
    have hfound := Array.find?_some hz
    simp only [Bool.and_eq_true, decide_eq_true_eq] at hfound
    omega

theorem plainDigit_ne_minus {c : Char} (hc : isDigit c = true) : plainDigit c ≠ '-' := by
  unfold plainDigit
  split
  · next d hd =>
    have hlt := decimalValue?_lt hd
    interval_cases d <;> decide
  · rintro rfl
    exact absurd hc (by decide)

/-- What digits are read as is a natural number with few digits. -/
theorem readInt_bounds {ds : List Char} {n : Int} (hd : ∀ c ∈ ds, isDigit c = true)
    (h : readInt ds = some n) : ∃ m : Nat, n = m ∧ m < 10 ^ maxDigits := by
  unfold readInt at h
  cases hn : normalNumeral ds with
  | none => simp [hn] at h
  | some cs =>
    have hsign : splitSign cs = (false, (splitSign cs).2) := by
      unfold splitSign
      split
      · have hm := mem_of_dropUnderscores hn '-' List.mem_cons_self
        obtain ⟨c, hc, hp⟩ := List.mem_map.1 hm
        exact absurd hp (plainDigit_ne_minus (hd c (mem_of_trimMargin hc)))
      · rfl
      · rfl
    simp only [hn, Option.bind_eq_bind, Option.bind_some] at h
    rw [hsign] at h
    simp only at h
    split at h
    · cases h
    · next hok =>
      simp only [Bool.or_eq_true, Bool.not_eq_true', decide_eq_true_eq, not_or,
        Bool.not_eq_false] at hok
      obtain rfl := Option.some.inj h
      refine ⟨digitsValue (splitSign cs).2, rfl, ?_⟩
      have hlt := digitsValue_lt _ (List.all_eq_true.1 hok.1.2)
      exact hlt.trans_le (Nat.pow_le_pow_right (by decide) (Nat.not_lt.1 hok.2))

/-- The decimal digits of a natural number are read as it. -/
theorem readInt_toDigits {m : Nat} (h : m < 10 ^ maxDigits) :
    readInt (Nat.toDigits 10 m) = some (m : Int) := by
  have hlen : (Nat.toDigits 10 m).length ≤ maxDigits :=
    (Nat.length_toDigits_le_iff (by decide) (by decide)).2 h
  have hvalue : digitsValue (Nat.toDigits 10 m) = m := Nat.ofDigitChars_ten_toDigits
  rw [readInt_of_plain (fun c => isPlainDigit_of_mem_toDigits) Nat.toDigits_ne_nil hlen, hvalue]

end Text

namespace Source

/-! ## The kinds of lexemes -/

theorem integer_readsAs {m : Nat} (h : m < 10 ^ Text.maxDigits) :
    Token.ReadsAs (Nat.toDigits 10 m) ⟨.integerConst, .int m⟩ := by
  have hplain : ∀ c ∈ Nat.toDigits 10 m, Text.isPlainDigit c = true :=
    fun c => Text.isPlainDigit_of_mem_toDigits
  have hread := Text.readInt_toDigits h
  cases hd : Nat.toDigits 10 m with
  | nil => exact absurd hd Nat.toDigits_ne_nil
  | cons c cs =>
    rw [hd] at hplain hread
    have hdigits := fun d hd => Text.isDigit_of_isPlainDigit (hplain d hd)
    have hletter := Text.isLetter_of_isPlainDigit (hplain c List.mem_cons_self)
    exact (LongestMatch.integer hletter hdigits hread (by simp)).readsAs

theorem mem_unescape {c : Char} {cs : List Char} (h : c ∈ unescape cs) : c ∈ cs ∨ c = '\n' := by
  fun_induction unescape cs with
  | case1 => cases h
  | case2 cs ih =>
    obtain rfl | h := List.mem_cons.1 h
    · exact .inr rfl
    · exact (ih h).imp_left fun h => List.mem_cons_of_mem _ (List.mem_cons_of_mem _ h)
  | case3 d cs _ ih =>
    obtain rfl | h := List.mem_cons.1 h
    · exact .inl List.mem_cons_self
    · exact (ih h).imp_left (List.mem_cons_of_mem _)

/-- No escape is left: a backslash that stays has no `n` behind it, before and after. -/
theorem unescape_unescape (cs : List Char) : unescape (unescape cs) = unescape cs := by
  have hcons {c : Char} {ds : List Char} (h : ∀ es, c = '\\' → ds ≠ 'n' :: es) :
      unescape (c :: ds) = c :: unescape ds := by
    rw [unescape]
    rintro es rfl rfl
    exact h es rfl rfl
  fun_induction unescape cs with
  | case1 => rfl
  | case2 cs ih => rw [hcons fun es h => absurd h (by decide), ih]
  | case3 c cs hne ih =>
    rw [hcons, ih]
    rintro es rfl hes
    -- what follows the backslash after the step followed it before
    cases cs with
    | nil => cases hes
    | cons d ds =>
      rw [unescape.eq_def] at hes
      split at hes
      · cases hes
      · cases hes
      · next h =>
        obtain ⟨rfl, rfl⟩ := List.cons.inj h
        obtain ⟨rfl, -⟩ := List.cons.inj hes
        exact hne _ rfl rfl

theorem spelling_ofWord (numeral : Float → List Char) (w : String) :
    (Token.ofWord w).spelling numeral = w.toList := by
  have hwords : ∀ k ∈ Kind.id :: Token.keywords.map Prod.snd, k ≠ .string ∧
      (Token.operators.find? (·.kind == k)).isNone = true := by decide +kernel
  have hkind : (Token.keywords.lookup w).getD .id ∈ Kind.id :: Token.keywords.map Prod.snd := by
    cases hl : Token.keywords.lookup w with
    | none => simp
    | some k =>
      obtain ⟨p, q, hpq, -⟩ := List.lookup_eq_some_iff.1 hl
      simp [hpq]
  obtain ⟨hstring, hfind⟩ := hwords _ hkind
  simp [Token.spelling, Token.ofWord, hstring, Option.isNone_iff_eq_none.1 hfind]

theorem spelling_operator (numeral : Float → List Char) {o : Token.Operator}
    (ho : o ∈ Token.operators) :
    Token.spelling numeral ⟨o.kind, .text o.value⟩ = o.spelling := by
  have htable : ∀ o ∈ Token.operators, o.kind ≠ .string ∧
      (Token.operators.find? (·.kind == o.kind)).map (·.spelling) = some o.spelling := by
    decide +kernel
  obtain ⟨hstring, hfind⟩ := htable o ho
  simp [Token.spelling, hstring, hfind]

theorem exists_match {t : Token} (ht : t.Lexed) (hk : t.kind ≠ .eof) : ∃ w, LongestMatch w [] t := by
  obtain ⟨s, s', h⟩ := ht
  obtain ⟨rfl, -⟩ | ⟨w, c, cs, -, -, hmatch⟩ := next_cases h
  · exact absurd rfl hk
  · exact ⟨w, hmatch.shorten List.nil_prefix⟩

/-- Numerals for the reals that some text is read as. -/
def IsNumeral (numeral : Float → List Char) : Prop :=
  ∀ x : Float, Token.Lexed ⟨.realConst, .real x⟩ →
    Token.ReadsAs (numeral x) ⟨.realConst, .real x⟩

theorem exists_isNumeral : ∃ numeral, IsNumeral numeral := by
  have hone : ∀ x : Float, ∃ ds, Token.Lexed ⟨.realConst, .real x⟩ →
      Token.ReadsAs ds ⟨.realConst, .real x⟩ := by
    intro x
    by_cases hx : Token.Lexed ⟨.realConst, .real x⟩
    · obtain ⟨w, hw⟩ := exists_match hx Kind.noConfusion
      exact ⟨w, fun _ => hw.readsAs⟩
    · exact ⟨[], fun h => absurd h hx⟩
  choose numeral hnumeral using hone
  exact ⟨numeral, hnumeral⟩

/-- Every token but the end of the text is read from its spelling. -/
theorem spelling_readsAs {numeral : Float → List Char} (hnum : IsNumeral numeral) {t : Token}
    (ht : t.Lexed) (hk : t.kind ≠ .eof) : Token.ReadsAs (t.spelling numeral) t := by
  obtain ⟨w, hmatch⟩ := exists_match ht hk
  cases hmatch with
  | word hl hw =>
    rw [spelling_ofWord, String.toList_ofList]
    exact word_readsAs hl hw
  | integer hl hd hn =>
    obtain ⟨m, rfl, hm⟩ := Text.readInt_bounds hd hn
    exact integer_readsAs hm
  | real => exact hnum _ ht
  | @string cs _ hq =>
    have hnone : '"' ∉ unescape cs := by
      intro hm
      obtain hm | hm := mem_unescape hm
      · exact hq hm
      · exact absurd hm (by decide)
    simpa [Token.spelling, unescape_unescape] using (LongestMatch.string hnone).readsAs
  | char c => simpa [Token.spelling] using (LongestMatch.char c).readsAs
  | newline => exact (LongestMatch.char '\n').readsAs
  | operator ho =>
    rw [spelling_operator numeral ho]
    exact operator_readsAs ho

end Source

/-! ## Lists of tokens -/

def Token.text (numeral : Float → List Char) : List Token → List Char
  | [] => [' ']
  | t :: ts => ' ' :: (t.spelling numeral ++ text numeral ts)

def Stream.ofTokens : List Token → Stream
  | [] => .done 1
  | t :: ts => .more t 1 (ofTokens ts)

theorem Stream.size_ofTokens (ts : List Token) : (Stream.ofTokens ts).size = ts.length := by
  induction ts with
  | nil => rfl
  | cons t ts ih => rw [Stream.ofTokens, Stream.size, ih, List.length_cons]

theorem Token.text_eq (numeral : Float → List Char) (ts : List Token) :
    ∃ cs, Token.text numeral ts = ' ' :: cs := by
  cases ts with
  | nil => exact ⟨_, rfl⟩
  | cons t ts => exact ⟨_, rfl⟩

theorem Stream.of_text {numeral : Float → List Char} (hnum : Source.IsNumeral numeral)
    {ts : List Token} (hts : ∀ t ∈ ts, t.Lexed ∧ t.kind ≠ .eof) :
    Stream.Of ⟨Token.text numeral ts, 1⟩ (ofTokens ts) := by
  induction ts with
  | nil =>
    have hend : Source.next ⟨Token.text numeral [], 1⟩ = .ok (Token.eof, ⟨[], 1⟩) := rfl
    exact .done hend
  | cons t ts ih =>
    obtain ⟨⟨ht, hk⟩, hts⟩ := List.forall_mem_cons.1 hts
    obtain ⟨cs, hcs⟩ := Token.text_eq numeral ts
    have hnext : Source.next ⟨Token.text numeral (t :: ts), 1⟩ =
        .ok (t, ⟨Token.text numeral ts, 1⟩) := by
      rw [Token.text, Source.next_space, hcs]
      exact Source.spelling_readsAs hnum ht hk cs 1
    exact .more hnext hk (ih hts)

/-- The stream of the text of a list of tokens is the list. -/
theorem Stream.ofText_text {numeral : Float → List Char} (hnum : Source.IsNumeral numeral)
    {ts : List Token} (hts : ∀ t ∈ ts, t.Lexed ∧ t.kind ≠ .eof) :
    Stream.ofText (String.ofList (Token.text numeral ts)) = ofTokens ts := by
  have hof := Stream.ofText_of (String.ofList (Token.text numeral ts))
  rw [Source.ofText, String.toList_ofList] at hof
  exact hof.unique (Stream.of_text hnum hts)

end MiniC
