import MiniC.Proofs.Consumption

/-!
# The lines of a text

The characters of a text are marked with the part of the text that they belong to: a comment, a
literal, or the rest of the text, which is called code and holds the blanks. The line of a position
is found by counting the newlines before it outside literals. What is skipped and what is taken for
a token are followed through the marks: the newlines that are skipped are all counted, and a token
that holds one is a literal.
-/

namespace MiniC

namespace Source

inductive Zone where
  | code
  | lineComment
  | blockComment
  | string
  | character
  deriving DecidableEq

/-- Marks characters with the parts they belong to, from inside a part on. The newline that ends a
line comment belongs to it. -/
def marked : Zone → List Char → List (Char × Zone)
  | _, [] => []
  | .code, '/' :: '/' :: cs =>
    ('/', .lineComment) :: ('/', .lineComment) :: marked .lineComment cs
  | .code, '/' :: '*' :: cs =>
    ('/', .blockComment) :: ('*', .blockComment) :: marked .blockComment cs
  | .code, '"' :: cs => ('"', .string) :: marked .string cs
  | .code, '\'' :: '\\' :: 'n' :: '\'' :: cs =>
    ('\'', .character) :: ('\\', .character) :: ('n', .character) :: ('\'', .character) ::
      marked .code cs
  | .code, '\'' :: c :: '\'' :: cs =>
    ('\'', .character) :: (c, .character) :: ('\'', .character) :: marked .code cs
  | .code, c :: cs => (c, .code) :: marked .code cs
  | .lineComment, c :: cs =>
    (c, .lineComment) :: marked (if c = '\n' then .code else .lineComment) cs
  | .blockComment, '*' :: '/' :: cs =>
    ('*', .blockComment) :: ('/', .blockComment) :: marked .code cs
  | .blockComment, c :: cs => (c, .blockComment) :: marked .blockComment cs
  | .string, c :: cs => (c, .string) :: marked (if c = '"' then .code else .string) cs
  | .character, c :: cs => (c, .character) :: marked .character cs

/-- Nothing is lost or added by the marks. -/
theorem map_fst_marked (z : Zone) (cs : List Char) : (marked z cs).map Prod.fst = cs := by
  fun_induction marked z cs <;> simp_all

def endsLine (p : Char × Zone) : Bool :=
  p.1 == '\n' && p.2 != .string && p.2 != .character

/-- The newlines outside literals are those among the blanks and those of comments. -/
theorem countP_endsLine (zs : List (Char × Zone)) :
    zs.countP endsLine =
      zs.count ('\n', .code) + zs.count ('\n', .lineComment) + zs.count ('\n', .blockComment) := by
  induction zs with
  | nil => rfl
  | cons p zs ih =>
    obtain ⟨c, z⟩ := p
    by_cases hc : c = '\n'
    · cases z <;> simp [endsLine, ih, hc] <;> omega
    · simp [endsLine, ih, hc]

/-! ## What is skipped -/

def Gap.zone : Gap → Zone
  | .blanks => .code
  | .lineComment => .lineComment
  | .blockComment => .blockComment

/-- In code, a character that starts no comment and no literal. -/
theorem marked_code {c : Char} {cs : List Char} (hcode : ¬ StartsComment (c :: cs)) (hq : c ≠ '"')
    (ht : c ≠ '\'') : marked .code (c :: cs) = (c, .code) :: marked .code cs := by
  rw [marked]
  · rintro r rfl rfl
    exact hcode (.inl ⟨r, rfl⟩)
  · rintro r rfl rfl
    exact hcode (.inr ⟨r, rfl⟩)
  · exact hq
  · exact fun _ h => absurd h ht
  · exact fun _ _ h => absurd h ht

/-- From a place inside a part of a text up to a place in the code, with the newlines between them
that are not part of a literal. -/
def Passes (z : Zone) (cs rest : List Char) (newlines : Nat) : Prop :=
  ∃ zs, marked z cs = zs ++ marked .code rest ∧ zs.countP endsLine = newlines

theorem Passes.after {z z' : Zone} {cs cs' rest : List Char} {k : Nat} (h : Passes z' cs' rest k)
    {l : List (Char × Zone)} (hl : marked z cs = l ++ marked z' cs') :
    Passes z cs rest (l.countP endsLine + k) := by
  obtain ⟨zs, hzs, rfl⟩ := h
  exact ⟨l ++ zs, by rw [hl, hzs, List.append_assoc], List.countP_append⟩

/-- No newline is passed with a character. -/
theorem Passes.quiet {z z' : Zone} {cs cs' rest : List Char} (h : Passes z' cs' rest 0)
    {p : Char × Zone} (hp : endsLine p = false) (hl : marked z cs = p :: marked z' cs') :
    Passes z cs rest 0 := by
  obtain ⟨zs, hzs, hcount⟩ := h
  exact ⟨p :: zs, by rw [hl, hzs, List.cons_append], by simp [hp, hcount]⟩

/-- All newlines that are skipped are counted. -/
theorem skip_passes {g : Gap} {cs r : List Char} {n m : Nat} (h : skip g cs n = .ok ⟨r, m⟩) :
    ∃ k, Passes g.zone cs r k ∧ m = n + k := by
  -- a newline is counted wherever it is skipped
  have hline (c : Char) (n k : Nat) {z : Zone} (hz : z ≠ .string ∧ z ≠ .character) :
      nextLine c n + k = n + ([(c, z)].countP endsLine + k) := by
    by_cases hc : c = '\n'
    · simp [nextLine, endsLine, hc, hz, Nat.add_assoc]
    · simp [nextLine, endsLine, hc]
  fun_induction skip g cs n with
  | case1 | case5 | case6 =>
    cases h
    exact ⟨0, ⟨[], rfl, rfl⟩, rfl⟩
  | case2 cs n ih | case3 cs n ih | case10 cs n ih =>
    obtain ⟨k, hk, rfl⟩ := ih h
    exact ⟨_, hk.after (l := [_, _]) rfl, by simp [endsLine]⟩
  | case4 c cs n _ _ hb ih =>
    obtain ⟨k, hk, rfl⟩ := ih h
    have hplain : c ∉ ['/', '"', '\''] := by
      intro hc
      have hall : ['/', '"', '\''].all (!Text.isBlank ·) = true := by decide
      simpa [hb] using List.all_eq_true.1 hall c hc
    simp only [List.mem_cons, List.not_mem_nil, or_false, not_or] at hplain
    refine ⟨_, hk.after (l := [(c, .code)]) ?_, hline c n k (by decide)⟩
    exact marked_code (fun h => hplain.1 h.head) hplain.2.1 hplain.2.2
  | case7 cs n ih =>
    obtain ⟨k, hk, rfl⟩ := ih h
    exact ⟨_, hk.after (l := [_]) rfl, hline '\n' n k (by decide)⟩
  | case8 c cs n hc ih =>
    obtain ⟨k, hk, rfl⟩ := ih h
    refine ⟨_, hk.after (l := [(c, .lineComment)]) ?_, by simp [endsLine, hc]⟩
    simp [Gap.zone, marked, hc]
  | case9 => cases h
  | case11 c cs n hend ih =>
    obtain ⟨k, hk, rfl⟩ := ih h
    refine ⟨_, hk.after (l := [(c, .blockComment)]) ?_, hline c n k (by decide)⟩
    rw [Gap.zone, marked, List.singleton_append]
    exact hend

/-! ## What is taken for a token -/

/-- Characters of code that hold no newline, of which only the first may be a slash. -/
theorem passes_run {c : Char} {cs rest : List Char} (hcode : ¬ StartsComment (c :: cs ++ rest))
    (hc : c ∉ ['"', '\'', '\n']) (hcs : ∀ d ∈ cs, d ∉ ['/', '"', '\'', '\n']) :
    Passes .code (c :: cs ++ rest) rest 0 := by
  have hrest : Passes .code (cs ++ rest) rest 0 := by
    induction cs generalizing c with
    | nil => exact ⟨[], rfl, rfl⟩
    | cons d cs ih =>
      obtain ⟨hd, hcs⟩ := List.forall_mem_cons.1 hcs
      have hslash : ¬ StartsComment (d :: cs ++ rest) := fun h => hd (by simp [h.head])
      simp only [List.mem_cons, List.not_mem_nil, or_false, not_or] at hd
      exact (ih hslash (by simp [hd]) hcs).quiet (by simp [endsLine, hd])
        (marked_code hslash hd.2.1 hd.2.2.1)
  simp only [List.mem_cons, List.not_mem_nil, or_false, not_or] at hc
  exact hrest.quiet (by simp [endsLine, hc]) (marked_code hcode hc.1 hc.2.1)

/-- A string goes up to its closing quote. -/
theorem passes_string {cs : List Char} (hcs : '"' ∉ cs) (rest : List Char) :
    Passes .string (cs ++ '"' :: rest) rest 0 := by
  induction cs with
  | nil => exact ⟨[('"', .string)], by simp [marked], by simp [endsLine]⟩
  | cons c cs ih =>
    obtain ⟨hc, hcs⟩ := List.ne_and_not_mem_of_not_mem_cons hcs
    refine (ih hcs).quiet (p := (c, .string)) (by simp [endsLine]) ?_
    simp [marked, hc.symm]

/-- No newline is counted in a token. -/
theorem LongestMatch.passes {w rest : List Char} {t : Token} (h : LongestMatch w rest t) :
    Passes .code (w ++ rest) rest 0 := by
  -- words and numerals
  have hrun {p : Char → Bool} (hp : ['/', '"', '\'', '\n'].all (!p ·) = true) {c : Char}
      {cs : List Char} (hcs : ∀ d ∈ c :: cs, p d = true) : Passes .code (c :: cs ++ rest) rest 0 := by
    have hplain : ∀ d ∈ c :: cs, d ∉ ['/', '"', '\'', '\n'] := by
      intro d hd hmem
      have hnot := List.all_eq_true.1 hp d hmem
      simp [hcs d hd] at hnot
    obtain ⟨hc, hcs⟩ := List.forall_mem_cons.1 hplain
    exact passes_run (fun h => hc (by simp [h.head])) (fun h => hc (List.mem_cons_of_mem _ h)) hcs
  cases h with
  | word hl hw => exact hrun (by decide) hw
  | integer hl hd => exact hrun (by decide) hd
  | @real c cs fraction _ x hl hd hf =>
    rw [List.cons_append]
    refine hrun (p := fun c => Text.isDigit c || c == '.') (by decide) fun d hmem => ?_
    rw [← List.cons_append] at hmem
    obtain hmem | hmem := List.mem_append.1 hmem
    · simp [hd d hmem]
    · obtain rfl | hmem := List.mem_cons.1 hmem
      · simp
      · simp [hf d hmem]
  | @string cs _ hq =>
    rw [List.cons_append, List.append_assoc]
    exact (passes_string hq rest).quiet (p := ('"', .string)) (by simp [endsLine]) rfl
  | char c =>
    exact ⟨[('\'', .character), (c, .character), ('\'', .character)], by simp [marked],
      by simp [endsLine]⟩
  | newline => exact ⟨[_, _, _, _], rfl, by simp [endsLine]⟩
  | @operator o _ ho hcode =>
    have hops : Token.operators.all (fun o => o.spelling.head?.any (fun c =>
        !(['"', '\'', '\n'].contains c)) && o.spelling.tail.all fun d =>
          !(['/', '"', '\'', '\n'].contains d)) = true := by
      decide
    obtain ⟨hhead, htail⟩ := Bool.and_eq_true_iff.1 (List.all_eq_true.1 hops o ho)
    obtain ⟨c, hc, hplain⟩ := (Option.any_eq_true ..).1 hhead
    obtain ⟨cs, hcs⟩ := List.head?_eq_some_iff.1 hc
    rw [hcs] at hcode htail ⊢
    exact passes_run hcode (by simpa using hplain) fun d hd => by
      simpa using List.all_eq_true.1 htail d hd

/-! ## The line of a position -/

theorem next_passes {s s' : Source} {t : Token} (h : s.next = .ok (t, s')) :
    ∃ k, Passes .code s.rest s'.rest k ∧ s'.line = s.line + k := by
  obtain ⟨-, -, hskip⟩ | ⟨w, c, cs, hskip, hcs, hmatch⟩ := next_cases h
  · exact skip_passes hskip
  · obtain ⟨k, ⟨zs, hzs, rfl⟩, hk⟩ := skip_passes hskip
    rw [hcs] at hzs
    exact ⟨_, hmatch.passes.after hzs, by simpa using hk⟩

theorem ReachedIn.passes {text : String} {k : Nat} {s : Source} (h : ReachedIn text k s) :
    Passes .code text.toList s.rest (s.line - 1) ∧ 1 ≤ s.line := by
  induction h with
  | start => exact ⟨⟨[], rfl, rfl⟩, Nat.le_refl 1⟩
  | @next k s s' t _ hnext ih =>
    obtain ⟨⟨zs, hzs, hcount⟩, hle⟩ := ih
    obtain ⟨i, hi, hline⟩ := next_passes hnext
    have hall := hi.after hzs
    rw [hcount] at hall
    refine ⟨?_, by omega⟩
    rw [hline, Nat.add_comm s.line, Nat.add_sub_assoc hle, Nat.add_comm i]
    exact hall

/-- The characters of a text before a position, with the parts they belong to. -/
def before (text : String) (s : Source) : List (Char × Zone) :=
  (marked .code text.toList).take (offset text s)

/-- At a position that is reached by reading tokens, the line is one more than the number of the
newlines before it that are not part of a literal. These are the newlines among the blanks, at the
ends of line comments and in block comments. -/
theorem line_of_newlines {text : String} {k : Nat} {s : Source} (h : ReachedIn text k s) :
    (marked .code text.toList).map Prod.fst = text.toList ∧
    s.line = 1 + (before text s).countP endsLine ∧
    s.line = 1 + ((before text s).count ('\n', .code) + (before text s).count ('\n', .lineComment) +
      (before text s).count ('\n', .blockComment)) := by
  obtain ⟨⟨zs, hzs, hcount⟩, hle⟩ := h.passes
  have hlen : zs.length = offset text s := by
    have hlength := congrArg List.length (map_fst_marked .code text.toList)
    have hrest := congrArg List.length (map_fst_marked .code s.rest)
    rw [List.length_map] at hlength hrest
    rw [hzs, List.length_append, hrest, String.length_toList, ← h.offset_add] at hlength
    exact Nat.add_right_cancel hlength
  have hbefore : before text s = zs := by rw [before, hzs, List.take_left' hlen]
  rw [← countP_endsLine, hbefore, hcount]
  exact ⟨map_fst_marked _ _, by omega, by omega⟩

/-- Newlines among blanks, at the end of a comment and in a comment are counted, and those in
literals are not. -/
theorem line_of_newlines_mixed : ∃ s, ReachedIn "\n\"\n\"//\n/*\n*/'\n'" 2 s ∧ s.line = 4 ∧
    (before "\n\"\n\"//\n/*\n*/'\n'" s).countP endsLine = 3 := by
  have hfirst : (ofText "\n\"\n\"//\n/*\n*/'\n'").next =
      .ok (⟨.string, .text "\n"⟩, ⟨"//\n/*\n*/'\n'".toList, 2⟩) := by
    decide +kernel
  have hsecond : next ⟨"//\n/*\n*/'\n'".toList, 2⟩ = .ok (⟨.charConst, .int 10⟩, ⟨[], 4⟩) := by
    decide +kernel
  have hreached := (ReachedIn.start.next hfirst).next hsecond
  refine ⟨_, hreached, rfl, ?_⟩
  have hline : 4 = 1 + _ := (line_of_newlines hreached).2.1
  omega

end Source

end MiniC
