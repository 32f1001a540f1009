import Mathlib.Data.List.DropRight
import MiniC.Proofs.Effects

/-!
# Input by a format

The specifiers of a format are matched from left to right, each as long as can be. Then whole lines
are taken from the input, as few as hold a word for each specifier, and the words are stored one
after the other. If the input ends before there are enough words, it is used up and nothing is
stored.
-/

namespace MiniC

namespace Text

theorem wordsFrom_eq (current cs : List Char) :
    wordsFrom current cs =
      (((cs.splitOnP isBlank).modifyHead (current.reverse ++ ·)).filter (!·.isEmpty)).map
        String.ofList := by
  induction cs generalizing current with
  | nil => cases current <;> simp [wordsFrom, List.splitOnP_nil]
  | cons c cs ih =>
    obtain ⟨p, ps, hp⟩ := List.exists_cons_of_ne_nil (List.splitOnP_ne_nil isBlank cs)
    rw [wordsFrom, ih, ih, List.splitOnP_cons_eq_if_modifyHead, hp]
    cases isBlank c <;> cases current <;> simp

/-- The words are the pieces between blanks, the empty ones left out. -/
theorem words_eq (cs : List Char) :
    words cs = ((cs.splitOnP isBlank).filter (!·.isEmpty)).map String.ofList := by
  rw [words, wordsFrom_eq]
  cases cs.splitOnP isBlank <;> simp

end Text

namespace Scan

/-! ## Specifiers -/

/-- A percent sign, characters other than that, and a letter that ends a specifier. -/
def IsSpecifier (w : List Char) : Prop :=
  ∃ body c, w = '%' :: (body ++ [c]) ∧ '%' ∉ body ∧ c ∈ ['d', 'f', 'i', 'c']

/-- The specifiers of a text from left to right, each the longest at its place. -/
inductive Matched : List Char → List (List Char) → Prop where
  | nil : Matched [] []
  | skip {c : Char} {cs : List Char} {ss : List (List Char)}
      (hnone : ∀ w v, c :: cs = w ++ v → ¬IsSpecifier w) (h : Matched cs ss) : Matched (c :: cs) ss
  | found {w v : List Char} {ss : List (List Char)} (hw : IsSpecifier w)
      (hlong : ∀ w' v', w ++ v = w' ++ v' → IsSpecifier w' → w'.length ≤ w.length)
      (h : Matched v ss) : Matched (w ++ v) (w :: ss)

theorem endsSpecifier_iff {c : Char} : endsSpecifier c = true ↔ c ∈ ['d', 'f', 'i', 'c'] := by
  simp [endsSpecifier, or_assoc]

def reach (cs : List Char) : List Char :=
  (cs.takeWhile (· != '%')).rdropWhile (!endsSpecifier ·)

theorem length_le_of_isSpecifier {cs w v : List Char} (h : '%' :: cs = w ++ v)
    (hw : IsSpecifier w) : 2 ≤ w.length ∧ w.length ≤ (reach cs).length + 1 := by
  obtain ⟨body, c, rfl, hbody, hc⟩ := hw
  obtain rfl : cs = body ++ [c] ++ v := (List.cons_eq_cons.1 h).2
  refine ⟨by simp, ?_⟩
  have htake : ((body ++ [c]) ++ v).takeWhile (· != '%') =
      (body ++ [c]) ++ v.takeWhile (· != '%') := by
    refine List.takeWhile_append_of_pos fun d hd => ?_
    obtain hd | hd := List.mem_append.1 hd
    · exact bne_iff_ne.2 fun h => hbody (h ▸ hd)
    · obtain rfl := List.mem_singleton.1 hd
      exact bne_iff_ne.2 fun h => absurd (h ▸ hc) (by decide)
  have hreach : reach (body ++ [c] ++ v) ++ List.rtakeWhile (!endsSpecifier ·) _ =
      body ++ [c] ++ v.takeWhile (· != '%') := List.rdropWhile_append_rtakeWhile.trans htake
  obtain ⟨z, hz, hdropped⟩ | ⟨z, hz, -⟩ := List.append_eq_append_iff.1 hreach
  · obtain rfl | ⟨z, d, rfl⟩ := List.eq_nil_or_concat z
    · simpa using (congrArg List.length hz).le
    · -- the letter that ends the specifier would be dropped
      rw [List.concat_eq_append, ← List.append_assoc] at hz
      obtain rfl : c = d := List.singleton_inj.1 (List.append_inj' hz rfl).2
      have hmem : c ∈ z.concat c ++ v.takeWhile (· != '%') := by simp
      rw [← hdropped] at hmem
      simpa [endsSpecifier_iff.2 hc] using List.mem_rtakeWhile_imp hmem
  · rw [hz]
    simp

theorem Matched.drop {s v : List Char} {ss : List (List Char)} (hs : '%' ∉ s)
    (h : Matched (s ++ v) ss) : Matched v ss := by
  induction s with
  | nil => exact h
  | cons c s ih =>
    obtain ⟨hc, hs⟩ := List.ne_and_not_mem_of_not_mem_cons hs
    generalize hcs : c :: s ++ v = cs at h
    cases h with
    | nil => cases hcs
    | skip _ h =>
      obtain ⟨-, rfl⟩ := List.cons_eq_cons.1 hcs
      exact ih hs h
    | found hw =>
      obtain ⟨body, d, rfl, -⟩ := hw
      exact absurd (List.cons_eq_cons.1 hcs).1.symm hc

theorem matched_specifiersOf (cs : List Char) : Matched cs (specifiersOf cs) := by
  fun_induction specifiersOf cs with
  | case1 => exact .nil
  | case2 cs hreach ih =>
    refine .skip (fun w v h hw => ?_) ih
    have hlength := length_le_of_isSpecifier h hw
    have hnil : reach cs = [] := hreach
    simp [hnil] at hlength
    omega
  | case3 cs hreach ih =>
    have hreach : reach cs ≠ [] := hreach
    obtain ⟨v, hv⟩ : reach cs <+: cs :=
      (List.rdropWhile_prefix _ _).trans (List.takeWhile_prefix _)
    have hpercent : '%' ∉ reach cs := fun hmem => by
      simpa using List.mem_takeWhile_imp ((List.rdropWhile_prefix _ _).subset hmem)
    have hlast : (reach cs).getLast hreach ∈ ['d', 'f', 'i', 'c'] := by
      have hnot := List.rdropWhile_last_not (!endsSpecifier ·) _ hreach
      rw [Bool.not_eq_true, Bool.not_eq_false'] at hnot
      exact endsSpecifier_iff.1 hnot
    have hspec : IsSpecifier ('%' :: reach cs) :=
      ⟨_, _, congrArg _ (List.dropLast_append_getLast hreach).symm,
        fun h => hpercent ((List.dropLast_prefix _).subset h), hlast⟩
    have hcs : '%' :: cs = '%' :: reach cs ++ v := congrArg _ hv.symm
    rw [hcs]
    refine .found hspec (fun w' v' h hw' => ?_) (Matched.drop hpercent (by rwa [hv]))
    exact (length_le_of_isSpecifier (hcs.trans h) hw').2
  | case4 c cs hc ih =>
    refine .skip (fun w v h hw => ?_) ih
    obtain ⟨body, d, rfl, -⟩ := hw
    exact hc (List.cons_eq_cons.1 h).1

/-! ## Lines -/

/-- Whole lines are taken from the input. The last line may lack its newline. -/
inductive TakesLines : List Char → List (List Char) → List Char → Prop where
  | none (cs : List Char) : TakesLines cs [] cs
  | line {l cs : List Char} {ls : List (List Char)} {rest : List Char} (hl : '\n' ∉ l)
      (h : TakesLines cs ls rest) : TakesLines (l ++ '\n' :: cs) (l :: ls) rest
  | last {l : List Char} (hne : l ≠ []) (hl : '\n' ∉ l) : TakesLines l [l] []

theorem TakesLines.of_nil {ls : List (List Char)} {rest : List Char} (h : TakesLines [] ls rest) :
    ls = [] ∧ rest = [] := by
  generalize hcs : [] = cs at h
  cases h with
  | none => exact ⟨rfl, rfl⟩
  | line => simp at hcs
  | last hne => exact absurd hcs.symm hne

theorem splitLine_cases (cs : List Char) :
    ('\n' ∉ cs ∧ Text.splitLine cs = (cs, [])) ∨
      ∃ l r, '\n' ∉ l ∧ cs = l ++ '\n' :: r ∧ Text.splitLine cs = (l, r) := by
  have hline : '\n' ∉ cs.takeWhile (· != '\n') := fun h => by
    simpa using List.mem_takeWhile_imp h
  have hcs := List.takeWhile_append_dropWhile (p := (· != '\n')) (l := cs)
  cases hrest : cs.dropWhile (· != '\n') with
  | nil =>
    rw [hrest, List.append_nil] at hcs
    exact .inl ⟨hcs ▸ hline, by rw [Text.splitLine, hrest, hcs]; rfl⟩
  | cons c r =>
    have hc : c = '\n' := by
      have hnot := List.head?_dropWhile_not (· != '\n') cs
      rw [hrest] at hnot
      simpa using hnot
    rw [hrest, hc] at hcs
    exact .inr ⟨_, r, hline, hcs.symm, by rw [Text.splitLine, hrest]; rfl⟩

theorem length_splitLine {cs : List Char} (hne : cs ≠ []) :
    (Text.splitLine cs).2.length < cs.length := by
  obtain ⟨-, hsplit⟩ | ⟨l, r, -, rfl, hsplit⟩ := splitLine_cases cs
  · simpa [hsplit] using List.length_pos_iff.2 hne
  · simp [hsplit]
    omega

theorem TakesLines.first {cs : List Char} {ls : List (List Char)} {rest : List Char}
    (hne : cs ≠ []) (h : TakesLines (Text.splitLine cs).2 ls rest) :
    TakesLines cs ((Text.splitLine cs).1 :: ls) rest := by
  obtain ⟨hcs, hsplit⟩ | ⟨l, r, hl, rfl, hsplit⟩ := splitLine_cases cs
  · rw [hsplit] at h ⊢
    obtain ⟨rfl, rfl⟩ := h.of_nil
    exact .last hne hcs
  · rw [hsplit] at h ⊢
    exact .line hl h

theorem TakesLines.split {cs l : List Char} {ls : List (List Char)} {rest : List Char}
    (h : TakesLines cs (l :: ls) rest) :
    cs ≠ [] ∧ (Text.splitLine cs).1 = l ∧ TakesLines (Text.splitLine cs).2 ls rest := by
  have hall (hl : '\n' ∉ l) : ∀ c ∈ l, (c != '\n') = true :=
    fun c hc => bne_iff_ne.2 fun heq => hl (heq ▸ hc)
  cases h with
  | @line _ cs _ _ hl h =>
    have hsplit : Text.splitLine (l ++ '\n' :: cs) = (l, cs) := by
      simp [Text.splitLine, List.takeWhile_append_of_pos (hall hl),
        List.dropWhile_append_of_pos (hall hl)]
    rw [hsplit]
    exact ⟨by simp, rfl, h⟩
  | last hne hl =>
    obtain ⟨-, hsplit⟩ | ⟨k, r, -, rfl, -⟩ := splitLine_cases cs
    · rw [hsplit]
      exact ⟨hne, rfl, .none _⟩
    · simp at hl

/-- The fewest lines that hold as many words as are wanted. -/
structure Fewest (wanted : Nat) (input : List Char) (ls : List (List Char)) (rest : List Char) :
    Prop where
  taken : TakesLines input ls rest
  enough : wanted ≤ (ls.flatMap Text.words).length
  least : ∀ j < ls.length, ((ls.take j).flatMap Text.words).length < wanted

theorem wordsUntil_of_fewest {wanted fuel : Nat} (found : List String) {input : List Char}
    {ls : List (List Char)} {rest : List Char} (h : Fewest (wanted - found.length) input ls rest)
    (hfuel : input.length < fuel) :
    wordsUntil wanted fuel found input = (some (found ++ ls.flatMap Text.words), rest) := by
  induction ls generalizing fuel found input with
  | nil =>
    obtain ⟨htaken, henough, -⟩ := h
    obtain ⟨fuel, rfl⟩ := Nat.exists_eq_add_one_of_ne_zero (Nat.ne_zero_of_lt hfuel)
    have hwanted : wanted ≤ found.length := Nat.le_of_sub_eq_zero (Nat.le_zero.1 henough)
    cases htaken
    rw [wordsUntil, if_pos hwanted, List.flatMap_nil, List.append_nil]
  | cons l ls ih =>
    obtain ⟨htaken, henough, hleast⟩ := h
    obtain ⟨fuel, rfl⟩ := Nat.exists_eq_add_one_of_ne_zero (Nat.ne_zero_of_lt hfuel)
    obtain ⟨hne, rfl, hnext⟩ := htaken.split
    have hwanted : ¬wanted ≤ found.length := by
      have hfirst := hleast 0 (Nat.succ_pos _)
      simp only [List.take_zero, List.flatMap_nil, List.length_nil] at hfirst
      omega
    have hrest : Fewest (wanted - (found ++ Text.words (Text.splitLine input).1).length)
        (Text.splitLine input).2 ls rest := by
      refine ⟨hnext, ?_, fun j hj => ?_⟩
      · simp only [List.flatMap_cons, List.length_append] at henough ⊢
        omega
      · have hnext := hleast (j + 1) (Nat.succ_lt_succ hj)
        simp only [List.take_succ_cons, List.flatMap_cons, List.length_append] at hnext ⊢
        omega
    rw [wordsUntil, if_neg hwanted, if_neg (mt List.isEmpty_iff.1 hne), List.flatMap_cons,
      ← List.append_assoc]
    exact ih _ hrest (Nat.lt_of_lt_of_le (length_splitLine hne) (Nat.le_of_lt_succ hfuel))

/-- The input ends before there are enough words, or some first lines hold enough. -/
theorem wordsUntil_cases (wanted : Nat) {fuel : Nat} (found : List String) {input : List Char}
    (h : input.length < fuel) :
    (∃ ls, TakesLines input ls [] ∧ (found ++ ls.flatMap Text.words).length < wanted ∧
      wordsUntil wanted fuel found input = (none, [])) ∨
    ∃ ls rest, Fewest (wanted - found.length) input ls rest := by
  induction fuel generalizing found input with
  | zero => omega
  | succ fuel ih =>
    rw [wordsUntil]
    split
    · next hwanted =>
      exact .inr ⟨[], input, .none _, by simp [Nat.sub_eq_zero_of_le hwanted], by simp⟩
    · next hwanted =>
      split
      · next hempty =>
        obtain rfl := List.isEmpty_iff.1 hempty
        exact .inl ⟨[], .none _, by simpa using hwanted, rfl⟩
      · next hempty =>
        have hne : input ≠ [] := mt List.isEmpty_iff.2 hempty
        obtain ⟨ls, htaken, hfew, hrun⟩ | ⟨ls, rest, htaken, henough, hleast⟩ :=
          ih (found ++ Text.words (Text.splitLine input).1)
            (Nat.lt_of_lt_of_le (length_splitLine hne) (Nat.le_of_lt_succ h))
        · exact .inl ⟨_, htaken.first hne, by simpa [Nat.add_assoc] using hfew, hrun⟩
        · refine .inr ⟨_, rest, htaken.first hne, ?_, fun j hj => ?_⟩
          · simp only [List.flatMap_cons, List.length_append] at henough ⊢
            omega
          · cases j with
            | zero =>
              simp only [List.take_zero, List.flatMap_nil, List.length_nil]
              omega
            | succ j =>
              have hprevious := hleast j (Nat.lt_of_succ_lt_succ hj)
              simp only [List.take_succ_cons, List.flatMap_cons, List.length_append] at hprevious ⊢
              omega

theorem execute_readWords (wanted : Nat) (m : Machine) :
    (readWords wanted).execute m =
      ((wordsUntil wanted (m.input.length + 1) [] m.input).1.elim (.error .endOfInput) .ok,
        { m with input := (wordsUntil wanted (m.input.length + 1) [] m.input).2 }) := by
  simp only [readWords, Run.execute_bind, Run.execute_get, Run.execute_set]
  cases (wordsUntil wanted (m.input.length + 1) [] m.input).1 <;> rfl

/-! ## Storing -/

inductive Converts : List Char → String → Number → Prop where
  | int {s : List Char} {w : String} {n : Number} (h : Number.ofScalar .int (.text w) = .ok n) :
      Converts (s ++ ['d']) w n
  | float {s : List Char} {w : String} {n : Number} (h : Number.ofScalar .float (.text w) = .ok n) :
      Converts (s ++ ['f']) w n

/-- The numbers that the first words give by the specifiers. -/
inductive Converted : List (List Char) → List String → List Number → Prop where
  | nil (ws : List String) : Converted [] ws []
  | cons {s : List Char} {w : String} {n : Number} {ss : List (List Char)} {ws : List String}
      {ns : List Number} (h : Converts s w n) (hs : Converted ss ws ns) :
      Converted (s :: ss) (w :: ws) (n :: ns)

def stored (s : Store) (as : List Scalar) (ns : List Number) : Store :=
  (as.zip ns).foldl (fun s p => s.write p.1 (.number p.2)) s

theorem execute_storeAll {specs : List (List Char)} {words : List String} {ns : List Number}
    (h : Converted specs words ns) {as : List Scalar} (has : as.length = specs.length)
    (m : Machine) : (storeAll specs (as.map .scalar) words).execute m =
      (.ok (), { m with store := stored m.store as ns }) := by
  induction h generalizing as m with
  | nil =>
    obtain rfl := List.eq_nil_of_length_eq_zero has
    rfl
  | @cons s w n ss ws ns h hs ih =>
    cases as with
    | nil => cases has
    | cons a as =>
      have hstore : (store s (.scalar a) w).execute m =
          (.ok (), { m with store := m.store.write a (.number n) }) := by
        have hn : (do Number.ofScalar (← typeOf s) (.text w)) = Except.ok n := by
          cases h with
          | int h | float h =>
            rw [typeOf, List.getLast?_concat]
            exact h
        rw [store, Run.execute_bind, Run.execute_ofExcept, hn]
        rfl
      rw [List.map_cons, storeAll, Run.execute_bind, hstore]
      exact ih (Nat.succ.inj has) _

/-- The numbers are at the addresses, the last of them where an address is repeated, and nothing
else differs. -/
structure Stores (as : List Scalar) (ns : List Number) (s s' : Store) : Prop where
  globals : s'.globals = s.globals
  frames : s'.frames = s.frames
  next : s'.next = s.next
  dynamic : s'.dynamic = s.dynamic
  numbers : ∀ (i : Nat) a n, as[i]? = some a → ns[i]? = some n →
    (∀ j b, i < j → as[j]? = some b → Address.ofScalar b ≠ Address.ofScalar a) →
      s'.read? a = some (.number n)
  others : ∀ b, (∀ a ∈ as, Address.ofScalar a ≠ Address.ofScalar b) → s'.read? b = s.read? b

theorem stores_stored (s : Store) {as : List Scalar} {ns : List Number}
    (hlength : as.length = ns.length) : Stores as ns s (stored s as ns) := by
  induction as generalizing s ns with
  | nil => exact ⟨rfl, rfl, rfl, rfl, fun i a n ha => by simp at ha, fun _ _ => rfl⟩
  | cons a as ih =>
    cases ns with
    | nil => cases hlength
    | cons n ns =>
      obtain ⟨hglobals, hframes, hnext, hdynamic, hnumbers, hothers⟩ :=
        ih (s.write a (.number n)) (Nat.succ.inj hlength)
      refine ⟨hglobals, hframes, hnext, hdynamic, fun i b k hb hk hlast => ?_, fun b hb => ?_⟩
      · cases i with
        | zero =>
          obtain rfl := Option.some.inj hb
          obtain rfl := Option.some.inj hk
          have hlater : ∀ c ∈ as, Address.ofScalar c ≠ Address.ofScalar a := by
            intro c hc
            obtain ⟨j, hj⟩ := List.getElem?_of_mem hc
            exact hlast (j + 1) c (Nat.succ_pos j) hj
          exact (hothers a hlater).trans (s.read?_write_self a _)
        | succ i =>
          exact hnumbers i b k hb hk fun j c hj hc => hlast (j + 1) c (Nat.succ_lt_succ hj) hc
      · obtain ⟨ha, has⟩ := List.forall_mem_cons.1 hb
        exact (hothers b has).trans (s.read?_write_of_ne _ ha)

theorem Converted.length_eq {ss : List (List Char)} {ws : List String} {ns : List Number}
    (h : Converted ss ws ns) : ss.length = ns.length := by
  induction h with
  | nil => rfl
  | cons _ _ ih => exact congrArg Nat.succ ih

/-- The specifiers are matched from left to right, and the words are what stands between blanks. The
numbers of specifiers and of addresses have to be equal. Then either the lines of the input hold
fewer words than there are specifiers, and the input has ended, or the fewest lines are taken that
hold enough; if the first words convert, they are stored in order, and nothing else is changed. -/
theorem scan_takes (fmt : String) (addresses : List Scalar) (m : Machine) :
    Matched (fmt.toList.filter (!Text.isBlank ·)) (specifiers fmt) ∧
    (∀ line, Text.words line =
      ((line.splitOnP Text.isBlank).filter (!·.isEmpty)).map String.ofList) ∧
    ((specifiers fmt).length ≠ addresses.length →
      (scan (.scalar (.text fmt)) (addresses.map .scalar) .memory).execute m =
        (.error (.scanArguments (specifiers fmt).length addresses.length), m)) ∧
    ((specifiers fmt).length = addresses.length →
      ((∃ lines, TakesLines m.input lines [] ∧
        (lines.flatMap Text.words).length < (specifiers fmt).length ∧
        (scan (.scalar (.text fmt)) (addresses.map .scalar) .memory).execute m =
          (.error .endOfInput, { m with input := [] })) ∨
        ∃ lines rest, Fewest (specifiers fmt).length m.input lines rest) ∧
      ∀ lines rest ns, Fewest (specifiers fmt).length m.input lines rest →
        Converted (specifiers fmt) (lines.flatMap Text.words) ns →
        ∃ s, (scan (.scalar (.text fmt)) (addresses.map .scalar) .memory).execute m =
            (.ok (.int (lines.flatMap Text.words).length), { m with input := rest, store := s }) ∧
          Stores addresses ns m.store s) := by
  refine ⟨matched_specifiersOf _, Text.words_eq, fun hne => by simp [scan, hne], fun heq => ?_⟩
  have hscan : scan (.scalar (.text fmt)) (addresses.map .scalar) .memory = do
      let words ← readWords (specifiers fmt).length
      storeAll (specifiers fmt) (addresses.map .scalar) words
      return .int words.length := if_neg (by simpa using heq)
  rw [hscan, Run.execute_bind, execute_readWords]
  refine ⟨?_, fun lines rest ns hfewest hns => ?_⟩
  · refine (wordsUntil_cases (specifiers fmt).length [] (Nat.lt_succ_self _)).imp_left ?_
    rintro ⟨lines, htaken, hfew, hrun⟩
    exact ⟨lines, htaken, hfew, by rw [hrun]; rfl⟩
  · have hwords := wordsUntil_of_fewest [] hfewest (Nat.lt_succ_self m.input.length)
    refine ⟨stored m.store addresses ns, ?_, stores_stored _ (heq.symm.trans hns.length_eq)⟩
    rw [hwords, List.nil_append]
    simp only [Option.elim_some, Run.execute_bind, execute_storeAll hns heq.symm]
    rfl

/-- Three numbers from lines of which one is empty. The first is written over by the last. -/
theorem scan_takes_repeated : ∃ (n x : Number) (s : Store),
    (scan (.scalar (.text "%d %f %d")) ([.int 100, .int 200, .int 100].map .scalar) .memory).execute
        (Machine.start " 7\n\n2.5 9 4\nx") =
      (.ok (.int 4), { Machine.start " 7\n\n2.5 9 4\nx" with input := ['x'], store := s }) ∧
    s.read? (.int 100) = some (.number n) ∧ n.ctype = .int ∧ n.value = .int 9 ∧
    s.read? (.int 200) = some (.number x) ∧ x.ctype = .float ∧ s.read? (.int 300) = none := by
  obtain ⟨-, -, -, htakes⟩ := scan_takes "%d %f %d" [.int 100, .int 200, .int 100]
    (Machine.start " 7\n\n2.5 9 4\nx")
  have hspecs : specifiers "%d %f %d" = [['%', 'd'], ['%', 'f'], ['%', 'd']] := by decide +kernel
  have hwords :
      [" 7".toList, [], "2.5 9 4".toList].flatMap Text.words = ["7", "2.5", "9", "4"] := by
    decide +kernel
  have hfewest : Fewest 3 " 7\n\n2.5 9 4\nx".toList [" 7".toList, [], "2.5 9 4".toList] ['x'] :=
    ⟨.line (l := " 7".toList) (by decide) (.line (l := []) (by decide)
      (.line (l := "2.5 9 4".toList) (by decide) (.none _))), by rw [hwords]; decide,
      by decide +kernel⟩
  obtain ⟨k, hk⟩ : ∃ k, Number.ofScalar .int (.text "7") = .ok k := ⟨_, rfl⟩
  obtain ⟨x, hx, hfloat⟩ : ∃ x, Number.ofScalar .float (.text "2.5") = .ok x ∧ x.ctype = .float :=
    ⟨_, Number.ofScalar_eq (l := (-2147483648, 2147483647)) rfl (by decide), rfl⟩
  obtain ⟨n, hn, hint, hnine⟩ : ∃ n, Number.ofScalar .int (.text "9") = .ok n ∧ n.ctype = .int ∧
      n.value = .int 9 := ⟨_, rfl, rfl, by decide⟩
  rw [hspecs] at htakes
  obtain ⟨s, hrun, hs⟩ := (htakes rfl).2 _ _ [k, x, n] hfewest
    (hwords ▸ .cons (.int (s := ['%']) hk) (.cons (.float (s := ['%']) hx)
      (.cons (.int (s := ['%']) hn) (.nil ["4"]))))
  rw [hwords] at hrun
  refine ⟨n, x, s, hrun, hs.numbers 2 _ n rfl rfl ?_, hint, hnine, hs.numbers 1 _ x rfl rfl ?_,
    hfloat, (hs.others (.int 300) (by decide)).trans rfl⟩
  · intro j b hj hb
    exact absurd (List.getElem?_eq_some_iff.1 hb).1 (Nat.not_lt_of_le hj)
  · intro j b hj hb
    obtain rfl : j = 2 := Nat.le_antisymm (Nat.le_of_lt_succ (List.getElem?_eq_some_iff.1 hb).1) hj
    obtain rfl := Option.some.inj hb
    decide

end Scan

end MiniC
