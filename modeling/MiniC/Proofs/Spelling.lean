import Mathlib.Data.List.Nodup
import MiniC.Number.Basic
import MiniC.Proofs.Printing

/-!
# The words of types

A text is cut into words at its spaces, and an arithmetic type is made of them from left to right.
The words are taken in groups: a sign, a length, which may be a double `long`, or a base with the
star that may follow it. A type is read exactly from its own groups, in any order, and only such
types are read that can be spelled.
-/

namespace MiniC

namespace CType

/-- What words say about a type together. -/
inductive Group where
  | sign (s : Sign)
  | length (l : Length)
  | base (b : Base) (star : Bool)

inductive Slot where
  | sign
  | length
  | base
  deriving DecidableEq

namespace Group

def slot : Group → Slot
  | sign _ => .sign
  | length _ => .length
  | base _ _ => .base

def words : Group → List String
  | sign .signed => ["signed"]
  | sign .unsigned => ["unsigned"]
  | length .short => ["short"]
  | length .long => ["long"]
  | length .longLong => ["long", "long"]
  | base b star => b.word :: if star then ["*"] else []

theorem words_ne_nil (g : Group) : g.words ≠ [] := by
  fun_cases words g <;> exact List.cons_ne_nil _ _

theorem space_not_mem {g : Group} {w : String} (hw : w ∈ g.words) : ' ' ∉ w.toList := by
  have hall : g.words.all (fun w => !w.toList.contains ' ') = true := by
    cases g with
    | sign s => cases s <;> decide
    | length l => cases l <;> decide
    | base b star => cases b <;> cases star <;> decide
  simpa using List.all_eq_true.1 hall w hw

/-- No group starts with a star, and only a length starts with `long`. -/
theorem head?_words (g : Group) :
    g.words.head? ≠ some "*" ∧ (g.words.head? = some "long" → g.slot = .length) := by
  cases g with
  | sign s => cases s <;> decide
  | length l => cases l <;> decide
  | base b star => cases b <;> cases star <;> decide

theorem head?_flatMap_words (gs : List Group) :
    (gs.flatMap words).head? ≠ some "*" ∧
      ((gs.flatMap words).head? = some "long" → .length ∈ gs.map slot) := by
  cases gs with
  | nil => simp
  | cons g gs =>
    obtain ⟨hstar, hlong⟩ := g.head?_words
    have hhead : ((g :: gs).flatMap words).head? = g.words.head? := by
      obtain ⟨w, ws, hw⟩ := List.exists_cons_of_ne_nil g.words_ne_nil
      rw [List.flatMap_cons, hw]
      rfl
    rw [hhead]
    exact ⟨hstar, fun h => List.mem_cons.2 (.inl (hlong h).symm)⟩

end Group

/-! ## The groups of a type -/

variable {t t' : CType} {g : Group} {gs : List Group} {ws : List String}

/-- The groups of a type, in the order of the canonical spelling. -/
def wordGroups (t : CType) : List Group :=
  (t.sign.map Group.sign).toList ++
    ((t.length.map Group.length).toList ++ (t.base.map (Group.base · t.pointer)).toList)

def add (t : CType) : Group → CType
  | .sign s => ⟨t.length, some s, t.base, t.pointer⟩
  | .length l => ⟨some l, t.sign, t.base, t.pointer⟩
  | .base b star => ⟨t.length, t.sign, some b, star⟩

def Lacks (t : CType) : Group → Prop
  | .sign _ => t.sign = none
  | .length _ => t.length = none
  | .base _ _ => t.base = none

theorem lacks_iff : t.Lacks g ↔ g.slot ∉ t.wordGroups.map Group.slot := by
  obtain ⟨l, s, b, p⟩ := t
  cases g with
  | sign => cases s <;> simp [wordGroups, Group.slot, Lacks]
  | length => cases l <;> simp [wordGroups, Group.slot, Lacks]
  | base => cases b <;> simp [wordGroups, Group.slot, Lacks]

def Pointed (t : CType) : Prop :=
  t.pointer = true → t.base.isSome

theorem Pointed.add (ht : t.Pointed) (g : Group) : (t.add g).Pointed := by
  cases g with
  | sign | length => exact ht
  | base => exact fun _ => rfl

theorem nodup_groups (t : CType) : (t.wordGroups.map Group.slot).Nodup := by
  obtain ⟨l, s, b, p⟩ := t
  cases l <;> cases s <;> cases b <;> simp [wordGroups, Group.slot]

/-- A type is known by its groups. -/
theorem eq_of_groups (ht : t.Pointed) (ht' : t'.Pointed)
    (h : ∀ g, g ∈ t.wordGroups ↔ g ∈ t'.wordGroups) : t = t' := by
  obtain ⟨l, s, b, p⟩ := t
  obtain ⟨l', s', b', p'⟩ := t'
  obtain rfl : l = l' := Option.ext fun l => by simpa [wordGroups] using h (.length l)
  obtain rfl : s = s' := Option.ext fun s => by simpa [wordGroups] using h (.sign s)
  have hbase (b₁ : Base) (p₁ : Bool) : b = some b₁ ∧ p = p₁ ↔ b' = some b₁ ∧ p' = p₁ := by
    simpa [wordGroups] using h (.base b₁ p₁)
  obtain rfl : b = b' := Option.ext fun b₁ =>
    ⟨fun hb => ((hbase b₁ p).1 ⟨hb, rfl⟩).1, fun hb => ((hbase b₁ p').2 ⟨hb, rfl⟩).1⟩
  cases b with
  | some b => rw [((hbase b p).1 ⟨rfl, rfl⟩).2]
  | none =>
    obtain rfl : p = false := by simpa [Pointed] using ht
    obtain rfl : p' = false := by simpa [Pointed] using ht'
    rfl

theorem groups_add (h : t.Lacks g) :
    (t.add g).wordGroups.Perm (g :: t.wordGroups) := by
  obtain ⟨l, s, b, p⟩ := t
  cases g with
  | sign s' =>
    obtain rfl : s = none := h
    exact .refl _
  | length l' =>
    obtain rfl : l = none := h
    exact List.perm_middle
  | base b' star =>
    obtain rfl : b = none := h
    simp only [wordGroups, add, ← List.append_assoc, Option.map_none, Option.toList_none,
      List.append_nil]
    exact List.perm_append_singleton _ _

/-- Groups that give different parts are the groups of a type. -/
theorem exists_groups (h : (gs.map Group.slot).Nodup) :
    ∃ t : CType, t.Pointed ∧ t.wordGroups.Perm gs := by
  induction gs with
  | nil => exact ⟨⟨none, none, none, false⟩, Bool.noConfusion, .refl _⟩
  | cons g gs ih =>
    obtain ⟨hfree, hrest⟩ := List.nodup_cons.1 h
    obtain ⟨t, ht, hgroups⟩ := ih hrest
    refine ⟨t.add g, ht.add g, (groups_add (lacks_iff.2 ?_)).trans (hgroups.cons g)⟩
    rwa [(hgroups.map _).mem_iff]

/-! ## Reading words -/

theorem base?_eq_some {w : String} {b : Base} (h : base? w = some b) : w = b.word := by
  unfold base? at h
  split at h <;> cases h <;> rfl

theorem length?_eq_some {w : String} {l : Length} (h : length? w = some l) :
    (Group.length l).words = [w] := by
  unfold length? at h
  split at h <;> cases h <;> rfl

theorem sign?_eq_some {w : String} {s : Sign} (h : sign? w = some s) :
    (Group.sign s).words = [w] := by
  unfold sign? at h
  split at h <;> cases h <;> rfl

/-- One group is read, whatever follows. -/
theorem extend_group (ht : t.Pointed) (h : t.Lacks g) (hstar : ws.head? ≠ some "*")
    (hlong : ws.head? = some "long" → g.slot ≠ .length) :
    extend t (g.words ++ ws) = extend (t.add g) ws := by
  obtain ⟨l, s, b, p⟩ := t
  cases g with
  | sign s' =>
    obtain rfl : s = none := h
    cases s' <;> rfl
  | length l' =>
    obtain rfl : l = none := h
    cases l' with
    | short | longLong => rfl
    | long =>
      cases ws with
      | nil => rfl
      | cons w ws =>
        have hw : w ≠ "long" := by
          rintro rfl
          exact hlong rfl rfl
        simp [Group.words, extend, base?, length?, hw, add]
  | base b' star =>
    obtain rfl : b = none := h
    obtain rfl : p = false := by simpa [Pointed] using ht
    have hread : base? b'.word = some b' := by cases b' <;> rfl
    cases star with
    | true => simp [Group.words, extend, hread, add]
    | false =>
      cases ws with
      | nil => simp [Group.words, extend, hread, add]
      | cons w ws =>
        have hw : w ≠ "*" := by
          rintro rfl
          exact hstar rfl
        simp [Group.words, extend, hread, hw, add]

/-- The groups that are missing from a type make it up in any order. -/
theorem extend_of_groups (ht : t.Pointed) (ht' : t'.Pointed)
    (h : t'.wordGroups.Perm (t.wordGroups ++ gs)) : extend t (gs.flatMap Group.words) = .ok t' := by
  induction gs generalizing t with
  | nil =>
    rw [List.append_nil] at h
    rw [eq_of_groups ht ht' fun g => h.mem_iff.symm]
    rfl
  | cons g gs ih =>
    have hnodup := (h.map Group.slot).nodup_iff.1 t'.nodup_groups
    rw [List.map_append, List.map_cons] at hnodup
    obtain ⟨-, hrest, hdisjoint⟩ := List.nodup_append.1 hnodup
    have hlacks : t.Lacks g := lacks_iff.2 fun hmem => hdisjoint _ hmem _ List.mem_cons_self rfl
    obtain ⟨hstar, hlong⟩ := Group.head?_flatMap_words gs
    have hother (hw : (gs.flatMap Group.words).head? = some "long") : g.slot ≠ .length := by
      intro hslot
      exact (List.nodup_cons.1 hrest).1 (hslot ▸ hlong hw)
    rw [List.flatMap_cons, extend_group ht hlacks hstar hother]
    refine ih (ht.add g) (h.trans ?_)
    exact List.perm_middle.trans ((groups_add hlacks).symm.append_right gs)

/-- What is read is made up of groups that were missing. -/
theorem groups_of_extend (h : extend t ws = .ok t') (ht : t.Pointed) :
    t'.Pointed ∧ ∃ gs, t'.wordGroups.Perm (t.wordGroups ++ gs) ∧ ws = gs.flatMap Group.words := by
  have hstep {u : CType} {ws : List String} (g : Group) (hlacks : u.Lacks g)
      (h : t'.Pointed ∧ ∃ gs, t'.wordGroups.Perm ((u.add g).wordGroups ++ gs) ∧
        ws = gs.flatMap Group.words) :
      t'.Pointed ∧ ∃ gs, t'.wordGroups.Perm (u.wordGroups ++ gs) ∧
        g.words ++ ws = gs.flatMap Group.words := by
    obtain ⟨ht', gs, hgs, rfl⟩ := h
    refine ⟨ht', g :: gs, hgs.trans ?_, rfl⟩
    exact ((groups_add hlacks).append_right gs).trans List.perm_middle.symm
  fun_induction extend t ws with
  | case1 t =>
    cases h
    exact ⟨ht, [], by simp, rfl⟩
  | case2 | case5 | case8 | case10 => cases h
  | case3 t w b hw hnone ws ih =>
    rw [base?_eq_some hw]
    exact hstep (.base b true) (Option.not_isSome_iff_eq_none.1 hnone) (ih h fun _ => rfl)
  | case4 t w b hw hnone ws _ ih =>
    obtain ⟨l, s, c, p⟩ := t
    obtain rfl : c = none := Option.not_isSome_iff_eq_none.1 hnone
    obtain rfl : p = false := by simpa [Pointed] using ht
    rw [base?_eq_some hw]
    exact hstep (.base b false) rfl (ih h fun _ => rfl)
  | case6 t w _ hnone ws hw ih =>
    obtain rfl : "long" = w := List.singleton_inj.1 (length?_eq_some hw)
    exact hstep (.length .longLong) (Option.not_isSome_iff_eq_none.1 hnone) (ih h ht)
  | case7 t w _ hnone l ws _ hw ih =>
    have hl := hstep (.length l) (Option.not_isSome_iff_eq_none.1 hnone) (ih h ht)
    rwa [length?_eq_some hw] at hl
  | case9 t w ws s hw _ _ hnone ih =>
    have hs := hstep (.sign s) (Option.not_isSome_iff_eq_none.1 hnone) (ih h ht)
    rwa [sign?_eq_some hw] at hs

theorem groups_ne_nil (ht : t.Spelled) : t.wordGroups ≠ [] := by
  obtain ⟨l, s, b, p⟩ := t
  obtain h | h := ht.1
  · obtain ⟨l, rfl⟩ := Option.isSome_iff_exists.1 h
    simp [wordGroups]
  · obtain ⟨b, rfl⟩ := Option.isSome_iff_exists.1 h
    simp [wordGroups]

/-- A type is read exactly from its own groups. -/
theorem ofWords_eq_ok_iff :
    ofWords ws = .ok t ↔ t.Spelled ∧ ∃ gs, t.wordGroups.Perm gs ∧ ws = gs.flatMap Group.words := by
  have hempty : Pointed ⟨none, none, none, false⟩ := Bool.noConfusion
  have hspelled {t : CType} :
      ¬(t.length.isNone && t.base.isNone) = true ↔ t.length.isSome ∨ t.base.isSome := by
    cases t.length <;> cases t.base <;> simp
  constructor
  · intro h
    cases hextend : extend ⟨none, none, none, false⟩ ws with
    | error =>
      rw [ofWords, hextend] at h
      cases h
    | ok u =>
      have hsome : (if u.length.isNone && u.base.isNone then .error .incomplete else .ok u) =
          Except.ok (ε := Malformed) t := by
        rwa [ofWords, hextend] at h
      split at hsome
      · cases hsome
      · next hnone =>
        cases hsome
        obtain ⟨hpointed, hgroups⟩ := groups_of_extend hextend hempty
        exact ⟨⟨hspelled.1 hnone, hpointed⟩, hgroups⟩
  · rintro ⟨ht, gs, hgs, rfl⟩
    rw [ofWords, extend_of_groups hempty ht.2 hgs]
    exact if_neg (hspelled.2 ht.1)

/-! ## Cutting a text into words -/

theorem piecesAt_ne_nil (c : Char) (cs : List Char) : Text.piecesAt c cs ≠ [] := by
  cases cs with
  | nil => simp [Text.piecesAt]
  | cons d cs =>
    rw [Text.piecesAt]
    split
    · simp
    · split <;> simp

theorem piecesAt_of_not_mem {c : Char} {w : List Char} (hw : c ∉ w) :
    Text.piecesAt c w = [w] := by
  induction w with
  | nil => rfl
  | cons d w ih =>
    obtain ⟨hd, hw⟩ := List.ne_and_not_mem_of_not_mem_cons hw
    simp [Text.piecesAt, ih hw, hd.symm]

theorem piecesAt_append {c : Char} {w : List Char} (hw : c ∉ w) (rest : List Char) :
    Text.piecesAt c (w ++ c :: rest) = w :: Text.piecesAt c rest := by
  induction w with
  | nil =>
    rw [List.nil_append, Text.piecesAt]
    split
    · next h => exact absurd h (piecesAt_ne_nil c rest)
    · next p ps h => simp [h]
  | cons d w ih =>
    obtain ⟨hd, hw⟩ := List.ne_and_not_mem_of_not_mem_cons hw
    simp [Text.piecesAt, ih hw, hd.symm]

/-- Words that are joined with spaces are found again. -/
theorem ofText_intercalate {ws : List String} (hne : ws ≠ []) (hws : ∀ w ∈ ws, ' ' ∉ w.toList) :
    ofText (" ".intercalate ws) = ofWords ws := by
  have hpieces {css : List (List Char)} (hne : css ≠ []) (hcss : ∀ cs ∈ css, ' ' ∉ cs) :
      Text.piecesAt ' ' ([' '].intercalate css) = css := by
    induction css with
    | nil => exact absurd rfl hne
    | cons cs css ih =>
      obtain ⟨hcs, hcss⟩ := List.forall_mem_cons.1 hcss
      cases css with
      | nil => simpa [List.intercalate] using piecesAt_of_not_mem hcs
      | cons ds css =>
        have hcons : [' '].intercalate (cs :: ds :: css) =
            cs ++ ' ' :: [' '].intercalate (ds :: css) := by
          simp [List.intercalate, List.intersperse]
        rw [hcons, piecesAt_append hcs, ih (by simp) hcss]
  have hmap : ∀ cs ∈ ws.map String.toList, ' ' ∉ cs := by
    simpa using hws
  have hfound := hpieces (by simpa using hne) hmap
  have hlist : (" ".intercalate ws).toList = [' '].intercalate (ws.map String.toList) :=
    String.toList_intercalate
  rw [ofText, hlist, hfound, List.map_map]
  simp

/-- Words are read as a type if and only if they are its groups, in some order. -/
theorem ofText_eq_ok_iff (hws : ∀ w ∈ ws, ' ' ∉ w.toList) :
    ofText (" ".intercalate ws) = .ok t ↔
      t.Spelled ∧ ∃ gs, t.wordGroups.Perm gs ∧ ws = gs.flatMap Group.words := by
  cases ws with
  | nil =>
    constructor
    · rintro ⟨⟩
    · rintro ⟨ht, gs, hgs, hnil⟩
      cases gs with
      | nil => exact absurd hgs.eq_nil (groups_ne_nil ht)
      | cons g => exact absurd (List.append_eq_nil_iff.1 hnil.symm).1 g.words_ne_nil
  | cons w ws => rw [ofText_intercalate (List.cons_ne_nil w ws) hws, ofWords_eq_ok_iff]

/-- The groups of a type are read as the type, in any order. -/
theorem ofText_of_groups (ht : t.Spelled) (h : t.wordGroups.Perm gs) :
    ofText (" ".intercalate (gs.flatMap Group.words)) = .ok t := by
  refine (ofText_eq_ok_iff fun w hw => ?_).2 ⟨ht, gs, h, rfl⟩
  obtain ⟨g, -, hw⟩ := List.mem_flatMap.1 hw
  exact g.space_not_mem hw

/-! ## The order of the groups -/

/-- Groups that give a type: no part is given twice, and there is a base or a length. -/
structure Composed (gs : List Group) : Prop where
  once : (gs.map Group.slot).Nodup
  enough : ∃ g ∈ gs, g.slot ≠ .sign

theorem composed_iff : Composed gs ↔ ∃ t : CType, t.Spelled ∧ t.wordGroups.Perm gs := by
  constructor
  · rintro ⟨honce, g, hg, hslot⟩
    obtain ⟨t, ht, hgroups⟩ := exists_groups honce
    refine ⟨t, ⟨?_, ht⟩, hgroups⟩
    have hmem := hgroups.mem_iff.2 hg
    cases g with
    | sign => exact absurd rfl hslot
    | length l => exact .inl (Option.isSome_iff_exists.2 ⟨l, by simpa [wordGroups] using hmem⟩)
    | base b star =>
      have hbase : t.base = some b ∧ t.pointer = star := by simpa [wordGroups] using hmem
      exact .inr (Option.isSome_iff_exists.2 ⟨b, hbase.1⟩)
  · rintro ⟨t, ht, hgroups⟩
    refine ⟨(hgroups.map _).nodup_iff.1 t.nodup_groups, ?_⟩
    obtain h | h := ht.1
    · obtain ⟨l, hl⟩ := Option.isSome_iff_exists.1 h
      exact ⟨.length l, hgroups.mem_iff.1 (by simp [wordGroups, hl]), Slot.noConfusion⟩
    · obtain ⟨b, hb⟩ := Option.isSome_iff_exists.1 h
      exact ⟨.base b t.pointer, hgroups.mem_iff.1 (by simp [wordGroups, hb]), Slot.noConfusion⟩

/-! ## Writing and reading again -/

theorem Spelled.canonical (ht : t.Spelled) : t.canonical.Spelled := by
  obtain ⟨l, s, b, p⟩ := t
  cases s with
  | none => exact ht
  | some s => cases s <;> exact ht

/-- The word `signed` makes no difference. -/
theorem canonical_agrees (t : CType) :
    t.canonical.render = t.render ∧
      t.canonical.size.mapError Fault.message = t.size.mapError Fault.message ∧
      t.canonical.limits.mapError Fault.message = t.limits.mapError Fault.message ∧
      t.canonical.isReal = t.isReal ∧ t.canonical.pointer = t.pointer := by
  obtain ⟨l, s, b, p⟩ := t
  cases s with
  | none => exact ⟨rfl, rfl, rfl, rfl, rfl⟩
  | some s =>
    cases s with
    | unsigned => exact ⟨rfl, rfl, rfl, rfl, rfl⟩
    | signed =>
      have hsize : size? ⟨l, none, b, p⟩ = size? ⟨l, some .signed, b, p⟩ := rfl
      have hlimits : limits? ⟨l, none, b, p⟩ = limits? ⟨l, some .signed, b, p⟩ := by
        rw [limits?, limits?, hsize]
        rfl
      refine ⟨rfl, ?_, ?_, rfl, rfl⟩
      · rw [canonical, size, size, hsize]
        cases size? ⟨l, some .signed, b, p⟩ <;> rfl
      · rw [canonical, limits, limits, hlimits]
        cases limits? ⟨l, some .signed, b, p⟩ <;> rfl

/-- A double `long` is one word of the canonical spelling. -/
theorem intercalate_long (ws ws' : List String) :
    " ".intercalate (ws ++ "long long" :: ws') =
      " ".intercalate (ws ++ "long" :: "long" :: ws') := by
  have hlong : " ".intercalate ("long long" :: ws') = " ".intercalate ("long" :: "long" :: ws') := by
    cases ws' with
    | nil => decide
    | cons w ws' =>
      simp only [String.intercalate_cons_cons, ← String.append_assoc]
      rfl
  cases ws with
  | nil => exact hlong
  | cons w ws =>
    rw [String.intercalate_append_of_ne_nil (by simp) (by simp), hlong,
      ← String.intercalate_append_of_ne_nil (by simp) (by simp)]

theorem render_eq_wordGroups (ht : t.Pointed) :
    t.render = " ".intercalate (t.canonical.wordGroups.flatMap Group.words) := by
  obtain ⟨l, s, b, p⟩ := t
  have hgroups : (canonical ⟨l, s, b, p⟩).wordGroups.flatMap Group.words =
      (if s = some .unsigned then ["unsigned"] else []) ++
        ((l.map Group.length).toList.flatMap Group.words ++
          (b.map (Group.base · p)).toList.flatMap Group.words) := by
    rw [← List.flatMap_append]
    cases s with
    | none => rfl
    | some s => cases s <;> rfl
  have hbase : (b.map (Group.base · p)).toList.flatMap Group.words =
      (b.map Base.word).toList ++ if p then ["*"] else [] := by
    cases b with
    | some b => simp [Group.words]
    | none =>
      obtain rfl : p = false := by simpa [Pointed] using ht
      rfl
  rw [render, words, hgroups, hbase, List.append_assoc, List.append_assoc]
  cases l with
  | none => rfl
  | some l =>
    cases l with
    | short | long => rfl
    | longLong => exact intercalate_long _ _

/-- Words are read as a type exactly if they are groups of which no two give the same part of it,
with a base or a length among them. The type depends on the groups and not on their order. Its
canonical spelling is read as a type that has the same spelling, size, limits, values and star. -/
theorem ofText_groups (hws : ∀ w ∈ ws, ' ' ∉ w.toList) :
    ((∃ t, ofText (" ".intercalate ws) = .ok t) ↔
      ∃ gs, Composed gs ∧ ws = gs.flatMap Group.words) ∧
    (∀ gs t, Composed gs → ws = gs.flatMap Group.words → ofText (" ".intercalate ws) = .ok t →
      (∀ g, g ∈ t.wordGroups ↔ g ∈ gs) ∧
      ∀ hs, Composed hs → (∀ g, g ∈ hs ↔ g ∈ gs) →
        ofText (" ".intercalate (hs.flatMap Group.words)) = .ok t) ∧
    ∀ t, ofText (" ".intercalate ws) = .ok t → ∃ u, ofText t.render = .ok u ∧
      u.render = t.render ∧ u.size.mapError Fault.message = t.size.mapError Fault.message ∧
      u.limits.mapError Fault.message = t.limits.mapError Fault.message ∧ u.isReal = t.isReal ∧
      u.pointer = t.pointer := by
  have hiff {t : CType} := ofText_eq_ok_iff (t := t) hws
  refine ⟨⟨?_, ?_⟩, ?_, ?_⟩
  · rintro ⟨t, h⟩
    obtain ⟨ht, gs, hgs, hwords⟩ := hiff.1 h
    exact ⟨gs, composed_iff.2 ⟨t, ht, hgs⟩, hwords⟩
  · rintro ⟨gs, hcomposed, hwords⟩
    obtain ⟨t, ht, hgs⟩ := composed_iff.1 hcomposed
    exact ⟨t, hiff.2 ⟨ht, gs, hgs, hwords⟩⟩
  · intro gs t hcomposed hwords h
    obtain ⟨t', ht', hgs⟩ := composed_iff.1 hcomposed
    obtain rfl : t' = t := Except.ok.inj ((hiff.2 ⟨ht', gs, hgs, hwords⟩).symm.trans h)
    refine ⟨fun g => hgs.mem_iff, fun hs hcomposed' hsame => ofText_of_groups ht' ?_⟩
    have hnodup {gs : List Group} (h : Composed gs) : gs.Nodup := .of_map _ h.once
    have hperm := (List.perm_ext_iff_of_nodup (hnodup hcomposed') (hnodup hcomposed)).2 hsame
    exact hgs.trans hperm.symm
  · intro t h
    obtain ⟨ht, -⟩ := hiff.1 h
    refine ⟨t.canonical, ?_, t.canonical_agrees⟩
    rw [render_eq_wordGroups ht.2]
    exact ofText_of_groups ht.canonical (.refl _)

/-- The words may stand in another order, and the word `signed` is left out in writing. -/
theorem ofText_groups_sample :
    (∀ w ∈ ["long", "long", "signed", "int", "*"], ' ' ∉ w.toList) ∧
    ∃ t, ofText (" ".intercalate ["long", "long", "signed", "int", "*"]) = .ok t := by
  have hspace : ∀ w ∈ ["long", "long", "signed", "int", "*"], ' ' ∉ w.toList := by decide
  refine ⟨hspace, (ofText_groups hspace).1.2 ?_⟩
  exact ⟨[.length .longLong, .sign .signed, .base .int true],
    ⟨by decide, _, List.mem_cons_self, by decide⟩, rfl⟩

end CType

namespace Grammar

open Tree Token CType

def word (k : Kind) : String :=
  (ofKind k).value.render

theorem kinds_ne_nil {t : CType} (ht : t.Spelled) : t.kinds ≠ [] := by
  obtain ⟨l, s, b, p⟩ := t
  intro h
  simp only [CType.kinds, List.append_eq_nil_iff] at h
  obtain hl | hb := ht.1
  · obtain ⟨l, rfl⟩ := Option.isSome_iff_exists.1 hl
    cases l <;> cases h.2.1
  · obtain ⟨b, rfl⟩ := Option.isSome_iff_exists.1 hb
    cases b <;> cases h.2.2

theorem space_not_mem_word {k : Kind} (hk : k.isTypeSpecifier = true) : ' ' ∉ (word k).toList := by
  cases k <;> first | decide | cases hk

/-- The words of a type are read as the type. -/
theorem ofText_kinds {t : CType} (ht : t.Spelled) :
    ofText (" ".intercalate (t.kinds.map word ++ if t.pointer then ["*"] else [])) = .ok t := by
  obtain ⟨l, s, b, p⟩ := t
  have hsign : (Sign.kinds s).map word = (s.map Group.sign).toList.flatMap Group.words := by
    cases s with
    | none => rfl
    | some s => cases s <;> rfl
  have hlength : (Length.kinds l).map word = (l.map Group.length).toList.flatMap Group.words := by
    cases l with
    | none => rfl
    | some l => cases l <;> rfl
  have hbase : ((Base.kinds b).map word ++ if p then ["*"] else []) =
      (b.map (Group.base · p)).toList.flatMap Group.words := by
    cases b with
    | none =>
      obtain rfl : p = false := by simpa using ht.2
      rfl
    | some b => cases b <;> simp [Group.words] <;> rfl
  rw [CType.kinds, List.map_append, List.map_append, List.append_assoc, List.append_assoc, hsign,
    hlength, hbase, ← List.flatMap_append, ← List.flatMap_append]
  exact ofText_of_groups ht (.refl _)

/-- Words without a star spell no pointer. -/
theorem pointer_of_words {words : List String} {ty : CType}
    (hwords : ∀ w ∈ words, ∃ k : Kind, k.isTypeSpecifier = true ∧ w = word k)
    (h : CType.ofText (" ".intercalate words) = .ok ty) : ty.pointer = false := by
  have hspace : ∀ w ∈ words, ' ' ∉ w.toList := by
    intro w hw
    obtain ⟨k, hk, rfl⟩ := hwords w hw
    exact space_not_mem_word hk
  have hstar : "*" ∉ words := by
    intro hw
    obtain ⟨k, hk, hword⟩ := hwords _ hw
    revert hk hword
    cases k <;> first | decide | exact nofun
  obtain ⟨ht, gs, hgs, rfl⟩ := (ofText_eq_ok_iff hspace).1 h
  refine Bool.eq_false_iff.2 fun hpointer => ?_
  obtain ⟨b, hb⟩ := Option.isSome_iff_exists.1 (ht.2 hpointer)
  have hmem : Group.base b true ∈ gs := hgs.mem_iff.1 (by simp [wordGroups, hb, hpointer])
  exact hstar (List.mem_flatMap.2 ⟨_, hmem, by simp [Group.words]⟩)

end Grammar

end MiniC
