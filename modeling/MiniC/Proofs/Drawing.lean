import MiniC.Diagram
import MiniC.Proofs.Effects
import MiniC.Proofs.Parsed

/-!
# A diagram is its tree

Where a tree can be drawn, the diagram has a node for each position in the tree and an edge for each
step from a position to one right below it. Positions are paths from the root; the numbers of the
nodes are their places in the order of the paths, which is the order in which the nodes are met. An
edge is written behind all that is drawn of the child, so the edges come in no such order; what is
kept along the way is that each number but that of the root is the child of one edge.
-/

namespace MiniC

variable {t c : Tree}

namespace Tree

/-- The parts of a tree that a diagram shows, which are all but the type of a function. -/
def drawn : Tree → List Tree
  | function _ _ ps b _ => ps ++ [b]
  | t => t.parts

def at? : Tree → List Nat → Option Tree
  | t, [] => some t
  | t, k :: p => t.drawn[k]?.bind (·.at? p)

def label : Tree → String
  | num token _ | var token _ => token.value.render
  | string token _ => "String:" ++ token.value.render
  | library name _ => "Include:" ++ name
  | function _ name _ _ _ => "FunctionDecl:" ++ name
  | call name _ _ => "FunctionCall:" ++ name
  | t => t.className

/-- The parts that a diagram shows, with the labels of the edges to them. -/
def branches : Tree → List (Tree × Option String)
  | call _ args _ => args.zipIdx.map fun (a, i) => (a, some (Diagram.argumentLabel i))
  | forLoop s c i b _ =>
    [(s, some "setup"), (c, some "condition"), (i, some "increment"), (b, some "body")]
  | t => t.drawn.map (·, none)

theorem map_fst_branches (t : Tree) : t.branches.map Prod.fst = t.drawn := by
  unfold branches
  split
  · exact (List.map_map ..).trans (List.zipIdx_map_fst ..)
  · rfl
  · exact (List.map_map ..).trans (List.map_id _)

theorem drawn_subset_parts (t : Tree) : t.drawn ⊆ t.parts := by
  unfold drawn
  split
  · simp [parts]
  · exact fun _ h => h

end Tree

namespace Diagram

inductive Line where
  | node (id : Nat) (label : String)
  | edge (parent child : Nat) (label : Option String)

namespace Line

def text : Line → String
  | node id label => "  node" ++ toString id ++ " [label=\"" ++ label ++ "\"]\n"
  | edge parent child label =>
    "  node" ++ toString parent ++ " -> node" ++ toString child ++
      (label.elim "" fun l => " [label=\"" ++ l ++ "\"]") ++ "\n"

def id? : Line → Option Nat
  | node id _ => some id
  | edge .. => none

def ends? : Line → Option (Nat × Nat)
  | node .. => none
  | edge parent child _ => some (parent, child)

end Line

def number (cs : List Char) : Nat × List Char :=
  (Nat.ofDigitChars 10 (cs.takeWhile Char.isDigit) 0, cs.dropWhile Char.isDigit)

def declared? (line : String) : Option Nat :=
  let (n, rest) := number (line.toList.drop 6)
  if " [".toList <+: rest then some n else none

def joined? (line : String) : Option (Nat × Nat) :=
  let (n, rest) := number (line.toList.drop 6)
  if " -> node".toList <+: rest then some (n, (number (rest.drop 8)).1) else none

theorem number_append (n : Nat) {c : Char} (hc : c.isDigit = false) (cs : List Char) :
    number ((toString n).toList ++ c :: cs) = (n, c :: cs) := by
  have hdigits : ∀ d ∈ Nat.toDigits 10 n, d.isDigit = true := fun d hd =>
    Nat.isDigit_of_mem_toDigits (by decide) (by decide) hd
  have htext : (toString n).toList = Nat.toDigits 10 n := by simp [toString, Nat.repr]
  have hc' : ¬ c.isDigit = true := by simp [hc]
  rw [number, htext, List.takeWhile_append_of_pos hdigits, List.dropWhile_append_of_pos hdigits,
    List.takeWhile_cons_of_neg hc', List.dropWhile_cons_of_neg hc', List.append_nil,
    Nat.ofDigitChars_ten_toDigits]

/-- The mark behind the number at the start of a line tells nodes and edges apart. -/
theorem read_text (l : Line) : declared? l.text = l.id? ∧ joined? l.text = l.ends? := by
  cases l with
  | node id label =>
    have h : number ((Line.node id label).text.toList.drop 6) =
        (id, ' ' :: '[' :: ("label=\"" ++ label ++ "\"]\n").toList) := by
      rw [← number_append id rfl]
      simp [Line.text]
    simp [declared?, joined?, h, Line.id?, Line.ends?]
  | edge parent child label =>
    obtain ⟨c, cs, hc, hcs⟩ : ∃ c cs, c.isDigit = false ∧
        ((label.elim "" fun l => " [label=\"" ++ l ++ "\"]") ++ "\n").toList = c :: cs := by
      cases label with
      | none => exact ⟨'\n', [], rfl, rfl⟩
      | some l => exact ⟨' ', ("[label=\"" ++ l ++ "\"]\n").toList, rfl, by simp⟩
    have h : number ((Line.edge parent child label).text.toList.drop 6) =
        (parent, ' ' :: ("-> node".toList ++ ((toString child).toList ++ c :: cs))) := by
      rw [← number_append parent rfl, ← hcs]
      simp [Line.text]
    have hchild := number_append child hc cs
    simp_all [declared?, joined?, Line.id?, Line.ends?]

def Numbers (n : Nat) (ps : List (List Nat)) (i : Nat) (p : List Nat) : Prop :=
  ∃ a, i = n + a ∧ ps[a]? = some p

/-- The lines show the root of a tree, with the number `n`, and the first `k` of its parts. -/
structure Shows (t : Tree) (k n : Nat) (ps : List (List Nat)) (ls : List Line) : Prop where
  positions : ∀ p, p ∈ ps ↔ (t.at? p).isSome = true ∧ ∀ i ∈ p.head?, i < k
  sorted : ps.Pairwise (· < ·)
  root : ps[0]? = some []
  nodes : ls.filterMap Line.id? = List.range' n ps.length
  labels : ∀ i p, Numbers n ps i p → ∃ u, t.at? p = some u ∧ Line.node i u.label ∈ ls
  edges : ∀ i j, (i, j) ∈ ls.filterMap Line.ends? →
    ∃ p k, Numbers n ps i p ∧ Numbers n ps j (p ++ [k])
  children : (n :: (ls.filterMap Line.ends?).map Prod.snd).Perm (List.range' n ps.length)

variable {n k i : Nat} {p : List Nat} {ps qs : List (List Nat)} {ls ls' : List Line}

theorem Numbers.unique {q : List Nat} (hp : Numbers n ps i p) (hq : Numbers n ps i q) : p = q := by
  obtain ⟨a, rfl, ha⟩ := hp
  obtain ⟨b, hb, hq⟩ := hq
  obtain rfl := Nat.add_left_cancel hb
  exact Option.some.inj (ha.symm.trans hq)

theorem Numbers.left (h : Numbers n ps i p) : Numbers n (ps ++ qs) i p := by
  obtain ⟨a, rfl, ha⟩ := h
  exact ⟨a, rfl, (List.getElem?_append_left (List.getElem?_eq_some_iff.1 ha).1).trans ha⟩

theorem Numbers.right (h : Numbers (n + ps.length) qs i p) :
    Numbers n (ps ++ qs.map (k :: ·)) i (k :: p) := by
  obtain ⟨a, rfl, ha⟩ := h
  refine ⟨ps.length + a, Nat.add_assoc .., ?_⟩
  rw [List.getElem?_append_right (Nat.le_add_right ..), Nat.add_sub_cancel_left,
    List.getElem?_map, ha]
  rfl

theorem Numbers.cases (h : Numbers n (ps ++ qs.map (k :: ·)) i p) :
    Numbers n ps i p ∨ ∃ q, p = k :: q ∧ Numbers (n + ps.length) qs i q := by
  obtain ⟨a, rfl, ha⟩ := h
  obtain hlt | hle := Nat.lt_or_ge a ps.length
  · exact .inl ⟨a, rfl, (List.getElem?_append_left hlt).symm.trans ha⟩
  · rw [List.getElem?_append_right hle, List.getElem?_map, Option.map_eq_some_iff] at ha
    obtain ⟨q, hq, rfl⟩ := ha
    exact .inr ⟨q, rfl, a - ps.length, by omega, hq⟩

namespace Shows

theorem mem_iff (h : Shows t t.drawn.length n ps ls) : p ∈ ps ↔ (t.at? p).isSome = true := by
  refine (h.positions p).trans (and_iff_left_of_imp fun hp i hi => ?_)
  cases p with
  | nil => cases hi
  | cons k p =>
    cases hi
    refine Nat.lt_of_not_le fun hk => ?_
    rw [Tree.at?, List.getElem?_eq_none hk] at hp
    cases hp

theorem start (t : Tree) (n : Nat) : Shows t 0 n [[]] [.node n t.label] where
  positions p := by cases p <;> simp [Tree.at?]
  sorted := List.pairwise_singleton ..
  root := rfl
  nodes := rfl
  labels i p h := by
    obtain ⟨_ | a, rfl, ha⟩ := h
    · cases ha
      exact ⟨t, rfl, List.mem_singleton.2 rfl⟩
    · cases ha
  edges i j h := absurd h List.not_mem_nil
  children := .refl _

/-- One more part: what it shows goes behind the rest, and the edge to it behind that. -/
theorem child (h : Shows t k n ps ls) (hc : t.drawn[k]? = some c)
    (hchild : Shows c c.drawn.length (n + ps.length) qs ls') (mark : Option String) :
    Shows t (k + 1) n (ps ++ qs.map (k :: ·)) (ls ++ ls' ++ [.edge n (n + ps.length) mark]) where
  positions p := by
    have hat (q : List Nat) : t.at? (k :: q) = c.at? q := by rw [Tree.at?, hc, Option.bind_some]
    rw [List.mem_append, List.mem_map, h.positions]
    constructor
    · rintro (⟨hp, hk⟩ | ⟨q, hq, rfl⟩)
      · exact ⟨hp, fun i hi => Nat.lt_succ_of_lt (hk i hi)⟩
      · exact ⟨hat q ▸ hchild.mem_iff.1 hq, fun i hi => by cases hi; exact Nat.lt_succ_self k⟩
    · rintro ⟨hp, hk⟩
      cases p with
      | nil => exact .inl ⟨hp, fun i hi => by cases hi⟩
      | cons i p =>
        obtain hlt | rfl := Nat.lt_succ_iff_lt_or_eq.1 (hk i rfl)
        · exact .inl ⟨hp, fun j hj => by cases hj; exact hlt⟩
        · exact .inr ⟨p, hchild.mem_iff.2 (hat p ▸ hp), rfl⟩
  sorted := by
    refine List.pairwise_append.2 ⟨h.sorted, ?_, fun p hp q hq => ?_⟩
    · exact hchild.sorted.map _ fun p q => List.cons_lt_cons_self.2
    · obtain ⟨q, -, rfl⟩ := List.mem_map.1 hq
      cases p with
      | nil => exact List.nil_lt_cons ..
      | cons i p => exact List.cons_lt_cons_iff.2 (.inl (((h.positions _).1 hp).2 i rfl))
  root := (List.getElem?_append_left (List.getElem?_eq_some_iff.1 h.root).1).trans h.root
  nodes := by
    rw [List.filterMap_append, List.filterMap_append, h.nodes, hchild.nodes, List.length_append,
      List.length_map, ← List.range'_append_1]
    exact List.append_nil _
  labels i p hp := by
    obtain hp | ⟨q, rfl, hq⟩ := hp.cases
    · obtain ⟨u, hu, hmem⟩ := h.labels i p hp
      exact ⟨u, hu, List.mem_append_left _ (List.mem_append_left _ hmem)⟩
    · obtain ⟨u, hu, hmem⟩ := hchild.labels i q hq
      refine ⟨u, ?_, List.mem_append_left _ (List.mem_append_right _ hmem)⟩
      rw [Tree.at?, hc, Option.bind_some, hu]
  edges i j hij := by
    rw [List.filterMap_append, List.filterMap_append, List.mem_append, List.mem_append] at hij
    obtain (hij | hij) | hij := hij
    · obtain ⟨p, l, hi, hj⟩ := h.edges i j hij
      exact ⟨p, l, hi.left, hj.left⟩
    · obtain ⟨p, l, hi, hj⟩ := hchild.edges i j hij
      exact ⟨k :: p, l, hi.right, hj.right⟩
    · obtain ⟨rfl, rfl⟩ := Prod.mk.inj (List.mem_singleton.1 hij)
      exact ⟨[], k, Numbers.left ⟨0, rfl, h.root⟩, Numbers.right ⟨0, rfl, hchild.root⟩⟩
  children := by
    rw [List.length_append, List.length_map, ← List.range'_append_1]
    refine .trans ?_ (h.children.append hchild.children)
    simp only [List.filterMap_append, List.map_append, List.append_assoc, List.cons_append]
    exact .cons _ (.append_left _ (List.perm_append_singleton ..))

end Shows

def branch (n : Nat) (b : Tree × Option String) : Draw Unit := do
  edge n (← draw b.1) b.2

theorem drawAll_eq (n : Nat) (ts : List Tree) :
    drawAll n ts = (ts.map (·, none)).forM (branch n) := by
  induction ts with
  | nil => rfl
  | cons t ts ih => simp [drawAll, ih, branch]

theorem drawArgs_eq (n i : Nat) (ts : List Tree) :
    drawArgs n i ts =
      ((ts.zipIdx i).map fun (a, i) => (a, some (argumentLabel i))).forM (branch n) := by
  induction ts generalizing i with
  | nil => rfl
  | cons t ts ih => simp [drawArgs, ih, branch]

/-- A tree that can be drawn is drawn in one way: its node, and then its parts. -/
theorem run_draw {m : Nat} {d d' : Diagram} (h : (draw t).run d = (.ok m, d')) :
    (do let n ← node t.label; t.branches.forM (branch n); return n : Draw Nat).run d =
      (.ok m, d') := by
  cases t with
  | noOp | num | string | var | library | program | block | body | sequence | varDecl | param
  | function | call | returning | whileLoop | doWhile | forLoop =>
    rw [← h]
    simp [draw, drawAll_eq, drawArgs_eq, branch, Tree.branches, Tree.drawn, Tree.parts, Tree.label,
      Tree.className]
  | ifElse =>
    simp only [draw, run_bind_ok] at h
    obtain ⟨_, _, _, _, _, _, _, _, _, ⟨⟩⟩ := h
  | _ =>
    simp only [draw] at h
    cases h

def Reached (t : Tree) (k : Nat) (d d' : Diagram) : Prop :=
  ∃ ps ls, d' = ⟨d.next + ps.length, d.lines ++ ls.map Line.text⟩ ∧ Shows t k d.next ps ls

def Draws (t : Tree) : Prop :=
  ∀ ⦃d m d'⦄, (draw t).run d = (.ok m, d') → m = d.next ∧ Reached t t.drawn.length d d'

variable {d d₁ d' : Diagram}

theorem Reached.node {m : Nat} (h : (node t.label).run d = (.ok m, d')) :
    m = d.next ∧ Reached t 0 d d' := by
  cases h
  exact ⟨rfl, [[]], _, rfl, .start t d.next⟩

theorem Reached.branch {mark : Option String} (h : Reached t k d d₁)
    (hc : t.drawn[k]? = some c) (hdraws : Draws c)
    (hrun : (branch d.next (c, mark)).run d₁ = (.ok (), d')) : Reached t (k + 1) d d' := by
  obtain ⟨ps, ls, rfl, hshows⟩ := h
  obtain ⟨m, d₂, hdraw, hedge⟩ := run_bind_ok.1 hrun
  obtain ⟨rfl, qs, ls', rfl, hchild⟩ := hdraws hdraw
  cases hedge
  refine ⟨_, _, ?_, hshows.child hc hchild mark⟩
  simp [Line.text, Nat.add_assoc]

theorem Reached.forM {bs : List (Tree × Option String)} (h : Reached t k d d₁)
    (hbs : t.drawn.drop k = bs.map Prod.fst) (hdraws : ∀ b ∈ bs, Draws b.1)
    (hrun : (bs.forM (Diagram.branch d.next)).run d₁ = (.ok (), d')) :
    Reached t (k + bs.length) d d' := by
  induction bs generalizing k d₁ with
  | nil =>
    cases hrun
    exact h
  | cons b bs ih =>
    obtain ⟨hb, hdraws⟩ := List.forall_mem_cons.1 hdraws
    obtain ⟨_, d₂, hfirst, hrest⟩ := run_bind_ok.1 hrun
    have hc : t.drawn[k]? = some b.1 := by
      rw [← Nat.add_zero k, ← List.getElem?_drop, hbs]
      rfl
    have hbs : t.drawn.drop (k + 1) = bs.map Prod.fst := by
      rw [← List.drop_drop, hbs]
      rfl
    rw [List.length_cons, Nat.add_comm bs.length, ← Nat.add_assoc]
    exact ih (h.branch hc hb hfirst) hbs hdraws hrest

theorem draws (t : Tree) : Draws t := by
  induction t using Tree.parts_induction with
  | h t ih =>
    intro d m d' h
    obtain ⟨n, d₁, hnode, hrest⟩ := run_bind_ok.1 (run_draw h)
    obtain ⟨_, d₂, hbranches, ⟨⟩⟩ := run_bind_ok.1 hrest
    obtain ⟨rfl, hstart⟩ := Reached.node hnode
    have hparts := t.map_fst_branches
    refine ⟨rfl, ?_⟩
    rw [← hparts, List.length_map, ← Nat.zero_add t.branches.length]
    refine hstart.forM hparts.symm (fun b hb => ih b.1 (t.drawn_subset_parts ?_)) hbranches
    exact hparts ▸ List.mem_map_of_mem hb

/-- A position comes before those below it. -/
theorem lt_append_singleton (p : List Nat) (k : Nat) : p < p ++ [k] := by
  induction p with
  | nil => exact List.nil_lt_cons ..
  | cons i p ih => exact List.cons_lt_cons_self.2 ih

theorem shows_of_ofTree {lines : List String} (h : ofTree t = (.ok (), lines)) :
    ∃ ps ls, lines = ls.map Line.text ∧ Shows t t.drawn.length 1 ps ls := by
  obtain ⟨hok, rfl⟩ := Prod.mk.inj h
  obtain ⟨m, d, hdraw, hend⟩ := run_bind_ok.1 (Prod.ext hok rfl)
  obtain ⟨rfl, ps, ls, rfl, hshows⟩ := draws t hdraw
  exact ⟨ps, ls, (congrArg (lines ·.2) hend).symm, hshows⟩

namespace Shows

variable {i' j l : Nat} {q : List Nat}

theorem number_lt (h : Shows t k n ps ls) (hp : Numbers n ps i p) (hq : Numbers n ps j q)
    (hpq : p < q) : i < j := by
  obtain ⟨a, rfl, ha⟩ := hp
  obtain ⟨b, rfl, hb⟩ := hq
  obtain ⟨ha', rfl⟩ := List.getElem?_eq_some_iff.1 ha
  obtain ⟨hb', rfl⟩ := List.getElem?_eq_some_iff.1 hb
  have hsorted := List.pairwise_iff_getElem.1 h.sorted
  obtain hab | rfl | hba := Nat.lt_trichotomy a b
  · exact Nat.add_lt_add_left hab n
  · exact absurd hpq (List.lt_irrefl _)
  · exact absurd hpq (List.lt_asymm (hsorted b a hb' ha' hba))

theorem number_inj (h : Shows t k n ps ls) (hi : Numbers n ps i p) (hj : Numbers n ps j p) :
    i = j := by
  obtain ⟨a, rfl, ha⟩ := hi
  obtain ⟨b, rfl, hb⟩ := hj
  have hnodup : ps.Nodup := h.sorted.imp fun {p q} hpq (heq : p = q) =>
    List.lt_irrefl q (heq ▸ hpq)
  rw [(List.getElem?_inj (List.getElem?_eq_some_iff.1 ha).1 hnodup).1 (ha.trans hb.symm)]

/-- Each number but that of the root is the child of an edge. -/
theorem exists_edge (h : Shows t k n ps ls) (hn : n < j) (hj : j < n + ps.length) :
    ∃ i, (i, j) ∈ ls.filterMap Line.ends? := by
  have hmem := h.children.mem_iff.2 (List.mem_range'_1.2 ⟨Nat.le_of_lt hn, hj⟩)
  obtain rfl | hmem := List.mem_cons.1 hmem
  · exact absurd hn (Nat.lt_irrefl j)
  · obtain ⟨⟨i, _⟩, hij, rfl⟩ := List.mem_map.1 hmem
    exact ⟨i, hij⟩

theorem parent_unique (h : Shows t k n ps ls) (hi : Numbers n ps i p)
    (hj : Numbers n ps j (p ++ [l])) (hij : (i', j) ∈ ls.filterMap Line.ends?) : i' = i := by
  obtain ⟨p', l', hi', hj'⟩ := h.edges i' j hij
  have hp : p' ++ [l'] = p ++ [l] := hj'.unique hj
  exact h.number_inj (List.append_inj_left' hp rfl ▸ hi') hi

theorem mem_edges_iff (h : Shows t k n ps ls) : (i, j) ∈ ls.filterMap Line.ends? ↔
    ∃ p l, Numbers n ps i p ∧ Numbers n ps j (p ++ [l]) := by
  refine ⟨h.edges i j, ?_⟩
  rintro ⟨p, l, hi, hj⟩
  have hroot : n < j := h.number_lt ⟨0, rfl, h.root⟩ hj (by cases p <;> exact List.nil_lt_cons ..)
  have hlt : j < n + ps.length := by
    obtain ⟨b, rfl, hb⟩ := hj
    exact Nat.add_lt_add_left (List.getElem?_eq_some_iff.1 hb).1 n
  obtain ⟨i', hij⟩ := h.exists_edge hroot hlt
  exact h.parent_unique hi hj hij ▸ hij

theorem nodup_edges (h : Shows t k n ps ls) : (ls.filterMap Line.ends?).Nodup :=
  List.Pairwise.of_map Prod.snd (fun _ _ => mt (congrArg Prod.snd))
    (List.nodup_cons.1 (h.children.nodup_iff.2 (List.nodup_range' ..))).2

theorem length_edges (h : Shows t k n ps ls) :
    (ls.filterMap Line.ends?).length + 1 = ps.length := by
  simpa using h.children.length_eq

end Shows

/-- The lines declare the positions of a tree, which are all its nodes but the types of functions,
as the nodes from 1 on, and join each of them to those right below it. -/
structure Depicts (t : Tree) (ps : List (List Nat)) (lines : List String) : Prop where
  positions : ∀ p, p ∈ ps ↔ (t.at? p).isSome = true
  /-- A position comes before those below it and those to its right. -/
  sorted : ps.Pairwise (· < ·)
  /-- A line declares a node or joins two, never both. -/
  kinds : ∀ l ∈ lines, (joined? l).isSome = !(declared? l).isSome
  nodes : lines.filterMap declared? = List.range' 1 ps.length
  labels : ∀ i p, Numbers 1 ps i p → ∃ u, t.at? p = some u ∧ (Line.node i u.label).text ∈ lines
  nodup : (lines.filterMap joined?).Nodup
  length : (lines.filterMap joined?).length = ps.length - 1
  edges : ∀ i j, (i, j) ∈ lines.filterMap joined? ↔
    ∃ p k, Numbers 1 ps i p ∧ Numbers 1 ps j (p ++ [k])
  parents : ∀ j, 1 < j → j ≤ ps.length →
    ∃ i < j, ∀ i', (i', j) ∈ lines.filterMap joined? ↔ i' = i

theorem ofTree_depicts {lines : List String} (h : ofTree t = (.ok (), lines)) :
    ∃ ps, Depicts t ps lines := by
  obtain ⟨ps, ls, rfl, hshows⟩ := shows_of_ofTree h
  have hnodes : (ls.map Line.text).filterMap declared? = ls.filterMap Line.id? := by
    rw [List.filterMap_map]
    exact congrArg (ls.filterMap ·) (funext fun l => (read_text l).1)
  have hedges : (ls.map Line.text).filterMap joined? = ls.filterMap Line.ends? := by
    rw [List.filterMap_map]
    exact congrArg (ls.filterMap ·) (funext fun l => (read_text l).2)
  refine ⟨ps, {
    positions := fun p => hshows.mem_iff
    sorted := hshows.sorted
    nodes := hnodes.trans hshows.nodes
    nodup := hedges ▸ hshows.nodup_edges
    length := hedges ▸ Nat.eq_sub_of_add_eq hshows.length_edges
    edges := fun i j => hedges ▸ hshows.mem_edges_iff
    kinds := List.forall_mem_map.2 fun l _ => ?_
    labels := fun i p hp => ?_
    parents := fun j hj hle => ?_ }⟩
  · rw [(read_text l).1, (read_text l).2]
    cases l <;> rfl
  · obtain ⟨u, hu, hmem⟩ := hshows.labels i p hp
    exact ⟨u, hu, List.mem_map_of_mem hmem⟩
  · obtain ⟨i, hij⟩ := hshows.exists_edge hj (Nat.lt_one_add_iff.2 hle)
    obtain ⟨p, k, hi, hj⟩ := hshows.edges i j hij
    refine ⟨i, hshows.number_lt hi hj (lt_append_singleton p k), fun i' => hedges ▸ ?_⟩
    exact ⟨hshows.parent_unique hi hj, fun heq => heq ▸ hij⟩

theorem ofTree_depicts_calls : ∃ t lines ps,
    Program.parse "int main()\x7b while (f(1, x)) \x7b g(h(), 2); \x7d return 0; \x7d" = .ok t ∧
    ofTree t = (.ok (), lines) ∧ Depicts t ps lines := by
  have hparsed : ∃ t,
      Program.parse "int main()\x7b while (f(1, x)) \x7b g(h(), 2); \x7d return 0; \x7d" = .ok t ∧
      decide ((ofTree t).1 = .ok ()) = true := by
    refine Program.exists_parsed (P := fun t => (ofTree t).1 = .ok ()) ?_
    decide +kernel
  obtain ⟨t, hp, hok⟩ := hparsed
  have h : ofTree t = (.ok (), (ofTree t).2) := Prod.ext (of_decide_eq_true hok) rfl
  obtain ⟨ps, hdepicts⟩ := ofTree_depicts h
  exact ⟨t, _, ps, hp, h, hdepicts⟩

end Diagram

end MiniC
