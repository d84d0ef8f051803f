-- SUMMARY: The node table of an octree holds every node once and in order, and its look-ups find leaves, children and nodes by name.
import CurvePartition.Octree.Basic
import CurvePartition.Proofs.Leaves.Siblings
import CurvePartition.Proofs.Sorted.Counting
import CurvePartition.Proofs.Sorted.Sums

/-!
# The node table

The nodes of a tree are the root and the octants of the cells that are split (`Leaves.HasNode`). The table lists each
of them at exactly one position, coarser nodes first and by key within a level. As a level is a contiguous part of the
table in key order, the binary search of `Octree.slot` finds every node, and eight children stand next to each other.
-/

namespace CurvePartition

open Key Node

variable {depth : Nat}

/-- The order of a node table: coarser nodes first, by key within a level. -/
def Node.Before (m n : Node) : Prop := m.level < n.level ∨ m.level = n.level ∧ m.first < n.first

theorem Node.Before.irrefl (n : Node) : ¬ n.Before n := by
  simp [Before]

theorem Node.Before.trans {l m n : Node} (hlm : l.Before m) (hmn : m.Before n) : l.Before n := by
  unfold Before at *
  omega

/-- No cell comes between two neighbouring octants, as their starts differ by one extent. -/
theorem Node.not_between_children {m n : Node} (hm : m.IsCell depth) (hn : n.IsCell depth) (hlt : n.level < depth)
    {k : Nat} (hk : k + 1 < 8) (hafter : (n.child depth k).Before m) : ¬ m.Before (n.child depth (k + 1)) := by
  intro hbefore
  have hlevel : m.level = n.level + 1 := by
    simp only [Before, level_child] at hafter hbefore
    omega
  have hlt₁ : (n.child depth k).first < m.first := by
    simp only [Before, level_child] at hafter
    omega
  have hlt₂ : m.first < (n.child depth (k + 1)).first := by
    simp only [Before, level_child] at hbefore
    omega
  have haligned := hm.aligned
  rw [hlevel] at haligned
  have hgap := add_le_of_dvd (hn.child hlt (by omega : k < 8)).aligned haligned hlt₁
  rw [first_child, level_child, Nat.add_assoc, ← Nat.succ_mul] at hgap
  exact Nat.not_lt.2 hgap hlt₂

/-! ## Nodes of a tree -/

namespace Leaves

variable {t : Leaves depth} {n : Node} {i : Nat}

/-- Whether a cell is a node of the tree: the root, or an octant of a cell that is split. -/
def HasNode (t : Leaves depth) (n : Node) : Prop :=
  n.IsCell depth ∧ (n.level = 0 ∨ t.Splits (n.parent depth))

theorem hasNode_root (t : Leaves depth) : t.HasNode Node.root := ⟨isCell_root depth, .inl rfl⟩

theorem hasNode_node (ht : t.isValid = true) (hi : i < t.count) : t.HasNode (t.node i) := by
  refine ⟨isCell_node ht hi, ?_⟩
  rcases Nat.eq_zero_or_pos (t.level i) with hzero | hpos
  · exact .inl hzero
  · exact .inr (splits_parent_node ht hi hpos)

theorem hasNode_of_splits (hn : n.IsCell depth) (hs : t.Splits n) : t.HasNode n :=
  ⟨hn, .inr (hs.mono (n.inside_ancestor (Nat.sub_le _ _)) hn hn.parent)⟩

theorem parent_child (hn : n.IsCell depth) (hlt : n.level < depth) {octant : Nat} (ho : octant < 8) :
    (n.child depth octant).parent depth = n :=
  (child_inside hlt ho).ancestor_eq hn

theorem hasNode_child (hn : n.IsCell depth) (hs : t.Splits n) {octant : Nat} (ho : octant < 8) :
    t.HasNode (n.child depth octant) := by
  have hlt := hs.level_lt hn
  exact ⟨hn.child hlt ho, .inr (by rwa [parent_child hn hlt ho])⟩

/-- A node of the tree that is not split is a leaf. -/
theorem HasNode.exists_node (h : t.HasNode n) (ht : t.isValid = true) (hnot : ¬ t.Splits n) :
    ∃ i < t.count, t.node i = n :=
  Leaves.exists_node ht h.1 hnot h.2

theorem node_inj (ht : t.isValid = true) {j : Nat} (hi : i < t.count) (hj : j < t.count)
    (h : t.node i = t.node j) : i = j :=
  (ascends_of_isValid ht).start_inj (Nat.le_of_lt hi) (Nat.le_of_lt hj) (congrArg Node.first h)

end Leaves

namespace Octree

open Leaves

variable {t : Leaves depth} {level i j : Nat} {n : Node} {leaf : Option Nat}

/-! ## Levels -/

/-- Whether an optional leaf is the leaf of a node, if it is one. -/
def IsLeafOf (t : Leaves depth) (n : Node) (leaf : Option Nat) : Prop :=
  ∀ l, leaf = some l ↔ l < t.count ∧ t.node l = n

/-- A cell that is split starts with a finer leaf. -/
theorem exists_first_leaf (ht : t.isValid = true) (hn : n.IsCell depth) (hs : t.Splits n) :
    ∃ i < t.count, t.start i = n.first ∧ n.level < t.level i := by
  have ha := ascends_of_isValid ht
  obtain ⟨i, hle, hstart⟩ := closed_of_isValid ht n hn hs 0 (by decide)
  rw [child_zero_first] at hstart
  have hi : i < t.count := ha.lt_of_start_lt hle (by rw [hstart, ha.start_count]; exact hn.first_lt)
  refine ⟨i, hi, hstart, Nat.not_le.1 fun hlevel => ?_⟩
  refine not_splits_of_inside_node ht hi hn ?_ hs
  have hmem : (t.node i).first ≤ n.first ∧ n.first < (t.node i).stop depth :=
    ⟨Nat.le_of_eq hstart, hstart ▸ (t.node i).first_lt_stop⟩
  exact inside_of_mem hn (isCell_node ht hi) hlevel ⟨Nat.le_refl _, n.first_lt_stop⟩ hmem

/-- A cell that starts with a finer leaf is split. -/
theorem splits_of_level_lt (ht : t.isValid = true) (hi : i < t.count) (hlt : level < t.level i)
    (hdvd : extent depth level ∣ t.start i) :
    Node.IsCell depth ⟨t.start i, level⟩ ∧ t.Splits ⟨t.start i, level⟩ := by
  have hm := isCell_node ht hi
  have hcell : Node.IsCell depth ⟨t.start i, level⟩ :=
    ⟨Nat.le_trans (Nat.le_of_lt hlt) hm.level_le, hdvd, hm.first_lt⟩
  refine ⟨hcell, (splits_iff_exists_leaf ht hcell).2 ⟨i, hi, hlt, Nat.le_of_lt hlt, Nat.le_refl _, ?_⟩⟩
  exact (Node.mk (t.start i) level).first_lt_stop

theorem mem_levelNodes (ht : t.isValid = true) :
    (n, leaf) ∈ levelNodes t level ↔ n.level = level ∧ t.HasNode n ∧ IsLeafOf t n leaf := by
  simp only [levelNodes, List.mem_filterMap, List.mem_range]
  constructor
  · rintro ⟨i, hi, hentry⟩
    split at hentry
    · rename_i hlevel
      obtain ⟨rfl, rfl⟩ : t.node i = n ∧ some i = leaf := by simpa using hentry
      refine ⟨hlevel, hasNode_node ht hi, fun l => ?_⟩
      rw [Option.some.injEq]
      exact ⟨fun h => h ▸ ⟨hi, rfl⟩, fun h => node_inj ht hi h.1 h.2.symm⟩
    · split at hentry
      · rename_i hlower
        obtain ⟨rfl, rfl⟩ : ⟨t.start i, level⟩ = n ∧ none = leaf := by simpa using hentry
        obtain ⟨hcell, hs⟩ := splits_of_level_lt ht hi hlower.1 (isAligned_iff.1 hlower.2)
        refine ⟨rfl, hasNode_of_splits hcell hs, fun l => ?_⟩
        simp only [reduceCtorEq, false_iff, not_and]
        intro hl heq
        exact not_splits_node ht hl (heq ▸ hs)
      · cases hentry
  · rintro ⟨rfl, hnode, hleaf⟩
    by_cases hs : t.Splits n
    · obtain ⟨i, hi, hstart, hlt⟩ := exists_first_leaf ht hnode.1 hs
      have hnone : leaf = none := by
        cases hl : leaf with
        | none => rfl
        | some l =>
          obtain ⟨hl, heq⟩ := (hleaf l).1 hl
          exact absurd (heq ▸ hs) (not_splits_node ht hl)
      refine ⟨i, hi, ?_⟩
      rw [if_neg (by omega), if_pos ⟨hlt, isAligned_iff.2 (hstart ▸ hnode.1.aligned)⟩, hstart, hnone]
    · obtain ⟨i, hi, rfl⟩ := hnode.exists_node ht hs
      exact ⟨i, hi, by rw [(hleaf i).2 ⟨hi, rfl⟩, if_pos (show t.level i = (t.node i).level from rfl)]⟩

theorem pairwise_levelNodes (ht : t.isValid = true) (level : Nat) :
    (levelNodes t level).Pairwise fun a b => a.1.first < b.1.first := by
  have first_eq : ∀ i e, (if t.level i = level then some (t.node i, some i)
      else if level < t.level i ∧ Key.isAligned depth level (t.start i) then some (⟨t.start i, level⟩, none)
      else none) = some e → e.1.first = t.start i := by
    intro i e he
    split at he
    · cases he
      rfl
    · split at he <;> cases he
      rfl
  refine List.pairwise_filterMap.2 (List.pairwise_lt_range.imp_of_mem ?_)
  intro i j _ hj hij a ha b hb
  rw [first_eq i a ha, first_eq j b hb]
  exact (ascends_of_isValid ht).start_lt hij (Nat.le_of_lt (List.mem_range.1 hj))

/-! ## All nodes -/

/-- The entries of the levels above `level`. -/
def entriesAbove (t : Leaves depth) (level : Nat) : List (Node × Option Nat) :=
  ((List.range level).map (levelNodes t)).flatten

theorem mem_entriesAbove (ht : t.isValid = true) :
    (n, leaf) ∈ entriesAbove t level ↔ n.level < level ∧ t.HasNode n ∧ IsLeafOf t n leaf := by
  simp only [entriesAbove, List.mem_flatten, List.mem_map, List.mem_range]
  constructor
  · rintro ⟨_, ⟨l, hl, rfl⟩, hmem⟩
    obtain ⟨rfl, h⟩ := (mem_levelNodes ht).1 hmem
    exact ⟨hl, h⟩
  · rintro ⟨hl, h⟩
    exact ⟨_, ⟨n.level, hl, rfl⟩, (mem_levelNodes ht).2 ⟨rfl, h⟩⟩

theorem pairwise_entriesAbove (ht : t.isValid = true) (level : Nat) :
    (entriesAbove t level).Pairwise fun a b => a.1.Before b.1 := by
  refine List.pairwise_flatten.2 ⟨fun l hl => ?_, ?_⟩
  · obtain ⟨k, _, rfl⟩ := List.mem_map.1 hl
    refine (pairwise_levelNodes ht k).imp_of_mem fun {a b} ha hb hlt => .inr ⟨?_, hlt⟩
    rw [((mem_levelNodes ht).1 ha).1, ((mem_levelNodes ht).1 hb).1]
  · refine List.pairwise_map.2 (List.pairwise_lt_range.imp fun {k l} hkl a ha b hb => .inl ?_)
    rwa [((mem_levelNodes ht).1 ha).1, ((mem_levelNodes ht).1 hb).1]

theorem entriesAbove_add (t : Leaves depth) (level k : Nat) : entriesAbove t (level + k) =
    entriesAbove t level ++ ((List.range k).map fun j => levelNodes t (level + j)).flatten := by
  simp [entriesAbove, List.range_add, Function.comp_def]

theorem length_entriesAbove_le (t : Leaves depth) {whole : Nat} (h : level ≤ whole) :
    (entriesAbove t level).length ≤ (entriesAbove t whole).length := by
  obtain ⟨k, rfl⟩ := Nat.exists_eq_add_of_le h
  rw [entriesAbove_add, List.length_append]
  exact Nat.le_add_right _ _

/-- The entries of the coarser levels come first. -/
theorem lt_length_entriesAbove_iff (ht : t.isValid = true) {whole : Nat} (hlevel : level ≤ whole)
    (hi : i < (entriesAbove t whole).length) :
    i < (entriesAbove t level).length ↔ ((entriesAbove t whole)[i]).1.level < level := by
  obtain ⟨k, rfl⟩ := Nat.exists_eq_add_of_le hlevel
  have hfiner : ∀ e ∈ ((List.range k).map fun j => levelNodes t (level + j)).flatten, level ≤ e.1.level := by
    intro e he
    obtain ⟨_, hl, hmem⟩ := List.mem_flatten.1 he
    obtain ⟨j, _, rfl⟩ := List.mem_map.1 hl
    rw [((mem_levelNodes ht).1 hmem).1]
    exact Nat.le_add_right level j
  constructor
  · intro hlt
    simp only [entriesAbove_add, List.getElem_append_left hlt]
    exact ((mem_entriesAbove ht).1 (List.getElem_mem hlt)).1
  · intro hlt
    by_contra hge
    simp only [entriesAbove_add, List.getElem_append_right (Nat.not_lt.1 hge)] at hlt
    exact absurd (hfiner _ (List.getElem_mem _)) (Nat.not_le.2 hlt)

/-! ## Positions -/

theorem size_ofLeaves (t : Leaves depth) : (ofLeaves t).size = (entriesAbove t (depth + 1)).length := by
  change ((entriesAbove t (depth + 1)).toArray.map (·.1)).size = _
  simp

theorem node_ofLeaves (hi : i < (entriesAbove t (depth + 1)).length) :
    (ofLeaves t).node i = ((entriesAbove t (depth + 1))[i]).1 := by
  change ((entriesAbove t (depth + 1)).toArray.map (·.1)).getD i Node.root = _
  simp [Array.getD, hi]

theorem leaf?_ofLeaves (hi : i < (entriesAbove t (depth + 1)).length) :
    (ofLeaves t).leaf? i = ((entriesAbove t (depth + 1))[i]).2 := by
  change ((entriesAbove t (depth + 1)).toArray.map (·.2)).getD i none = _
  simp [Array.getD, hi]

theorem levelStart_ofLeaves (t : Leaves depth) (hlevel : level ≤ depth + 1) :
    (ofLeaves t).levelStarts.getD level 0 = (entriesAbove t level).length := by
  change (Sorted.runningSums (((List.range (depth + 1)).map (levelNodes t)).map List.length).toArray).getD level 0 = _
  rw [Sorted.getD_runningSums (by simpa using hlevel), entriesAbove, List.length_flatten]
  simp only [← List.map_take, List.take_range, Nat.min_eq_left hlevel]

theorem firstChild?_ofLeaves (hi : i < (ofLeaves t).size) : (ofLeaves t).firstChild? i =
    if ((ofLeaves t).leaf? i).isSome then none
    else some (slot (ofLeaves t).nodes (ofLeaves t).levelStarts (((ofLeaves t).node i).level + 1)
      ((ofLeaves t).node i).first) := by
  rw [size_ofLeaves] at hi
  rw [leaf?_ofLeaves hi, node_ofLeaves hi]
  change ((entriesAbove t (depth + 1)).toArray.map fun e => if e.2.isSome then none
    else some (slot (ofLeaves t).nodes (ofLeaves t).levelStarts (e.1.level + 1) e.1.first)).getD i none = _
  simp [Array.getD, hi]

theorem mem_entries (hi : i < (ofLeaves t).size) :
    ((ofLeaves t).node i, (ofLeaves t).leaf? i) ∈ entriesAbove t (depth + 1) := by
  rw [size_ofLeaves] at hi
  rw [node_ofLeaves hi, leaf?_ofLeaves hi]
  exact List.getElem_mem hi

section Table

variable (ht : t.isValid = true)
include ht

/-- Every entry of the table is a node of the tree. -/
theorem hasNode (hi : i < (ofLeaves t).size) : t.HasNode ((ofLeaves t).node i) :=
  ((mem_entriesAbove ht).1 (mem_entries hi)).2.1

/-- The table knows which nodes are leaves. -/
theorem leaf?_eq_some_iff (hi : i < (ofLeaves t).size) {l : Nat} :
    (ofLeaves t).leaf? i = some l ↔ l < t.count ∧ t.node l = (ofLeaves t).node i :=
  ((mem_entriesAbove ht).1 (mem_entries hi)).2.2 l

/-- Every node of the tree is in the table. -/
theorem exists_position (hn : t.HasNode n) : ∃ i < (ofLeaves t).size, (ofLeaves t).node i = n := by
  have hleaf : ∃ leaf, IsLeafOf t n leaf := by
    by_cases h : ∃ l < t.count, t.node l = n
    · obtain ⟨l, hl, heq⟩ := h
      exact ⟨some l, fun k => ⟨fun hk => Option.some.inj hk ▸ ⟨hl, heq⟩, fun hk =>
        congrArg some (node_inj ht hl hk.1 (heq.trans hk.2.symm))⟩⟩
    · exact ⟨none, fun k => ⟨fun hk => (nomatch hk), fun hk => absurd ⟨k, hk⟩ h⟩⟩
  obtain ⟨leaf, hleaf⟩ := hleaf
  obtain ⟨i, hi, heq⟩ := List.mem_iff_getElem.1
    ((mem_entriesAbove ht).2 ⟨Nat.lt_succ_of_le hn.1.level_le, hn, hleaf⟩)
  exact ⟨i, by rwa [size_ofLeaves], by rw [node_ofLeaves hi, heq]⟩

/-- The table is in order. -/
theorem before (hij : i < j) (hj : j < (ofLeaves t).size) :
    ((ofLeaves t).node i).Before ((ofLeaves t).node j) := by
  rw [size_ofLeaves] at hj
  rw [node_ofLeaves hj, node_ofLeaves (Nat.lt_trans hij hj)]
  exact List.pairwise_iff_getElem.1 (pairwise_entriesAbove ht (depth + 1)) i j (Nat.lt_trans hij hj) hj hij

theorem lt_of_before (hi : i < (ofLeaves t).size)
    (h : ((ofLeaves t).node i).Before ((ofLeaves t).node j)) : i < j := by
  rcases Nat.lt_trichotomy i j with hlt | rfl | hlt
  · exact hlt
  · exact absurd h (Before.irrefl _)
  · exact absurd (h.trans (before ht hlt hi)) (Before.irrefl _)

theorem position_inj (hi : i < (ofLeaves t).size) (hj : j < (ofLeaves t).size)
    (h : (ofLeaves t).node i = (ofLeaves t).node j) : i = j := by
  rcases Nat.lt_trichotomy i j with hlt | rfl | hlt
  · exact absurd (h ▸ before ht hlt hj) (Before.irrefl _)
  · rfl
  · exact absurd (h ▸ before ht hlt hi) (Before.irrefl _)

/-- The root comes first. -/
theorem node_zero : 0 < (ofLeaves t).size ∧ (ofLeaves t).node 0 = Node.root := by
  obtain ⟨i, hi, hroot⟩ := exists_position ht (hasNode_root t)
  rcases Nat.eq_zero_or_pos i with rfl | hpos
  · exact ⟨hi, hroot⟩
  · have := before ht hpos hi
    simp [hroot, Before, Node.root] at this

theorem levelStart_le_iff (hi : i < (ofLeaves t).size) (hlevel : level ≤ depth + 1) :
    (ofLeaves t).levelStarts.getD level 0 ≤ i ↔ level ≤ ((ofLeaves t).node i).level := by
  rw [size_ofLeaves] at hi
  rw [levelStart_ofLeaves t hlevel, node_ofLeaves hi, ← Nat.not_lt, lt_length_entriesAbove_iff ht hlevel hi, Nat.not_lt]

/-! ## Look-ups -/

/-- The binary search finds every node of the table. -/
theorem slot_eq (hi : i < (ofLeaves t).size) : slot (ofLeaves t).nodes (ofLeaves t).levelStarts
    ((ofLeaves t).node i).level ((ofLeaves t).node i).first = i := by
  have hdepth : ((ofLeaves t).node i).level + 1 ≤ depth + 1 := Nat.succ_le_succ (hasNode ht hi).1.level_le
  have inLevel : ∀ j < (ofLeaves t).size, ((ofLeaves t).levelStarts.getD ((ofLeaves t).node i).level 0 ≤ j ∧
      j < (ofLeaves t).levelStarts.getD (((ofLeaves t).node i).level + 1) 0) ↔
      ((ofLeaves t).node j).level = ((ofLeaves t).node i).level := by
    intro j hj
    have hlo := levelStart_le_iff ht hj (Nat.le_of_succ_le hdepth)
    have hhi := levelStart_le_iff ht hj hdepth
    omega
  have hend : (ofLeaves t).levelStarts.getD (((ofLeaves t).node i).level + 1) 0 ≤ (ofLeaves t).size := by
    rw [levelStart_ofLeaves t hdepth, size_ofLeaves]
    exact length_entriesAbove_le t hdepth
  have hmem := (inLevel i hi).2 rfl
  refine Sorted.boundary_eq hmem.1 (Nat.le_of_lt hmem.2) fun j hj hj' => ?_
  have hjsize := Nat.lt_of_lt_of_le hj' hend
  have hlevel := (inLevel j hjsize).1 ⟨hj, hj'⟩
  -- Within the level the table ascends by key.
  rw [decide_eq_true_eq]
  constructor
  · intro hlt
    exact lt_of_before ht hjsize (.inr ⟨hlevel, hlt⟩)
  · intro hlt
    rcases before ht hlt hi with hcoarser | ⟨_, hfirst⟩
    · omega
    · exact hfirst

/-- Every node of the table is found by its name. -/
theorem locate_node (hi : i < (ofLeaves t).size) : (ofLeaves t).locate ((ofLeaves t).node i) = some i := by
  have hdepth := (hasNode ht hi).1.level_le
  have hend : i < ((ofLeaves t).levelRange ((ofLeaves t).node i).level).2 := by
    rw [levelRange, ← Nat.not_le, levelStart_le_iff ht hi (Nat.succ_le_succ hdepth)]
    exact Nat.not_succ_le_self _
  rw [locate, if_neg (Nat.not_lt.2 hdepth)]
  simp only [slot_eq ht hi, if_pos (And.intro hend trivial)]

/-- The leaf of a node, looked up by the node's name. -/
theorem leaf?_locate_eq_some_iff (hn : t.HasNode n) {l : Nat} :
    ((ofLeaves t).locate n).bind (ofLeaves t).leaf? = some l ↔ l < t.count ∧ t.node l = n := by
  obtain ⟨i, hi, rfl⟩ := exists_position ht hn
  rw [locate_node ht hi, Option.bind_some, leaf?_eq_some_iff ht hi]

theorem leaf?_eq_none_iff (hi : i < (ofLeaves t).size) :
    (ofLeaves t).leaf? i = none ↔ t.Splits ((ofLeaves t).node i) := by
  constructor
  · intro hnone
    by_contra hnot
    obtain ⟨l, hl, heq⟩ := (hasNode ht hi).exists_node ht hnot
    rw [(leaf?_eq_some_iff ht hi).2 ⟨hl, heq⟩] at hnone
    cases hnone
  · intro hs
    cases hleaf : (ofLeaves t).leaf? i with
    | none => rfl
    | some l =>
      obtain ⟨hl, heq⟩ := (leaf?_eq_some_iff ht hi).1 hleaf
      exact absurd (heq ▸ hs) (not_splits_node ht hl)

/-- Every leaf has a node. -/
theorem leafNode_spec {l : Nat} (hl : l < t.count) :
    (ofLeaves t).leafNode l < (ofLeaves t).size ∧ (ofLeaves t).node ((ofLeaves t).leafNode l) = t.node l := by
  obtain ⟨i, hi, heq⟩ := exists_position ht (Leaves.hasNode_node ht hl)
  have hnode : (ofLeaves t).leafNode l = i := by
    have hslot := slot_eq ht hi
    rw [heq] at hslot
    change ((Array.range t.count).map fun i => slot (ofLeaves t).nodes (ofLeaves t).levelStarts (t.level i)
      (t.start i)).getD l 0 = i
    rw [← hslot]
    simp [Array.getD, hl, Leaves.node]
  rw [hnode]
  exact ⟨hi, heq⟩

/-! ## Children -/

/-- Eight children stand next to each other, behind their parent. -/
theorem exists_children (hi : i < (ofLeaves t).size) (hs : t.Splits ((ofLeaves t).node i)) :
    ∃ first, (ofLeaves t).firstChild? i = some first ∧ i < first ∧ ∀ k < 8, first + k < (ofLeaves t).size ∧
      (ofLeaves t).node (first + k) = ((ofLeaves t).node i).child depth k := by
  have hn := (hasNode ht hi).1
  obtain ⟨first, hfirst, hnode⟩ := exists_position ht (hasNode_child hn hs (by decide : 0 < 8))
  refine ⟨first, ?_, ?_, fun k hk => ?_⟩
  · have hslot := slot_eq ht hfirst
    rw [hnode, level_child, child_zero_first] at hslot
    rw [firstChild?_ofLeaves hi, (leaf?_eq_none_iff ht hi).2 hs, hslot]
    rfl
  · exact lt_of_before ht hi (.inl (by rw [hnode]; exact Nat.lt_succ_self _))
  · induction k with
    | zero => exact ⟨hfirst, hnode⟩
    | succ k ih =>
      obtain ⟨hlt, heq⟩ := ih (by omega)
      obtain ⟨next, hnext, hnode'⟩ := exists_position ht (hasNode_child hn hs hk)
      have hstep : first + k < next := lt_of_before ht hlt (.inr ⟨by rw [heq, hnode']; rfl, by
        rw [heq, hnode', first_child, first_child]
        exact Nat.add_lt_add_left (Nat.mul_lt_mul_of_pos_right (Nat.lt_succ_self k) (extent_pos _ _)) _⟩)
      have hnothing : ¬ first + k + 1 < next := fun hbetween =>
        not_between_children (hasNode ht (Nat.lt_trans hbetween hnext)).1 hn (hs.level_lt hn) hk
          (heq ▸ before ht (Nat.lt_succ_self (first + k)) (Nat.lt_trans hbetween hnext))
          (hnode' ▸ before ht hbetween hnext)
      obtain rfl : next = first + k + 1 := by omega
      exact ⟨hnext, hnode'⟩

theorem isLeaf_iff (hi : i < (ofLeaves t).size) :
    (ofLeaves t).isLeaf i = true ↔ ¬ t.Splits ((ofLeaves t).node i) := by
  rw [isLeaf, firstChild?_ofLeaves hi, ← leaf?_eq_none_iff ht hi]
  cases (ofLeaves t).leaf? i <;> simp

end Table

end Octree

end CurvePartition
