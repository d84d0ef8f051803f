-- SUMMARY: What the node table of an octree says about its tree: which nodes there are, how many, how they are linked, and where they are found.
import CurvePartition.Proofs.Octree.Table

/-!
# Links of the node table

Parents and first children are found by the same binary search as nodes. A node's parent is the cell one level up, which is
split and so stands in the table (`Octree.exists_parent`); with the children next to each other it follows that a node is among
the children of another exactly if that is its parent (`Octree.mem_children_iff`). Each node but the root is a child of
one inner node, which counts the inner nodes. `Octree.Tabulates` puts together what a table says.
-/

namespace CurvePartition

open Key Node Leaves

variable {depth : Nat}

namespace Leaves

variable {t : Leaves depth} {n : Node}

/-- The nodes of a tree are its leaves and the cells it splits. -/
theorem hasNode_iff (ht : t.isValid = true) :
    t.HasNode n ↔ (∃ l < t.count, t.node l = n) ∨ n.IsCell depth ∧ t.Splits n := by
  constructor
  · intro h
    by_cases hs : t.Splits n
    · exact .inr ⟨h.1, hs⟩
    · exact .inl (h.exists_node ht hs)
  · rintro (⟨l, hl, rfl⟩ | ⟨hn, hs⟩)
    · exact hasNode_node ht hl
    · exact hasNode_of_splits hn hs

end Leaves

namespace Octree

variable {t : Leaves depth} {i j p l : Nat} {n : Node}

/-! ## Parents -/

theorem parent?_ofLeaves (hi : i < (ofLeaves t).size) : (ofLeaves t).parent? i =
    if ((ofLeaves t).node i).level = 0 then none
    else some (slot (ofLeaves t).nodes (ofLeaves t).levelStarts (((ofLeaves t).node i).parent depth).level
      (((ofLeaves t).node i).parent depth).first) := by
  rw [size_ofLeaves] at hi
  rw [node_ofLeaves hi]
  change (((entriesAbove t (depth + 1)).toArray.map (·.1)).map fun n => if n.level = 0 then none
    else some (slot (ofLeaves t).nodes (ofLeaves t).levelStarts (n.parent depth).level (n.parent depth).first)).getD i none = _
  simp [Array.getD, hi]

section Table

variable (ht : t.isValid = true)
include ht

/-- The root is the only node on its level. -/
theorem level_eq_zero_iff (hi : i < (ofLeaves t).size) : ((ofLeaves t).node i).level = 0 ↔ i = 0 := by
  obtain ⟨hzero, hroot⟩ := node_zero ht
  constructor
  · intro hlevel
    have heq : (ofLeaves t).node i = Node.root := (hasNode ht hi).1.eq_root hlevel
    exact position_inj ht hi hzero (heq.trans hroot.symm)
  · rintro rfl
    rw [hroot]
    rfl

/-- The cell above a node is a node, and is split. -/
theorem exists_parent (hi : i < (ofLeaves t).size) (hpos : 0 < ((ofLeaves t).node i).level) :
    ∃ p < (ofLeaves t).size, (ofLeaves t).parent? i = some p ∧
      (ofLeaves t).node p = ((ofLeaves t).node i).parent depth ∧ t.Splits ((ofLeaves t).node p) := by
  have hnode := hasNode ht hi
  have hs : t.Splits (((ofLeaves t).node i).parent depth) := hnode.2.resolve_left (Nat.ne_of_gt hpos)
  obtain ⟨p, hp, heq⟩ := exists_position ht (hasNode_of_splits hnode.1.parent hs)
  refine ⟨p, hp, ?_, heq, heq ▸ hs⟩
  rw [parent?_ofLeaves hi, if_neg (Nat.ne_of_gt hpos), ← heq, slot_eq ht hp]

theorem parent?_eq_none_iff (hi : i < (ofLeaves t).size) : (ofLeaves t).parent? i = none ↔ i = 0 := by
  rw [← level_eq_zero_iff ht hi]
  constructor
  · intro hnone
    by_contra hne
    obtain ⟨p, _, hp, _⟩ := exists_parent ht hi (Nat.pos_of_ne_zero hne)
    rw [hnone] at hp
    cases hp
  · intro hlevel
    rw [parent?_ofLeaves hi, if_pos hlevel]

/-! ## Children -/

/-- The node that a child of a node names as its parent. -/
theorem parent?_eq_of_child (hi : i < (ofLeaves t).size) (hj : j < (ofLeaves t).size)
    (hs : t.Splits ((ofLeaves t).node i)) {k : Nat} (hk : k < 8)
    (hnode : (ofLeaves t).node j = ((ofLeaves t).node i).child depth k) : (ofLeaves t).parent? j = some i := by
  have hn := (hasNode ht hi).1
  obtain ⟨p, hp, hparent, heq, _⟩ := exists_parent ht hj (by rw [hnode]; exact Nat.succ_pos _)
  rw [hnode, parent_child hn (hs.level_lt hn) hk] at heq
  rw [hparent, position_inj ht hp hi heq]

theorem children_eq_nil (hi : i < (ofLeaves t).size) (hs : ¬ t.Splits ((ofLeaves t).node i)) :
    (ofLeaves t).children i = [] := by
  have hleaf := (isLeaf_iff ht hi).2 hs
  rw [isLeaf, Option.isNone_iff_eq_none] at hleaf
  rw [children, hleaf]

/-- Inner nodes have eight children in a row, one for each octant, which name them as their parent. -/
theorem children_spec (hi : i < (ofLeaves t).size) (hs : t.Splits ((ofLeaves t).node i)) :
    ∃ first, (ofLeaves t).children i = (List.range 8).map (first + ·) ∧ ∀ k < 8, first + k < (ofLeaves t).size ∧
      (ofLeaves t).node (first + k) = ((ofLeaves t).node i).child depth k ∧
      (ofLeaves t).parent? (first + k) = some i := by
  obtain ⟨first, hfirst, _, hchild⟩ := exists_children ht hi hs
  refine ⟨first, by rw [children, hfirst], fun k hk => ⟨(hchild k hk).1, (hchild k hk).2, ?_⟩⟩
  exact parent?_eq_of_child ht hi (hchild k hk).1 hs hk (hchild k hk).2

/-- A node is among the children of its parent, and of no other node. -/
theorem mem_children_iff (hi : i < (ofLeaves t).size) :
    j ∈ (ofLeaves t).children i ↔ j < (ofLeaves t).size ∧ (ofLeaves t).parent? j = some i := by
  constructor
  · intro hj
    by_cases hs : t.Splits ((ofLeaves t).node i)
    · obtain ⟨first, hchildren, hspec⟩ := children_spec ht hi hs
      rw [hchildren] at hj
      obtain ⟨k, hk, rfl⟩ := List.mem_map.1 hj
      obtain ⟨hsize, _, hparent⟩ := hspec k (List.mem_range.1 hk)
      exact ⟨hsize, hparent⟩
    · rw [children_eq_nil ht hi hs] at hj
      cases hj
  · rintro ⟨hj, hparent⟩
    have hpos : 0 < ((ofLeaves t).node j).level := Nat.pos_of_ne_zero fun hzero => by
      rw [parent?_ofLeaves hj, if_pos hzero] at hparent
      cases hparent
    obtain ⟨p, hp, hparent', heq, hs⟩ := exists_parent ht hj hpos
    obtain rfl : p = i := Option.some.inj (hparent'.symm.trans hparent)
    obtain ⟨first, hchildren, hspec⟩ := children_spec ht hp hs
    obtain ⟨k, hk, hnode⟩ := child_eq_ancestor_or (hasNode ht hj).1 hpos
    obtain ⟨hsize, hnode', _⟩ := hspec k hk
    rw [heq, ← hnode] at hnode'
    rw [hchildren, ← position_inj ht hsize hj hnode']
    exact List.mem_map.2 ⟨k, List.mem_range.2 hk, rfl⟩

theorem length_children (hi : i < (ofLeaves t).size) (hs : t.Splits ((ofLeaves t).node i)) :
    ((ofLeaves t).children i).length = 8 := by
  obtain ⟨first, hchildren, _⟩ := children_spec ht hi hs
  rw [hchildren, List.length_map, List.length_range]

theorem nodup_children (hi : i < (ofLeaves t).size) : ((ofLeaves t).children i).Nodup := by
  by_cases hs : t.Splits ((ofLeaves t).node i)
  · obtain ⟨first, hchildren, _⟩ := children_spec ht hi hs
    rw [hchildren]
    exact List.Pairwise.map _ (fun _ _ hne heq => hne (Nat.add_left_cancel heq)) List.nodup_range
  · rw [children_eq_nil ht hi hs]
    exact List.nodup_nil

end Table

/-! ## Numbers of nodes -/

theorem leafCount_ofLeaves (t : Leaves depth) : (ofLeaves t).leafCount = t.count := by
  change ((Array.range t.count).map _).size = _
  rw [Array.size_map, Array.size_range]

/-- Positions of the nodes that have children. -/
def inner (o : Octree depth) : List Nat := (List.range o.size).filter fun i => !o.isLeaf i

section Table

variable (ht : t.isValid = true)
include ht

theorem mem_inner_iff : i ∈ (ofLeaves t).inner ↔ i < (ofLeaves t).size ∧ t.Splits ((ofLeaves t).node i) := by
  rw [inner, List.mem_filter, List.mem_range]
  refine and_congr_right fun hi => ?_
  rw [Bool.not_eq_true', ← Bool.not_eq_true, isLeaf_iff ht hi, not_not]

/-- The children of the inner nodes are all nodes but the root. -/
theorem perm_flatMap_children :
    ((ofLeaves t).inner.flatMap (ofLeaves t).children).Perm (List.range' 1 ((ofLeaves t).size - 1)) := by
  have hinner : (ofLeaves t).inner.Nodup := List.nodup_range.filter _
  have hnodup : ((ofLeaves t).inner.flatMap (ofLeaves t).children).Nodup := by
    refine List.pairwise_flatMap.2 ⟨fun i hi => nodup_children ht ((mem_inner_iff ht).1 hi).1, ?_⟩
    refine hinner.imp_of_mem fun {i j} hi hj hne a ha b hb heq => hne ?_
    obtain ⟨_, hparent⟩ := (mem_children_iff ht ((mem_inner_iff ht).1 hi).1).1 ha
    obtain ⟨_, hparent'⟩ := (mem_children_iff ht ((mem_inner_iff ht).1 hj).1).1 hb
    rw [heq, hparent'] at hparent
    exact (Option.some.inj hparent).symm
  refine (List.perm_ext_iff_of_nodup hnodup List.nodup_range').2 fun j => ?_
  rw [List.mem_flatMap, List.mem_range'_1]
  constructor
  · rintro ⟨i, hi, hj⟩
    obtain ⟨hsize, hparent⟩ := (mem_children_iff ht ((mem_inner_iff ht).1 hi).1).1 hj
    have hne : j ≠ 0 := fun hzero => by
      rw [(parent?_eq_none_iff ht hsize).2 hzero] at hparent
      cases hparent
    omega
  · rintro ⟨hpos, hlt⟩
    have hj : j < (ofLeaves t).size := by omega
    have hlevel : 0 < ((ofLeaves t).node j).level :=
      Nat.pos_of_ne_zero fun hzero => Nat.ne_of_gt hpos ((level_eq_zero_iff ht hj).1 hzero)
    obtain ⟨p, hp, hparent, _, hs⟩ := exists_parent ht hj hlevel
    exact ⟨p, (mem_inner_iff ht).2 ⟨hp, hs⟩, (mem_children_iff ht hp).2 ⟨hj, hparent⟩⟩

/-- Each inner node has eight of the nodes below the root. -/
theorem size_eq_inner : (ofLeaves t).size = 8 * (ofLeaves t).inner.length + 1 := by
  have hlength := (perm_flatMap_children ht).length_eq
  have height : (ofLeaves t).inner.map (fun i => ((ofLeaves t).children i).length) =
      (ofLeaves t).inner.map fun _ => 8 :=
    List.map_congr_left fun i hi => length_children ht ((mem_inner_iff ht).1 hi).1 ((mem_inner_iff ht).1 hi).2
  rw [List.length_flatMap, height, List.map_const', List.sum_replicate_nat, List.length_range'] at hlength
  have hpos := (node_zero ht).1
  omega

/-- The nodes that are leaves are the nodes of the leaves. -/
theorem perm_filter_isLeaf :
    ((List.range (ofLeaves t).size).filter (ofLeaves t).isLeaf).Perm ((List.range t.count).map (ofLeaves t).leafNode) := by
  have hnodup : ((List.range t.count).map (ofLeaves t).leafNode).Nodup := by
    refine List.pairwise_map.2 (List.nodup_range.imp_of_mem fun {l k} hl hk hne heq => hne ?_)
    have hl := List.mem_range.1 hl
    have hk := List.mem_range.1 hk
    rw [← Leaves.node_inj ht hl hk]
    rw [← (leafNode_spec ht hl).2, ← (leafNode_spec ht hk).2, heq]
  refine (List.perm_ext_iff_of_nodup (List.nodup_range.filter _) hnodup).2 fun i => ?_
  rw [List.mem_filter, List.mem_range, List.mem_map]
  constructor
  · rintro ⟨hi, hleaf⟩
    obtain ⟨l, hl, heq⟩ := (hasNode ht hi).exists_node ht ((isLeaf_iff ht hi).1 hleaf)
    obtain ⟨hpos, hnode⟩ := leafNode_spec ht hl
    exact ⟨l, List.mem_range.2 hl, position_inj ht hpos hi (hnode.trans heq)⟩
  · rintro ⟨l, hl, rfl⟩
    obtain ⟨hpos, hnode⟩ := leafNode_spec ht (List.mem_range.1 hl)
    exact ⟨hpos, (isLeaf_iff ht hpos).2 (hnode ▸ not_splits_node ht (List.mem_range.1 hl))⟩

theorem size_eq_count : (ofLeaves t).size = t.count + (ofLeaves t).inner.length := by
  have hleaves := (perm_filter_isLeaf ht).length_eq
  have hsplit := List.length_eq_countP_add_countP (ofLeaves t).isLeaf (l := List.range (ofLeaves t).size)
  have hinner : (fun i => decide ¬ (ofLeaves t).isLeaf i = true) = fun i => !(ofLeaves t).isLeaf i := by
    funext i
    simp
  rw [List.length_map, List.length_range] at hleaves
  rw [List.length_range, List.countP_eq_length_filter, List.countP_eq_length_filter, hleaves, hinner] at hsplit
  exact hsplit

/-- Seven leaves and one root go with each inner node. -/
theorem count_eq_inner : t.count = 7 * (ofLeaves t).inner.length + 1 := by
  have hinner := size_eq_inner ht
  have hcount := size_eq_count ht
  omega

theorem length_inner : (ofLeaves t).inner.length = (ofLeaves t).innerCount := by
  have hcount := size_eq_count ht
  rw [innerCount, leafCount_ofLeaves]
  omega

/-! ## Positions -/

theorem mem_nodes_iff : n ∈ (ofLeaves t).nodes ↔ t.HasNode n := by
  rw [Array.mem_iff_getElem]
  have hget : ∀ (i : Nat) (hi : i < (ofLeaves t).nodes.size), (ofLeaves t).nodes[i] = (ofLeaves t).node i := by
    intro i hi
    simp [node, Array.getD, hi]
  constructor
  · rintro ⟨i, hi, rfl⟩
    rw [hget]
    exact hasNode ht hi
  · intro h
    obtain ⟨i, hi, heq⟩ := exists_position ht h
    exact ⟨i, hi, (hget i hi).trans heq⟩

theorem pairwise_nodes : (ofLeaves t).nodes.toList.Pairwise Node.Before := by
  have h := pairwise_entriesAbove ht (depth + 1)
  change ((entriesAbove t (depth + 1)).toArray.map (·.1)).toList.Pairwise Node.Before
  rw [Array.toList_map, List.pairwise_map]
  exact h

/-- The positions of a level are those of its nodes. -/
theorem mem_levelRange_iff (hl : l ≤ depth) :
    ((ofLeaves t).levelRange l).1 ≤ i ∧ i < ((ofLeaves t).levelRange l).2 ↔
      i < (ofLeaves t).size ∧ ((ofLeaves t).node i).level = l := by
  have hend : ((ofLeaves t).levelRange l).2 ≤ (ofLeaves t).size := by
    rw [levelRange, levelStart_ofLeaves t (Nat.succ_le_succ hl), size_ofLeaves]
    exact length_entriesAbove_le t (Nat.succ_le_succ hl)
  have hbounds : ∀ i < (ofLeaves t).size, (((ofLeaves t).levelRange l).1 ≤ i ↔ l ≤ ((ofLeaves t).node i).level) ∧
      (((ofLeaves t).levelRange l).2 ≤ i ↔ l + 1 ≤ ((ofLeaves t).node i).level) := fun i hi =>
    ⟨levelStart_le_iff ht hi (Nat.le_succ_of_le hl), levelStart_le_iff ht hi (Nat.succ_le_succ hl)⟩
  constructor
  · rintro ⟨hfirst, hlast⟩
    have hi : i < (ofLeaves t).size := Nat.lt_of_lt_of_le hlast hend
    have := hbounds i hi
    exact ⟨hi, by omega⟩
  · rintro ⟨hi, hlevel⟩
    have := hbounds i hi
    omega

/-- A node is found at its position, and only nodes are found. -/
theorem locate_eq_some_iff : (ofLeaves t).locate n = some i ↔ i < (ofLeaves t).size ∧ (ofLeaves t).node i = n := by
  constructor
  · intro h
    rw [locate] at h
    split at h
    · cases h
    · rename_i hdepth
      have hl : n.level ≤ depth := Nat.not_lt.1 hdepth
      dsimp only at h
      split at h
      · rename_i hfound
        obtain rfl := Option.some.inj h
        have hle : ((ofLeaves t).levelRange n.level).1 ≤ ((ofLeaves t).levelRange n.level).2 := by
          rw [levelRange, levelStart_ofLeaves t (Nat.le_succ_of_le hl), levelStart_ofLeaves t (Nat.succ_le_succ hl)]
          exact length_entriesAbove_le t (Nat.le_succ _)
        have hfirst := (Sorted.boundary_mem (fun i => ((ofLeaves t).nodes.getD i Node.root).first < n.first) hle).1
        obtain ⟨hsize, hlevel⟩ := (mem_levelRange_iff ht hl).1 ⟨hfirst, hfound.1⟩
        exact ⟨hsize, congr (congrArg Node.mk hfound.2) hlevel⟩
      · cases h
  · rintro ⟨hi, rfl⟩
    exact locate_node ht hi

end Table

/-- What a node table says about the tree with the given leaves. -/
structure Tabulates (o : Octree depth) (t : Leaves depth) : Prop where
  /-- The nodes are the leaves and the cells that a boundary divides. -/
  mem_nodes_iff : ∀ n, n ∈ o.nodes ↔ (∃ l < t.count, t.node l = n) ∨ n.IsCell depth ∧ t.Splits n
  /-- Each node is listed once, coarser nodes first and by key within a level. -/
  pairwise_nodes : o.nodes.toList.Pairwise Node.Before
  mem_levelRange_iff : ∀ l ≤ depth, ∀ i,
    (o.levelRange l).1 ≤ i ∧ i < (o.levelRange l).2 ↔ i < o.size ∧ (o.node i).level = l
  leafCount_eq : o.leafCount = t.count
  length_inner : o.inner.length = o.innerCount
  innerCount_eq : o.innerCount = (t.count - 1) / 7 ∧ 7 ∣ t.count - 1
  node_zero : 0 < o.size ∧ o.node 0 = Node.root
  parent?_eq_none_iff : ∀ i < o.size, o.parent? i = none ↔ i = 0
  /-- Inner nodes have eight children in a row, which name them as their parent. -/
  children_inner : ∀ i < o.size, o.isLeaf i = false → ∃ first, o.children i = (List.range 8).map (first + ·) ∧
    ∀ k < 8, first + k < o.size ∧ o.node (first + k) = (o.node i).child depth k ∧ o.parent? (first + k) = some i
  children_leaf : ∀ i < o.size, o.isLeaf i = true → o.children i = []
  /-- Every leaf has a node with its keys. -/
  leafNode : ∀ l < t.count, o.leafNode l < o.size ∧ o.range (o.leafNode l) = t.range l
  /-- A node knows the leaf whose node it is, and no other. -/
  leaf?_eq_some_iff : ∀ i < o.size, ∀ l, o.leaf? i = some l ↔ l < t.count ∧ o.leafNode l = i
  isLeaf_eq : ∀ i < o.size, o.isLeaf i = (o.leaf? i).isSome
  locate_eq_some_iff : ∀ n i, o.locate n = some i ↔ i < o.size ∧ o.node i = n

/-- The node table of a valid tree is right about it. -/
theorem ofLeaves_tabulates (ht : t.isValid = true) : (ofLeaves t).Tabulates t where
  mem_nodes_iff n := (mem_nodes_iff ht).trans (hasNode_iff ht)
  pairwise_nodes := pairwise_nodes ht
  mem_levelRange_iff _ hl _ := mem_levelRange_iff ht hl
  leafCount_eq := leafCount_ofLeaves t
  length_inner := length_inner ht
  innerCount_eq := by
    have hcount := count_eq_inner ht
    rw [← length_inner ht]
    omega
  node_zero := node_zero ht
  parent?_eq_none_iff _ hi := parent?_eq_none_iff ht hi
  children_inner i hi hinner := children_spec ht hi (by
    rwa [← Bool.not_eq_true, isLeaf_iff ht hi, not_not] at hinner)
  children_leaf i hi hleaf := children_eq_nil ht hi ((isLeaf_iff ht hi).1 hleaf)
  leafNode l hl := by
    obtain ⟨hpos, hnode⟩ := leafNode_spec ht hl
    refine ⟨hpos, ?_⟩
    rw [range, hnode, range_node ht hl]
  leaf?_eq_some_iff i hi l := by
    rw [leaf?_eq_some_iff ht hi]
    refine and_congr_right fun hl => ?_
    obtain ⟨hpos, hnode⟩ := leafNode_spec ht hl
    exact ⟨fun heq => position_inj ht hpos hi (hnode.trans heq), fun heq => hnode.symm.trans (congrArg _ heq)⟩
  isLeaf_eq i hi := by
    rw [isLeaf, firstChild?_ofLeaves hi]
    cases (ofLeaves t).leaf? i <;> rfl
  locate_eq_some_iff _ _ := locate_eq_some_iff ht

/-- A tree that is split again and again at its first leaf, down to the deepest level. -/
theorem ofLeaves_tabulates_deep :
    let starts := (List.range 10).flatMap fun l => (List.range 7).map fun k => (k + 1) * 8 ^ l
    let t : Leaves KeyWidth.narrow.depth := ⟨(0 :: starts ++ [8 ^ 10]).toArray⟩
    t.isValid = true ∧ (ofLeaves t).Tabulates t ∧ t.count = 71 ∧ (ofLeaves t).innerCount = 10 := by
  intro starts t
  have ht : t.isValid = true := by decide +kernel
  have htable := ofLeaves_tabulates ht
  have hcount : t.count = 71 := by decide
  exact ⟨ht, htable, hcount, by rw [htable.innerCount_eq.1, hcount]⟩

end Octree

end CurvePartition
