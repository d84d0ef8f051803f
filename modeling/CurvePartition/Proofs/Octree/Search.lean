-- SUMMARY: What a search over an octree arrives at, in key order, and what values carried up from the leaves are.
import CurvePartition.Octree.Fold
import CurvePartition.Proofs.Octree.Table

/-!
# Searches and folds over the node table

A search arrives at a leaf exactly if it may enter every node around the leaf (`Octree.Admits`), and it lists these leaves
in key order. Values carried up from the leaves satisfy the equation of `Octree.upsweep_inner` at each inner node,
from which properties of them follow by induction on the level (`Octree.upsweep_induction`).
-/

namespace CurvePartition

open Key Node Leaves

variable {depth : Nat}

/-- A node of the tree inside a cell that is not split is that cell. -/
theorem Leaves.HasNode.eq_of_inside {t : Leaves depth} {m n : Node} (h : t.HasNode m) (hn : n.IsCell depth)
    (hin : m.Inside depth n) (hnot : ¬ t.Splits n) : m = n := by
  by_contra hne
  have hlt : n.level < m.level := Nat.lt_of_le_of_ne hin.1 fun heq => hne (hin.eq_of_level h.1 hn heq.symm)
  have hs : t.Splits (m.parent depth) := h.2.resolve_left (Nat.ne_of_gt (Nat.zero_lt_of_lt hlt))
  have hparent : (m.parent depth).Inside depth n := by
    have hcell := h.1.parent
    refine inside_of_mem hcell hn (Nat.le_sub_one_of_lt hlt) ?_ ⟨hin.2.1, hin.2.2⟩
    have hup : m.Inside depth (m.parent depth) := m.inside_ancestor (Nat.sub_le m.level 1)
    exact ⟨hup.2.1, hup.2.2⟩
  exact hnot (hs.mono hparent h.1.parent hn)

namespace Octree

variable {t : Leaves depth} {enter : Nat → Bool} {fuel i j l : Nat}

/-! ## Searches -/

theorem children_eq {first : Nat} (h : (ofLeaves t).firstChild? i = some first) :
    (ofLeaves t).children i = (List.range 8).map (first + ·) := by
  simp [children, h]

section Table

variable (ht : t.isValid = true)
include ht

/-- A node that is around one inside a child and itself inside the parent is the parent or inside the child. -/
theorem eq_or_inside_child {p k : Nat} (hi : i < (ofLeaves t).size) (hp : p < (ofLeaves t).size) (hk : k < 8)
    (hlt : ((ofLeaves t).node i).level < depth) (hpi : ((ofLeaves t).node p).Inside depth ((ofLeaves t).node i))
    (hjp : ((ofLeaves t).node j).Inside depth ((ofLeaves t).node p))
    (hjk : ((ofLeaves t).node j).Inside depth (((ofLeaves t).node i).child depth k)) :
    p = i ∨ ((ofLeaves t).node p).Inside depth (((ofLeaves t).node i).child depth k) := by
  have hn := (hasNode ht hi).1
  have hpn := (hasNode ht hp).1
  rcases Nat.eq_or_lt_of_le hpi.1 with heq | hgt
  · exact .inl (position_inj ht hp hi (hpi.eq_of_level hpn hn heq.symm))
  · exact .inr (inside_of_mem hpn (hn.child hlt hk) hgt ⟨hjp.2.1, hjp.2.2⟩ ⟨hjk.2.1, hjk.2.2⟩)

/-- A search below a node arrives at the leaves inside it that lie in no node below it that it may not enter. -/
theorem mem_leavesBelow (hi : i < (ofLeaves t).size) (hfuel : depth + 1 ≤ ((ofLeaves t).node i).level + fuel) :
    j ∈ (ofLeaves t).leavesBelow enter fuel i ↔ j < (ofLeaves t).size ∧ ¬ t.Splits ((ofLeaves t).node j) ∧
      ((ofLeaves t).node j).Inside depth ((ofLeaves t).node i) ∧
      ∀ p < (ofLeaves t).size, ((ofLeaves t).node p).Inside depth ((ofLeaves t).node i) →
        ((ofLeaves t).node j).Inside depth ((ofLeaves t).node p) → enter p = true := by
  induction fuel generalizing i with
  | zero =>
    have := (hasNode ht hi).1.level_le
    omega
  | succ fuel ih =>
    have hn := (hasNode ht hi).1
    rw [leavesBelow]
    by_cases henter : ¬ enter i = true
    · rw [if_neg henter]
      refine iff_of_false List.not_mem_nil ?_
      rintro ⟨_, _, hin, hall⟩
      exact henter (hall i hi (Inside.refl _) hin)
    have henter := not_not.1 henter
    rw [if_pos henter]
    by_cases hs : t.Splits ((ofLeaves t).node i)
    · rw [if_neg (by rw [isLeaf_iff ht hi]; exact not_not_intro hs)]
      obtain ⟨first, hfirst, _, hchild⟩ := exists_children ht hi hs
      have hlt := hs.level_lt hn
      have below : ∀ k < 8, j ∈ (ofLeaves t).leavesBelow enter fuel (first + k) ↔ _ := fun k hk =>
        ih (hchild k hk).1 (by rw [(hchild k hk).2, level_child]; omega)
      rw [children_eq hfirst, List.flatMap_map, List.mem_flatMap]
      constructor
      · rintro ⟨k, hk, hmem⟩
        have hk := List.mem_range.1 hk
        obtain ⟨hj, hnot, hin, hall⟩ := (below k hk).1 hmem
        rw [(hchild k hk).2] at hin hall
        refine ⟨hj, hnot, hin.trans (child_inside hlt hk) (hn.child hlt hk) hn, fun p hp hpi hjp => ?_⟩
        rcases eq_or_inside_child ht hi hp hk hlt hpi hjp hin with rfl | hpk
        · exact henter
        · exact hall p hp hpk hjp
      · rintro ⟨hj, hnot, hin, hall⟩
        obtain ⟨k, hk, hink⟩ := hs.exists_child hnot hin (hasNode ht hj).1 hn
        refine ⟨k, List.mem_range.2 hk, (below k hk).2 ?_⟩
        rw [(hchild k hk).2]
        refine ⟨hj, hnot, hink, fun p hp hpi => hall p hp ?_⟩
        exact hpi.trans (child_inside hlt hk) (hn.child hlt hk) hn
    · rw [if_pos ((isLeaf_iff ht hi).2 hs), List.mem_singleton]
      constructor
      · rintro rfl
        refine ⟨hi, hs, Inside.refl _, fun p hp hpi hip => ?_⟩
        rwa [position_inj ht hp hi ((hasNode ht hp).eq_of_inside hn hpi hs)]
      · rintro ⟨hj, _, hin, _⟩
        exact position_inj ht hj hi ((hasNode ht hj).eq_of_inside hn hin hs)

/-- A search lists leaves in key order. -/
theorem pairwise_leavesBelow (hi : i < (ofLeaves t).size)
    (hfuel : depth + 1 ≤ ((ofLeaves t).node i).level + fuel) :
    ((ofLeaves t).leavesBelow enter fuel i).Pairwise fun a b =>
      ((ofLeaves t).node a).first < ((ofLeaves t).node b).first := by
  induction fuel generalizing i with
  | zero => exact List.Pairwise.nil
  | succ fuel ih =>
    rw [leavesBelow]
    split
    · by_cases hs : t.Splits ((ofLeaves t).node i)
      · rw [if_neg (by rw [isLeaf_iff ht hi]; exact not_not_intro hs)]
        obtain ⟨first, hfirst, _, hchild⟩ := exists_children ht hi hs
        have hn := (hasNode ht hi).1
        have hlt := hs.level_lt hn
        have hfuel' : ∀ k < 8, depth + 1 ≤ ((ofLeaves t).node (first + k)).level + fuel := fun k hk => by
          rw [(hchild k hk).2, level_child]
          omega
        rw [children_eq hfirst, List.flatMap_map, List.pairwise_flatMap]
        refine ⟨fun k hk => ?_, List.pairwise_lt_range.imp_of_mem fun {k k'} hk hk' hkk a ha b hb => ?_⟩
        · have hk := List.mem_range.1 hk
          exact ih (hchild k hk).1 (hfuel' k hk)
        -- Leaves below different children are kept apart by the end of the one and the start of the other.
        have hk := List.mem_range.1 hk
        have hk' := List.mem_range.1 hk'
        have hina := ((mem_leavesBelow ht (hchild k hk).1 (hfuel' k hk)).1 ha).2.2.1
        have hinb := ((mem_leavesBelow ht (hchild k' hk').1 (hfuel' k' hk')).1 hb).2.2.1
        rw [(hchild k hk).2] at hina
        rw [(hchild k' hk').2] at hinb
        calc ((ofLeaves t).node a).first
            < (((ofLeaves t).node i).child depth k).stop depth := hina.2.2
          _ ≤ (((ofLeaves t).node i).child depth k').first := child_stop_le_first _ hkk
          _ ≤ ((ofLeaves t).node b).first := hinb.2.1
      · rw [if_pos ((isLeaf_iff ht hi).2 hs)]
        exact List.pairwise_singleton _ _
    · exact List.Pairwise.nil

end Table

/-- Whether a search may enter every node around a leaf. -/
def Admits (t : Leaves depth) (enter : Nat → Bool) (l : Nat) : Prop :=
  ∀ p < (ofLeaves t).size, (t.node l).Inside depth ((ofLeaves t).node p) → enter p = true

section Table

variable (ht : t.isValid = true)
include ht

/-- A search arrives at the leaves that are admitted. -/
theorem mem_leavesWhere :
    j ∈ (ofLeaves t).leavesWhere enter ↔ ∃ l < t.count, (ofLeaves t).leafNode l = j ∧ Admits t enter l := by
  obtain ⟨hzero, hroot⟩ := node_zero ht
  rw [leavesWhere, mem_leavesBelow ht hzero (by omega), hroot]
  constructor
  · rintro ⟨hj, hnot, _, hall⟩
    obtain ⟨l, hl, heq⟩ := (hasNode ht hj).exists_node ht hnot
    obtain ⟨hpos, hnode⟩ := leafNode_spec ht hl
    refine ⟨l, hl, position_inj ht hpos hj (hnode.trans heq), fun p hp hin => ?_⟩
    exact hall p hp (inside_root (hasNode ht hp).1) (heq ▸ hin)
  · rintro ⟨l, hl, rfl, hall⟩
    obtain ⟨hpos, hnode⟩ := leafNode_spec ht hl
    rw [hnode]
    exact ⟨hpos, not_splits_node ht hl, inside_root (isCell_node ht hl), fun p hp _ hin => hall p hp hin⟩

/-- A search for some leaf succeeds if a leaf is admitted. -/
theorem anyLeaf_iff : (ofLeaves t).anyLeaf enter = true ↔ ∃ l < t.count, Admits t enter l := by
  rw [anyLeaf_eq, Bool.not_eq_true', List.isEmpty_eq_false_iff_exists_mem]
  constructor
  · rintro ⟨j, hj⟩
    obtain ⟨l, hl, _, hall⟩ := (mem_leavesWhere ht).1 hj
    exact ⟨l, hl, hall⟩
  · rintro ⟨l, hl, hall⟩
    exact ⟨_, (mem_leavesWhere ht).2 ⟨l, hl, rfl, hall⟩⟩

theorem leaf?_leafNode (hl : l < t.count) : (ofLeaves t).leaf? ((ofLeaves t).leafNode l) = some l := by
  obtain ⟨hpos, hnode⟩ := leafNode_spec ht hl
  exact (leaf?_eq_some_iff ht hpos).2 ⟨hl, hnode.symm⟩

/-- Leaves selected among those that a search arrives at. -/
theorem mem_filterMap_leavesWhere {keep : Nat → Option Nat}
    (hkeep : ∀ j l, keep j = some l → (ofLeaves t).leaf? j = some l) :
    l ∈ ((ofLeaves t).leavesWhere enter).filterMap keep ↔
      l < t.count ∧ Admits t enter l ∧ keep ((ofLeaves t).leafNode l) = some l := by
  rw [List.mem_filterMap]
  constructor
  · rintro ⟨j, hj, hl⟩
    obtain ⟨l', hl', rfl, hall⟩ := (mem_leavesWhere ht).1 hj
    have heq := hkeep _ _ hl
    rw [leaf?_leafNode ht hl', Option.some.injEq] at heq
    exact heq ▸ ⟨hl', hall, heq ▸ hl⟩
  · rintro ⟨hl, hall, heq⟩
    exact ⟨_, (mem_leavesWhere ht).2 ⟨l, hl, rfl, hall⟩, heq⟩

theorem pairwise_filterMap_leavesWhere {keep : Nat → Option Nat}
    (hkeep : ∀ j l, keep j = some l → (ofLeaves t).leaf? j = some l) :
    (((ofLeaves t).leavesWhere enter).filterMap keep).Pairwise (· < ·) := by
  obtain ⟨hzero, hroot⟩ := node_zero ht
  refine List.pairwise_filterMap.2 ((pairwise_leavesBelow ht hzero (by omega)).imp_of_mem ?_)
  intro a b ha hb hlt l hl l' hl'
  have position : ∀ c ∈ (ofLeaves t).leavesBelow enter (depth + 1) 0, c < (ofLeaves t).size := fun c hc =>
    ((mem_leavesBelow ht hzero (by omega)).1 hc).1
  obtain ⟨hcount, hnode⟩ := (leaf?_eq_some_iff ht (position a ha)).1 (hkeep a l hl)
  obtain ⟨_, hnode'⟩ := (leaf?_eq_some_iff ht (position b hb)).1 (hkeep b l' hl')
  rw [← hnode, ← hnode'] at hlt
  exact (ascends_of_isValid ht).lt_of_start_lt (Nat.le_of_lt hcount) hlt

end Table

/-! ## Values carried up -/

variable {τ : Type} {o : Octree depth} {combine : τ → τ → τ} {blank : τ} {values : Array τ} {n first : Nat}

/-- What the pass from the end of the table does at a node. -/
def carry (o : Octree depth) (combine : τ → τ → τ) (blank : τ) (i : Nat) (values : Array τ) : Array τ :=
  match o.firstChild? i with
  | none => values
  | some first => values.setIfInBounds i (combineChildren combine blank values first)

@[simp] theorem size_carry : (o.carry combine blank i values).size = values.size := by
  unfold carry
  split <;> simp

theorem getD_carry_of_ne (h : j ≠ i) : (o.carry combine blank i values).getD j blank = values.getD j blank := by
  unfold carry
  split
  · rfl
  · simp only [Array.getD_eq_getD_getElem?, Array.getElem?_setIfInBounds_ne h.symm]

/-- The pass changes no node that it has not come to. -/
theorem getD_foldr_carry (h : n ≤ j) :
    ((List.range n).foldr (o.carry combine blank) values).getD j blank = values.getD j blank := by
  induction n generalizing values with
  | zero => rfl
  | succ n ih =>
    rw [List.range_succ, List.foldr_append]
    exact (ih (Nat.le_of_succ_le h)).trans (getD_carry_of_ne (Nat.ne_of_gt h))

theorem combineChildren_congr {values' : Array τ}
    (h : ∀ j, first ≤ j → values.getD j blank = values'.getD j blank) :
    combineChildren combine blank values first = combineChildren combine blank values' first := by
  have hstep : ∀ k, values.getD (first + 1 + k) blank = values'.getD (first + 1 + k) blank := fun k => h _ (by omega)
  simp only [combineChildren, h first (Nat.le_refl _), hstep]

/-- After the pass every inner node that it met holds the combination of its children's values. -/
theorem foldr_carry_inner (hn : n ≤ values.size) (hi : i < n) (hfirst : o.firstChild? i = some first)
    (hlt : i < first) : ((List.range n).foldr (o.carry combine blank) values).getD i blank =
      combineChildren combine blank ((List.range n).foldr (o.carry combine blank) values) first := by
  induction n generalizing values with
  | zero => exact absurd hi (Nat.not_lt_zero i)
  | succ n ih =>
    rw [List.range_succ, List.foldr_append]
    rcases Nat.lt_or_eq_of_le (Nat.le_of_lt_succ hi) with hin | rfl
    · exact ih (by rw [List.foldr_cons, List.foldr_nil, size_carry]; exact Nat.le_of_succ_le hn) hin
    · rw [getD_foldr_carry (Nat.le_refl i), List.foldr_cons, List.foldr_nil]
      have hset : (o.carry combine blank i values).getD i blank = combineChildren combine blank values first := by
        simp [carry, hfirst, Array.getD_eq_getD_getElem?, Array.getElem?_setIfInBounds_self_of_lt hn]
      rw [hset]
      refine combineChildren_congr fun j hj => ?_
      rw [getD_foldr_carry (by omega), getD_carry_of_ne (by omega)]

/-- The pass leaves leaves alone. -/
theorem foldr_carry_leaf (hleaf : o.firstChild? i = none) :
    ((List.range n).foldr (o.carry combine blank) values).getD i blank = values.getD i blank := by
  induction n generalizing values with
  | zero => rfl
  | succ n ih =>
    rw [List.range_succ, List.foldr_append]
    refine ih.trans ?_
    rcases Nat.decEq i n with hne | rfl
    · exact getD_carry_of_ne hne
    · simp [carry, hleaf]

theorem size_foldr_carry : ((List.range n).foldr (o.carry combine blank) values).size = values.size := by
  induction n generalizing values with
  | zero => rfl
  | succ n ih => rw [List.range_succ, List.foldr_append, ih, List.foldr_cons, List.foldr_nil, size_carry]

theorem size_upsweep (o : Octree depth) (combine : τ → τ → τ) (blank : τ) (leafValues : Array τ) :
    (o.upsweep combine blank leafValues).size = o.size := by
  refine size_foldr_carry.trans ?_
  rw [Array.size_map, Array.size_range]

/-- An inner node gets the combination of its children's values. -/
theorem upsweep_inner (leafValues : Array τ) (hi : i < (ofLeaves t).size)
    (hfirst : (ofLeaves t).firstChild? i = some first) (hlt : i < first) :
    ((ofLeaves t).upsweep combine blank leafValues).getD i blank =
      combineChildren combine blank ((ofLeaves t).upsweep combine blank leafValues) first :=
  foldr_carry_inner (by simp) hi hfirst hlt

section Related

variable {R : τ → τ → Prop} (hcombine : ∀ {a a' b b' : τ}, R a a' → R b b' → R (combine a b) (combine a' b'))
include hcombine

theorem combineChildren_rel {values' : Array τ} (h : ∀ j, R (values.getD j blank) (values'.getD j blank)) (first : Nat) :
    R (combineChildren combine blank values first) (combineChildren combine blank values' first) := by
  have hfold : ∀ (l : List Nat) {a a' : τ}, R a a' →
      R (l.foldl (fun acc k => combine acc (values.getD (first + 1 + k) blank)) a)
        (l.foldl (fun acc k => combine acc (values'.getD (first + 1 + k) blank)) a') := by
    intro l
    induction l with
    | nil => exact fun ha => ha
    | cons k rest ih => exact fun ha => ih (hcombine ha (h _))
  exact hfold _ (h first)

theorem carry_rel {values' : Array τ} (hsize : values'.size = values.size)
    (h : ∀ j, R (values.getD j blank) (values'.getD j blank)) (i j : Nat) :
    R ((o.carry combine blank i values).getD j blank) ((o.carry combine blank i values').getD j blank) := by
  rcases Nat.decEq j i with hne | rfl
  · rw [getD_carry_of_ne hne, getD_carry_of_ne hne]
    exact h j
  · unfold carry
    cases o.firstChild? j with
    | none => exact h j
    | some first =>
      by_cases hj : j < values.size
      · simpa [Array.getD_eq_getD_getElem?, Array.getElem?_setIfInBounds, hj, hsize] using combineChildren_rel hcombine h first
      · have hvalue := h j
        simpa [Array.getD_eq_getD_getElem?, hj, hsize] using hvalue

/-- Values that are related in the leaves are related in all nodes, if combinations of related values are. -/
theorem upsweep_rel (hblank : R blank blank) {leafValues leafValues' : Array τ}
    (h : ∀ l, R (leafValues.getD l blank) (leafValues'.getD l blank)) (j : Nat) :
    R ((o.upsweep combine blank leafValues).getD j blank) ((o.upsweep combine blank leafValues').getD j blank) := by
  have hpass : ∀ (n : Nat) {values values' : Array τ}, values'.size = values.size →
      (∀ j, R (values.getD j blank) (values'.getD j blank)) →
      ∀ j, R (((List.range n).foldr (o.carry combine blank) values).getD j blank)
        (((List.range n).foldr (o.carry combine blank) values').getD j blank) := by
    intro n
    induction n with
    | zero => exact fun _ hvalues => hvalues
    | succ n ih =>
      intro values values' hsize hvalues
      rw [List.range_succ, List.foldr_append, List.foldr_append]
      exact ih (by rw [List.foldr_cons, List.foldr_nil, List.foldr_cons, List.foldr_nil, size_carry, size_carry, hsize])
        (carry_rel hcombine hsize hvalues n)
  refine hpass o.size (by simp) (fun j => ?_) j
  by_cases hj : j < o.size
  · cases hleaf : o.leaf? j with
    | none => simpa [Array.getD_eq_getD_getElem?, hj, hleaf] using hblank
    | some l => simpa [Array.getD_eq_getD_getElem?, hj, hleaf] using h l
  · simpa [Array.getD_eq_getD_getElem?, hj] using hblank

end Related

section Table

variable (ht : t.isValid = true)
include ht

/-- A leaf's node gets the leaf's value. -/
theorem upsweep_leaf (leafValues : Array τ) (hl : l < t.count) :
    ((ofLeaves t).upsweep combine blank leafValues).getD ((ofLeaves t).leafNode l) blank =
      leafValues.getD l blank := by
  obtain ⟨hpos, hnode⟩ := leafNode_spec ht hl
  have hleaf := leaf?_leafNode ht hl
  refine (foldr_carry_leaf (by rw [firstChild?_ofLeaves hpos, hleaf]; rfl)).trans ?_
  simp [Array.getD_eq_getD_getElem?, hpos, hleaf]

/-- A property of the values of the leaves that combining the octants of a split cell passes on to the cell is one of
the values of all nodes. -/
theorem upsweep_induction {leafValues : Array τ} {P : Node → τ → Prop}
    (leaf : ∀ l < t.count, P (t.node l) (leafValues.getD l blank))
    (inner : ∀ {n : Node} {values : Array τ} {first : Nat}, n.IsCell depth → t.Splits n →
      (∀ k < 8, P (n.child depth k) (values.getD (first + k) blank)) → P n (combineChildren combine blank values first))
    (hi : i < (ofLeaves t).size) :
    P ((ofLeaves t).node i) (((ofLeaves t).upsweep combine blank leafValues).getD i blank) := by
  induction hheight : depth - ((ofLeaves t).node i).level using Nat.strongRecOn generalizing i with
  | ind height ih =>
  have hn := (hasNode ht hi).1
  by_cases hs : t.Splits ((ofLeaves t).node i)
  · obtain ⟨first, hfirst, hlt, hchild⟩ := exists_children ht hi hs
    have hlevel := hs.level_lt hn
    rw [upsweep_inner leafValues hi hfirst hlt]
    refine inner hn hs fun k hk => ?_
    rw [← (hchild k hk).2]
    exact ih (depth - ((ofLeaves t).node (first + k)).level)
      (by rw [(hchild k hk).2, level_child]; omega) (hchild k hk).1 rfl
  · obtain ⟨l, hl, heq⟩ := (hasNode ht hi).exists_node ht hs
    obtain ⟨hpos, hnode⟩ := leafNode_spec ht hl
    rw [← position_inj ht hpos hi (hnode.trans heq), upsweep_leaf ht leafValues hl, hnode]
    exact leaf l hl

end Table

end Octree

end CurvePartition
