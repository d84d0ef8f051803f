-- SUMMARY: Keys per cell, the shape of a balanced tree, and that a round decided from exact counts adapts a tree to that shape.
import CurvePartition.Proofs.Leaves.Settling
import CurvePartition.Proofs.Sorted.Counting

/-!
# Crowded cells

A cell above the deepest level is *crowded* if more keys than a bucket holds lie in it. The crowded cells are a shape. A
round of balancing that is decided from the exact counts of the leaves adapts the tree to them, because the counts of
eight sibling leaves add up to that of their parent (`Node.sum_keyCount_child`).
-/

namespace CurvePartition

open Key

namespace Node

variable {depth : Nat} {keys : List Nat} {m n : Node}

/-- Number of keys in a node. -/
def keyCount (depth : Nat) (keys : List Nat) (n : Node) : Nat :=
  keys.countP fun k => n.first ≤ k ∧ k < n.stop depth

/-- Whether a cell holds more keys than a bucket and could be split. -/
def Crowded (depth : Nat) (keys : List Nat) (bucketSize : Nat) (n : Node) : Prop :=
  n.level < depth ∧ bucketSize < n.keyCount depth keys

theorem keyCount_le (h : m.Inside depth n) (hm : m.IsCell depth) (hn : n.IsCell depth) :
    m.keyCount depth keys ≤ n.keyCount depth keys := by
  refine List.countP_mono_left fun k _ hk => ?_
  simp only [decide_eq_true_eq] at hk ⊢
  exact ⟨Nat.le_trans h.2.1 hk.1, Nat.lt_of_lt_of_le hk.2 (h.stop_le hm hn)⟩

/-- A cell holds what its octants hold. -/
theorem sum_keyCount_child (hlt : n.level < depth) :
    ((List.range 8).map fun k => (n.child depth k).keyCount depth keys).sum = n.keyCount depth keys := by
  have first : ∀ m, ((List.range m).map fun k => (n.child depth k).keyCount depth keys).sum =
      keys.countP fun k => n.first ≤ k ∧ k < n.first + m * extent depth (n.level + 1) := by
    intro m
    induction m with
    | zero =>
      refine (List.countP_eq_zero.2 fun k _ hk => ?_).symm
      simp only [decide_eq_true_eq] at hk
      omega
    | succ m ih =>
      rw [List.range_succ, List.map_append, List.sum_append, ih]
      simp only [List.map_cons, List.map_nil, List.sum_cons, List.sum_nil, Nat.add_zero, keyCount, child_stop,
        first_child]
      have h₁ := Sorted.countP_lt_add (Nat.le_add_right n.first (m * extent depth (n.level + 1))) keys
      have h₂ := Sorted.countP_lt_add (Nat.le_add_right n.first ((m + 1) * extent depth (n.level + 1))) keys
      have hle : n.first + m * extent depth (n.level + 1) ≤ n.first + (m + 1) * extent depth (n.level + 1) :=
        Nat.add_le_add_left (Nat.mul_le_mul_right _ (Nat.le_succ m)) _
      have h₃ := Sorted.countP_lt_add hle keys
      omega
  rw [first, keyCount, stop, extent_eq_mul hlt]

/-- A node of the deepest level is a single key. -/
theorem keyCount_deepest (key : Nat) : keyCount depth keys ⟨key, depth⟩ = keys.count key := by
  refine List.countP_congr fun k _ => ?_
  simp only [stop, extent_self, decide_eq_true_eq, beq_iff_eq]
  omega

end Node

open Node

theorem isShape_crowded (depth : Nat) (keys : List Nat) (bucketSize : Nat) :
    IsShape depth (Crowded depth keys bucketSize) where
  level_lt _ _ h := h.1
  around _ _ hm hn hin h := ⟨Nat.lt_of_le_of_lt hin.1 h.1, Nat.lt_of_lt_of_le h.2 (keyCount_le hin hm hn)⟩

namespace Leaves

variable {depth : Nat} {t : Leaves depth} {i : Nat}

/-- Number of keys in each leaf, by the definition. -/
def histogram (t : Leaves depth) (keys : List Nat) : Array Nat :=
  (Array.range t.count).map fun i => (t.node i).keyCount depth keys

@[simp] theorem size_histogram (t : Leaves depth) (keys : List Nat) : (t.histogram keys).size = t.count := by
  simp [histogram]

theorem getD_histogram (keys : List Nat) (hi : i < t.count) :
    (t.histogram keys).getD i 0 = (t.node i).keyCount depth keys := by
  simp [histogram, Array.getD, hi]

/-- Counting by search is exact. -/
theorem counts_eq_histogram (backend : Backend) (ht : t.isValid = true) {keys : Array Nat}
    (hkeys : Sorted.Ascending keys) : t.counts backend keys = t.histogram keys.toList := by
  refine Array.ext (by simp) fun i h₁ _ => ?_
  have hi : i < t.count := by simpa using h₁
  have hlt := (ascends_of_isValid ht).lt_succ i hi
  simp only [counts, slice, Backend.mapIndices, histogram, Array.getElem_map, Array.getElem_range, keyCount,
    stop_node ht hi]
  exact Sorted.lowerBound_sub hkeys (Nat.le_of_lt hlt)

/-- Eight leaves hold together what their parent holds. -/
theorem siblingSum_histogram (keys : List Nat) {first : Nat} {p : Node} (hlt : p.level < depth)
    (h : t.HoldsChildren first p) : siblingSum (t.histogram keys) first = p.keyCount depth keys := by
  rw [siblingSum, ← sum_keyCount_child hlt]
  refine congrArg List.sum (List.map_congr_left fun k hk => ?_)
  obtain ⟨hi, hnode⟩ := h k (List.mem_range.1 hk)
  rw [getD_histogram keys hi, hnode]

/-! ## Rounds of balancing -/

theorem splitLevels_le (bucketSize count room : Nat) : splitLevels bucketSize count room ≤ room := by
  unfold splitLevels
  repeat' split
  all_goals omega

theorem splitLevels_pos_iff {bucketSize count room : Nat} :
    0 < splitLevels bucketSize count room ↔ 0 < room ∧ bucketSize < count := by
  unfold splitLevels
  repeat' split
  all_goals omega

/-- The change of a leaf where the decision cannot fail. -/
def decision (t : Leaves depth) (counts : Array Nat) (bucketSize i : Nat) : LeafChange :=
  match t.siblingSlot i with
  | some slot =>
    if siblingSum counts (i - slot) ≤ bucketSize then if slot = 0 then .keep else .drop
    else .split (splitLevels bucketSize (counts.getD i 0) (depth - t.level i))
  | none => .split (splitLevels bucketSize (counts.getD i 0) (depth - t.level i))

theorem change_eq_decision (t : Leaves depth) (counts : Array Nat) {bucketSize : Nat}
    (hfits : bucketSize * 512 < 2 ^ 64) (i : Nat) : t.change counts bucketSize i = .ok (t.decision counts bucketSize i) := by
  cases hslot : t.siblingSlot i with
  | none => simp only [change, decision, hslot, if_neg (Nat.not_le.2 hfits)]
  | some slot =>
    simp only [change, decision, hslot, if_neg (Nat.not_le.2 hfits)]
    split <;> rfl

theorem changes_eq_decisions (t : Leaves depth) (counts : Array Nat) {bucketSize : Nat}
    (hfits : bucketSize * 512 < 2 ^ 64) :
    t.changes counts bucketSize = .ok ((List.range t.count).map (t.decision counts bucketSize)) := by
  have hpure : t.change counts bucketSize = fun i => pure (t.decision counts bucketSize i) :=
    funext (change_eq_decision t counts hfits)
  rw [changes, hpure]
  exact List.mapM_pure

/-- Siblings are few enough to be merged exactly if their parent is not crowded. -/
theorem siblingSum_le_iff (ht : t.isValid = true) (keys : List Nat) (bucketSize : Nat) (hi : i < t.count) {slot : Nat}
    (hslot : t.siblingSlot i = some slot) : siblingSum (t.histogram keys) (i - slot) ≤ bucketSize ↔
      ¬ Crowded depth keys bucketSize ((t.node i).parent depth) := by
  obtain ⟨hpos, _, _, hall, _⟩ := (siblingSlot_eq_some_iff ht hi).1 hslot
  have hp := (isCell_node ht hi).parent
  have hlt := (splits_parent_node ht hi hpos).level_lt hp
  rw [siblingSum_histogram keys hlt hall]
  simp only [Crowded, hlt, true_and, Nat.not_lt]

/-- Decisions from exact counts adapt a tree to the crowded cells. -/
theorem adapts_decisions (ht : t.isValid = true) (keys : List Nat) (bucketSize : Nat) :
    t.Adapts (Crowded depth keys bucketSize)
      ((List.range t.count).map (t.decision (t.histogram keys) bucketSize)) where
  length_eq := by simp
  merge i hi slot hslot hnot := by
    simp only [List.getElem?_map, List.getElem?_range hi, Option.map_some, decision, hslot,
      if_pos ((siblingSum_le_iff ht keys bucketSize hi hslot).2 hnot)]
  split i hi hall := by
    refine ⟨splitLevels bucketSize ((t.histogram keys).getD i 0) (depth - t.level i), ?_, ?_, ?_⟩
    · rw [List.getElem?_map, List.getElem?_range hi, Option.map_some]
      cases hslot : t.siblingSlot i with
      | none => simp only [decision, hslot]
      | some slot =>
        have hnot := mt (siblingSum_le_iff ht keys bucketSize hi hslot).1 (not_not_intro (hall slot hslot))
        simp only [decision, hslot, if_neg hnot]
    · have hroom := splitLevels_le bucketSize ((t.histogram keys).getD i 0) (depth - t.level i)
      have hle : t.level i ≤ depth := (isCell_node ht hi).level_le
      omega
    · rw [splitLevels_pos_iff, getD_histogram keys hi, Nat.sub_pos_iff_lt]
      rfl

/-! ## Keys that cannot be split -/

/-- Whether a key is the first one that occurs more often than a bucket holds. -/
def FirstCrowdedKey (depth : Nat) (keys : List Nat) (bucketSize key : Nat) : Prop :=
  key < bound depth ∧ bucketSize < keys.count key ∧ ∀ k < key, keys.count k ≤ bucketSize

/-- In a balanced tree a key that occurs too often is a leaf. -/
theorem exists_leaf_of_count (ht : t.isValid = true) {keys : List Nat} {bucketSize : Nat}
    (hshape : t.HasShape (Crowded depth keys bucketSize)) {key : Nat} (hkey : key < bound depth)
    (hmany : bucketSize < keys.count key) : ∃ i < t.count, t.node i = ⟨key, depth⟩ := by
  have hn : Node.IsCell depth ⟨key, depth⟩ := ⟨Nat.le_refl _, by simp, hkey⟩
  have hnot : ¬ t.Splits ⟨key, depth⟩ := fun hs => Nat.lt_irrefl depth (hs.level_lt hn)
  refine exists_node ht hn hnot ?_
  rcases Nat.eq_zero_or_pos depth with hzero | hpos
  · exact .inl hzero
  · refine .inr ((hshape _ hn.parent).2 ⟨?_, ?_⟩)
    · simp only [level_parent]
      omega
    · refine Nat.lt_of_lt_of_le ?_ (keyCount_le (inside_ancestor _ (Nat.sub_le _ _)) hn hn.parent)
      rwa [keyCount_deepest]

/-- The check finds the first key that occurs too often. -/
theorem checkSplittable_histogram (ht : t.isValid = true) {keys : List Nat} {bucketSize : Nat}
    (hshape : t.HasShape (Crowded depth keys bucketSize)) :
    (∃ key, FirstCrowdedKey depth keys bucketSize key ∧
      t.checkSplittable (t.histogram keys) bucketSize = .error (.unsplittable key (keys.count key) bucketSize)) ∨
    (∀ key < bound depth, keys.count key ≤ bucketSize) ∧
      t.checkSplittable (t.histogram keys) bucketSize = .ok () := by
  have ha := ascends_of_isValid ht
  have hcount : ∀ i < t.count, t.level i = depth →
      (t.histogram keys).getD i 0 = keys.count (t.start i) := by
    intro i hi hl
    have hnode : t.node i = ⟨t.start i, depth⟩ := by simp only [node, hl]
    rw [getD_histogram keys hi, hnode, keyCount_deepest]
  unfold checkSplittable
  split
  case h_1 i hfind =>
    obtain ⟨hcond, hmem, hbefore⟩ := List.find?_range_eq_some.1 hfind
    have hi : i < t.count := by simpa using hmem
    obtain ⟨hmany, hl⟩ := by simpa only [decide_eq_true_eq] using hcond
    rw [hcount i hi hl] at hmany
    refine .inl ⟨t.start i, ⟨ha.start_lt_bound hi, hmany, fun k hk => ?_⟩, by rw [hcount i hi hl]⟩
    by_contra hgt
    obtain ⟨j, hj, hnode⟩ := exists_leaf_of_count ht hshape (Nat.lt_trans hk (ha.start_lt_bound hi))
      (Nat.not_le.1 hgt)
    have hstart : t.start j = k := congrArg Node.first hnode
    have hji : j < i := ha.lt_of_start_lt (Nat.le_of_lt hj) (by rw [hstart]; exact hk)
    have hlj : t.level j = depth := congrArg Node.level hnode
    have := hbefore j hji
    rw [hcount j hj hlj, hstart] at this
    simp [hlj, Nat.not_le.1 hgt] at this
  case h_2 hfind =>
    refine .inr ⟨fun key hkey => ?_, rfl⟩
    by_contra hgt
    obtain ⟨i, hi, hnode⟩ := exists_leaf_of_count ht hshape hkey (Nat.not_le.1 hgt)
    have hl : t.level i = depth := congrArg Node.level hnode
    have hstart : t.start i = key := congrArg Node.first hnode
    have := List.find?_eq_none.1 hfind i (by simpa using hi)
    rw [hcount i hi hl, hstart] at this
    simp [hl, Nat.not_le.1 hgt] at this

end Leaves

end CurvePartition
