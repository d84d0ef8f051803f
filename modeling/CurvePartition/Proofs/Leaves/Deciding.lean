-- SUMMARY: What a round decides about a leaf for any counts: which siblings are merged, by how many levels a leaf is split, and for which bucket sizes that cannot be said.
import CurvePartition.Config.Basic
import CurvePartition.Proofs.Leaves.Siblings

/-!
# Decisions about leaves

A round decides about a leaf from the counts of the leaf and of its siblings, whether or not these come from keys. Siblings
that hold no more than a bucket together are merged. Every other leaf is split by one level for each of the bucket size and
its multiples by 8, 64 and 512 that its count exceeds, as far as there are levels left (`Leaves.splitLevels_eq_min`).

All of this is computed in words. The counts of siblings add up to no more than all counts, and the first and the last key of
their parent are keys again (`Leaves.decidesInWords`). The largest multiple of the bucket size is a word only for bucket sizes
below `2 ^ 55`; a configuration may have a larger one, and then no leaf can be decided about unless it is merged
(`Leaves.change_exact`).
-/

namespace CurvePartition

/-- Keys are words of their width. -/
theorem KeyWidth.bound_lt (width : KeyWidth) : Key.bound width.depth < 256 ^ width.bytes := by
  cases width
  all_goals decide

namespace Leaves

open Key Node

variable {depth : Nat} {t : Leaves depth} {counts : Array Nat} {bucketSize i : Nat}

/-! ## Splits -/

/-- How many of the bucket size and its multiples by 8, 64 and 512 a count exceeds. -/
def exceeded (bucketSize count : Nat) : Nat := (List.range 4).countP fun k => bucketSize * 8 ^ k < count

/-- The multiples ascend, so the number of those that a count exceeds says between which two it lies. -/
theorem exceeded_cases (bucketSize count : Nat) :
    (exceeded bucketSize count = 0 ∧ count ≤ bucketSize) ∨
      (exceeded bucketSize count = 1 ∧ bucketSize < count ∧ count ≤ bucketSize * 8) ∨
      (exceeded bucketSize count = 2 ∧ bucketSize * 8 < count ∧ count ≤ bucketSize * 64) ∨
      (exceeded bucketSize count = 3 ∧ bucketSize * 64 < count ∧ count ≤ bucketSize * 512) ∨
      (exceeded bucketSize count = 4 ∧ bucketSize < count ∧ bucketSize * 512 < count) := by
  have hrange : List.range 4 = [0, 1, 2, 3] := rfl
  simp only [exceeded, hrange, List.countP_cons, List.countP_nil, decide_eq_true_eq, Nat.pow_zero, Nat.mul_one,
    Nat.reducePow]
  split <;> split <;> split <;> split <;> omega

/-- A leaf is split by a level for each multiple of the bucket size that its count exceeds, as far as there is room. -/
theorem splitLevels_eq_min (bucketSize count room : Nat) :
    splitLevels bucketSize count room = min room (exceeded bucketSize count) := by
  unfold splitLevels
  rcases exceeded_cases bucketSize count with ⟨hj, h⟩ | ⟨hj, h⟩ | ⟨hj, h⟩ | ⟨hj, h⟩ | ⟨hj, h⟩
  all_goals
    rw [hj]
    repeat' split
    all_goals omega

/-! ## Words -/

/-- Whether a leaf is one of eight siblings that hold no more than a bucket together. -/
def Merges (t : Leaves depth) (counts : Array Nat) (bucketSize i : Nat) : Prop :=
  ∃ slot, t.siblingSlot i = some slot ∧ siblingSum counts (i - slot) ≤ bucketSize

/-- Whether a decision gets along with words until it looks at the bucket size: no difference is below zero, the first and the
last key of the parent are words, and the siblings are counted by a word. -/
structure DecidesInWords {width : KeyWidth} (t : Leaves width.depth) (counts : Array Nat) (i : Nat) : Prop where
  start_le : t.start i ≤ t.start (i + 1)
  level_le : t.level i ≤ width.depth
  octant_le : 0 < t.level i → octant width.depth (t.level i) (t.start i) * extent width.depth (t.level i) ≤ t.start i
  parent_lt : 0 < t.level i → t.start i - octant width.depth (t.level i) (t.start i) * extent width.depth (t.level i) +
    extent width.depth (t.level i - 1) < 256 ^ width.bytes
  sum_lt : ∀ slot, t.siblingSlot i = some slot → siblingSum counts (i - slot) < 2 ^ 64

/-- Counts in a row add up to no more than all counts. -/
theorem siblingSum_le_sum (counts : Array Nat) (first : Nat) : siblingSum counts first ≤ counts.toList.sum := by
  have hrow : ∀ n, (counts.toList.take first).sum + ((List.range n).map fun k => counts.getD (first + k) 0).sum =
      (counts.toList.take (first + n)).sum := by
    intro n
    induction n with
    | zero => rfl
    | succ n ih =>
      rw [List.range_succ, List.map_append, List.sum_append, ← Nat.add_assoc, ih, ← Nat.add_assoc, List.take_add_one,
        List.sum_append, List.map_singleton, Array.getD_eq_getD_getElem?, ← Array.getElem?_toList]
      cases counts.toList[first + n]? <;> rfl
  have hall := congrArg List.sum (List.take_append_drop (first + 8) counts.toList)
  rw [List.sum_append, ← hrow] at hall
  unfold siblingSum
  omega

theorem decidesInWords {width : KeyWidth} {t : Leaves width.depth} (ht : t.isValid = true)
    (hcounts : counts.toList.sum < 2 ^ 64) (hi : i < t.count) : t.DecidesInWords counts i where
  start_le := Nat.le_of_lt ((ascends_of_isValid ht).lt_succ i hi)
  level_le := (isCell_node ht hi).level_le
  octant_le hpos := by
    obtain ⟨octant, _, hoctant, hnode, _⟩ := start_sub_octant ht hi hpos
    have hfirst : t.start i = ((t.node i).parent width.depth).first + octant * extent width.depth (t.level i) := by
      have h := congrArg Node.first hnode
      rwa [first_child, level_parent, node, Nat.sub_add_cancel hpos] at h
    rw [hoctant, hfirst]
    exact Nat.le_add_left _ _
  parent_lt hpos := by
    obtain ⟨octant, _, hoctant, _, hparent⟩ := start_sub_octant ht hi hpos
    rw [hoctant, hparent]
    exact Nat.lt_of_le_of_lt (isCell_node ht hi).parent.stop_le width.bound_lt
  sum_lt slot _ := Nat.lt_of_le_of_lt (siblingSum_le_sum counts (i - slot)) hcounts

/-! ## Decisions -/

theorem change_of_siblingSum_le {slot : Nat} (hslot : t.siblingSlot i = some slot)
    (hfew : siblingSum counts (i - slot) ≤ bucketSize) :
    t.change counts bucketSize i = .ok (if slot = 0 then .keep else .drop) := by
  unfold change
  rw [hslot]
  exact if_pos hfew

theorem change_of_not_merges (hnot : ¬ t.Merges counts bucketSize i) : t.change counts bucketSize i =
    if bucketSize * 512 < 2 ^ 64 then
      .ok (.split (min (depth - t.level i) (exceeded bucketSize (counts.getD i 0))))
    else .error (.bucketTooLarge bucketSize) := by
  have hsplit : t.change counts bucketSize i = if 2 ^ 64 ≤ bucketSize * 512 then .error (.bucketTooLarge bucketSize)
      else .ok (.split (splitLevels bucketSize (counts.getD i 0) (depth - t.level i))) := by
    unfold change
    cases hslot : t.siblingSlot i with
    | none => rfl
    | some slot =>
      have hmany : ¬ siblingSum counts (i - slot) ≤ bucketSize := fun hfew => hnot ⟨slot, hslot, hfew⟩
      exact if_neg hmany
  rw [hsplit, splitLevels_eq_min]
  by_cases hfits : bucketSize * 512 < 2 ^ 64
  · rw [if_pos hfits, if_neg (Nat.not_le.2 hfits)]
  · rw [if_neg hfits, if_pos (Nat.not_lt.1 hfits)]

/-- Siblings with no more than a bucket are merged. Every other leaf is split by as many levels as its count exceeds multiples
of the bucket size and there is room for, if the largest of them is a word; otherwise nothing can be decided about it. No leaf
with no more than a bucket is ever split. All other numbers that the decision computes are words. -/
theorem change_exact {width : KeyWidth} {t : Leaves width.depth} (ht : t.isValid = true)
    (hcounts : counts.toList.sum < 2 ^ 64) (bucketSize : Nat) (hi : i < t.count) :
    t.DecidesInWords counts i ∧
    (∀ slot, t.siblingSlot i = some slot → siblingSum counts (i - slot) ≤ bucketSize →
      t.change counts bucketSize i = .ok (if slot = 0 then .keep else .drop)) ∧
    (¬ t.Merges counts bucketSize i → t.change counts bucketSize i =
      if bucketSize * 512 < 2 ^ 64 then
        .ok (.split (min (width.depth - t.level i) (exceeded bucketSize (counts.getD i 0))))
      else .error (.bucketTooLarge bucketSize)) ∧
    ∀ levels, t.change counts bucketSize i = .ok (.split levels) → counts.getD i 0 ≤ bucketSize → levels = 0 := by
  refine ⟨decidesInWords ht hcounts hi, fun slot => change_of_siblingSum_le, change_of_not_merges, ?_⟩
  intro levels hchange hfew
  by_cases hmerges : t.Merges counts bucketSize i
  · obtain ⟨slot, hslot, hsum⟩ := hmerges
    rw [change_of_siblingSum_le hslot hsum] at hchange
    split at hchange
    · cases hchange
      rfl
    · cases hchange
  · rw [change_of_not_merges hmerges] at hchange
    split at hchange
    · cases hchange
      rcases exceeded_cases bucketSize (counts.getD i 0) with ⟨hj, _⟩ | ⟨_, h⟩ | ⟨_, h⟩ | ⟨_, h⟩ | ⟨_, h⟩
      · rw [hj, Nat.min_zero]
      all_goals omega
    · cases hchange

/-- The octants of the root, of which the first one holds ten buckets and the last one half of a bucket. -/
theorem change_exact_octants : (uniform 1 : Leaves KeyWidth.narrow.depth).isValid = true ∧
    (#[20, 0, 0, 0, 0, 0, 0, 1] : Array Nat).toList.sum < 2 ^ 64 ∧ 0 < (uniform 1 : Leaves KeyWidth.narrow.depth).count ∧
    (uniform 1 : Leaves KeyWidth.narrow.depth).change #[20, 0, 0, 0, 0, 0, 0, 1] 2 0 = .ok (.split 2) := by
  have ht : (uniform 1 : Leaves KeyWidth.narrow.depth).isValid = true := by decide +kernel
  have hcounts : (#[20, 0, 0, 0, 0, 0, 0, 1] : Array Nat).toList.sum < 2 ^ 64 := by decide
  have hi : 0 < (uniform 1 : Leaves KeyWidth.narrow.depth).count := by decide +kernel
  refine ⟨ht, hcounts, hi, ?_⟩
  have hslot : (uniform 1 : Leaves KeyWidth.narrow.depth).siblingSlot 0 = some 0 := by decide +kernel
  have hnot : ¬ (uniform 1 : Leaves KeyWidth.narrow.depth).Merges #[20, 0, 0, 0, 0, 0, 0, 1] 2 0 := by
    rintro ⟨slot, hsome, hfew⟩
    rw [hslot] at hsome
    cases hsome
    exact absurd hfew (by decide)
  rw [(change_exact ht hcounts 2 hi).2.2.1 hnot]
  decide +kernel

/-- A configuration with the smallest bucket size of which the largest multiple is no word. -/
def largeBuckets : Config Float := { Config.standard with bucketSize := 2 ^ 55 }

/-- The configuration passes its check and a root with one particle exceeds none of the multiples, but nothing can be decided
about it. -/
theorem change_fails_largeBuckets : largeBuckets.check = .ok () ∧ largeBuckets.bucketSize < 2 ^ 64 ∧
    (root : Leaves KeyWidth.narrow.depth).isValid = true ∧ (#[1] : Array Nat).toList.sum < 2 ^ 64 ∧
    ¬ (root : Leaves KeyWidth.narrow.depth).Merges #[1] largeBuckets.bucketSize 0 ∧
    exceeded largeBuckets.bucketSize 1 = 0 ∧
    (root : Leaves KeyWidth.narrow.depth).change #[1] largeBuckets.bucketSize 0 =
      .error (.bucketTooLarge largeBuckets.bucketSize) := by
  have hnot : ¬ (root : Leaves KeyWidth.narrow.depth).Merges #[1] largeBuckets.bucketSize 0 := by
    rintro ⟨slot, hslot, _⟩
    cases hslot
  have hlarge : ¬ largeBuckets.bucketSize * 512 < 2 ^ 64 := by decide
  refine ⟨rfl, by decide, isValid_root _, by decide, hnot, by decide, ?_⟩
  rw [change_of_not_merges hnot, if_neg hlarge]

end Leaves

end CurvePartition
