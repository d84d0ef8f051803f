-- SUMMARY: What a round makes of a tree for any counts: a valid tree of which each leaf was a leaf, takes the place of eight siblings or lies below a leaf that is too full.
import Mathlib.Algebra.BigOperators.Group.List.Basic
import Mathlib.Data.List.Nodup
import CurvePartition.Proofs.Leaves.Counting

/-!
# What takes the place of leaves

The leaves of a tree after a round were leaves before, are parents of eight leaves, or lie inside a leaf that was split
(`Leaves.node_apply`). The tree stays as it is only if no leaf changes (`Leaves.apply_eq_iff_isStable`). Both hold for every
round that adapts a tree to a shape.

A round of balancing adapts a tree to the cells that are crowded with certain keys. The counts it is decided from need not come
from keys, but every array with a count for each leaf counts the keys that repeat the start of a leaf as often as its count says
(`Leaves.histogram_spread`). So `Leaves.changes_spec` says for any counts what a round makes of a tree.
-/

namespace CurvePartition

namespace Leaves

open Key Node

variable {depth : Nat} {t : Leaves depth} {wanted : Node → Prop} {changes : List LeafChange} {counts : Array Nat}
  {bucketSize i : Nat}

/-! ## Keys for any counts -/

/-- Keys that a tree has the given counts of: the start of each leaf, repeated. -/
def spread (t : Leaves depth) (counts : Array Nat) : List Nat :=
  (List.range t.count).flatMap fun i => List.replicate (counts.getD i 0) (t.start i)

/-- The start of a leaf lies in no other leaf. -/
theorem start_mem_node_iff (ht : t.isValid = true) (hi : i < t.count) {j : Nat} (hj : j < t.count) :
    ((t.node i).first ≤ t.start j ∧ t.start j < (t.node i).stop depth) ↔ j = i := by
  have ha := ascends_of_isValid ht
  rw [stop_node ht hi]
  constructor
  · rintro ⟨hle, hlt⟩
    have hlast := ha.lt_of_start_lt (Nat.le_of_lt hj) hlt
    have hfirst : ¬ j < i := fun hji => Nat.not_lt.2 hle (ha.start_lt hji (Nat.le_of_lt hi))
    omega
  · rintro rfl
    exact ⟨Nat.le_refl _, ha.lt_succ j hj⟩

/-- Every array with a count for each leaf counts keys. -/
theorem histogram_spread (ht : t.isValid = true) (hsize : counts.size = t.count) :
    t.histogram (t.spread counts) = counts := by
  refine Array.ext (by rw [size_histogram, hsize]) fun i _ hi => ?_
  have hlt : i < t.count := hsize ▸ hi
  have hcount : ∀ j ∈ List.range t.count,
      (List.replicate (counts.getD j 0) (t.start j)).countP (fun k => (t.node i).first ≤ k ∧ k < (t.node i).stop depth) =
        if j = i then counts.getD j 0 else 0 := by
    intro j hj
    simp only [List.countP_replicate, decide_eq_true_eq, start_mem_node_iff ht hlt (List.mem_range.1 hj)]
  calc (t.histogram (t.spread counts))[i]
      = (t.histogram (t.spread counts)).getD i 0 := (Array.getElem_eq_getD 0)
    _ = (t.node i).keyCount depth (t.spread counts) := getD_histogram _ hlt
    _ = ((List.range t.count).map fun j => if j = i then counts.getD j 0 else 0).sum := by
      rw [keyCount, spread, List.countP_flatMap]
      exact congrArg List.sum (List.map_congr_left hcount)
    _ = counts.getD i 0 := by
      rw [List.sum_map_eq_nsmul_single i _ fun j hj _ => if_neg hj, List.count_eq_one_of_mem List.nodup_range
        (List.mem_range.2 hlt), one_nsmul, if_pos rfl]
    _ = counts[i] := (Array.getElem_eq_getD 0).symm

/-! ## Number of leaves -/

@[simp] theorem length_pieces (t : Leaves depth) (i count : Nat) : (t.pieces i count).length = count := by
  rw [pieces, List.length_map, List.length_range]

/-- Each change says how many leaves it makes. -/
theorem count_apply (t : Leaves depth) (changes : List LeafChange) :
    (t.apply changes).count = (changes.map LeafChange.leaves).sum := by
  have hlength : (t.apply changes).bounds.size = (changes.map LeafChange.leaves).sum + 1 := by
    rw [← Array.length_toList, toList_bounds_apply, List.length_append, List.length_flatMap, List.length_singleton]
    simp only [length_pieces]
    exact congrArg (fun l => List.sum l + 1) (List.zipIdx_map_fst 0 _)
  rw [count, hlength, Nat.add_sub_cancel]

/-! ## The leaves after a round -/

/-- A leaf after a round was a leaf, or its octants were leaves and it is outside of the shape, or it lies inside a leaf that was
split by so many levels. -/
theorem node_apply (ht : t.isValid = true) (h : t.Adapts wanted changes) {j : Nat} (hj : j < (t.apply changes).count) :
    (∃ i < t.count, (t.apply changes).node j = t.node i) ∨
      (∃ first, t.HoldsChildren first ((t.apply changes).node j) ∧ ¬ wanted ((t.apply changes).node j)) ∨
      ∃ i levels, changes[i]? = some (.split levels) ∧ ((t.apply changes).node j).Inside depth (t.node i) ∧
        t.level i < (t.apply changes).level j ∧ (t.apply changes).level j ≤ t.level i + levels := by
  have ht' := isValid_apply ht h
  have hn := isCell_node ht' hj
  have hnot := not_splits_node ht' hj
  have hparent := splits_parent_node ht' hj
  have hlevel : (t.apply changes).level j = ((t.apply changes).node j).level := rfl
  rw [hlevel] at hparent ⊢
  generalize (t.apply changes).node j = n at hn hnot hparent ⊢
  rcases splits_or_inside ht hn with hs | ⟨i, hi, hin⟩
  -- An inner node that became a leaf has no inner child left to keep it.
  · have hgone : ¬ (wanted n ∨ ∃ k < 8, t.Splits (n.child depth k)) := fun hstay =>
      hnot ((splits_apply_iff ht h hn).2 (.inl ⟨hs, hstay⟩))
    rw [not_or, not_exists] at hgone
    obtain ⟨first, hall⟩ := exists_holdsChildren ht hn hs fun k hk hks => hgone.2 k ⟨hk, hks⟩
    exact .inr (.inl ⟨first, hall, hgone.1⟩)
  · have hm := isCell_node ht hi
    rcases Nat.eq_or_lt_of_le hin.1 with heq | hlt
    · exact .inl ⟨i, hi, hin.eq_of_level hn hm heq.symm⟩
    -- The parent was no inner node, but is one now, so it lies in a leaf that was split.
    · have hpos : 0 < n.level := Nat.lt_of_le_of_lt (Nat.zero_le _) hlt
      have hle : (t.node i).level ≤ (n.parent depth).level := Nat.le_sub_one_of_lt hlt
      have hup : n.Inside depth (n.parent depth) := n.inside_ancestor (Nat.sub_le n.level 1)
      have hpin : (n.parent depth).Inside depth (t.node i) :=
        inside_of_mem hn.parent hm hle ⟨hup.2.1, hup.2.2⟩ ⟨hin.2.1, hin.2.2⟩
      rcases (splits_apply_iff ht h hn.parent).1 (hparent hpos) with ⟨hs, _⟩ | ⟨i', levels, hc, hin', hdeep⟩
      · exact absurd hs (not_splits_of_inside_node ht hi hn.parent hpin)
      · have hm' := isCell_node ht (h.lt_count hc)
        have hcoarse : t.level i' ≤ n.level - 1 := hin'.1
        rw [level_parent] at hdeep
        exact .inr (.inr ⟨i', levels, hc, hup.trans hin' hn.parent hm', by omega, by omega⟩)

/-- A round leaves a tree as it is exactly if no leaf changes. -/
theorem apply_eq_iff_isStable (hshape : IsShape depth wanted) (ht : t.isValid = true) (h : t.Adapts wanted changes) :
    t.apply changes = t ↔ isStable changes = true := by
  rw [isStable_iff_hasShape hshape ht h]
  constructor
  · intro heq
    have hiff := @splits_apply_iff _ _ _ _ ht h
    rw [heq] at hiff
    refine (hasShape_iff hshape ht).2 ⟨fun p hp hs => ?_, fun i hi hw => ?_⟩
    · obtain ⟨n, hn, hin, hns, hlow⟩ := exists_lowest_splits hp hs
      apply hshape.around n p hn hp hin
      rcases (hiff hn).1 hns with ⟨_, hw | ⟨k, hk, hks⟩⟩ | ⟨i, _, hc, hni, _⟩
      · exact hw
      · exact absurd hks (hlow k hk)
      · exact absurd hns (not_splits_of_inside_node ht (h.lt_count hc) hn hni)
    · obtain ⟨levels, hc, _, hpos⟩ := h.exists_split hshape ht hi hw
      have hlevel : (t.node i).level < t.level i + levels := Nat.lt_add_of_pos_right hpos
      exact not_splits_node ht hi ((hiff (isCell_node ht hi)).2 (.inr ⟨i, levels, hc, Inside.refl _, hlevel⟩))
  · intro hhas
    have hkeep := isStable_iff.1 ((isStable_iff_hasShape hshape ht h).2 hhas)
    apply eq_of_splits_iff (isValid_apply ht h) ht
    intro n hn
    rw [splits_apply_iff ht h hn]
    constructor
    · rintro (⟨hs, _⟩ | ⟨i, levels, hc, hin, hlevel⟩)
      · exact hs
      · cases hkeep i _ hc
        exact absurd hlevel (Nat.not_lt.2 hin.1)
    · intro hs
      exact .inl ⟨hs, .inl ((hhas n hn).1 hs)⟩

/-! ## Rounds for any counts -/

/-- Where a leaf after a round comes from. -/
inductive Origin (t : Leaves depth) (counts : Array Nat) (bucketSize : Nat) : Node → Prop
  /-- It was a leaf before. -/
  | kept {i : Nat} (leaf : i < t.count) : Origin t counts bucketSize (t.node i)
  /-- Eight leaves were its octants and held no more than a bucket. -/
  | merged {first : Nat} {p : Node} (octants : t.HoldsChildren first p) (few : siblingSum counts first ≤ bucketSize) :
    Origin t counts bucketSize p
  /-- It lies in a leaf that held more than a bucket, at most four levels below. -/
  | split {i : Nat} {n : Node} (leaf : i < t.count) (many : bucketSize < counts.getD i 0)
    (inside : n.Inside depth (t.node i)) (below : t.level i < n.level) (near : n.level ≤ t.level i + 4) :
    Origin t counts bucketSize n

theorem splitLevels_le_four (bucketSize count room : Nat) : splitLevels bucketSize count room ≤ 4 := by
  unfold splitLevels
  repeat' split
  all_goals decide

theorem le_four_of_decision {levels : Nat} (h : t.decision counts bucketSize i = .split levels) : levels ≤ 4 := by
  unfold decision at h
  repeat' split at h
  all_goals cases h
  all_goals first | exact Nat.zero_le 4 | exact splitLevels_le_four _ _ _

/-- What the changes of a round make of a tree. -/
structure Rebuilds (t : Leaves depth) (counts : Array Nat) (bucketSize : Nat) (changes : List LeafChange) : Prop where
  length_eq : changes.length = t.count
  isValid : (t.apply changes).isValid = true
  count_eq : (t.apply changes).count = (changes.map LeafChange.leaves).sum
  origin : ∀ j < (t.apply changes).count, t.Origin counts bucketSize ((t.apply changes).node j)
  eq_iff : t.apply changes = t ↔ isStable changes = true

theorem origin_apply (ht : t.isValid = true) (hsize : counts.size = t.count)
    (hc : changes = (List.range t.count).map (t.decision counts bucketSize))
    (hadapts : t.Adapts (Crowded depth (t.spread counts) bucketSize) changes) {j : Nat}
    (hj : j < (t.apply changes).count) : t.Origin counts bucketSize ((t.apply changes).node j) := by
  rcases node_apply ht hadapts hj with ⟨i, hi, hnode⟩ | ⟨first, hall, hnot⟩ | ⟨i, levels, hsplit, hin, hbelow, hnear⟩
  · rw [hnode]
    exact .kept hi
  · apply Origin.merged hall
    have hlt : ((t.apply changes).node j).level < depth := by
      have hle := (isCell_node ht (hall 0 (by decide)).1).level_le
      rwa [(hall 0 (by decide)).2, level_child] at hle
    rw [← histogram_spread ht hsize, siblingSum_histogram _ hlt hall]
    exact Nat.not_lt.1 fun hmany => hnot ⟨hlt, hmany⟩
  · have hi := hadapts.lt_count hsplit
    have hmany := (hadapts.wanted_of_pos hsplit (by omega)).2
    rw [← getD_histogram _ hi, histogram_spread ht hsize] at hmany
    have hfour : levels ≤ 4 := by
      rw [hc, List.getElem?_map, List.getElem?_range hi, Option.map_some, Option.some.injEq] at hsplit
      exact le_four_of_decision hsplit
    exact .split hi hmany hin hbelow (Nat.le_trans hnear (Nat.add_le_add_left hfour _))

/-- For any counts, and bucket sizes of which the largest multiple is a word, there is a change for each leaf. With these changes
the tree is a tree again, with as many leaves as they say and of which each has one of three origins. It is the same tree exactly
if every leaf stays. -/
theorem changes_spec (ht : t.isValid = true) (hsize : counts.size = t.count) (hfits : bucketSize * 512 < 2 ^ 64) :
    ∃ changes, t.changes counts bucketSize = .ok changes ∧ t.Rebuilds counts bucketSize changes := by
  have hshape := isShape_crowded depth (t.spread counts) bucketSize
  have hadapts := adapts_decisions ht (t.spread counts) bucketSize
  rw [histogram_spread ht hsize] at hadapts
  exact ⟨_, changes_eq_decisions t counts hfits, {
    length_eq := hadapts.length_eq
    isValid := isValid_apply ht hadapts
    count_eq := count_apply _ _
    origin := fun _ hj => origin_apply ht hsize rfl hadapts hj
    eq_iff := apply_eq_iff_isStable hshape ht hadapts }⟩

/-- The octants of the root, of which only the first one is full, are made 71 leaves. -/
theorem changes_spec_octants : (uniform 1 : Leaves KeyWidth.narrow.depth).isValid = true ∧
    (#[100, 0, 0, 0, 0, 0, 0, 0] : Array Nat).size = (uniform 1 : Leaves KeyWidth.narrow.depth).count ∧
    10 * 512 < 2 ^ 64 ∧
    ∃ changes, (uniform 1 : Leaves KeyWidth.narrow.depth).changes #[100, 0, 0, 0, 0, 0, 0, 0] 10 = .ok changes ∧
      ((uniform 1).apply changes : Leaves KeyWidth.narrow.depth).count = 71 ∧
      ((uniform 1).apply changes : Leaves KeyWidth.narrow.depth).isValid = true := by
  have ht : (uniform 1 : Leaves KeyWidth.narrow.depth).isValid = true := by decide +kernel
  have hsize : (#[100, 0, 0, 0, 0, 0, 0, 0] : Array Nat).size = (uniform 1 : Leaves KeyWidth.narrow.depth).count := by
    decide +kernel
  have hfits : 10 * 512 < 2 ^ 64 := by decide
  refine ⟨ht, hsize, hfits, ?_⟩
  obtain ⟨changes, hchanges, hnew⟩ := changes_spec ht hsize hfits
  refine ⟨changes, hchanges, ?_, hnew.isValid⟩
  have hlist : (uniform 1 : Leaves KeyWidth.narrow.depth).changes #[100, 0, 0, 0, 0, 0, 0, 0] 10 =
      .ok (.split 2 :: List.replicate 7 .keep) := by
    decide +kernel
  rw [hlist] at hchanges
  cases hchanges
  rw [hnew.count_eq]
  rfl

end Leaves

end CurvePartition
