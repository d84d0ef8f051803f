-- SUMMARY: What the look-ups of a tree find: the leaf that holds a key, and the leaf that starts at a boundary.
import CurvePartition.Proofs.Leaves.Siblings
import CurvePartition.Proofs.Sorted.Counting

/-!
# Look-ups in the leaves

Boundaries ascend, so both binary searches find their leaf. The level of the leaf that holds the first key of a cell
tells whether the cell is split.
-/

namespace CurvePartition

open Key Node

namespace Leaves

variable {depth : Nat} {t : Leaves depth} {i j key : Nat} {n : Node}

section Ascends

variable (ha : t.Ascends)
include ha

theorem upperBound_eq (hi : i < t.count) (hle : t.start i ≤ key) (hlt : key < t.start (i + 1)) :
    Sorted.upperBound t.bounds key = i + 1 := by
  refine Sorted.boundary_eq (Nat.zero_le _) (by rw [ha.size_eq]; exact Nat.succ_le_succ (Nat.le_of_lt hi))
    fun j _ hj => ?_
  have hj' : j ≤ t.count := Nat.le_of_lt_succ (Nat.lt_of_lt_of_eq hj ha.size_eq)
  rw [decide_eq_true_eq, Nat.lt_succ_iff]
  constructor
  · intro hkey
    exact Nat.le_of_lt_succ (ha.lt_of_start_lt hj' (Nat.lt_of_le_of_lt hkey hlt))
  · intro hji
    exact Nat.le_trans (ha.start_le hji (Nat.le_of_lt hi)) hle

/-- The leaf that holds a key is found. -/
theorem find_eq (hi : i < t.count) (hle : t.start i ≤ key) (hlt : key < t.start (i + 1)) : t.find key = i := by
  rw [find, upperBound_eq ha hi hle hlt, Nat.add_sub_cancel]

/-- The leaf that starts at a boundary is found. -/
theorem firstFrom_start (hi : i ≤ t.count) : t.firstFrom (t.start i) = i := by
  refine Sorted.boundary_eq (Nat.zero_le _) (by rw [ha.size_eq]; exact Nat.le_succ_of_le hi) fun j _ hj => ?_
  have hj' : j ≤ t.count := Nat.le_of_lt_succ (Nat.lt_of_lt_of_eq hj ha.size_eq)
  rw [decide_eq_true_eq]
  constructor
  · intro hlt
    exact ha.lt_of_start_lt hj' hlt
  · intro hlt
    exact ha.start_lt hlt hi

end Ascends

/-! ## Ranges between boundaries -/

/-- Whether a key range starts and ends on boundaries. -/
structure Bounds (t : Leaves depth) (r : KeyRange) : Prop where
  first : t.IsBoundary r.first
  last : t.IsBoundary r.last

/-- A leaf overlaps a range between boundaries exactly if it lies inside. -/
theorem Bounds.overlaps_iff {r : KeyRange} (hr : t.Bounds r) (ha : t.Ascends) (hi : i < t.count) :
    (t.range i).overlaps r = true ↔ (t.range i).within r = true := by
  obtain ⟨⟨j, hj, hfirst⟩, ⟨k, hk, hlast⟩⟩ := hr
  have hlt := ha.lt_succ i hi
  simp only [KeyRange.overlaps, KeyRange.within, Leaves.range, Bool.and_eq_true, decide_eq_true_eq, ← hfirst, ← hlast]
  constructor
  · rintro ⟨hik, hji⟩
    have hj' : j ≤ i := Nat.le_of_lt_succ (ha.lt_of_start_lt hj hji)
    have hk' : i + 1 ≤ k := ha.lt_of_start_lt (Nat.le_of_lt hi) hik
    exact ⟨ha.start_le hj' (Nat.le_of_lt hi), ha.start_le hk' hk⟩
  · rintro ⟨hji, hik⟩
    exact ⟨Nat.lt_of_lt_of_le hlt hik, Nat.lt_of_le_of_lt hji hlt⟩

theorem Bounds.last_le {r : KeyRange} (hr : t.Bounds r) (ha : t.Ascends) : r.last ≤ bound depth := by
  obtain ⟨k, hk, hlast⟩ := hr.last
  exact hlast ▸ ha.start_le_bound hk

/-- A cell is split exactly if the leaf that holds its first key is finer. -/
theorem level_lt_level_find_iff (ht : t.isValid = true) (hn : n.IsCell depth) (hkey : n.first ≤ key)
    (hlt : key < n.stop depth) : n.level < t.level (t.find key) ↔ t.Splits n := by
  have ha := ascends_of_isValid ht
  obtain ⟨i, hi, hle, hlt'⟩ := ha.exists_leaf (Nat.lt_of_lt_of_le hlt hn.stop_le)
  have hm := isCell_node ht hi
  have hmem : (t.node i).first ≤ key ∧ key < (t.node i).stop depth := ⟨hle, by rwa [stop_node ht hi]⟩
  rw [find_eq ha hi hle hlt']
  constructor
  · intro hlevel
    exact (splits_iff_exists_leaf ht hn).2
      ⟨i, hi, hlevel, inside_of_mem hm hn (Nat.le_of_lt hlevel) hmem ⟨hkey, hlt⟩⟩
  · intro hs
    refine Nat.not_le.1 fun hlevel => not_splits_of_inside_node ht hi hn ?_ hs
    exact inside_of_mem hn hm hlevel ⟨hkey, hlt⟩ hmem

end Leaves

end CurvePartition
