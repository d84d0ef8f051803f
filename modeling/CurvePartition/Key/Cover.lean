-- SUMMARY: The cover of a key range by octree nodes, chosen from left to right as coarse as alignment and the end of the range allow.
import CurvePartition.Key.Basic

/-!
# Covers

`Key.cover` tiles a key range with octree nodes. Each step takes the coarsest node that starts at the
first key not yet covered and does not pass the end of the range. A node of the deepest level is a single
key and always fits, so the walk moves on by at least one key.
-/

namespace CurvePartition

namespace Key

/-- Whether the node of `level` at `first` starts there and ends by `last`. -/
def fits (depth first last level : Nat) : Bool :=
  isAligned depth level first && first + extent depth level ≤ last

/-- Coarsest level of a node that starts at `first` and ends by `last`. -/
def coarsestLevel (depth first last : Nat) : Nat :=
  ((List.range depth).find? (fits depth first last)).getD depth

/-- Nodes that tile the keys from `first` up to `last`, in key order. -/
def cover (depth first last : Nat) : List Node :=
  if _h : first < last then
    let level := coarsestLevel depth first last
    ⟨first, level⟩ :: cover depth (first + extent depth level) last
  else
    []
termination_by last - first
decreasing_by
  have := extent_pos depth (coarsestLevel depth first last)
  omega

theorem cover_of_le {depth first last : Nat} (h : last ≤ first) : cover depth first last = [] := by
  rw [cover, dif_neg (by omega)]

theorem cover_of_lt {depth first last : Nat} (h : first < last) :
    cover depth first last = ⟨first, coarsestLevel depth first last⟩ ::
      cover depth (first + extent depth (coarsestLevel depth first last)) last := by
  rw [cover, dif_pos h]

theorem coarsestLevel_le (depth first last : Nat) : coarsestLevel depth first last ≤ depth := by
  unfold coarsestLevel
  cases h : (List.range depth).find? (fits depth first last) with
  | none => simp
  | some l =>
    have := List.mem_range.1 (List.mem_of_find?_eq_some h)
    simp only [Option.getD_some]
    omega

/-- The chosen level fits. -/
theorem fits_coarsestLevel {depth first last : Nat} (h : first < last) :
    fits depth first last (coarsestLevel depth first last) = true := by
  unfold coarsestLevel
  cases hf : (List.range depth).find? (fits depth first last) with
  | none => simp [fits, isAligned, Nat.mod_one]; omega
  | some l => simpa using List.find?_some hf

end Key

end CurvePartition
