-- SUMMARY: Running sums as the sums of first parts, which ascend, so that the count by which a sum is reached is found by search.
import CurvePartition.Proofs.Sorted.Bins

/-!
# Running sums

Entry `i` of the running sums of an array is the sum of its first `i` values. The entries ascend up to the sum of all values, so a
search finds where a smaller sum is reached.
-/

namespace CurvePartition

namespace Sorted

variable {counts : Array Nat} {i j : Nat}

theorem runningSums_spec (counts : Array Nat) : (runningSums counts).size = counts.size + 1 ∧
    ∀ i ≤ counts.size, (runningSums counts).getD i 0 = (counts.toList.take i).sum := by
  unfold runningSums
  refine Array.foldl_induction (fun n (sums : Array Nat) => sums.size = n + 1 ∧
    ∀ i ≤ n, sums.getD i 0 = (counts.toList.take i).sum) ⟨rfl, fun i hi => ?_⟩ ?_
  · obtain rfl : i = 0 := Nat.le_zero.1 hi
    rfl
  · rintro ⟨n, hn⟩ sums ⟨hsize, hsums⟩
    have hlast : sums.back?.getD 0 = (counts.toList.take n).sum := by
      rw [← hsums n (Nat.le_refl n), Array.back?_eq_getElem?, hsize, Nat.add_sub_cancel, Array.getD_eq_getD_getElem?]
    refine ⟨by simp [hsize], fun i hi => ?_⟩
    rcases Nat.lt_or_eq_of_le hi with hlt | rfl
    · rw [← hsums i (by omega), Array.getD_eq_getD_getElem?, Array.getD_eq_getD_getElem?,
        Array.getElem?_push_lt (by omega), Array.getElem?_eq_getElem (by omega)]
    · rw [Array.getD_eq_getD_getElem?, ← hsize, Array.getElem?_push_size, Option.getD_some, hlast, hsize,
        List.take_add_one, List.getElem?_eq_getElem (by simpa using hn)]
      simp

@[simp] theorem size_runningSums (counts : Array Nat) : (runningSums counts).size = counts.size + 1 :=
  (runningSums_spec counts).1

theorem getD_runningSums (hi : i ≤ counts.size) : (runningSums counts).getD i 0 = (counts.toList.take i).sum :=
  (runningSums_spec counts).2 i hi

/-- One step of the running sums. -/
theorem getD_runningSums_succ (hi : i < counts.size) :
    (runningSums counts).getD (i + 1) 0 = (runningSums counts).getD i 0 + counts.getD i 0 := by
  rw [getD_runningSums hi, getD_runningSums (Nat.le_of_lt hi), List.take_add_one,
    List.getElem?_eq_getElem (by simpa using hi)]
  simp [Array.getD, hi]

theorem getD_runningSums_le (hij : i ≤ j) (hj : j ≤ counts.size) :
    (runningSums counts).getD i 0 ≤ (runningSums counts).getD j 0 := by
  rw [getD_runningSums hj, getD_runningSums (Nat.le_trans hij hj)]
  exact sum_take_le hij

theorem ascending_runningSums (counts : Array Nat) : Ascending (runningSums counts) := by
  refine List.pairwise_iff_getElem.2 fun i j hi hj hij => ?_
  rw [Array.length_toList] at hi hj
  have hle : (runningSums counts).getD i 0 ≤ (runningSums counts).getD j 0 :=
    getD_runningSums_le (Nat.le_of_lt hij) (by rw [size_runningSums] at hj; omega)
  rwa [Array.getD_eq_getD_getElem?, Array.getD_eq_getD_getElem?, Array.getElem?_eq_getElem hi,
    Array.getElem?_eq_getElem hj] at hle

theorem getD_runningSums_size (counts : Array Nat) : (runningSums counts).getD counts.size 0 = counts.toList.sum := by
  rw [getD_runningSums (Nat.le_refl _), ← Array.length_toList, List.take_length]

/-- A sum that is reached is reached by one of the counts. -/
theorem runningSums_lowerBound {target : Nat} (htarget : target ≤ counts.toList.sum) :
    lowerBound (runningSums counts) target ≤ counts.size ∧
      target ≤ (runningSums counts).getD (lowerBound (runningSums counts) target) 0 ∧
      ∀ k < lowerBound (runningSums counts) target, (runningSums counts).getD k 0 < target := by
  have hascending := ascending_runningSums counts
  have hle : lowerBound (runningSums counts) target ≤ counts.size := by
    refine Nat.not_lt.1 fun hlt => ?_
    rw [lt_lowerBound_iff hascending (by rw [size_runningSums]; omega), getD_runningSums_size] at hlt
    omega
  refine ⟨hle, Nat.not_lt.1 fun hlt => ?_, fun k hk => ?_⟩
  · rw [← lt_lowerBound_iff hascending (by rw [size_runningSums]; omega)] at hlt
    exact Nat.lt_irrefl _ hlt
  · exact (lt_lowerBound_iff hascending (by rw [size_runningSums]; omega)).1 hk

end Sorted

end CurvePartition
