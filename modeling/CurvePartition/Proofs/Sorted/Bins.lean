-- SUMMARY: Groups that follow each other: their positions, the group at each position, and the bins of ascending values as groups.
import CurvePartition.Proofs.Sorted.Counting
import CurvePartition.Sorted.Bins
import CurvePartition.Sorted.Ranges

/-!
# Groups and bins

Groups of given sizes follow each other without a gap and without overlap, so each position is in one of them. The bins
of ascending values are such groups, and end where the search finds the start of the next bin.
-/

namespace CurvePartition

namespace IndexRange

variable {r : IndexRange} {i : Nat}

theorem mem_toList_iff : i ∈ r.toList ↔ r.start ≤ i ∧ i < r.stop := by
  simp only [toList, length, List.mem_map, List.mem_range]
  constructor
  · rintro ⟨k, hk, rfl⟩
    omega
  · rintro ⟨hlo, hhi⟩
    exact ⟨i - r.start, by omega, by omega⟩

end IndexRange

namespace Sorted

variable {counts : List Nat} {i j : Nat}

/-! ## Groups -/

theorem getD_offsets (hi : i < counts.length) : (offsets counts).getD i 0 = (counts.take i).sum := by
  rw [offsets, List.getD_eq_getElem?_getD, getElem?_offsetsFrom 0 counts i hi, Option.getD_some, Nat.zero_add]

theorem sum_take_add (hi : i < counts.length) : (counts.take i).sum + counts.getD i 0 = (counts.take (i + 1)).sum := by
  rw [List.take_add_one, List.getElem?_eq_getElem hi, List.sum_append, List.getD_eq_getElem?_getD,
    List.getElem?_eq_getElem hi]
  simp

theorem sum_take_le (hij : i ≤ j) : (counts.take i).sum ≤ (counts.take j).sum := by
  obtain ⟨k, rfl⟩ := Nat.exists_eq_add_of_le hij
  rw [List.take_add, List.sum_append]
  exact Nat.le_add_right _ _

/-- The sum of a middle part. -/
theorem sum_drop_take (hij : i ≤ j) :
    ((counts.take j).drop i).sum = (counts.take j).sum - (counts.take i).sum := by
  have hparts := congrArg List.sum (List.take_append_drop i (counts.take j))
  rw [List.sum_append, List.take_take, Nat.min_eq_left hij] at hparts
  omega

/-- A group ends before a later one starts. -/
theorem offsets_add_le (hij : i < j) (hj : j < counts.length) :
    (offsets counts).getD i 0 + counts.getD i 0 ≤ (offsets counts).getD j 0 := by
  rw [getD_offsets (Nat.lt_trans hij hj), getD_offsets hj, sum_take_add (Nat.lt_trans hij hj)]
  exact sum_take_le hij

/-- Two groups lie apart. -/
theorem offsets_apart (hne : i ≠ j) (hi : i < counts.length) (hj : j < counts.length) :
    (offsets counts).getD i 0 + counts.getD i 0 ≤ (offsets counts).getD j 0 ∨
      (offsets counts).getD j 0 + counts.getD j 0 ≤ (offsets counts).getD i 0 :=
  (Nat.lt_or_gt_of_ne hne).imp (offsets_add_le · hj) (offsets_add_le · hi)

theorem offsets_add_le_sum (hi : i < counts.length) :
    (offsets counts).getD i 0 + counts.getD i 0 ≤ counts.sum := by
  rw [getD_offsets hi, sum_take_add hi]
  refine Nat.le_trans (sum_take_le hi) (Nat.le_of_eq ?_)
  rw [List.take_length]

/-- Each position is in a group. -/
theorem exists_group (hj : j < counts.sum) : ∃ i < counts.length, (offsets counts).getD i 0 ≤ j ∧
    j < (offsets counts).getD i 0 + counts.getD i 0 := by
  have below : ∀ n ≤ counts.length, j < (counts.take n).sum → ∃ i < counts.length, (offsets counts).getD i 0 ≤ j ∧
      j < (offsets counts).getD i 0 + counts.getD i 0 := by
    intro n hn hlt
    induction n with
    | zero => exact absurd hlt (by simp)
    | succ n ih =>
      by_cases hbefore : j < (counts.take n).sum
      · exact ih (Nat.le_of_succ_le hn) hbefore
      · refine ⟨n, hn, ?_, ?_⟩
        · rw [getD_offsets hn]
          exact Nat.not_lt.1 hbefore
        · rw [getD_offsets hn, sum_take_add hn]
          exact hlt
  exact below counts.length (Nat.le_refl _) (by rwa [List.take_length])

/-- Lists that follow each other, element by element. -/
theorem getElem?_flatMap_range {τ : Type} {f : Nat → List τ} {n k : Nat} (hi : i < n) (hk : k < (f i).length) :
    ((List.range n).flatMap f)[(offsets ((List.range n).map fun r => (f r).length)).getD i 0 + k]? = (f i)[k]? := by
  obtain ⟨m, rfl⟩ := Nat.exists_eq_add_of_lt hi
  have hrange : List.range (i + m + 1) = List.range i ++ i :: (List.range m).map (i + 1 + ·) := by
    rw [Nat.add_assoc, List.range_add, List.range_succ_eq_map]
    simp [Function.comp_def, Nat.add_assoc, Nat.add_comm 1]
  have hlt : i < ((List.range (i + m + 1)).map fun r => (f r).length).length := by
    rw [List.length_map, List.length_range]
    omega
  rw [getD_offsets hlt, ← List.map_take, List.take_range, Nat.min_eq_left (by omega),
    ← List.length_flatMap, hrange, List.flatMap_append, List.getElem?_append_right (Nat.le_add_right _ _),
    Nat.add_sub_cancel_left, List.flatMap_cons, List.getElem?_append_left hk]

/-! ## Bins -/

variable {n : Nat}

theorem steps_map (ends : Nat → Nat) (n k : Nat) : steps (ends k) ((List.range' (k + 1) n).map ends) =
    (List.range' k n).map fun r => ends (r + 1) - ends r := by
  induction n generalizing k with
  | zero => rfl
  | succ n ih => simp only [List.range'_succ, List.map_cons, steps, ih]

/-- The steps up to an end add up to that end. -/
theorem sum_steps (ends : Nat → Nat) (hmono : ∀ r < n, ends r ≤ ends (r + 1)) (hzero : ends 0 = 0) (hi : i ≤ n) :
    ((List.range i).map fun r => ends (r + 1) - ends r).sum = ends i := by
  induction i with
  | zero => exact hzero.symm
  | succ i ih =>
    have := hmono i hi
    rw [List.range_succ, List.map_append, List.sum_append, ih (Nat.le_of_succ_le hi)]
    simp only [List.map_cons, List.map_nil, List.sum_singleton]
    omega

/-- Groups that end at given positions start where the one before ends. -/
theorem getD_offsets_steps (ends : Nat → Nat) (hmono : ∀ r < n, ends r ≤ ends (r + 1)) (hzero : ends 0 = 0) (hi : i < n) :
    (offsets ((List.range n).map fun r => ends (r + 1) - ends r)).getD i 0 = ends i := by
  rw [getD_offsets (by simpa using hi), ← List.map_take, List.take_range, Nat.min_eq_left (Nat.le_of_lt hi)]
  exact sum_steps ends hmono hzero (Nat.le_of_lt hi)

variable {keys : Array Nat} {start : Nat → Nat}

theorem lowerBound_zero (h : Ascending keys) : lowerBound keys 0 = 0 := by
  refine Nat.eq_zero_of_not_pos fun hpos => ?_
  have hsize := Nat.lt_of_lt_of_le hpos (lowerBound_le keys 0)
  exact Nat.not_lt_zero _ ((lt_lowerBound_iff h hsize).1 hpos)

theorem lowerBound_of_lt (h : Ascending keys) {bound : Nat} (hlt : ∀ k ∈ keys.toList, k < bound) :
    lowerBound keys bound = keys.size := by
  refine Nat.le_antisymm (lowerBound_le keys bound) (Nat.not_lt.1 fun hless => ?_)
  refine Nat.lt_irrefl _ ((lt_lowerBound_iff h hless).2 (hlt _ ?_))
  simp [Array.getD, hless]

theorem lowerBound_mono (h : Ascending keys) {a b : Nat} (hab : a ≤ b) : lowerBound keys a ≤ lowerBound keys b := by
  rw [lowerBound_eq_countP h, lowerBound_eq_countP h, ← countP_lt_add hab]
  exact Nat.le_add_right _ _

/-- The keys of a bin are those between two searches. -/
theorem binCounts_eq (h : Ascending keys) (hn : 0 < n) (hzero : start 0 = 0) (hlt : ∀ k ∈ keys.toList, k < start n) :
    binCounts keys ((List.range n).map start) =
      (List.range n).map fun r => lowerBound keys (start (r + 1)) - lowerBound keys (start r) := by
  obtain ⟨m, rfl⟩ : ∃ m, n = m + 1 := ⟨n - 1, by omega⟩
  have hends : (((List.range (m + 1)).map start).drop 1).map (lowerBound keys) ++ [keys.size] =
      (List.range' (0 + 1) (m + 1)).map fun r => lowerBound keys (start r) := by
    rw [List.range'_concat, List.map_append, List.map_singleton, ← lowerBound_of_lt h hlt, List.range_eq_range',
      List.range'_succ, List.map_cons, List.drop_one, List.tail_cons, List.map_map]
    simp [Function.comp_def, Nat.add_comm]
  have hsteps := steps_map (fun r => lowerBound keys (start r)) (m + 1) 0
  rw [hzero, lowerBound_zero h] at hsteps
  rw [binCounts, hends, hsteps, List.range_eq_range']

/-- The part of a list on which a property holds, if that is a part. -/
theorem filter_eq_of_iff {τ : Type} {p : τ → Bool} {l : List τ} {lo hi : Nat}
    (h : ∀ i (hi' : i < l.length), p l[i] = true ↔ lo ≤ i ∧ i < hi) : l.filter p = (l.take hi).drop lo := by
  have hafter : (l.drop hi).filter p = [] := by
    refine List.filter_eq_nil_iff.2 fun a ha => ?_
    obtain ⟨i, hi', rfl⟩ := List.getElem_of_mem ha
    rw [List.getElem_drop, h]
    omega
  have hbefore : ((l.take hi).take lo).filter p = [] := by
    refine List.filter_eq_nil_iff.2 fun a ha => ?_
    obtain ⟨i, hi', rfl⟩ := List.getElem_of_mem ha
    simp only [List.length_take] at hi'
    rw [List.getElem_take, List.getElem_take, h]
    omega
  have hinside : ((l.take hi).drop lo).filter p = (l.take hi).drop lo := by
    refine List.filter_eq_self.2 fun a ha => ?_
    obtain ⟨i, hi', rfl⟩ := List.getElem_of_mem ha
    simp only [List.length_drop, List.length_take] at hi'
    rw [List.getElem_drop, List.getElem_take, h]
    omega
  rw [← List.take_append_drop hi l, List.filter_append, List.take_append_drop, hafter, List.append_nil,
    ← List.take_append_drop lo (l.take hi), List.filter_append, List.take_append_drop, hbefore, List.nil_append, hinside]

/-- Which keys are in a bin. -/
theorem mem_bin_iff (h : Ascending keys) {a b : Nat} (hi : i < keys.size) :
    lowerBound keys a ≤ i ∧ i < lowerBound keys b ↔ a ≤ keys.getD i 0 ∧ keys.getD i 0 < b := by
  rw [← Nat.not_lt, lt_lowerBound_iff h hi, lt_lowerBound_iff h hi, Nat.not_lt]

/-- The positions of a bin. -/
theorem mem_toList_bin_iff (h : Ascending keys) {a b : Nat} :
    i ∈ IndexRange.toList ⟨lowerBound keys a, lowerBound keys b⟩ ↔
      i < keys.size ∧ a ≤ keys.getD i 0 ∧ keys.getD i 0 < b := by
  rw [IndexRange.mem_toList_iff]
  constructor
  · rintro ⟨hlo, hhi⟩
    have hi := Nat.lt_of_lt_of_le hhi (lowerBound_le keys b)
    exact ⟨hi, (mem_bin_iff h hi).1 ⟨hlo, hhi⟩⟩
  · rintro ⟨hi, hmem⟩
    exact (mem_bin_iff h hi).2 hmem

end Sorted

end CurvePartition
