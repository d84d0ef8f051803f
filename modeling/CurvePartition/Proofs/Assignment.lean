-- SUMMARY: Assignments tile the keys: each rank gets a range that starts and ends on boundaries, and every key is found in the range that holds it.
import CurvePartition.Assignment
import CurvePartition.Proofs.Leaves.Adapting
import CurvePartition.Proofs.Leaves.Lookup
import CurvePartition.Proofs.Sorted.Bins

/-!
# Ranges of ranks

The first keys of the ranks, with the bound behind them, ascend like the boundaries of a tree
(`Assignment.Tiles`), so the lemmas on boundaries apply to them. Every computed assignment is of this kind, as
`Assignment.cutsFrom` leaves a leaf for each rank. Ascending keys are cut into bins at the same boundaries, so the bin of a rank
holds the keys in its range.
-/

namespace CurvePartition

namespace Assignment

open Key Node

variable {depth : Nat}

/-- The first keys of the ranks, read as boundaries. -/
def boundaries (a : Assignment depth) : Leaves depth := ⟨a.keys⟩

/-- Positions of the keys in the bin of a rank. -/
def bin (a : Assignment depth) (keys : Array Nat) (rank : Nat) : IndexRange :=
  let counts := Sorted.binCounts keys a.startKeys
  ⟨(Sorted.offsets counts).getD rank 0, (Sorted.offsets counts).getD rank 0 + counts.getD rank 0⟩

/-- Whether an assignment gives each rank leaves of a tree, in order and without a gap. -/
structure Tiles (a : Assignment depth) (t : Leaves depth) : Prop where
  ascends : a.boundaries.Ascends
  count_eq : a.boundaries.count = a.ranks
  isBoundary : ∀ r ≤ a.ranks, t.IsBoundary (a.boundaries.start r)

section Tiles

variable {a : Assignment depth} {t : Leaves depth} (h : a.Tiles t) {r s key i : Nat}
include h

theorem Tiles.ranks_pos : 0 < a.ranks := h.count_eq ▸ h.ascends.count_pos

/-- Every key is in the range of a rank. -/
theorem Tiles.exists_rank (hkey : key < bound depth) : ∃ r < a.ranks, key ∈ a.keyRange r := by
  obtain ⟨r, hr, hmem⟩ := h.ascends.exists_leaf hkey
  exact ⟨r, h.count_eq ▸ hr, hmem⟩

/-- The rank of a key is the one whose range holds it. -/
theorem Tiles.rankOf_eq (hr : r < a.ranks) (hkey : key ∈ a.keyRange r) : a.rankOf key = r := by
  have hupper : Sorted.upperBound a.keys key = r + 1 :=
    Leaves.upperBound_eq h.ascends (h.count_eq ▸ hr) hkey.1 hkey.2
  rw [rankOf, hupper, Nat.add_sub_cancel]
  exact Nat.min_eq_left (Nat.le_sub_one_of_lt hr)

theorem Tiles.rankOf_eq_iff (hkey : key < bound depth) (hr : r < a.ranks) :
    a.rankOf key = r ↔ key ∈ a.keyRange r := by
  refine ⟨fun heq => ?_, h.rankOf_eq hr⟩
  obtain ⟨s, hs, hmem⟩ := h.exists_rank hkey
  rwa [← heq, h.rankOf_eq hs hmem]

theorem Tiles.rankOf_lt (hkey : key < bound depth) : a.rankOf key < a.ranks := by
  obtain ⟨r, hr, hmem⟩ := h.exists_rank hkey
  rwa [h.rankOf_eq hr hmem]

/-- The ranges of different ranks share no key. -/
theorem Tiles.eq_of_mem (hr : r < a.ranks) (hs : s < a.ranks) (hkr : key ∈ a.keyRange r)
    (hks : key ∈ a.keyRange s) : r = s :=
  (h.rankOf_eq hr hkr).symm.trans (h.rankOf_eq hs hks)

/-- Later keys are not in the ranges of earlier ranks. -/
theorem Tiles.rankOf_mono {key' : Nat} (hle : key ≤ key') (hkey : key' < bound depth) : a.rankOf key ≤ a.rankOf key' := by
  obtain ⟨r, hr, hmem⟩ := h.exists_rank (Nat.lt_of_le_of_lt hle hkey)
  obtain ⟨s, hs, hmem'⟩ := h.exists_rank hkey
  rw [h.rankOf_eq hr hmem, h.rankOf_eq hs hmem']
  refine Nat.le_of_not_lt fun hlt => ?_
  have hstart : (a.keyRange s).last ≤ (a.keyRange r).first := h.ascends.start_le hlt (Nat.le_of_lt (h.count_eq ▸ hr))
  exact Nat.not_le.2 hmem'.2 (Nat.le_trans hstart (Nat.le_trans hmem.1 hle))

/-- A leaf that starts in the range of a rank ends in it. -/
theorem Tiles.within_of_mem (ht : t.isValid = true) (hi : i < t.count) (hr : r < a.ranks)
    (hmem : t.start i ∈ a.keyRange r) : (t.range i).within (a.keyRange r) = true := by
  have ha := Leaves.ascends_of_isValid ht
  obtain ⟨j, hj, hstart⟩ := h.isBoundary (r + 1) hr
  have hij : i < j := ha.lt_of_start_lt (Nat.le_of_lt hi) (by rw [hstart]; exact hmem.2)
  have hlast := ha.start_le (Nat.succ_le_of_lt hij) hj
  rw [hstart] at hlast
  simp only [KeyRange.within, Bool.and_eq_true, decide_eq_true_eq]
  exact ⟨hmem.1, hlast⟩

theorem Tiles.within_iff_mem (ht : t.isValid = true) (hi : i < t.count) (hr : r < a.ranks) :
    (t.range i).within (a.keyRange r) = true ↔ t.start i ∈ a.keyRange r := by
  refine ⟨fun hwithin => KeyRange.mem_of_within hwithin ⟨Nat.le_refl _, ?_⟩, h.within_of_mem ht hi hr⟩
  exact (Leaves.ascends_of_isValid ht).lt_succ i hi

theorem Tiles.bounds (hr : r < a.ranks) : t.Bounds (a.keyRange r) :=
  ⟨h.isBoundary r (Nat.le_of_lt hr), h.isBoundary (r + 1) hr⟩

/-! ## Bins -/

theorem Tiles.startKeys_eq : a.startKeys = (List.range a.ranks).map a.boundaries.start := by
  have hsize : a.keys.size = a.ranks + 1 := by
    have := h.ascends.size_eq
    rwa [h.count_eq] at this
  refine List.ext_getElem (by simp [startKeys, hsize]) fun i h₁ h₂ => ?_
  have hi : i < a.keys.size := by
    simp only [List.length_map, List.length_range] at h₂
    omega
  simp [startKeys, boundaries, Leaves.start, Array.getD, hi]

variable {keys : Array Nat} (hkeys : Sorted.Ascending keys) (hbound : ∀ k ∈ keys.toList, k < bound depth)
include hkeys

/-- Later ranks start at later positions. -/
theorem Tiles.lowerBound_start_le (hr : r < a.ranks) :
    Sorted.lowerBound keys (a.boundaries.start r) ≤ Sorted.lowerBound keys (a.boundaries.start (r + 1)) :=
  Sorted.lowerBound_mono hkeys (Nat.le_of_lt (h.ascends.lt_succ r (h.count_eq ▸ hr)))

theorem Tiles.lowerBound_start_zero : Sorted.lowerBound keys (a.boundaries.start 0) = 0 := by
  rw [h.ascends.start_zero, Sorted.lowerBound_zero hkeys]

include hbound

theorem Tiles.binCounts_startKeys : Sorted.binCounts keys a.startKeys = (List.range a.ranks).map fun r =>
    Sorted.lowerBound keys (a.boundaries.start (r + 1)) - Sorted.lowerBound keys (a.boundaries.start r) := by
  rw [h.startKeys_eq]
  refine Sorted.binCounts_eq hkeys h.ranks_pos h.ascends.start_zero fun k hk => ?_
  have hlast : a.boundaries.start a.ranks = bound depth := h.count_eq ▸ h.ascends.start_count
  rw [hlast]
  exact hbound k hk

/-- The bin of a rank lies between the positions of its first key and of the next rank's. -/
theorem Tiles.bin_eq (hr : r < a.ranks) : a.bin keys r =
    ⟨Sorted.lowerBound keys (a.boundaries.start r), Sorted.lowerBound keys (a.boundaries.start (r + 1))⟩ := by
  have hoffset := Sorted.getD_offsets_steps (fun r => Sorted.lowerBound keys (a.boundaries.start r))
    (fun _ => h.lowerBound_start_le hkeys) (h.lowerBound_start_zero hkeys) hr
  have hstep := h.lowerBound_start_le hkeys hr
  rw [bin, h.binCounts_startKeys hkeys hbound, hoffset]
  simp only [List.getD_eq_getElem?_getD, List.getElem?_map, List.getElem?_range hr, Option.map_some, Option.getD_some,
    IndexRange.mk.injEq, true_and]
  omega

/-- Every key is in a bin. -/
theorem Tiles.sum_binCounts : (Sorted.binCounts keys a.startKeys).sum = keys.size := by
  have hlast : a.boundaries.start a.ranks = bound depth := h.count_eq ▸ h.ascends.start_count
  rw [h.binCounts_startKeys hkeys hbound,
    Sorted.sum_steps (fun r => Sorted.lowerBound keys (a.boundaries.start r)) (fun _ => h.lowerBound_start_le hkeys)
      (h.lowerBound_start_zero hkeys) (Nat.le_refl a.ranks), hlast, Sorted.lowerBound_of_lt hkeys hbound]

/-- The bin of a rank holds the keys that are in its range. -/
theorem Tiles.drop_take_bin (hr : r < a.ranks) :
    (keys.toList.take (a.bin keys r).stop).drop (a.bin keys r).start = keys.toList.filter fun k => a.rankOf k = r := by
  rw [h.bin_eq hkeys hbound hr]
  symm
  apply Sorted.filter_eq_of_iff
  intro i hi
  have hget : keys.getD i 0 = keys.toList[i] := by simp [Array.getD, Array.length_toList ▸ hi]
  have hmem : keys.toList[i] ∈ keys.toList := List.getElem_mem hi
  rw [decide_eq_true_eq, h.rankOf_eq_iff (hbound _ hmem) hr, Sorted.mem_bin_iff hkeys (Array.length_toList ▸ hi), hget]
  rfl

end Tiles

/-! ## Computed assignments -/

variable {sums counts : Array Nat} {total leaves ranks left rank previous : Nat}

/-- The cuts ascend, from behind the previous one to before the end. -/
theorem cutsFrom_spec (hleft : rank + left = ranks) (hroom : previous + left < leaves) :
    (∀ c ∈ cutsFrom sums total leaves ranks left rank previous, previous < c ∧ c < leaves) ∧
      (cutsFrom sums total leaves ranks left rank previous).Pairwise (· < ·) ∧
      (cutsFrom sums total leaves ranks left rank previous).length = left := by
  induction left generalizing rank previous with
  | zero => simp [cutsFrom]
  | succ left ih =>
    rw [cutsFrom]
    obtain ⟨cut, hcut⟩ : ∃ cut, min (max (cutNear sums (total * rank / ranks)) (previous + 1))
      (leaves - (ranks - rank)) = cut := ⟨_, rfl⟩
    have hbounds : previous < cut ∧ cut + left < leaves := by omega
    obtain ⟨hmem, hpairwise, hlength⟩ := ih (show rank + 1 + left = ranks by omega) hbounds.2
    simp only [hcut]
    refine ⟨fun c hc => ?_, List.pairwise_cons.2 ⟨fun c hc => (hmem c hc).1, hpairwise⟩, by rw [List.length_cons, hlength]⟩
    rcases List.mem_cons.1 hc with rfl | hc
    · exact ⟨hbounds.1, by omega⟩
    · exact ⟨Nat.lt_trans hbounds.1 (hmem c hc).1, (hmem c hc).2⟩

theorem cuts_spec (hpos : 0 < ranks) (hle : ranks ≤ leaves) :
    (cuts sums leaves ranks).Pairwise (· < ·) ∧ (∀ c ∈ cuts sums leaves ranks, c ≤ leaves) ∧
      (cuts sums leaves ranks).length = ranks + 1 := by
  obtain ⟨hmem, hpairwise, hlength⟩ :
      (∀ c ∈ cutsFrom sums (sums.getD leaves 0) leaves ranks (ranks - 1) 1 0, 0 < c ∧ c < leaves) ∧ _ :=
    cutsFrom_spec (by omega) (by omega)
  refine ⟨?_, fun c hc => ?_, ?_⟩
  · refine List.pairwise_append.2 ⟨List.pairwise_cons.2 ⟨fun c hc => (hmem c hc).1, hpairwise⟩,
      List.pairwise_singleton _ _, fun c hc d hd => ?_⟩
    obtain rfl := List.mem_singleton.1 hd
    rcases List.mem_cons.1 hc with rfl | hc
    · omega
    · exact (hmem c hc).2
  · rcases List.mem_append.1 hc with hc | hc
    · rcases List.mem_cons.1 hc with rfl | hc
      · exact Nat.zero_le _
      · exact Nat.le_of_lt (hmem c hc).2
    · exact Nat.le_of_eq (List.mem_singleton.1 hc)
  · rw [cuts, List.length_append, List.length_cons, hlength, List.length_singleton]
    omega

/-- A computed assignment gives each rank leaves of the tree. -/
theorem tiles_compute {α : Type} {t : Leaves depth} (ht : t.isValid = true) {a : Assignment depth}
    (hcompute : compute (α := α) t counts ranks = .ok a) : a.Tiles t ∧ a.ranks = ranks := by
  have ha := Leaves.ascends_of_isValid ht
  unfold compute at hcompute
  split at hcompute
  · cases hcompute
  rename_i hranks
  cases hcompute
  obtain ⟨offsets, hoffsets⟩ : ∃ offsets, cuts (Sorted.runningSums counts) t.count ranks = offsets := ⟨_, rfl⟩
  obtain ⟨hpairwise, hle, hlength⟩ : offsets.Pairwise (· < ·) ∧ (∀ c ∈ offsets, c ≤ t.count) ∧
      offsets.length = ranks + 1 := hoffsets ▸ cuts_spec (by omega) (by omega)
  have hzero : 0 ∈ offsets := hoffsets ▸ by simp [cuts]
  have hcount : t.count ∈ offsets := hoffsets ▸ by simp [cuts]
  simp only [hoffsets]
  refine ⟨⟨?_, ?_, fun r hr => ?_⟩, by simp [Assignment.ranks]⟩
  · refine Leaves.ascends_of_pairwise ?_ ?_ ?_ fun k hk => ?_
    · simp only [boundaries, List.map_toArray, List.pairwise_map]
      exact hpairwise.imp_of_mem fun _ hd hlt => ha.start_lt hlt (hle _ hd)
    · simpa [boundaries] using ⟨0, hzero, ha.start_zero⟩
    · simpa [boundaries] using ⟨t.count, hcount, ha.start_count⟩
    · obtain ⟨c, hc, rfl⟩ : ∃ c ∈ offsets, t.start c = k := by simpa [boundaries] using hk
      exact ha.start_le_bound (hle c hc)
  · simp [boundaries, Leaves.count, Assignment.ranks, hlength]
  · have hlt : r < offsets.length := by
      simp only [Assignment.ranks, Array.size_map, Array.size_range] at hr
      omega
    refine ⟨offsets[r], hle _ (List.getElem_mem hlt), ?_⟩
    simp [boundaries, Leaves.start, Array.getD, hlt]

/-- There is a leaf for every rank. -/
theorem le_count_of_compute {α : Type} {t : Leaves depth} {a : Assignment depth}
    (hcompute : compute (α := α) t counts ranks = .ok a) : ranks ≤ t.count := by
  unfold compute at hcompute
  split at hcompute
  · cases hcompute
  · omega

end Assignment

end CurvePartition
