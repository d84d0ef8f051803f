-- SUMMARY: A computed assignment is a partition: its ranges of leaves and of keys follow each other, particles add up, and both searches for the rank of a key agree.
import Mathlib.Data.List.GetD
import Mathlib.Data.Nat.Find
import CurvePartition.Proofs.Assignment
import CurvePartition.Proofs.Sorted.Sums

/-!
# Partitions by assignments

An assignment fails only if some rank could not have a leaf. Otherwise the cuts ascend from zero to the number of leaves, so the
leaves of the ranks follow each other (`Assignment.InRow`), and with them the keys. The particles of a rank are those of its
leaves. A key is looked up by a search in the first keys of the ranks, and ascending keys are sorted into bins by a search for
each of these first keys; `Assignment.compute_spec` says that both give a key to the rank whose range holds it.
-/

namespace CurvePartition

namespace Assignment

open Key

variable {depth : Nat} {α : Type}

/-! ## Ranges in a row -/

/-- Whether `n` ranges, none of them empty, follow each other from zero up to `stop`. -/
structure InRow (n stop : Nat) (range : Nat → Nat × Nat) : Prop where
  pos : 0 < n
  first_eq : (range 0).1 = 0
  last_eq : (range (n - 1)).2 = stop
  next : ∀ r, r + 1 < n → (range (r + 1)).1 = (range r).2
  nonempty : ∀ r < n, (range r).1 < (range r).2

namespace InRow

variable {n stop i : Nat} {range : Nat → Nat × Nat}

/-- Ranges between ends that ascend. -/
theorem of_ends {ends : Nat → Nat} (hpos : 0 < n) (hzero : ends 0 = 0) (hstop : ends n = stop)
    (hlt : ∀ r < n, ends r < ends (r + 1)) : InRow n stop fun r => (ends r, ends (r + 1)) where
  pos := hpos
  first_eq := hzero
  last_eq := by
    show ends (n - 1 + 1) = stop
    rw [Nat.sub_add_cancel hpos, hstop]
  next _ _ := rfl
  nonempty := hlt

theorem exists_range (h : InRow n stop range) (hi : i < stop) : ∃ r < n, (range r).1 ≤ i ∧ i < (range r).2 := by
  have hsome : ∃ r, i < (range r).2 := ⟨n - 1, h.last_eq ▸ hi⟩
  have hle : Nat.find hsome ≤ n - 1 := Nat.find_min' hsome (h.last_eq ▸ hi)
  have hlt : Nat.find hsome < n := Nat.lt_of_le_of_lt hle (Nat.sub_lt h.pos Nat.one_pos)
  refine ⟨Nat.find hsome, hlt, ?_, Nat.find_spec hsome⟩
  -- The range before the first one that ends behind a position ends at or before it.
  cases hr : Nat.find hsome with
  | zero =>
    rw [h.first_eq]
    exact Nat.zero_le i
  | succ r =>
    rw [h.next r (hr ▸ hlt)]
    exact Nat.not_lt.1 (Nat.find_min hsome (hr ▸ Nat.lt_succ_self r))

/-- A range ends before a later one starts. -/
theorem stop_le_start (h : InRow n stop range) {r s : Nat} (hrs : r < s) (hs : s < n) : (range r).2 ≤ (range s).1 := by
  induction s with
  | zero => exact absurd hrs (Nat.not_lt_zero r)
  | succ s ih =>
    rw [h.next s hs]
    rcases Nat.lt_succ_iff_lt_or_eq.1 hrs with hlt | rfl
    · exact Nat.le_trans (ih hlt (Nat.lt_of_succ_lt hs)) (Nat.le_of_lt (h.nonempty s (Nat.lt_of_succ_lt hs)))
    · exact Nat.le_refl _

/-- Each position is in one of the ranges. -/
theorem existsUnique (h : InRow n stop range) (hi : i < stop) : ∃! r, r < n ∧ (range r).1 ≤ i ∧ i < (range r).2 := by
  obtain ⟨r, hr, hmem⟩ := h.exists_range hi
  refine ⟨r, ⟨hr, hmem⟩, ?_⟩
  rintro s ⟨hs, hmem'⟩
  rcases Nat.lt_trichotomy s r with hlt | heq | hlt
  · have := h.stop_le_start hlt hr
    omega
  · exact heq
  · have := h.stop_le_start hlt hs
    omega

end InRow

/-! ## Cuts -/

section Cuts

variable {leaves ranks r : Nat}

/-- The first leaf of a rank, or the number of leaves behind the last rank. -/
def cutAt (sums : Array Nat) (leaves ranks rank : Nat) : Nat := (cuts sums leaves ranks).getD rank 0

@[simp] theorem cutAt_zero (sums : Array Nat) (leaves ranks : Nat) : cutAt sums leaves ranks 0 = 0 := rfl

variable (hpos : 0 < ranks) (hle : ranks ≤ leaves)
include hpos hle

theorem length_cuts (sums : Array Nat) : (cuts sums leaves ranks).length = ranks + 1 := (cuts_spec hpos hle).2.2

theorem length_cutsFrom (sums : Array Nat) :
    (0 :: cutsFrom sums (sums.getD leaves 0) leaves ranks (ranks - 1) 1 0).length = ranks := by
  have hlength := length_cuts hpos hle sums
  rwa [cuts, List.length_append, List.length_singleton, Nat.add_right_cancel_iff] at hlength

theorem cutAt_ranks (sums : Array Nat) : cutAt sums leaves ranks ranks = leaves := by
  have hlength := length_cutsFrom hpos hle sums
  rw [cutAt, cuts, List.getD_eq_getElem?_getD, List.getElem?_append_right (Nat.le_of_eq hlength), hlength, Nat.sub_self]
  rfl

theorem cutAt_lt_succ (sums : Array Nat) (hr : r < ranks) :
    cutAt sums leaves ranks r < cutAt sums leaves ranks (r + 1) := by
  have hpairwise : (cuts sums leaves ranks).Pairwise (· < ·) := (cuts_spec hpos hle).1
  have hr' : r + 1 < (cuts sums leaves ranks).length := by
    rw [length_cuts hpos hle]
    omega
  rw [cutAt, cutAt, List.getD_eq_getElem _ _ hr', List.getD_eq_getElem _ _ (Nat.lt_of_succ_lt hr')]
  exact List.pairwise_iff_getElem.1 hpairwise r (r + 1) _ hr' (Nat.lt_succ_self r)

/-- Behind each cut there is a leaf for each rank that follows. -/
theorem cutAt_add_le (sums : Array Nat) (hr : r ≤ ranks) : cutAt sums leaves ranks r + (ranks - r) ≤ leaves := by
  induction hleft : ranks - r generalizing r with
  | zero =>
    obtain rfl : r = ranks := by omega
    exact Nat.le_of_eq (cutAt_ranks hpos hle sums)
  | succ left ih =>
    have hstep := cutAt_lt_succ hpos hle sums (show r < ranks by omega)
    have hnext := ih (show r + 1 ≤ ranks by omega) (by omega)
    omega

theorem inRow_cutAt (sums : Array Nat) : InRow ranks leaves fun r => (cutAt sums leaves ranks r, cutAt sums leaves ranks (r + 1)) :=
  InRow.of_ends hpos (cutAt_zero ..) (cutAt_ranks hpos hle sums) fun _ hr => cutAt_lt_succ hpos hle sums hr

end Cuts

/-! ## Computed assignments -/

variable {t : Leaves depth} {counts : Array Nat} {ranks r : Nat} {a : Assignment depth}

/-- Whether an assignment comes from the cuts at equal shares of the particles. -/
structure IsCut (a : Assignment depth) (t : Leaves depth) (counts : Array Nat) (ranks : Nat) : Prop where
  ranks_eq : a.ranks = ranks
  leafOffsets_eq : a.leafOffsets = (cuts (Sorted.runningSums counts) t.count ranks).toArray
  keys_eq : a.keys = a.leafOffsets.map t.start
  counts_eq : a.counts = (Array.range ranks).map fun r =>
    (Sorted.runningSums counts).getD (a.leafRange r).2 0 - (Sorted.runningSums counts).getD (a.leafRange r).1 0

/-- An assignment fails exactly if some rank could not have a leaf. -/
theorem compute_eq_error_iff (t : Leaves depth) (counts : Array Nat) (ranks : Nat) :
    compute (α := α) t counts ranks = .error (.tooFewLeaves ranks t.count) ↔ ranks = 0 ∨ t.count < ranks := by
  unfold compute
  split
  case isTrue hfew => exact ⟨fun _ => hfew, fun _ => rfl⟩
  case isFalse henough => exact ⟨nofun, fun hfew => absurd hfew henough⟩

theorem exists_compute (counts : Array Nat) (hpos : 0 < ranks) (hle : ranks ≤ t.count) :
    ∃ a, compute (α := α) t counts ranks = .ok a ∧ a.IsCut t counts ranks := by
  have henough : ¬ (ranks = 0 ∨ t.count < ranks) := by omega
  refine ⟨_, if_neg henough, ?_, rfl, rfl, rfl⟩
  simp [Assignment.ranks]

namespace IsCut

variable (h : a.IsCut t counts ranks) (hsize : counts.size = t.count) (hpos : 0 < ranks) (hle : ranks ≤ t.count)
include h

theorem leafRange_eq (r : Nat) : a.leafRange r = (cutAt (Sorted.runningSums counts) t.count ranks r,
    cutAt (Sorted.runningSums counts) t.count ranks (r + 1)) := by
  simp only [leafRange, h.leafOffsets_eq, cutAt, Array.getD_eq_getD_getElem?, List.getElem?_toArray,
    List.getD_eq_getElem?_getD]

theorem particles_eq_sub (hr : r < ranks) : a.particles r = (Sorted.runningSums counts).getD (a.leafRange r).2 0 -
    (Sorted.runningSums counts).getD (a.leafRange r).1 0 := by
  rw [particles, h.counts_eq]
  simp [Array.getD, hr]

include hpos hle

theorem inRow_leafRange : InRow ranks t.count a.leafRange := by
  rw [show a.leafRange = _ from funext h.leafRange_eq]
  exact inRow_cutAt hpos hle _

theorem leafRange_le (hr : r < ranks) : (a.leafRange r).1 < (a.leafRange r).2 ∧ (a.leafRange r).2 ≤ t.count := by
  refine ⟨(h.inRow_leafRange hpos hle).nonempty r hr, ?_⟩
  rw [h.leafRange_eq]
  have := cutAt_add_le hpos hle (Sorted.runningSums counts) (show r + 1 ≤ ranks from hr)
  omega

/-- The keys of a rank are those of its leaves. -/
theorem keyRange_eq (hr : r < ranks) : a.keyRange r = ⟨t.start (a.leafRange r).1, t.start (a.leafRange r).2⟩ := by
  have hlength : a.leafOffsets.size = ranks + 1 := by
    rw [h.leafOffsets_eq, List.size_toArray, length_cuts hpos hle]
  have hkey : ∀ i < ranks + 1, a.keys.getD i 0 = t.start (a.leafOffsets.getD i 0) := by
    intro i hi
    rw [← hlength] at hi
    simp [h.keys_eq, Array.getD, hi]
  rw [keyRange, hkey r (by omega), hkey (r + 1) (by omega)]
  rfl

include hsize

/-- The particles of a rank are those of its leaves. -/
theorem particles_eq (hr : r < ranks) :
    a.particles r = ((counts.toList.take (a.leafRange r).2).drop (a.leafRange r).1).sum := by
  obtain ⟨hlt, hstop⟩ := h.leafRange_le hpos hle hr
  rw [h.particles_eq_sub hr, Sorted.sum_drop_take (Nat.le_of_lt hlt), Sorted.getD_runningSums (by omega),
    Sorted.getD_runningSums (by omega)]

/-- No particle is left out. -/
theorem total_eq : a.total = counts.toList.sum := by
  have hcut : ∀ r, (a.leafRange r).1 = cutAt (Sorted.runningSums counts) t.count ranks r := fun r => by
    rw [h.leafRange_eq]
  have hmono : ∀ r < ranks, (Sorted.runningSums counts).getD (a.leafRange r).1 0 ≤
      (Sorted.runningSums counts).getD (a.leafRange r).2 0 := by
    intro r hr
    obtain ⟨hlt, hstop⟩ := h.leafRange_le hpos hle hr
    exact Sorted.getD_runningSums_le (Nat.le_of_lt hlt) (hsize ▸ hstop)
  have hfirst : (Sorted.runningSums counts).getD (a.leafRange 0).1 0 = 0 := by
    rw [hcut, cutAt_zero]
    exact Sorted.getD_runningSums (Nat.zero_le _)
  have hlast : (Sorted.runningSums counts).getD (a.leafRange ranks).1 0 = counts.toList.sum := by
    rw [hcut, cutAt_ranks hpos hle, ← hsize, Sorted.getD_runningSums_size]
  rw [total, h.counts_eq, Array.toList_map, Array.toList_range, ← hlast]
  exact Sorted.sum_steps (fun r => (Sorted.runningSums counts).getD (a.leafRange r).1 0) hmono hfirst (Nat.le_refl ranks)

end IsCut

/-! ## The partition -/

/-- Whether an assignment gives each leaf, with its particles, and each key to one rank, and keys are looked up and sorted into
bins accordingly. -/
structure Partitions (a : Assignment depth) (t : Leaves depth) (counts : Array Nat) : Prop where
  leaves : InRow a.ranks t.count a.leafRange
  keys : InRow a.ranks (bound depth) fun r => ((a.keyRange r).first, (a.keyRange r).last)
  /-- Each leaf belongs to one rank. -/
  leaf_rank : ∀ i < t.count, ∃! r, r < a.ranks ∧ (a.leafRange r).1 ≤ i ∧ i < (a.leafRange r).2
  keyRange_eq : ∀ r < a.ranks, a.keyRange r = ⟨t.start (a.leafRange r).1, t.start (a.leafRange r).2⟩
  /-- A rank has the particles of its leaves. -/
  particles_eq : ∀ r < a.ranks, a.particles r = ((counts.toList.take (a.leafRange r).2).drop (a.leafRange r).1).sum
  total_eq : a.total = counts.toList.sum
  /-- The rank found for a key is the only one whose range holds it. -/
  key_rank : ∀ key < bound depth, a.rankOf key < a.ranks ∧ ∀ r < a.ranks, key ∈ a.keyRange r ↔ r = a.rankOf key
  /-- Sorting by the first keys of the ranks makes a bin for each rank, -/
  length_bins : ∀ keys : Array Nat, (Sorted.binCounts keys a.startKeys).length = a.ranks
  /-- and the bins cut ascending keys where the rank that is found for a key changes. -/
  bins : ∀ keys : Array Nat, Sorted.Ascending keys → (∀ k ∈ keys.toList, k < bound depth) → ∀ r < a.ranks,
    (keys.toList.take (a.bin keys r).stop).drop (a.bin keys r).start = keys.toList.filter fun k => a.rankOf k = r

/-- An assignment to so many ranks fails exactly if there are none of them or more than leaves. Otherwise it is a partition. -/
theorem compute_spec (ht : t.isValid = true) (hsize : counts.size = t.count) (ranks : Nat) :
    (compute (α := α) t counts ranks = .error (.tooFewLeaves ranks t.count) ↔ ranks = 0 ∨ t.count < ranks) ∧
      (0 < ranks → ranks ≤ t.count →
        ∃ a, compute (α := α) t counts ranks = .ok a ∧ a.ranks = ranks ∧ a.Partitions t counts) := by
  refine ⟨compute_eq_error_iff t counts ranks, fun hpos hle => ?_⟩
  obtain ⟨a, hcompute, hcut⟩ := exists_compute (α := α) counts hpos hle
  obtain ⟨htiles, rfl⟩ := tiles_compute ht hcompute
  have hleaves := hcut.inRow_leafRange hpos hle
  have hkeys : InRow a.ranks (bound depth) fun r => (a.boundaries.start r, a.boundaries.start (r + 1)) :=
    InRow.of_ends hpos htiles.ascends.start_zero (htiles.count_eq ▸ htiles.ascends.start_count)
      fun r hr => htiles.ascends.lt_succ r (htiles.count_eq ▸ hr)
  exact ⟨a, hcompute, rfl, {
    leaves := hleaves
    keys := hkeys
    leaf_rank := fun _ hi => hleaves.existsUnique hi
    keyRange_eq := fun _ hr => hcut.keyRange_eq hpos hle hr
    particles_eq := fun _ hr => hcut.particles_eq hsize hpos hle hr
    total_eq := hcut.total_eq hsize hpos hle
    key_rank := fun _ hkey => ⟨htiles.rankOf_lt hkey, fun _ hr => (htiles.rankOf_eq_iff hkey hr).symm.trans eq_comm⟩
    length_bins := fun keys => by
      rw [Sorted.binCounts, Sorted.length_steps, htiles.startKeys_eq, List.length_append, List.length_map, List.length_drop,
        List.length_map, List.length_range, List.length_singleton, Nat.sub_add_cancel hpos]
    bins := fun _ hascending hbound _ hr => htiles.drop_take_bin hascending hbound hr }⟩

/-- The octants of the root are given to four ranks, though all particles are in the last one. -/
theorem compute_spec_octants : (Leaves.uniform 1 : Leaves KeyWidth.narrow.depth).isValid = true ∧
    (#[0, 0, 0, 0, 0, 0, 0, 9] : Array Nat).size = (Leaves.uniform 1 : Leaves KeyWidth.narrow.depth).count ∧ 0 < 4 ∧
    4 ≤ (Leaves.uniform 1 : Leaves KeyWidth.narrow.depth).count ∧
    ∃ a, compute (α := Float) (Leaves.uniform 1 : Leaves KeyWidth.narrow.depth) #[0, 0, 0, 0, 0, 0, 0, 9] 4 = .ok a ∧
      a.total = 9 ∧ InRow 4 8 a.leafRange := by
  have ht : (Leaves.uniform 1 : Leaves KeyWidth.narrow.depth).isValid = true := by decide +kernel
  have hsize : (#[0, 0, 0, 0, 0, 0, 0, 9] : Array Nat).size = (Leaves.uniform 1 : Leaves KeyWidth.narrow.depth).count := by
    decide +kernel
  have hle : 4 ≤ (Leaves.uniform 1 : Leaves KeyWidth.narrow.depth).count := by decide +kernel
  refine ⟨ht, hsize, by decide, hle, ?_⟩
  obtain ⟨a, hcompute, hranks, hparts⟩ := (compute_spec (α := Float) ht hsize 4).2 (by decide) hle
  refine ⟨a, hcompute, hparts.total_eq, ?_⟩
  have hleaves := hparts.leaves
  rw [hranks, ← hsize] at hleaves
  exact hleaves

end Assignment

end CurvePartition
