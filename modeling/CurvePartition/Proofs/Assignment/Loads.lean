-- SUMMARY: No rank of an assignment has more particles than an equal share and the fullest leaf together, however the cuts were moved.
import CurvePartition.Proofs.Assignment.Partition

/-!
# Loads of ranks

The boundary nearest to an equal share is off by at most half of the leaf that the share ends in (`Assignment.cutNear_spec`). Cuts
that are moved to leave every rank a leaf can be off by more, but only to one side of a rank: a cut that is moved up follows right
behind the one before, and a cut that is moved down is followed by ranks of one leaf each. So a rank has only one leaf, or no more
than its share and half a leaf at either end (`Assignment.single_or_near_stop`, `Assignment.single_or_near_start`).
-/

namespace CurvePartition

namespace Assignment

open Sorted

variable {depth : Nat} {α : Type} {t : Leaves depth} {counts : Array Nat} {ranks r most : Nat}

theorem getD_le (hmost : ∀ c ∈ counts.toList, c ≤ most) (i : Nat) : counts.getD i 0 ≤ most := by
  by_cases hi : i < counts.size
  · exact hmost _ (by simp [Array.getD, hi])
  · simp [Array.getD, hi]

/-! ## The nearest boundary -/

/-- The nearest boundary is off by at most half of the fullest leaf. -/
theorem cutNear_spec (hmost : ∀ c ∈ counts.toList, c ≤ most) {target : Nat} (htarget : target ≤ counts.toList.sum) :
    cutNear (runningSums counts) target ≤ counts.size ∧
      2 * ((runningSums counts).getD (cutNear (runningSums counts) target) 0 - target) ≤ most ∧
      2 * (target - (runningSums counts).getD (cutNear (runningSums counts) target) 0) ≤ most := by
  obtain ⟨hle, hreached, hbefore⟩ := runningSums_lowerBound htarget
  simp only [cutNear]
  generalize lowerBound (runningSums counts) target = after at hle hreached hbefore ⊢
  cases after with
  | zero =>
    rw [if_neg (fun h => Nat.lt_irrefl 0 h.1)]
    have hzero : (runningSums counts).getD 0 0 = 0 := getD_runningSums (Nat.zero_le _)
    omega
  | succ k =>
    have hlt := hbefore k (Nat.lt_succ_self k)
    have hstep : (runningSums counts).getD (k + 1) 0 = (runningSums counts).getD k 0 + counts.getD k 0 :=
      getD_runningSums_succ hle
    have hleaf := getD_le hmost k
    rw [Nat.add_sub_cancel]
    split <;> omega

/-! ## Cuts, one by one -/

variable {sums : Array Nat} {total leaves left rank previous k : Nat}

/-- Each cut is the nearest boundary, moved behind the previous cut and before the leaves that later ranks need. -/
theorem getD_cutsFrom (hk : k < left) :
    (cutsFrom sums total leaves ranks left rank previous).getD k 0 =
      min (max (cutNear sums (total * (rank + k) / ranks))
        ((previous :: cutsFrom sums total leaves ranks left rank previous).getD k 0 + 1)) (leaves - (ranks - (rank + k))) := by
  induction left generalizing rank previous k with
  | zero => exact absurd hk (Nat.not_lt_zero k)
  | succ left ih =>
    cases k with
    | zero => rfl
    | succ k =>
      rw [cutsFrom]
      simp only [List.getD_cons_succ]
      rw [ih (Nat.lt_of_succ_lt_succ hk), Nat.add_right_comm rank 1 k]
      rfl

theorem cutAt_succ (hr : r + 1 < ranks) (hle : ranks ≤ leaves) : cutAt sums leaves ranks (r + 1) =
    min (max (cutNear sums (sums.getD leaves 0 * (r + 1) / ranks)) (cutAt sums leaves ranks r + 1))
      (leaves - (ranks - (r + 1))) := by
  have hpos : 0 < ranks := Nat.lt_of_le_of_lt (Nat.zero_le _) hr
  have hlength := length_cutsFrom hpos hle sums
  rw [cutAt, cutAt, cuts, List.getD_append _ _ _ _ (by omega), List.getD_append _ _ _ _ (by omega), List.getD_cons_succ,
    getD_cutsFrom (by omega), Nat.add_comm 1 r]

/-! ## Loads -/

/-- The first leaf of a rank when leaves with the given counts are assigned. -/
def firstLeaf (counts : Array Nat) (ranks rank : Nat) : Nat := cutAt (runningSums counts) counts.size ranks rank

/-- Particles before the first leaf of a rank. -/
def before (counts : Array Nat) (ranks rank : Nat) : Nat := (runningSums counts).getD (firstLeaf counts ranks rank) 0

/-- Particles that equal shares give to the ranks before a rank. -/
def share (counts : Array Nat) (ranks rank : Nat) : Nat := counts.toList.sum * rank / ranks

theorem share_le (counts : Array Nat) (hr : r ≤ ranks) : share counts ranks r ≤ counts.toList.sum := by
  apply Nat.div_le_of_le_mul
  rw [Nat.mul_comm ranks]
  exact Nat.mul_le_mul_left _ hr

/-- An equal share grows by no more than a rank's part of all particles, rounded up. -/
theorem share_succ_le (counts : Array Nat) (hpos : 0 < ranks) (r : Nat) :
    share counts ranks (r + 1) ≤ share counts ranks r + (counts.toList.sum + ranks - 1) / ranks := by
  have hceil : counts.toList.sum ≤ (counts.toList.sum + ranks - 1) / ranks * ranks := by
    have := Nat.lt_div_mul_add (a := counts.toList.sum + ranks - 1) hpos
    omega
  calc share counts ranks (r + 1)
      ≤ (counts.toList.sum * r + (counts.toList.sum + ranks - 1) / ranks * ranks) / ranks :=
        Nat.div_le_div_right (Nat.add_le_add_left hceil _)
    _ = share counts ranks r + (counts.toList.sum + ranks - 1) / ranks := Nat.add_mul_div_right _ _ hpos

section Loads

variable (hmost : ∀ c ∈ counts.toList, c ≤ most) (hle : ranks ≤ counts.size)

include hle in
theorem firstLeaf_succ (hr : r + 1 < ranks) : firstLeaf counts ranks (r + 1) =
    min (max (cutNear (runningSums counts) (share counts ranks (r + 1))) (firstLeaf counts ranks r + 1))
      (counts.size - (ranks - (r + 1))) := by
  rw [firstLeaf, cutAt_succ hr hle, getD_runningSums_size]
  rfl

variable (hr : r < ranks)
include hle hr

theorem firstLeaf_lt_succ : firstLeaf counts ranks r < firstLeaf counts ranks (r + 1) ∧
    firstLeaf counts ranks (r + 1) + (ranks - (r + 1)) ≤ counts.size := by
  have hpos : 0 < ranks := Nat.lt_of_le_of_lt (Nat.zero_le r) hr
  exact ⟨cutAt_lt_succ hpos hle _ hr, cutAt_add_le hpos hle _ hr⟩

include hmost

/-- A rank has one leaf, or ends not far behind its equal share. -/
theorem single_or_near_stop : firstLeaf counts ranks (r + 1) = firstLeaf counts ranks r + 1 ∨
    2 * (before counts ranks (r + 1) - share counts ranks (r + 1)) ≤ most := by
  have hafter := firstLeaf_lt_succ hle hr
  rcases Nat.lt_or_eq_of_le (Nat.succ_le_of_lt hr) with hlt | rfl
  · have hcut := firstLeaf_succ hle hlt
    obtain ⟨hnear, hover, _⟩ := cutNear_spec hmost (share_le (r := r + 1) counts hr)
    generalize cutNear (runningSums counts) (share counts ranks (r + 1)) = near at hcut hnear hover
    -- The cut is the nearest boundary or lies before it, unless it was moved right behind the previous one.
    by_cases hmoved : near ≤ firstLeaf counts ranks r
    · exact .inl (by omega)
    · have hbefore : before counts ranks (r + 1) ≤ (runningSums counts).getD near 0 :=
        getD_runningSums_le (by omega) hnear
      exact .inr (by omega)
  -- The last rank ends behind all leaves.
  · have hlast : firstLeaf counts (r + 1) (r + 1) = counts.size := cutAt_ranks (Nat.succ_pos r) hle _
    rw [before, hlast, getD_runningSums_size, share, Nat.mul_div_cancel _ (Nat.succ_pos r), Nat.sub_self]
    exact .inr (Nat.zero_le most)

/-- A rank has one leaf, or starts not far before the equal shares of the ranks before. -/
theorem single_or_near_start : firstLeaf counts ranks (r + 1) = firstLeaf counts ranks r + 1 ∨
    2 * (share counts ranks r - before counts ranks r) ≤ most := by
  cases r with
  | zero =>
    rw [share, Nat.mul_zero, Nat.zero_div, Nat.zero_sub]
    exact .inr (Nat.zero_le most)
  | succ r =>
    have hafter := firstLeaf_lt_succ hle hr
    have hcut := firstLeaf_succ hle hr
    obtain ⟨_, _, hunder⟩ := cutNear_spec hmost (share_le counts (Nat.le_of_lt hr))
    generalize cutNear (runningSums counts) (share counts ranks (r + 1)) = near at hcut hunder
    -- The cut is the nearest boundary or lies behind it, unless it was moved down to where the later ranks have a leaf each.
    by_cases hmoved : firstLeaf counts ranks (r + 1) = counts.size - (ranks - (r + 1))
    · exact .inl (by omega)
    · have hbehind : (runningSums counts).getD near 0 ≤ before counts ranks (r + 1) :=
        getD_runningSums_le (by omega) (show firstLeaf counts ranks (r + 1) ≤ counts.size by omega)
      exact .inr (by omega)

/-- A rank with one leaf has no more than the fullest leaf. -/
theorem before_succ_le_of_single (hsingle : firstLeaf counts ranks (r + 1) = firstLeaf counts ranks r + 1) :
    before counts ranks (r + 1) ≤ before counts ranks r + most := by
  have hafter := firstLeaf_lt_succ hle hr
  rw [before, hsingle, getD_runningSums_succ (by omega)]
  exact Nat.add_le_add_left (getD_le hmost _) _

/-- Between two cuts there are no more particles than an equal share, rounded up, and the fullest leaf. -/
theorem before_succ_sub_le :
    before counts ranks (r + 1) - before counts ranks r ≤ (counts.toList.sum + ranks - 1) / ranks + most := by
  have hshare := share_succ_le counts (Nat.lt_of_le_of_lt (Nat.zero_le r) hr) r
  have hsingle := before_succ_le_of_single hmost hle hr
  generalize (counts.toList.sum + ranks - 1) / ranks = part at hshare ⊢
  rcases single_or_near_stop hmost hle hr with heq | hstop
  · have := hsingle heq
    omega
  rcases single_or_near_start hmost hle hr with heq | hstart
  · have := hsingle heq
    omega
  · omega

end Loads

/-- No rank of an assignment has more particles in its leaves than an equal share, rounded up, and the fullest leaf, and it says
how many it has. -/
theorem particles_le (hsize : counts.size = t.count) (hmost : ∀ c ∈ counts.toList, c ≤ most) (hpos : 0 < ranks)
    (hle : ranks ≤ t.count) : ∃ a, compute (α := α) t counts ranks = .ok a ∧ a.ranks = ranks ∧
      ∀ r < ranks, a.particles r = ((counts.toList.take (a.leafRange r).2).drop (a.leafRange r).1).sum ∧
        a.particles r ≤ (counts.toList.sum + ranks - 1) / ranks + most := by
  obtain ⟨a, hcompute, hcut⟩ := exists_compute (α := α) counts hpos hle
  refine ⟨a, hcompute, hcut.ranks_eq, fun r hr => ⟨hcut.particles_eq hsize hpos hle hr, ?_⟩⟩
  rw [hcut.particles_eq_sub hr, hcut.leafRange_eq, ← hsize]
  exact before_succ_sub_le hmost (hsize ▸ hle) hr

/-- Five ranks share the octants of the root, of which the last one is by far the fullest. -/
theorem particles_le_octants :
    (#[1, 0, 2, 0, 0, 1, 0, 30] : Array Nat).size = (Leaves.uniform 1 : Leaves KeyWidth.narrow.depth).count ∧
      (∀ c ∈ (#[1, 0, 2, 0, 0, 1, 0, 30] : Array Nat).toList, c ≤ 30) ∧ 0 < 5 ∧
      5 ≤ (Leaves.uniform 1 : Leaves KeyWidth.narrow.depth).count ∧
      ∃ a, compute (α := Float) (Leaves.uniform 1 : Leaves KeyWidth.narrow.depth) #[1, 0, 2, 0, 0, 1, 0, 30] 5 = .ok a ∧
        a.ranks = 5 ∧ ∀ r < 5, a.particles r = (([1, 0, 2, 0, 0, 1, 0, 30].take (a.leafRange r).2).drop (a.leafRange r).1).sum ∧
          a.particles r ≤ 37 := by
  have hsize : (#[1, 0, 2, 0, 0, 1, 0, 30] : Array Nat).size = (Leaves.uniform 1 : Leaves KeyWidth.narrow.depth).count := by
    decide +kernel
  have hmost : ∀ c ∈ (#[1, 0, 2, 0, 0, 1, 0, 30] : Array Nat).toList, c ≤ 30 := by decide
  have hle : 5 ≤ (Leaves.uniform 1 : Leaves KeyWidth.narrow.depth).count := by decide +kernel
  exact ⟨hsize, hmost, by decide, hle, particles_le (α := Float) hsize hmost (by decide) hle⟩

end Assignment

end CurvePartition
