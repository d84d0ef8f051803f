-- SUMMARY: Each cut of an assignment is one of the boundaries nearest to an equal share, moved no more than the other ranks need, and which one if there are several.
import Mathlib.Data.Nat.Dist
import CurvePartition.Proofs.Assignment.Loads

/-!
# Nearest cuts

Leaves without particles repeat a running sum, so several boundaries can be equally near to an equal share. The search compares
the boundary where the share is reached with the one right before. So the boundary taken is the first of the nearest ones if the
share is reached there. Otherwise it has fewer particles before it than the share, and it is the last one with as many: the
first nearest boundary, moved behind the empty leaves that follow it (`Assignment.cut_nearest`).
-/

namespace CurvePartition

namespace Assignment

open Sorted

variable {depth : Nat} {α : Type} {t : Leaves depth} {counts : Array Nat} {ranks target b k : Nat}

/-- Particles before a boundary. -/
def particlesBefore (counts : Array Nat) (b : Nat) : Nat := (counts.toList.take b).sum

/-- How far the particles before a boundary are from a number of particles. -/
def off (counts : Array Nat) (target b : Nat) : Nat := Nat.dist (particlesBefore counts b) target

/-- Whether a boundary is the first one of those that are nearest to a number of particles. -/
structure FirstNearest (counts : Array Nat) (target b : Nat) : Prop where
  le : b ≤ counts.size
  nearest : ∀ c ≤ counts.size, off counts target b ≤ off counts target c
  first : ∀ c < b, off counts target b < off counts target c

/-- Whether a boundary is `b`, or `b` moved behind the empty leaves that follow, as is done if the particles before `b` are
too few. -/
structure BehindEmpty (counts : Array Nat) (target b near : Nat) : Prop where
  le : b ≤ near
  empty : ∀ i, b ≤ i → i < near → counts.getD i 0 = 0
  eq_of_reached : target ≤ particlesBefore counts b → near = b
  /-- No empty leaf follows any more. -/
  full_of_before : particlesBefore counts b < target → near < counts.size ∧ 0 < counts.getD near 0

theorem particlesBefore_mono (counts : Array Nat) {i j : Nat} (h : i ≤ j) : particlesBefore counts i ≤ particlesBefore counts j := sum_take_le h

theorem particlesBefore_succ (hk : k < counts.size) :
    particlesBefore counts (k + 1) = particlesBefore counts k + counts.getD k 0 := by
  have hstep := getD_runningSums_succ hk
  rwa [getD_runningSums hk, getD_runningSums (Nat.le_of_lt hk)] at hstep

/-- A boundary where the target is reached is the first nearest one if each boundary before is farther away. -/
theorem firstNearest_of_reached (hb : b ≤ counts.size) (hreached : target ≤ particlesBefore counts b)
    (hfarther : ∀ c < b, particlesBefore counts c < target ∧
      particlesBefore counts b - target < target - particlesBefore counts c) : FirstNearest counts target b where
  le := hb
  nearest c _ := by
    simp only [off, Nat.dist]
    rcases Nat.lt_or_ge c b with hlt | hge
    · have := hfarther c hlt
      omega
    · have := particlesBefore_mono counts hge
      omega
  first c hc := by
    have := hfarther c hc
    simp only [off, Nat.dist]
    omega

/-- If a boundary before the target is not farther away than the next one, then the first nearest boundary is the first one with
as many particles before it. -/
theorem exists_firstNearest_of_before (hk : k < counts.size) (hbefore : particlesBefore counts k < target)
    (hreached : target ≤ particlesBefore counts (k + 1))
    (hnear : target - particlesBefore counts k ≤ particlesBefore counts (k + 1) - target) :
    ∃ b, FirstNearest counts target b ∧ BehindEmpty counts target b k := by
  have hsame : ∃ b, particlesBefore counts b = particlesBefore counts k := ⟨k, rfl⟩
  have heq : particlesBefore counts (Nat.find hsame) = particlesBefore counts k := Nat.find_spec hsame
  have hle : Nat.find hsame ≤ k := Nat.find_min' hsame rfl
  have hfewer : ∀ c < Nat.find hsame, particlesBefore counts c < particlesBefore counts k := fun c hc =>
    Nat.lt_of_le_of_ne (particlesBefore_mono counts (by omega)) (Nat.find_min hsame hc)
  generalize Nat.find hsame = b at heq hle hfewer
  have hfirst : FirstNearest counts target b := {
    le := by omega
    nearest := fun c _ => by
      simp only [off, Nat.dist]
      rcases Nat.lt_or_ge k c with hlt | hge
      · have := particlesBefore_mono counts (show k + 1 ≤ c from hlt)
        omega
      · have := particlesBefore_mono counts hge
        omega
    first := fun c hc => by
      have := hfewer c hc
      simp only [off, Nat.dist]
      omega }
  refine ⟨b, hfirst, hle, fun i hbi hik => ?_, fun hreached => by omega, fun _ => ⟨hk, ?_⟩⟩
  -- Between two boundaries with the same sum no leaf has particles.
  · have hstep := particlesBefore_succ (show i < counts.size by omega)
    have hlow := particlesBefore_mono counts hbi
    have hhigh := particlesBefore_mono counts (show i + 1 ≤ k from hik)
    omega
  · have hstep := particlesBefore_succ hk
    omega

/-- The boundary that is taken for a target: the first nearest one, or the last one with as many particles before it. -/
theorem exists_firstNearest_cutNear (htarget : target ≤ counts.toList.sum) :
    ∃ b, FirstNearest counts target b ∧ BehindEmpty counts target b (cutNear (runningSums counts) target) := by
  obtain ⟨hle, hreached, hbefore⟩ := runningSums_lowerBound htarget
  simp only [cutNear]
  generalize lowerBound (runningSums counts) target = after at hle hreached hbefore ⊢
  have hsum : ∀ i ≤ after, (runningSums counts).getD i 0 = particlesBefore counts i := fun i hi =>
    getD_runningSums (Nat.le_trans hi hle)
  have hself : ∀ b, target ≤ particlesBefore counts b → BehindEmpty counts target b b := fun b hb =>
    ⟨Nat.le_refl b, fun i hi hlt => absurd hlt (Nat.not_lt.2 hi), fun _ => rfl, fun h => absurd h (Nat.not_lt.2 hb)⟩
  rw [hsum after (Nat.le_refl _)] at hreached
  rw [hsum after (Nat.le_refl _), hsum (after - 1) (Nat.sub_le _ _)]
  split
  case isTrue hcloser =>
    obtain ⟨hpos, hnear⟩ := hcloser
    have hlast := hbefore (after - 1) (by omega)
    rw [hsum (after - 1) (Nat.sub_le _ _)] at hlast
    have hsucc : after - 1 + 1 = after := Nat.sub_add_cancel hpos
    exact exists_firstNearest_of_before (by omega) hlast (by rwa [hsucc]) (by rwa [hsucc])
  case isFalse hfarther =>
    refine ⟨after, firstNearest_of_reached hle hreached fun c hc => ?_, hself after hreached⟩
    have hfew := hbefore c hc
    rw [hsum c (Nat.le_of_lt hc)] at hfew
    have hmono := particlesBefore_mono counts (Nat.le_sub_one_of_lt hc)
    omega

/-- Each cut is the first of the boundaries nearest to an equal share, moved behind the empty leaves that follow it if it lies
before the share, and then limited so that every rank has a leaf. -/
theorem cut_nearest (hsize : counts.size = t.count) (hpos : 0 < ranks) (hle : ranks ≤ t.count) :
    ∃ a, compute (α := α) t counts ranks = .ok a ∧ ∀ r, 0 < r → r < ranks → ∃ b near,
      FirstNearest counts (counts.toList.sum * r / ranks) b ∧
      BehindEmpty counts (counts.toList.sum * r / ranks) b near ∧
      a.leafOffsets.getD r 0 = min (max near (a.leafOffsets.getD (r - 1) 0 + 1)) (t.count - (ranks - r)) := by
  obtain ⟨a, hcompute, hcut⟩ := exists_compute (α := α) counts hpos hle
  have hoffset : ∀ r, a.leafOffsets.getD r 0 = cutAt (runningSums counts) t.count ranks r := fun r =>
    congrArg Prod.fst (hcut.leafRange_eq r)
  refine ⟨a, hcompute, fun r hr hlt => ?_⟩
  obtain ⟨r, rfl⟩ := Nat.exists_eq_succ_of_ne_zero (Nat.ne_of_gt hr)
  obtain ⟨b, hb, hnear⟩ := exists_firstNearest_cutNear (share_le counts (Nat.le_of_lt hlt))
  refine ⟨b, _, hb, hnear, ?_⟩
  rw [hoffset, hoffset, Nat.succ_eq_add_one, cutAt_succ hlt hle, ← hsize, getD_runningSums_size]
  rfl

/-- Three ranks share the octants of the root. Before the first share lies one empty leaf, which goes to the first rank. -/
theorem cut_nearest_octants :
    (#[10, 0, 12, 0, 0, 8, 0, 0] : Array Nat).size = (Leaves.uniform 1 : Leaves KeyWidth.narrow.depth).count ∧ 0 < 3 ∧
      3 ≤ (Leaves.uniform 1 : Leaves KeyWidth.narrow.depth).count ∧
      ∃ a, compute (α := Float) (Leaves.uniform 1 : Leaves KeyWidth.narrow.depth) #[10, 0, 12, 0, 0, 8, 0, 0] 3 = .ok a ∧
        ∃ b near, FirstNearest #[10, 0, 12, 0, 0, 8, 0, 0] 20 b ∧ BehindEmpty #[10, 0, 12, 0, 0, 8, 0, 0] 20 b near ∧
          a.leafOffsets.getD 2 0 = min (max near (a.leafOffsets.getD 1 0 + 1)) 7 := by
  have hsize : (#[10, 0, 12, 0, 0, 8, 0, 0] : Array Nat).size = (Leaves.uniform 1 : Leaves KeyWidth.narrow.depth).count := by
    decide +kernel
  have hle : 3 ≤ (Leaves.uniform 1 : Leaves KeyWidth.narrow.depth).count := by decide +kernel
  obtain ⟨a, hcompute, hcuts⟩ := cut_nearest (α := Float) hsize (by decide) hle
  obtain ⟨b, near, hb, hnear, hcut⟩ := hcuts 2 (by decide) (by decide)
  rw [← hsize] at hcut
  exact ⟨hsize, by decide, hle, a, hcompute, b, near, hb, hnear, hcut⟩

/-- Two ranks share 22 particles. The boundaries behind the first and behind the second leaf are equally near to 11 particles,
and the second one is taken, though the first one would leave every rank a leaf. -/
theorem not_first_nearest_emptyLeaf : (Leaves.uniform 1 : Leaves KeyWidth.narrow.depth).isValid = true ∧
    (#[10, 0, 12, 0, 0, 0, 0, 0] : Array Nat).size = (Leaves.uniform 1 : Leaves KeyWidth.narrow.depth).count ∧
    2 ≤ (Leaves.uniform 1 : Leaves KeyWidth.narrow.depth).count ∧
    ∃ a, compute (α := Float) (Leaves.uniform 1 : Leaves KeyWidth.narrow.depth) #[10, 0, 12, 0, 0, 0, 0, 0] 2 = .ok a ∧
      FirstNearest #[10, 0, 12, 0, 0, 0, 0, 0] (22 * 1 / 2) 1 ∧
      a.leafOffsets.getD 1 0 ≠ min (max 1 (a.leafOffsets.getD 0 0 + 1)) (8 - (2 - 1)) := by
  refine ⟨by decide +kernel, by decide +kernel, by decide +kernel, ⟨#[0, 2, 8], #[0, 2 ^ 27 * 2, 2 ^ 30], #[10, 12]⟩, ?_,
    ⟨by decide +kernel, by decide +kernel, by decide +kernel⟩, by decide⟩
  cbv

end Assignment

end CurvePartition
