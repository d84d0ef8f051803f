-- SUMMARY: Binary search in ascending sequences: where a property stops holding, and the number of values below a bound.
import CurvePartition.Naturals

/-!
# Search

`Sorted.boundary p lo hi` finds the first position from `lo` up to `hi` at which `p` fails, provided that `p` fails
from there on. On an ascending array this gives the position of a bound.
-/

namespace CurvePartition

namespace Sorted

/-- First position of `size` many from `base` on at which `p` no longer holds. The search keeps one half while
there is more than one position, and then tests the one that is left. -/
def boundaryFrom (p : Nat → Bool) (base size : Nat) : Nat :=
  if _h : 1 < size then
    let middle := base + size / 2
    if p middle then boundaryFrom p middle (size - size / 2) else boundaryFrom p base (size - size / 2)
  else if size = 1 ∧ p base then base + 1
  else base
termination_by size

/-- First position between `lo` and `hi` at which `p` no longer holds. -/
def boundary (p : Nat → Bool) (lo hi : Nat) : Nat := boundaryFrom p lo (hi - lo)

/-- Number of values below `bound` in an ascending array. -/
def lowerBound (values : Array Nat) (bound : Nat) : Nat :=
  boundary (fun i => values.getD i 0 < bound) 0 values.size

/-- Number of values up to and including `bound` in an ascending array. -/
def upperBound (values : Array Nat) (bound : Nat) : Nat :=
  boundary (fun i => values.getD i 0 ≤ bound) 0 values.size

theorem boundaryFrom_mem (p : Nat → Bool) (base size : Nat) :
    base ≤ boundaryFrom p base size ∧ boundaryFrom p base size ≤ base + size := by
  fun_induction boundaryFrom p base size with
  | case1 base size h middle hp ih => omega
  | case2 base size h middle hp ih => omega
  | case3 base size h hp => omega
  | case4 base size h hp => omega

/-- If `p` holds on a first part of the positions only, the search finds where that part ends. -/
theorem boundaryFrom_spec (p : Nat → Bool) {base size : Nat}
    (mono : ∀ i j, base ≤ i → i ≤ j → j < base + size → p j = true → p i = true) (i : Nat) (hlo : base ≤ i)
    (hhi : i < base + size) : p i = true ↔ i < boundaryFrom p base size := by
  fun_induction boundaryFrom p base size with
  | case1 base size h middle hp ih =>
    have hb := boundaryFrom_mem p middle (size - size / 2)
    by_cases hm : middle ≤ i
    · exact ih (fun i j h₁ h₂ h₃ => mono i j (by omega) h₂ (by omega)) hm (by omega)
    · exact ⟨fun _ => by omega, fun _ => mono i middle hlo (by omega) (by omega) hp⟩
  | case2 base size h middle hp ih =>
    have hb := boundaryFrom_mem p base (size - size / 2)
    by_cases hm : i < base + (size - size / 2)
    · exact ih (fun i j h₁ h₂ h₃ => mono i j h₁ h₂ (by omega)) hlo hm
    · exact ⟨fun hi => absurd (mono middle i (by omega) (by omega) hhi hi) hp, fun _ => by omega⟩
  | case3 base size h hp =>
    obtain rfl : i = base := by omega
    simp [hp.2]
  | case4 base size h hp =>
    obtain rfl : i = base := by omega
    simp [show ¬p i = true from fun hi => hp ⟨by omega, hi⟩]

theorem boundary_mem (p : Nat → Bool) {lo hi : Nat} (h : lo ≤ hi) :
    lo ≤ boundary p lo hi ∧ boundary p lo hi ≤ hi := by
  have := boundaryFrom_mem p lo (hi - lo)
  unfold boundary
  omega

/-- The position found separates where `p` holds from where it fails. -/
theorem boundary_spec (p : Nat → Bool) {lo hi : Nat}
    (mono : ∀ i j, lo ≤ i → i ≤ j → j < hi → p j = true → p i = true) (i : Nat) (hlo : lo ≤ i) (hhi : i < hi) :
    p i = true ↔ i < boundary p lo hi :=
  boundaryFrom_spec p (fun i j h₁ h₂ h₃ => mono i j h₁ h₂ (by omega)) i hlo (by omega)

end Sorted

end CurvePartition
