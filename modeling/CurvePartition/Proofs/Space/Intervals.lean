-- SUMMARY: Room between two intervals, and the whole number nearest to a number, in any ordered field.
import Mathlib.Algebra.Order.Round
import Mathlib.Tactic.Linarith
import Mathlib.Tactic.Ring
import CurvePartition.Naturals

/-!
# Intervals and nearest whole numbers

What distances on one axis are made of, for reals and for rationals alike. The room between two intervals is the
least difference of their points, and the nearest whole number leaves the least rest.
-/

namespace CurvePartition

namespace Interval

variable {K : Type} [Field K] [LinearOrder K] [IsStrictOrderedRing K] {lo hi lo' hi' x y : K}

/-- Room between two intervals, zero if they meet. -/
def room (lo hi lo' hi' : K) : K := max (max (lo - hi') (lo' - hi)) 0

omit [IsStrictOrderedRing K] in
theorem room_nonneg (lo hi lo' hi' : K) : 0 ≤ room lo hi lo' hi' := le_max_right _ _

/-- Points in two intervals are at least the room apart. -/
theorem room_le_abs (hx : lo ≤ x ∧ x ≤ hi) (hy : lo' ≤ y ∧ y ≤ hi') : room lo hi lo' hi' ≤ |y - x| := by
  refine max_le (max_le ?_ ?_) (abs_nonneg _)
  · exact le_trans (by linarith [hx.1, hy.2]) (neg_le_abs (y - x))
  · exact le_trans (by linarith [hx.2, hy.1]) (le_abs_self (y - x))

/-- Two of the points are no further apart. -/
theorem exists_abs_eq_room (h : lo ≤ hi) (h' : lo' ≤ hi') :
    ∃ x y, (lo ≤ x ∧ x ≤ hi) ∧ (lo' ≤ y ∧ y ≤ hi') ∧ room lo hi lo' hi' = |y - x| := by
  rcases lt_or_ge hi' lo with hbelow | hmeet
  · refine ⟨lo, hi', ⟨le_rfl, h⟩, ⟨h', le_rfl⟩, ?_⟩
    rw [room, max_eq_left (by linarith : lo' - hi ≤ lo - hi'), max_eq_left (by linarith), abs_sub_comm,
      abs_of_pos (by linarith)]
  rcases lt_or_ge hi lo' with habove | hmeet'
  · refine ⟨hi, lo', ⟨h, le_rfl⟩, ⟨le_rfl, h'⟩, ?_⟩
    rw [room, max_eq_right (by linarith : lo - hi' ≤ lo' - hi), max_eq_left (by linarith), abs_of_pos (by linarith)]
  · refine ⟨max lo lo', max lo lo', ⟨le_max_left _ _, max_le h hmeet'⟩, ⟨le_max_right _ _, max_le hmeet h'⟩, ?_⟩
    rw [sub_self, abs_zero, room, max_eq_right (max_le (by linarith) (by linarith))]

variable [FloorRing K]

/-- Nearest whole number, halves away from zero. -/
def nearest (x : K) : ℤ := if 0 ≤ x then round x else -round (-x)

theorem nearest_eq (x : K) : nearest x = if 0 ≤ x then ⌊x + 1 / 2⌋ else ⌈x - 1 / 2⌉ := by
  have hneg : x - 1 / 2 = -(-x + 1 / 2) := by ring
  rw [nearest, round_eq, round_eq, hneg, Int.ceil_neg]

theorem abs_sub_nearest (x : K) : |x - nearest x| ≤ 1 / 2 := by
  unfold nearest
  split
  · exact abs_sub_round x
  · have hneg : x - ((-round (-x) : ℤ) : K) = -(-x - round (-x)) := by
      push_cast
      ring
    rw [hneg, abs_neg]
    exact abs_sub_round (-x)

/-- No whole number is nearer than the nearest one. -/
theorem abs_sub_nearest_le (x : K) (k : ℤ) : |x - nearest x| ≤ |x + k| := by
  by_cases hk : k = -nearest x
  · rw [hk, Int.cast_neg, ← sub_eq_add_neg]
  have hne : nearest x + k ≠ 0 := fun hzero => hk (by omega)
  have hone : (1 : K) ≤ |(nearest x : K) + k| := by exact_mod_cast Int.one_le_abs hne
  have hhalf := abs_sub_nearest x
  have hsplit : (nearest x : K) + k = (x + k) - (x - nearest x) := by ring
  have htriangle := abs_sub (x + k) (x - nearest x)
  rw [← hsplit] at htriangle
  linarith

end Interval

end CurvePartition
