-- SUMMARY: Weaving the bits of three coordinates into octal digits and taking them apart again, as inverse functions.
import CurvePartition.Space.Triple

/-!
# Interleaved bits

`Triple.interleave n` writes the lowest `n` bits of three coordinates as one number of `n` octal digits. In each
digit the bit of `x` is the most significant and the bit of `z` the least significant one.
`Triple.deinterleave n` reads the digits back. The two are inverse to each other on coordinates below
`2 ^ n` and numbers below `8 ^ n`.
-/

namespace CurvePartition

namespace Triple

/-- The digit made of the lowest bits of the coordinates. -/
def lowDigit (c : Triple Nat) : Nat := 4 * (c.x % 2) + 2 * (c.y % 2) + c.z % 2

/-- The lowest `n` bits of the coordinates as `n` octal digits. -/
def interleave : Nat → Triple Nat → Nat
  | 0, _ => 0
  | n + 1, c => 8 * interleave n (c.map (· / 2)) + c.lowDigit

/-- The coordinates whose bits are the lowest `n` octal digits of a number. -/
def deinterleave : Nat → Nat → Triple Nat
  | 0, _ => ⟨0, 0, 0⟩
  | n + 1, k =>
    let c := deinterleave n (k / 8)
    ⟨2 * c.x + k / 4 % 2, 2 * c.y + k / 2 % 2, 2 * c.z + k % 2⟩

theorem lowDigit_lt (c : Triple Nat) : c.lowDigit < 8 := by
  simp only [lowDigit]; omega

theorem deinterleave_lt (n k : Nat) (a : Axis) : (deinterleave n k).get a < 2 ^ n := by
  induction n generalizing k with
  | zero => cases a <;> simp [deinterleave, get]
  | succ n ih =>
    have h := ih (k / 8)
    rw [Nat.pow_succ]
    cases a <;> simp only [deinterleave, get] at h ⊢ <;> omega

theorem deinterleave_interleave {n : Nat} {c : Triple Nat} (h : ∀ a, c.get a < 2 ^ n) :
    deinterleave n (interleave n c) = c := by
  induction n generalizing c with
  | zero =>
    have hx := h .x; have hy := h .y; have hz := h .z
    cases c
    simp only [get, Nat.pow_zero] at hx hy hz
    simp only [deinterleave, mk.injEq]
    omega
  | succ n ih =>
    have half : ∀ a, (c.map (· / 2)).get a < 2 ^ n := by
      intro a
      have := h a
      rw [Nat.pow_succ] at this
      rw [get_map]
      omega
    have d := c.lowDigit_lt
    have hdiv : interleave (n + 1) c / 8 = interleave n (c.map (· / 2)) := by
      simp only [interleave]; omega
    simp only [deinterleave, hdiv, ih half]
    cases c
    simp only [interleave, lowDigit, map, mk.injEq]
    omega

theorem interleave_deinterleave {n k : Nat} (h : k < 8 ^ n) : interleave n (deinterleave n k) = k := by
  induction n generalizing k with
  | zero => simp only [Nat.pow_zero] at h; simp only [interleave]; omega
  | succ n ih =>
    have hk : k / 8 < 8 ^ n := by rw [Nat.pow_succ] at h; omega
    have half : (deinterleave (n + 1) k).map (· / 2) = deinterleave n (k / 8) := by
      simp only [deinterleave, map]
      cases deinterleave n (k / 8)
      simp only [mk.injEq]
      omega
    show 8 * interleave n ((deinterleave (n + 1) k).map (· / 2)) + (deinterleave (n + 1) k).lowDigit = k
    rw [half, ih hk]
    simp only [lowDigit, deinterleave]
    omega

end Triple

end CurvePartition
