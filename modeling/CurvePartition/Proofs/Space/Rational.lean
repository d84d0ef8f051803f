-- SUMMARY: Exact rationals as scalars. They have no roots, so distances are squared.
import Mathlib.Algebra.Order.Floor.Ring
import Mathlib.Algebra.Order.Ring.Rat
import Mathlib.Data.Rat.Floor
import CurvePartition.Proofs.Space.Ordering

/-!
# Exact rationals

Geometry without rounding that can be evaluated. Rationals have no square roots, so what is computed as the distance of two
regions is the square of their distance. Values beyond the largest finite number are those that no position has.
-/

namespace CurvePartition

/-- A rational number, whose root is taken to be itself. -/
structure Rational where
  value : ℚ
  deriving DecidableEq

namespace Rational

instance : Scalar Rational where
  zero := ⟨0⟩
  one := ⟨1⟩
  add a b := ⟨a.value + b.value⟩
  sub a b := ⟨a.value - b.value⟩
  mul a b := ⟨a.value * b.value⟩
  div a b := ⟨a.value / b.value⟩
  neg a := ⟨-a.value⟩
  lt a b := a.value < b.value
  le a b := a.value ≤ b.value
  decideLT a b := inferInstanceAs (Decidable (a.value < b.value))
  decideLE a b := inferInstanceAs (Decidable (a.value ≤ b.value))
  ofNat n := ⟨n⟩
  sqrt a := a
  floor a := ⟨⌊a.value⌋⟩
  round a := ⟨if 0 ≤ a.value then ⌊a.value + 1 / 2⌋ else ⌈a.value - 1 / 2⌉⟩
  wholePart a := ⌊a.value⌋.toNat
  isFinite a := -2 ^ 64 ≤ a.value ∧ a.value ≤ 2 ^ 64
  highest := ⟨2 ^ 64⟩
  infinity := ⟨2 ^ 130⟩

variable {a b : Rational}

theorem le_iff : a ≤ b ↔ a.value ≤ b.value := Iff.rfl

theorem le_self (a : Rational) : a ≤ a := le_refl a.value

/-- Nothing is rounded, so the order is kept. -/
theorem lawfulRounding : Scalar.LawfulRounding Rational where
  trans hab hbc := le_trans (le_iff.1 hab) (le_iff.1 hbc)
  total {a b} _ _ := le_total a.value b.value
  lt_iff {a b} := lt_iff_le_not_ge (a := a.value) (b := b.value)
  left _ := le_self _
  right _ := le_self _
  infinity := le_self _
  add_le_add ha hb _ _ := add_le_add (le_iff.1 ha) (le_iff.1 hb)
  sub_le_sub ha hb _ _ := sub_le_sub (le_iff.1 ha) (le_iff.1 hb)
  mul_le_mul h₀ ha h₁ hb _ _ := mul_le_mul (le_iff.1 ha) (le_iff.1 hb) h₁ (le_trans (le_iff.1 h₀) (le_iff.1 ha))
  sqrt_le_sqrt h _ _ := h
  ofNat_le_ofNat {m n} h := show (m : ℚ) ≤ (n : ℚ) from Nat.cast_le.2 h
  zero_le_ofNat n := show (0 : ℚ) ≤ (n : ℚ) from Nat.cast_nonneg n
  sub_nonneg h _ := sub_nonneg.2 (le_iff.1 h)
  div_nonneg {a n} h _ := show (0 : ℚ) ≤ a.value / (n : ℚ) from div_nonneg h (Nat.cast_nonneg n)

end Rational

end CurvePartition
