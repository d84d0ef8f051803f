-- SUMMARY: The numbers that positions, radii and distances are made of, as one class of operations, with machine numbers as the instance that runs.
import CurvePartition.Naturals

/-!
# Scalars

Geometry uses a number type only through the operations of `Scalar`: arithmetic, comparison, a square
root, rounding to whole numbers and two bounds. The class carries no laws. Machine numbers obey few of
them, so a statement about geometry names the laws it needs; exact numbers obey them all.

`Scalar.max` and `Scalar.min` treat an unordered value as absent, and keep the first of two equal values.
-/

namespace CurvePartition

/-- A number type for coordinates. -/
class Scalar (α : Type) extends Zero α, One α, Add α, Sub α, Mul α, Div α, Neg α, LT α, LE α where
  /-- Comparison is decided, also where it holds in neither direction. -/
  decideLT : DecidableLT α
  decideLE : DecidableLE α
  ofNat : Nat → α
  sqrt : α → α
  /-- Largest whole number that is not larger. -/
  floor : α → α
  /-- Nearest whole number, halves away from zero. -/
  round : α → α
  /-- Whole part of a positive number, zero where there is none. -/
  wholePart : α → Nat
  isFinite : α → Bool
  /-- Largest finite number. -/
  highest : α
  /-- Larger than every finite number. -/
  infinity : α

namespace Scalar

variable {α : Type} [Scalar α]

instance (a b : α) : Decidable (a < b) := decideLT a b

instance (a b : α) : Decidable (a ≤ b) := decideLE a b

/-- Whether a value is unordered, that is not even equal to itself. -/
@[inline] def isUnordered (a : α) : Bool := ¬ a ≤ a

/-- Larger of two values. -/
@[inline] def max (a b : α) : α := if a < b ∨ isUnordered a then b else a

/-- Smaller of two values. -/
@[inline] def min (a b : α) : α := if b < a ∨ isUnordered a then b else a

/-- Absolute value. -/
@[inline] def abs (a : α) : α := if a < 0 then -a else a

/-- Ten to the power `-digits`. -/
def decimal (digits : Nat) : α := 1 / ofNat (10 ^ digits)

/-- Smallest finite number. -/
def lowest : α := -highest

theorem max_of_lt {a b : α} (h : a < b) : max a b = b := by
  simp [max, h]

theorem max_of_not_lt {a b : α} (ha : a ≤ a) (h : ¬ a < b) : max a b = a := by
  simp [max, isUnordered, ha, h]

theorem min_of_lt {a b : α} (h : b < a) : min a b = b := by
  simp [min, h]

theorem min_of_not_lt {a b : α} (ha : a ≤ a) (h : ¬ b < a) : min a b = a := by
  simp [min, isUnordered, ha, h]

end Scalar

instance : Scalar Float where
  zero := 0.0
  one := 1.0
  decideLT := inferInstance
  decideLE := inferInstance
  ofNat := Float.ofNat
  sqrt := Float.sqrt
  floor := Float.floor
  round := Float.round
  wholePart x := x.toUInt64.toNat
  isFinite := Float.isFinite
  highest := Float.ofBits 0x7fefffffffffffff
  infinity := Float.ofBits 0x7ff0000000000000

end CurvePartition
