-- SUMMARY: From a numeral to a machine number: a 64 bit significand, and one multiplication or division by a power of ten.
import CurvePartition.Decimal.Numeral

/-!
# Reading numerals

A numeral is read with a significand of 64 bits: digits are taken while they fit. The first whole digit that does not
fit and those behind it only raise the power of ten; behind the point such digits are left out. The significand is
rounded to a machine number and then multiplied or divided by the power of ten, which is exact enough to read short
numerals back and can miss the nearest number by a unit for long ones. A numeral beyond the largest
number has no value.
-/

namespace CurvePartition

namespace Numeral

/-- A significand and a power of ten. -/
structure Scaled where
  significand : Nat
  exponent : Int
  deriving DecidableEq, Repr

/-- Largest significand. -/
def maxSignificand : Nat := 2 ^ 64 - 1

/-- Whole digits appended to a significand as long as they fit. -/
def takeWhole : Nat → List Char → Scaled
  | significand, [] => ⟨significand, 0⟩
  | significand, c :: rest =>
    let next := significand * 10 + digitValue c
    if maxSignificand < next then ⟨significand, rest.length + 1⟩ else takeWhole next rest

/-- Digits behind the point appended as long as they fit. -/
def takeFraction : Scaled → List Char → Scaled
  | s, [] => s
  | s, c :: rest =>
    let next := s.significand * 10 + digitValue c
    if maxSignificand < next then s else takeFraction ⟨next, s.exponent - 1⟩ rest

/-- Largest magnitude of a power of ten. -/
def maxPower : Nat := 2 ^ 31 - 1

/-- A sum of powers of ten, kept within 32 bits. -/
def clampPower (e : Int) : Int := max (-(maxPower : Int) - 1) (min maxPower e)

/-- A power of ten as a machine number. -/
def powerOfTen (n : Nat) : Float := Float.ofScientific 1 false n

/-- A number divided by a power of ten of any size. -/
def shrink (x : Float) (n : Nat) : Float :=
  if n ≤ 308 then x / powerOfTen n
  else if x == 0 then x
  else shrink (x / powerOfTen 308) (n - 308)
termination_by n

/-- The machine number of a significand and a power of ten, none if it is too large. -/
def Scaled.toFloat? (s : Scaled) : Option Float :=
  let x := (UInt64.ofNat s.significand).toFloat
  if s.exponent < 0 then some (shrink x s.exponent.natAbs)
  else if s.exponent ≤ 308 then
    let y := x * powerOfTen s.exponent.toNat
    if y.isInf then none else some y
  else if s.significand = 0 then some x
  else none

/-- Significand and power of ten of the digits around the point. -/
def mantissa (n : Numeral) : Scaled := takeFraction (takeWhole 0 n.whole) n.fraction

/-- Value of a list of digits. -/
def digitsValue (digits : List Char) : Nat := digits.foldl (fun acc c => acc * 10 + digitValue c) 0

/-- The magnitude of a numeral, none if it is too large. -/
def magnitude? (n : Numeral) : Option Float :=
  let m := n.mantissa
  match n.exponent with
  | none => m.toFloat?
  | some (negative, digits) =>
    let power := digitsValue digits
    if maxPower < power then
      if m.significand ≠ 0 ∧ !negative then none else some 0
    else Scaled.toFloat? ⟨m.significand, clampPower (if negative then m.exponent - power else m.exponent + power)⟩

/-- The machine number of a numeral, none if it is too large. -/
def toFloat? (n : Numeral) : Option Float := n.magnitude?.map fun x => if n.negative then -x else x

/-- The count that a numeral stands for, if it is whole, not negative and fits into 64 bits. -/
def toCount? (n : Numeral) : Option Nat :=
  if n.negative ∨ n.fraction ≠ [] ∨ n.exponent.isSome then none
  else
    let value := digitsValue n.whole
    if maxSignificand < value then none else some value

end Numeral

end CurvePartition
