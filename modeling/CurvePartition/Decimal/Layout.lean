-- SUMMARY: How the digits of a number are laid out as text: always positional in messages, with an exponent outside a middle range in configuration files.
import CurvePartition.Decimal.Numeral
import CurvePartition.Decimal.Shortest

/-!
# Layout of numbers

`Layout` holds the choices of a text format for numbers: for which powers of ten the digits are written in
place, whether a whole number keeps a point, and how ties between equally short decimals go.
`Layout.message` is the format of error messages, `Layout.document` that of configuration files.
-/

namespace CurvePartition

namespace Decimal

/-- A text format for numbers. -/
structure Layout where
  /-- Whether digits are written in place when the first one stands for this power of ten. -/
  inPlace : Int → Bool
  /-- Fraction of a whole number written in place. -/
  wholeFraction : List Char
  tie : Tie

namespace Layout

/-- Numbers in error messages never have an exponent, and whole numbers have no point. -/
def message : Layout where
  inPlace _ := true
  wholeFraction := []
  tie := .up

/-- Numbers in configuration files are written in place from `10 ^ -5` up to below `10 ^ 16`, and always
show that they need not be whole. -/
def document : Layout where
  inPlace e := -5 ≤ e ∧ e < 16
  wholeFraction := ['0']
  tie := .toEven

end Layout

/-- A run of zeros. -/
def zeros (n : Nat) : List Char := List.replicate n '0'

/-- Digits in place, with as many zeros as their power of ten needs. -/
def inPlace (d : Decimal) (wholeFraction : List Char) : Numeral :=
  let digits := (toString d.digits).toList
  if 0 ≤ d.exponent then
    ⟨false, digits ++ zeros d.exponent.toNat, wholeFraction, none⟩
  else
    let places := (-d.exponent).toNat
    if places < digits.length then
      let whole := digits.length - places
      ⟨false, digits.take whole, digits.drop whole, none⟩
    else
      ⟨false, ['0'], zeros (places - digits.length) ++ digits, none⟩

/-- First digit, point, other digits, and the power of ten. -/
def scientific (d : Decimal) : Numeral :=
  let digits := (toString d.digits).toList
  ⟨false, digits.take 1, digits.drop 1, some (d.leading < 0, (toString d.leading.natAbs).toList)⟩

/-- Whether a number carries a minus sign, zero included. -/
def isNegative (x : Float) : Bool := x.toBits.toNat / 2 ^ 63 = 1

/-- Numeral of a finite number. -/
def numeral (layout : Layout) (x : Float) : Numeral :=
  let d := ofFloat x layout.tie
  let n := if layout.inPlace d.leading then d.inPlace layout.wholeFraction else d.scientific
  { n with negative := isNegative x }

/-- Text of any number. -/
def render (layout : Layout) (x : Float) : String :=
  if x.isNaN then "NaN"
  else if x.isInf then if isNegative x then "-inf" else "inf"
  else (numeral layout x).text

end Decimal

end CurvePartition
