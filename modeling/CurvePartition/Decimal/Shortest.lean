-- SUMMARY: The fewest decimal digits that read back as a given binary number, found by exact arithmetic on the decimal grids around it.
import CurvePartition.Naturals

/-!
# Shortest decimals

A positive binary number `m · 2 ^ q` stands for an interval of reals: all those that round to it. It reaches
half way to its neighbours, and holds its ends exactly if `m` is even. A decimal reads back as the number if
it lies in the interval.

For one digit, two digits, and so on, `Binary.shortest` looks at the two neighbours of the number on the grid of
decimals with that many digits. If a point of the grid lies in the interval then so does one of these two,
so the first grid with a hit has the fewest digits. Of two hits the nearer one is taken; `Tie` says which of two
equally near ones.
-/

namespace CurvePartition

/-- A decimal `digits · 10 ^ exponent`. -/
structure Decimal where
  digits : Nat
  exponent : Int
  deriving DecidableEq, Repr

namespace Decimal

/-- Which of two equally near decimals is taken. -/
inductive Tie where
  | up
  | toEven
  deriving DecidableEq, Repr

/-- A positive number `mantissa · 2 ^ exponent` of a binary format. -/
structure Binary where
  mantissa : Nat
  exponent : Int
  /-- Whether the next smaller number is only half as far away as the next larger one. -/
  narrowBelow : Bool
  deriving DecidableEq, Repr

/-- Number of decimal digits, one for zero. -/
def digitCount (n : Nat) : Nat := if n < 10 then 1 else digitCount (n / 10) + 1

/-- The same decimal without zeros at the end, which `fuel` bounds in number. -/
def trimmed : Nat → Decimal → Decimal
  | 0, d => d
  | fuel + 1, d => if d.digits ≠ 0 ∧ d.digits % 10 = 0 then trimmed fuel ⟨d.digits / 10, d.exponent + 1⟩ else d

/-- The same decimal without zeros at the end. -/
def trim (d : Decimal) : Decimal := trimmed (digitCount d.digits) d

/-- Power of ten of the first digit. -/
def leading (d : Decimal) : Int := d.exponent + digitCount d.digits - 1

namespace Binary

/-- Four times the mantissa: on this scale the ends of the interval are whole. -/
def centre (b : Binary) : Nat := 4 * b.mantissa

/-- Lower end of the interval, on the scale of `centre`. -/
def below (b : Binary) : Nat := b.centre - (if b.narrowBelow then 1 else 2)

/-- Upper end of the interval, on the scale of `centre`. -/
def above (b : Binary) : Nat := b.centre + 2

/-- Factor of a point on the scale of `centre`, before it is compared with a multiple of `10 ^ e`. -/
def scale (b : Binary) (e : Int) : Nat := 10 ^ (-e).toNat * 2 ^ (b.exponent - 2).toNat

/-- Factor of a multiple of `10 ^ e`, before it is compared with a point on the scale of `centre`. -/
def gridScale (b : Binary) (e : Int) : Nat := 10 ^ e.toNat * 2 ^ (2 - b.exponent).toNat

/-- Whether `digits · 10 ^ e` lies in the interval. -/
def holds (b : Binary) (e : Int) (digits : Nat) : Bool :=
  let point := digits * b.gridScale e
  let lo := b.below * b.scale e
  let hi := b.above * b.scale e
  if b.mantissa % 2 = 0 then lo ≤ point ∧ point ≤ hi else lo < point ∧ point < hi

/-- Power of ten of the first digit. -/
def leading (b : Binary) : Int :=
  let n := b.centre * b.scale 0
  let d := b.gridScale 0
  if d ≤ n then (digitCount (n / d) : Int) - 1 else - (digitCount ((d + n - 1) / n - 1) : Int)

/-- Nearest hit of the two neighbours on the grid of multiples of `10 ^ e`. -/
def neighbour (b : Binary) (tie : Tie) (e : Int) : Option Nat :=
  let value := b.centre * b.scale e
  let step := b.gridScale e
  let down := value / step
  match b.holds e down, b.holds e (down + 1) with
  | false, false => none
  | true, false => some down
  | false, true => some (down + 1)
  | true, true =>
    let twice := 2 * (value % step)
    if twice < step then some down
    else if step < twice then some (down + 1)
    else match tie with
      | .up => some (down + 1)
      | .toEven => some (if down % 2 = 0 then down else down + 1)

/-- First hit on the grids with the digit counts given. -/
def firstHit (b : Binary) (tie : Tie) (counts : List Nat) : Option Decimal :=
  counts.findSome? fun (count : Nat) =>
    let e := b.leading + 1 - count
    (b.neighbour tie e).map (⟨·, e⟩)

/-- The fewest digits that read back as the number: seventeen are always enough. -/
def shortest (b : Binary) (tie : Tie) : Decimal :=
  ((b.firstHit tie ((List.range 17).map (· + 1))).getD ⟨0, 0⟩).trim

/-- The magnitude of a finite number, by its bits. -/
def ofBits (bits : Nat) : Binary :=
  let fraction := bits % 2 ^ 52
  let exponent : Nat := bits / 2 ^ 52 % 2 ^ 11
  if exponent = 0 then ⟨fraction, -1074, false⟩
  else ⟨2 ^ 52 + fraction, (exponent : Int) - 1075, fraction = 0 ∧ 1 < exponent⟩

end Binary

/-- Shortest digits of a number, zero for zero. -/
def ofFloat (x : Float) (tie : Tie) : Decimal :=
  let b := Binary.ofBits x.toBits.toNat
  if b.mantissa = 0 then ⟨0, 0⟩ else b.shortest tie

end Decimal

end CurvePartition
