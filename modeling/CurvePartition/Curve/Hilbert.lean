-- SUMMARY: The transform between grid coordinates and the interleaved form of Hilbert keys: reflections and exchanges of axes on every level, and a Gray code.
import CurvePartition.Curve.Interleave

/-!
# The Hilbert transform

A Hilbert curve visits the eight octants of a cell along a Gray code and turns the curve inside each
octant, so that it enters where the previous octant was left. Turning on the level of bit `j` depends on
bit `j` of one axis and touches only the bits below: if the bit is set the lower bits of the first axis are
inverted, otherwise the lower bits of the first axis and of that axis change places. A turn undoes itself.

`Hilbert.straighten` applies the turns from the coarsest level down and then the Gray code. Interleaving its
result gives the key. `Hilbert.curl` undoes the Gray code and applies the turns in the opposite order.
-/

namespace CurvePartition

namespace Hilbert

/-- Turn the bits below `j` as bit `j` of `axis` demands. -/
def turn (j : Nat) (axis : Axis) (c : Triple Nat) : Triple Nat :=
  let lower := 2 ^ j - 1
  let value := c.get axis
  if value.testBit j then
    { c with x := c.x ^^^ lower }
  else
    let difference := (c.x ^^^ value) &&& lower
    let c' := { c with x := c.x ^^^ difference }
    c'.set axis (c'.get axis ^^^ difference)

/-- Turns of one level, first axis first. -/
def turns (j : Nat) (c : Triple Nat) : Triple Nat :=
  turn j .z (turn j .y (turn j .x c))

/-- Turns of one level, last axis first. -/
def turnsBack (j : Nat) (c : Triple Nat) : Triple Nat :=
  turn j .x (turn j .y (turn j .z c))

/-- Turns of the levels `n` down to one. -/
def unwind : Nat → Triple Nat → Triple Nat
  | 0, c => c
  | n + 1, c => unwind n (turns (n + 1) c)

/-- Turns of the levels one up to `n`. -/
def wind : Nat → Triple Nat → Triple Nat
  | 0, c => c
  | n + 1, c => turnsBack (n + 1) (wind n c)

/-- All bits below each set bit from one to `n`, combined by exclusive or. -/
def parityMask : Nat → Nat → Nat
  | 0, _ => 0
  | n + 1, v => (if v.testBit (n + 1) then 2 ^ (n + 1) - 1 else 0) ^^^ parityMask n v

/-- Gray code over the digits of `n + 1` levels. -/
def gray (n : Nat) (c : Triple Nat) : Triple Nat :=
  let y := c.y ^^^ c.x
  let z := c.z ^^^ y
  let mask := parityMask n z
  ⟨c.x ^^^ mask, y ^^^ mask, z ^^^ mask⟩

/-- Digits before the Gray code. -/
def ungray (c : Triple Nat) : Triple Nat :=
  ⟨c.x ^^^ (c.z >>> 1), c.y ^^^ c.x, c.z ^^^ c.y⟩

/-- Interleaved form of the Hilbert key of grid coordinates. -/
def straighten (depth : Nat) (c : Triple Nat) : Triple Nat :=
  gray (depth - 1) (unwind (depth - 1) c)

/-- Grid coordinates of the interleaved form of a Hilbert key. -/
def curl (depth : Nat) (c : Triple Nat) : Triple Nat :=
  wind (depth - 1) (ungray c)

end Hilbert

end CurvePartition
