-- SUMMARY: Lists of particle ranges to send, kept in a normal form by merging ranges that touch.
import CurvePartition.Sorted.Ranges

/-!
# Send lists

A send list names particles by ascending index ranges. `SendList.push` drops an empty range and merges a range with
the last one if they touch, so the ranges of a list are not empty and never touch. Then equal particles have
equal lists.
-/

namespace CurvePartition

/-- Ranges of particles sent to one rank. -/
structure SendList where
  ranges : List IndexRange
  deriving DecidableEq, Repr

namespace SendList

/-- Nothing to send. -/
def empty : SendList := ⟨[]⟩

/-- Ranges with one more at the end, merged with the last one if they touch. -/
def append : List IndexRange → IndexRange → List IndexRange
  | [], r => [r]
  | [l], r => if l.stop = r.start then [⟨l.start, r.stop⟩] else [l, r]
  | l :: l' :: rest, r => l :: append (l' :: rest) r

/-- Add a range behind all others. -/
def push (s : SendList) (r : IndexRange) : SendList :=
  if r.stop ≤ r.start then s else ⟨append s.ranges r⟩

/-- The indices in the order in which they are sent. -/
def toList (s : SendList) : List Nat := s.ranges.flatMap IndexRange.toList

/-- Number of particles. -/
def count (s : SendList) : Nat := (s.ranges.map IndexRange.length).sum

/-- Whether nothing is sent. -/
def isEmpty (s : SendList) : Bool := s.ranges.isEmpty

theorem length_toList (s : SendList) : s.toList.length = s.count := by
  simp [toList, count, List.length_flatMap]

end SendList

end CurvePartition
