-- SUMMARY: Balancing an octree: which leaves to merge, keep or split, one round of such changes, and rounds until no leaf is too full or needlessly fine.
import CurvePartition.Leaves.Basic
import CurvePartition.Error.Basic

/-!
# Balancing

A tree is balanced for a bucket size when no leaf above the deepest level holds more particles than a bucket,
and no eight sibling leaves could be merged into a parent that does not. A round decides about each leaf on its
own: eight siblings with few particles together become their parent, and a leaf that is too full is split,
by up to four levels at once if it is far too full. Rounds are repeated until none changes the tree.

The decision compares counts with up to 512 times the bucket size, computed in 64 bits. A bucket
size for which that does not fit is a failure, `Imbalance.bucketTooLarge`.
-/

namespace CurvePartition

/-- What happens to a leaf in a round. -/
inductive LeafChange where
  /-- The leaf goes, as its first sibling becomes the parent of both. -/
  | drop
  /-- The leaf gives way to its descendants a number of levels below. -/
  | split (levels : Nat)
  deriving DecidableEq, Repr

namespace LeafChange

/-- The leaf stays, or becomes its parent if its siblings go. -/
def keep : LeafChange := split 0

/-- Number of leaves that take the place of the leaf. -/
def leaves : LeafChange → Nat
  | drop => 0
  | split levels => 8 ^ levels

end LeafChange

namespace Leaves

variable {depth : Nat}

/-! ## Decisions -/

/-- Position of a leaf among its seven siblings, if they are all leaves. -/
def siblingSlot (t : Leaves depth) (i : Nat) : Option Nat :=
  let level := t.level i
  if level = 0 then none
  else
    let slot := Key.octant depth level (t.start i)
    if i < slot ∨ t.bounds.size ≤ i - slot + 8 then none
    else
      let first := i - slot
      let parent := t.start i - slot * Key.extent depth level
      if t.start first = parent ∧ t.start (first + 8) = parent + Key.extent depth (level - 1) then some slot
      else none

/-- Sum of eight counts from `first` on. -/
def siblingSum (counts : Array Nat) (first : Nat) : Nat :=
  ((List.range 8).map fun k => counts.getD (first + k) 0).sum

/-- By how many levels a leaf with `count` particles is split when `room` levels are left below it. -/
def splitLevels (bucketSize count room : Nat) : Nat :=
  if bucketSize * 512 < count ∧ 4 ≤ room then 4
  else if bucketSize * 64 < count ∧ 3 ≤ room then 3
  else if bucketSize * 8 < count ∧ 2 ≤ room then 2
  else if bucketSize < count ∧ 1 ≤ room then 1
  else 0

/-- Change of a leaf, for the particle counts of all leaves. -/
def change (t : Leaves depth) (counts : Array Nat) (bucketSize i : Nat) : Except Imbalance LeafChange :=
  let split : Except Imbalance LeafChange :=
    if 2 ^ 64 ≤ bucketSize * 512 then .error (.bucketTooLarge bucketSize)
    else .ok (.split (splitLevels bucketSize (counts.getD i 0) (depth - t.level i)))
  match t.siblingSlot i with
  | some slot =>
    if siblingSum counts (i - slot) ≤ bucketSize then .ok (if slot = 0 then .keep else .drop) else split
  | none => split

/-- Changes of all leaves. -/
def changes (t : Leaves depth) (counts : Array Nat) (bucketSize : Nat) : Except Imbalance (List LeafChange) :=
  (List.range t.count).mapM (t.change counts bucketSize)

/-- Whether every leaf stays. -/
def isStable (changes : List LeafChange) : Bool := changes.all (· == .keep)

/-! ## Rounds -/

/-- How often a positive number can be divided by eight. -/
def factorsOfEight (count : Nat) : Nat :=
  if 0 < count ∧ count % 8 = 0 then factorsOfEight (count / 8) + 1 else 0
termination_by count

/-- The first `count` leaves, all of one size, from the start of leaf `i` on. They lie as many levels below it
as `count` has factors of eight, so that a power of eight covers the leaf. -/
def pieces (t : Leaves depth) (i count : Nat) : List Nat :=
  let extent := Key.extent depth (t.level i + factorsOfEight count)
  (List.range count).map fun k => t.start i + k * extent

/-- The tree with each leaf replaced by a number of pieces. -/
def replace (t : Leaves depth) (counts : List Nat) : Leaves depth :=
  ⟨((counts.zipIdx.flatMap fun (count, i) => t.pieces i count) ++ [Key.bound depth]).toArray⟩

/-- The tree after the changes of its leaves. -/
def apply (t : Leaves depth) (changes : List LeafChange) : Leaves depth :=
  t.replace (changes.map LeafChange.leaves)

/-- A split by a number of levels makes pieces that many levels below the leaf. -/
@[simp] theorem factorsOfEight_pow (levels : Nat) : factorsOfEight (8 ^ levels) = levels := by
  induction levels with
  | zero => simp [factorsOfEight]
  | succ levels ih =>
    have hpos : 0 < 8 ^ levels * 8 := Nat.mul_pos (Nat.pow_pos (by decide)) (by decide)
    rw [factorsOfEight, Nat.pow_succ, if_pos ⟨hpos, Nat.mul_mod_left ..⟩, Nat.mul_div_cancel _ (by decide), ih]

/-- The tree after one round, nothing if no leaf changes. -/
def round (t : Leaves depth) (counts : Array Nat) (bucketSize : Nat) :
    Except Imbalance (Option (Leaves depth)) := do
  let changes ← t.changes counts bucketSize
  return if isStable changes then none else some (t.apply changes)

/-- A leaf that is too full and cannot be split is a failure. -/
def checkSplittable (t : Leaves depth) (counts : Array Nat) (bucketSize : Nat) : Except Imbalance Unit :=
  match (List.range counts.size).find? fun i => bucketSize < counts.getD i 0 ∧ t.level i = depth with
  | some i => .error (.unsplittable (t.start i) (counts.getD i 0) bucketSize)
  | none => .ok ()

/-- Rounds, at most `fuel` of them, from a tree and the counts of its leaves. -/
def balanceFrom (backend : Backend) (keys : Array Nat) (bucketSize maxRounds : Nat) :
    Nat → Leaves depth → Array Nat → Except Imbalance (Leaves depth × Array Nat)
  | 0, _, _ => .error (.notConverged maxRounds)
  | fuel + 1, t, counts => do
    match ← t.round counts bucketSize with
    | none => do
      t.checkSplittable counts bucketSize
      return (t, counts)
    | some t' => balanceFrom backend keys bucketSize maxRounds fuel t' (t'.counts backend keys)

/-- The balanced tree of ascending `keys` and the counts of its leaves. -/
def balance (backend : Backend) (keys : Array Nat) (bucketSize maxRounds : Nat) :
    Except Imbalance (Leaves depth × Array Nat) :=
  let start : Leaves depth := root
  balanceFrom backend keys bucketSize maxRounds maxRounds start (start.counts backend keys)

/-! ## Refinement to a number of leaves -/

/-- Coarsest level of a leaf. -/
def coarsestLevel (t : Leaves depth) : Nat := t.levels.min?.getD depth

/-- The tree after all leaves of the coarsest level were split once. -/
def splitCoarsest (t : Leaves depth) : Leaves depth :=
  let coarsest := t.coarsestLevel
  t.apply (t.levels.map fun level => if level = coarsest then .split 1 else .keep)

/-- Splits of the coarsest level, at most `fuel` of them, until there are enough leaves. -/
def refineFrom (minLeaves : Nat) : Nat → Leaves depth → Leaves depth
  | 0, t => t
  | fuel + 1, t =>
    if minLeaves ≤ t.count ∨ t.coarsestLevel = depth then t else refineFrom minLeaves fuel t.splitCoarsest

/-- The tree with its coarsest leaves split until it has `minLeaves` leaves. Each split makes the coarsest
level finer, so there are at most `depth` of them. -/
def refine (t : Leaves depth) (minLeaves : Nat) : Leaves depth := refineFrom minLeaves depth t

end Leaves

end CurvePartition
