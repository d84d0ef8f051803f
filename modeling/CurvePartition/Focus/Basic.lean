-- SUMMARY: Focus trees: the tree of one rank, equal to the global tree near its own keys and coarser elsewhere, and how it follows the global tree from step to step.
import CurvePartition.Assignment
import CurvePartition.Focus.Criterion
import CurvePartition.Leaves.Balance
import CurvePartition.Octree.Basic

/-!
# Focus trees

Each rank keeps a tree of its own. Its leaves are unions of global leaves: single ones where the rank needs
resolution, larger nodes elsewhere. When the global tree or the assignment changes, rounds of changes adapt
the focus tree: a leaf that is finer than the global tree is merged as soon as its siblings are leaves, a leaf
that needs resolution is split, and siblings whose parent needs none are merged. `Focus.update` repeats the
rounds until no leaf changes and then sums up the counts of the global leaves.
-/

namespace CurvePartition

/-- The focus tree of a rank. -/
structure Focus (depth : Nat) (α : Type) where
  rank : Nat
  /-- Opening angle. -/
  theta : α
  leaves : Leaves depth
  /-- Particles of all ranks in each leaf. -/
  counts : Array Nat
  octree : Octree depth
  /-- Keys of the rank. -/
  own : KeyRange
  deriving Repr

namespace Focus

variable {depth : Nat} {α : Type} [Scalar α]

/-- The focus tree before the first update: the root only. -/
def initial (rank : Nat) (theta : α) : Focus depth α :=
  let leaves : Leaves depth := .root
  ⟨rank, theta, leaves, #[0], .ofLeaves leaves, ⟨0, 0⟩⟩

/-- Change of a focus leaf, against the global tree. -/
def change (global : Leaves depth) (criterion : Criterion α) (t : Leaves depth) (i : Nat) : LeafChange :=
  let n := t.node i
  let globalLevel := global.level (global.find n.first)
  if n.level < globalLevel ∧ criterion.needsResolution depth n then .split 1
  else match t.siblingSlot i with
    | none => .keep
    | some slot =>
      let parent : Node := ⟨n.first - slot * Key.extent depth n.level, n.level - 1⟩
      if slot = 0 then .keep
      else if globalLevel < n.level then .drop
      else if criterion.needsResolution depth parent then .keep
      else .drop

/-- Rounds of changes, at most `fuel` of them after the first `rounds`: the tree reached, and the number of rounds
if no leaf changes any more. -/
def settle (global : Leaves depth) (criterion : Criterion α) :
    Nat → Nat → Leaves depth → Leaves depth × Option Nat
  | fuel, rounds, t =>
    let changes := (List.range t.count).map (change global criterion t)
    if Leaves.isStable changes then (t, some rounds)
    else match fuel with
      | 0 => (t, none)
      | fuel + 1 => settle global criterion fuel (rounds + 1) (t.apply changes)

/-- Bound on the number of rounds. -/
def maxRounds (depth : Nat) : Nat := 4 * depth + 8

/-- Sums of the counts of global leaves over the leaves of a coarser tree. -/
def sumCounts (global : Leaves depth) (globalCounts : Array Nat) (t : Leaves depth) : Array Nat :=
  let sums := Sorted.runningSums globalCounts
  (Array.range t.count).map fun i =>
    let (first, last) := global.leavesIn (t.range i)
    sums.getD last 0 - sums.getD first 0

/-- The focus tree adapted to a global tree and its assignment, and the number of rounds that took. If the rounds
do not settle, only the leaves have changed. -/
def update (f : Focus depth α) (global : Leaves depth) (globalCounts : Array Nat) (assignment : Assignment depth)
    (box : Box α) (curve : Curve) (radius : α) : Focus depth α × Except (Error α) Nat :=
  let own := assignment.keyRange f.rank
  let criterion : Criterion α := ⟨box, curve, box.rangeBounds depth curve own, radius, f.theta⟩
  match settle global criterion (maxRounds depth) 0 f.leaves with
  | (leaves, none) => ({ f with leaves }, .error (.focusDiverged (maxRounds depth)))
  | (leaves, some rounds) =>
    let counts := sumCounts global globalCounts leaves
    ({ f with leaves, counts, octree := .ofLeaves leaves, own }, .ok rounds)

/-- Focus leaves inside the own keys: the first one and one past the last one. -/
def ownLeaves (f : Focus depth α) : Nat × Nat := f.leaves.leavesIn f.own

end Focus

end CurvePartition
