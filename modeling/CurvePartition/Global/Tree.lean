-- SUMMARY: The global tree over the particles of all ranks: counts and largest values per leaf by reductions, and balancing with these counts.
import CurvePartition.Cluster.Attempt
import CurvePartition.Leaves.Balance

/-!
# The global tree

Every rank holds the same leaves. Each counts its own particles, the counts are summed over all ranks, and all ranks
take the same decisions from the same sums. So the trees stay equal without being sent.
-/

namespace CurvePartition

namespace Global

variable {depth : Nat} {α β : Type} [Scalar α]

/-- Particles of all ranks in each leaf, for the ascending keys of one rank. -/
def counts (backend : Backend) (t : Leaves depth) (keys : Array Nat) : Exchange α β (Array Nat) := do
  return (← Exchange.reduceWords .sum (t.counts backend keys).toList).toArray

/-- Largest of the values whose keys lie in a leaf, zero for none. -/
def localMax (t : Leaves depth) (keys : Array Nat) (values : Array α) (leaf : Nat) : α :=
  let (first, last) := t.slice keys leaf
  (values.extract first last).foldl Scalar.max 0

/-- Largest value in each leaf over all ranks. -/
def leafMax (backend : Backend) (t : Leaves depth) (keys : Array Nat) (values : Array α) :
    Exchange α β (Array α) := do
  return (← Exchange.reduceScalars .max (backend.mapIndices t.count (localMax t keys values)).toList).toArray

/-- A round of balancing over all ranks: the new tree with its counts, nothing if no leaf changes. -/
def round (backend : Backend) (keys : Array Nat) (bucketSize : Nat) (t : Leaves depth) (leafCounts : Array Nat) :
    Attempt α β (Option (Leaves depth × Array Nat)) := do
  match ← Attempt.ofBalance (t.round leafCounts bucketSize) with
  | none => return none
  | some t' => return some (t', ← Attempt.exchange (counts backend t' keys))

/-- Rounds, at most `fuel` of them after the first `rounds`. -/
def balanceFrom (backend : Backend) (keys : Array Nat) (bucketSize maxRounds : Nat) :
    Nat → Nat → Leaves depth → Array Nat → Attempt α β (Leaves depth × Array Nat × Nat)
  | 0, _, _, _ => throw (.imbalance (.notConverged maxRounds))
  | fuel + 1, rounds, t, leafCounts => do
    match ← round backend keys bucketSize t leafCounts with
    | none => do
      Attempt.ofBalance (t.checkSplittable leafCounts bucketSize)
      return (t, leafCounts, rounds)
    | some (t', leafCounts') => balanceFrom backend keys bucketSize maxRounds fuel (rounds + 1) t' leafCounts'

/-- The balanced tree of the particles of all ranks, the counts of its leaves and the number of rounds from the
tree `t` to it. -/
def balance (backend : Backend) (keys : Array Nat) (bucketSize maxRounds : Nat) (t : Leaves depth) :
    Attempt α β (Leaves depth × Array Nat × Nat) := do
  let leafCounts ← Attempt.exchange (counts backend t keys)
  balanceFrom backend keys bucketSize maxRounds maxRounds 0 t leafCounts

end Global

end CurvePartition
