-- SUMMARY: The halo plan of a rank: which leaves it receives, which particles it sends to whom, and where received particles are put.
import CurvePartition.Halo.Search
import CurvePartition.Halo.SendList

/-!
# Halo plans

A rank derives its plan from what it already holds: the focus tree tells how many particles it receives from
each rank, its own particles which of them it sends. Received particles are put behind the own ones, in
the order of the ranks that send them.
-/

namespace CurvePartition

/-- What a rank sends and receives in a halo exchange. -/
structure HaloPlan where
  /-- Leaves of the focus tree that are received. -/
  leaves : List Nat
  /-- Particles sent to each rank. -/
  sends : Array SendList
  /-- Number of particles received from each rank. -/
  receiveCounts : Array Nat
  /-- Position of the first particle received from each rank. -/
  receiveOffsets : Array Nat
  /-- Number of own particles. -/
  localCount : Nat
  deriving DecidableEq, Repr

namespace HaloPlan

variable {depth : Nat} {α : Type} [Scalar α]

/-- The plan before the first step. -/
def empty : HaloPlan := ⟨[], #[], #[], #[], 0⟩

/-- Counts per rank: each leaf adds its particles to the rank that holds it. -/
def receiveCountsOf (focus : Focus depth α) (assignment : Assignment depth) (leaves : List Nat) : Array Nat :=
  leaves.foldl (fun counts leaf =>
    counts.modify (assignment.rankOf (focus.leaves.start leaf)) (· + focus.counts.getD leaf 0))
    (Array.replicate assignment.ranks 0)

/-- Particles of some leaves of the global tree, for ascending keys of the particles. -/
def particlesIn (global : Leaves depth) (keys : Array Nat) (leaves : List Nat) : SendList :=
  leaves.foldl (fun list leaf =>
    let (first, last) := global.slice keys leaf
    list.push ⟨first, last⟩) .empty

/-- The plan of a rank that holds particles with ascending `keys`. -/
def build (backend : Backend) (rank : Nat) (focus : Focus depth α) (search : HaloSearch depth α)
    (global : Leaves depth) (assignment : Assignment depth) (keys : Array Nat) : HaloPlan :=
  let leaves := search.received focus
  let receiveCounts := receiveCountsOf focus assignment leaves
  let own := assignment.keyRange rank
  { leaves
    sends := backend.mapIndices assignment.ranks fun peer =>
      if peer = rank then .empty
      else particlesIn global keys (search.sent own (assignment.keyRange peer))
    receiveCounts
    receiveOffsets := ((Sorted.offsets receiveCounts.toList).map (· + keys.size)).toArray
    localCount := keys.size }

/-- Particles sent to a rank. -/
def send (p : HaloPlan) (peer : Nat) : SendList := p.sends.getD peer .empty

/-- Number of particles received from a rank. -/
def receiveCount (p : HaloPlan) (peer : Nat) : Nat := p.receiveCounts.getD peer 0

/-- Position of the first particle received from a rank. -/
def receiveOffset (p : HaloPlan) (peer : Nat) : Nat := p.receiveOffsets.getD peer 0

/-- Number of ranks. -/
def ranks (p : HaloPlan) : Nat := p.receiveCounts.size

/-- Particles received from all ranks. -/
def haloCount (p : HaloPlan) : Nat := p.receiveCounts.toList.sum

/-- Particles sent to all ranks. -/
def sendCount (p : HaloPlan) : Nat := (p.sends.toList.map SendList.count).sum

end HaloPlan

end CurvePartition
