-- SUMMARY: Moving rows between ranks: every particle to the rank that holds its key, and copies of halo particles behind the own ones.
import CurvePartition.Assignment
import CurvePartition.Cluster.Attempt
import CurvePartition.Halo.Plan
import CurvePartition.Particles.KeySort

/-!
# Transfer of rows

Redistribution sends each particle to the rank that holds its key. The ranks first tell each other how many rows will
come, then send them. Received rows are placed in the order of the ranks they come from and sorted by key, so that
rows with equal keys keep that order.

A halo exchange leaves the own rows alone and places copies of other ranks' rows behind them, where the halo plan
says. Before anything is moved, `HaloPlan.verify` lets the ranks compare how many rows they expect.
-/

namespace CurvePartition

variable {width : KeyWidth} {α β : Type} [Scalar α] [Wire α β]

namespace ParticleSet

/-- The set with the rows of messages from some ranks read at the positions of these ranks. -/
def unpackAll (counts offsets : List Nat) (messages : List (Nat × Message β)) (p : ParticleSet width α) :
    ParticleSet width α :=
  messages.foldl (fun p (source, message) => p.unpack (offsets.getD source 0) (counts.getD source 0) message) p

/-- The particles of all ranks whose keys are assigned to this rank, sorted by key, all owned. The particles of each
rank are owned and sorted before. A failure gives no rows, so that the rank stays with those it had. -/
def redistribute (backend : Backend) (place : Place) (assignment : Assignment width.depth)
    (p : ParticleSet width α) :
    Attempt α β (ParticleSet width α) := do
  let sendCounts := Sorted.binCounts p.keys assignment.startKeys
  let sendOffsets := Sorted.offsets sendCounts
  let rowsFor (rank : Nat) : IndexRange :=
    ⟨sendOffsets.getD rank 0, sendOffsets.getD rank 0 + sendCounts.getD rank 0⟩
  let counts ← Attempt.exchange (Exchange.counts place sendCounts)
  let kept := p.pack [rowsFor place.rank]
  let outgoing := place.peers.map fun peer => (peer, p.pack [rowsFor peer])
  let incoming := place.peers.map fun peer => (peer, counts.getD peer 0 * p.rowWidth)
  let messages ← Attempt.exchange (Exchange.messages Purpose.redistribute.tag outgoing incoming)
  let filled := ((p.truncate 0).resize counts.sum).unpackAll counts (Sorted.offsets counts)
    ((place.rank, kept) :: place.peers.zip messages)
  Attempt.ofExcept ({ filled with owned := counts.sum }.sort backend)

/-- The own rows of a plan, without halos. -/
def withoutHalos (plan : HaloPlan) (p : ParticleSet width α) : ParticleSet width α := p.truncate plan.localCount

/-- The own rows with the halos of a plan behind them. -/
def fetchHalos (place : Place) (plan : HaloPlan) (p : ParticleSet width α) : Attempt α β (ParticleSet width α) := do
  let outgoing := place.peers.map fun peer => (peer, p.pack (plan.send peer).ranges)
  let incoming := place.peers.map fun peer => (peer, plan.receiveCount peer * p.rowWidth)
  let messages ← Attempt.exchange (Exchange.messages Purpose.halos.tag outgoing incoming)
  return (p.resize (plan.localCount + plan.haloCount)).unpackAll plan.receiveCounts.toList plan.receiveOffsets.toList
    (place.peers.zip messages)

end ParticleSet

namespace HaloPlan

/-- Whether every other rank sends as many rows as this rank expects from it. -/
def verify (place : Place) (plan : HaloPlan) : Attempt α β Unit := do
  let announced ← Attempt.exchange (Exchange.counts place (plan.sends.toList.map SendList.count))
  match place.peers.find? fun peer => announced.getD peer 0 ≠ plan.receiveCount peer with
  | some peer => throw (.haloMismatch peer (plan.receiveCount peer) (announced.getD peer 0))
  | none => return ()

end HaloPlan

end CurvePartition
