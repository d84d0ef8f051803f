-- SUMMARY: One step of the decomposition on a rank: bounds, keys, tree, assignment, redistribution, focus tree, halo plan and halo exchange, committed at the end.
import CurvePartition.Global.Bounds
import CurvePartition.Global.Tree
import CurvePartition.Particles.Transfer
import CurvePartition.Subdomain.Validation

/-!
# A step of the decomposition

All ranks make a step together. A step drops the halos of the last one, lets the ranks agree that all particles are
valid, and then works in stages: the global box and positions inside it, keys in sorted order, the balanced
global tree with a leaf for every rank, the assignment, every particle on its rank, the focus tree, the halo plan,
and the halo particles. A stage that fails ends the step, and a fatal cause ends the run on all ranks.

What a stage did to the particles stays done when a later one fails. The subdomain takes over the results of a step
at its end; only the focus tree is adapted on the way.
-/

namespace CurvePartition

/-- What a step works on. -/
structure StepState (width : KeyWidth) (α : Type) where
  subdomain : Subdomain width α
  particles : ParticleSet width α
  deriving Repr

/-- A part of a step: it may fail, and what it did to the state stays done. -/
abbrev Stage (width : KeyWidth) (α β : Type) :=
  ExceptT (Error α) (StateT (StepState width α) (Program (Call.Answer : Call α β → Type)))

namespace Stage

variable {width : KeyWidth} {α β τ : Type}

/-- An attempt that leaves the state alone. -/
def attempt (a : Attempt α β τ) : Stage width α β τ := ExceptT.mk (StateT.lift a.run)

/-- A result that needs no communication. -/
def ofExcept (r : Except (Error α) τ) : Stage width α β τ := ExceptT.mk (pure r)

def particles : Stage width α β (ParticleSet width α) := return (← get).particles

def setParticles (p : ParticleSet width α) : Stage width α β Unit := modify fun s => { s with particles := p }

def subdomain : Stage width α β (Subdomain width α) := return (← get).subdomain

def setSubdomain (d : Subdomain width α) : Stage width α β Unit := modify fun s => { s with subdomain := d }

end Stage

namespace ParticleSet

variable {width : KeyWidth} {α : Type} [Scalar α]

/-- Positions of all particles. -/
def positions (p : ParticleSet width α) : List (Triple α) := (List.range p.size).map p.position

/-- The particles at other positions. -/
def withPositions (p : ParticleSet width α) (positions : List (Triple α)) : ParticleSet width α :=
  { p with
    x := (positions.map Triple.x).toArray
    y := (positions.map Triple.y).toArray
    z := (positions.map Triple.z).toArray }

/-- The particles inside a box. -/
def wrap (box : Box α) (p : ParticleSet width α) : Except (Error α) (ParticleSet width α) := do
  return p.withPositions (← p.positions.mapM box.normalize)

/-- The particles with the keys of their positions. -/
def withKeys (box : Box α) (curve : Curve) (p : ParticleSet width α) : ParticleSet width α :=
  { p with keys := (p.positions.map (box.encode width.depth curve)).toArray }

end ParticleSet

namespace Subdomain

variable {width : KeyWidth} {α β : Type} [Scalar α] [Wire α β]

/-! ## Stages -/

/-- The balanced tree of all particles with a leaf for every rank, its counts and the number of rounds. -/
def balancedTree (d : Subdomain width α) (keys : Array Nat) :
    Attempt α β (Leaves width.depth × Array Nat × Nat) := do
  let (tree, counts, rounds) ← Global.balance d.backend keys d.config.bucketSize d.config.maxRounds d.tree
  let refined := tree.refine d.place.size
  if refined.bounds.size = tree.bounds.size then return (tree, counts, rounds)
  else return (refined, ← Attempt.exchange (Global.counts d.backend refined keys), rounds)

/-- Radii are slightly enlarged, so that rounding in the bounds of leaves loses no halo. -/
def slack : α := 1 + Scalar.decimal 10

/-- Halo radius of every leaf. -/
def leafRadii (d : Subdomain width α) (tree : Leaves width.depth) (particles : ParticleSet width α) :
    Attempt α β (Array α) := do
  match d.config.haloRadius with
  | .fixed radius => return Array.replicate tree.count (radius * slack)
  | .perParticle _ =>
    let lengths ← Attempt.exchange (Global.leafMax d.backend tree (particles.keys.take particles.owned)
      (particles.h.take particles.owned))
    return lengths.map fun length => d.config.haloRadius.radius length * slack

/-- What all ranks find out together about all particles. -/
structure Partition (width : KeyWidth) (α : Type) where
  box : Box α
  tree : Leaves width.depth
  counts : Array Nat
  /-- Rounds of balancing. -/
  rounds : Nat
  assignment : Assignment width.depth
  /-- Halo radius of each leaf. -/
  radii : Array α
  deriving Repr

/-- The first stages: the own particles without halos, valid on all ranks, inside the global box and sorted by key. -/
def gather (place : Place) : Stage width α β (Box α) := do
  let given ← Stage.particles
  let own := given.truncate given.owned
  Stage.setParticles own
  let d ← Stage.subdomain
  Stage.attempt (d.agree (d.validate place own) own)
  let box ← Stage.attempt (Global.boundingBox d.backend ⟨own.x, own.y, own.z⟩ d.box)
  let wrapped ← Stage.ofExcept (own.wrap box)
  Stage.setParticles wrapped
  let sorted ← Stage.ofExcept ((wrapped.withKeys box d.config.curve).sort d.backend)
  Stage.setParticles sorted
  return box

/-- The stages up to the radii: every particle on the rank that its leaf is assigned to. -/
def distribute (place : Place) (box : Box α) : Stage width α β (Partition width α) := do
  let sorted ← Stage.particles
  let d ← Stage.subdomain
  let (tree, counts, rounds) ← Stage.attempt (d.balancedTree sorted.keys)
  let assignment ← Stage.ofExcept (Assignment.compute tree counts d.place.size)
  let local' ← Stage.attempt (sorted.redistribute d.backend place assignment)
  Stage.setParticles local'
  let radii ← Stage.attempt (d.leafRadii tree local')
  return { box, tree, counts, rounds, assignment, radii }

/-- The last stages: the focus tree, the halo plan, the halos behind the own particles, and the commitment. -/
def connect (place : Place) (p : Partition width α) : Stage width α β (Report α) := do
  let local' ← Stage.particles
  let d ← Stage.subdomain
  let octree := Octree.ofLeaves p.tree
  let search := HaloSearch.make octree p.radii p.box d.config.curve
  let (focus, settled) := d.focus.update p.tree p.counts p.assignment p.box d.config.curve search.maxRadius
  Stage.setSubdomain { d with focus }
  let focusRounds ← Stage.ofExcept settled
  let plan := HaloPlan.build d.backend d.place.rank focus search p.tree p.assignment local'.keys
  Stage.attempt (plan.verify place)
  Stage.setParticles (local'.withoutHalos plan)
  let complete ← Stage.attempt ((local'.withoutHalos plan).fetchHalos place plan)
  Stage.setParticles complete
  let localCount := local'.size
  let haloCount := plan.haloCount
  let totals ← Stage.attempt (Attempt.exchange (Exchange.reduceWords .sum [localCount, haloCount]))
  Stage.setSubdomain { d with
    box := p.box, tree := p.tree, counts := p.counts, radii := p.radii, octree, assignment := some p.assignment
    focus, plan, localCount, haloCount }
  return {
    localCount
    haloCount
    globalParticles := totals.getD 0 0
    globalHalos := totals.getD 1 0
    globalLeaves := p.tree.count
    focusLeaves := focus.leaves.count
    balanceRounds := p.rounds
    focusRounds
    haloRadius := search.maxRadius }

/-- All stages of a step. -/
def stages (place : Place) : Stage width α β (Report α) := do
  let box ← gather place
  let partition ← distribute place box
  connect place partition

/-! ## Steps -/

/-- One step of a rank. A fatal failure ends the run on all ranks. -/
def step (place : Place) (state : StepState width α) :
    Program (Call.Answer : Call α β → Type) (Except (Error α) (Report α) × StepState width α) := do
  let (result, state') ← (stages place).run.run state
  match result with
  | .ok report => return (.ok report, state')
  | .error cause => do
    if cause.isFatal then Program.perform (Call.abort cause.exitCode)
    return (.error cause, state')

/-- Halo exchange of the current plan, without any other stage of a step. -/
def refreshHalos (place : Place) (state : StepState width α) :
    Program (Call.Answer : Call α β → Type) (Except (Error α) Unit × StepState width α) :=
  let plan := state.subdomain.plan
  let own := state.particles.withoutHalos plan
  let stage : Stage width α β Unit := do
    Stage.setParticles own
    Stage.setParticles (← Stage.attempt (own.fetchHalos place plan))
  stage.run.run state

end Subdomain

end CurvePartition
