-- SUMMARY: The state of one rank of a decomposition between steps, and its creation from a configuration.
import CurvePartition.Cluster.Call
import CurvePartition.Config.Basic
import CurvePartition.Halo.Plan
import CurvePartition.Particles.Basic

/-!
# Subdomains

A subdomain is what a rank keeps of the last step: the box, the global tree with its counts, radii and node table,
the assignment, its own focus tree and its halo plan. It fits one place in a cluster of one size.
-/

namespace CurvePartition

/-- The decomposition as one rank keeps it. -/
structure Subdomain (width : KeyWidth) (α : Type) where
  place : Place
  config : Config α
  box : Box α
  /-- Leaves of the global tree. -/
  tree : Leaves width.depth
  /-- Particles of all ranks in each leaf. -/
  counts : Array Nat
  /-- Halo radius of each leaf. -/
  radii : Array α
  octree : Octree width.depth
  /-- None before the first step. -/
  assignment : Option (Assignment width.depth)
  focus : Focus width.depth α
  plan : HaloPlan
  /-- Number of own particles. -/
  localCount : Nat
  /-- Number of halo particles. -/
  haloCount : Nat
  deriving Repr

/-- What a step achieved. -/
structure Report (α : Type) where
  localCount : Nat
  haloCount : Nat
  /-- Own particles of all ranks. -/
  globalParticles : Nat
  /-- Halo particles of all ranks. -/
  globalHalos : Nat
  globalLeaves : Nat
  focusLeaves : Nat
  /-- Rounds of balancing. -/
  balanceRounds : Nat
  /-- Rounds of the focus tree. -/
  focusRounds : Nat
  /-- Largest halo radius of a leaf. -/
  haloRadius : α
  deriving Repr

namespace Subdomain

variable {width : KeyWidth} {α : Type} [Scalar α]

/-- The state before the first step. -/
def initial (place : Place) (config : Config α) : Subdomain width α :=
  let tree : Leaves width.depth := .root
  { place
    config
    box := config.box
    tree
    counts := #[0]
    radii := #[0]
    octree := .ofLeaves tree
    assignment := none
    focus := .initial place.rank config.theta
    plan := .empty
    localCount := 0
    haloCount := 0 }

/-- The subdomain of a place for a configuration that makes sense and names the backend in use. -/
def make (place : Place) (backend : Backend) (config : Config α) : Except (Error α) (Subdomain width α) := do
  config.check
  if config.backend ≠ backend then throw (.config (.backendMismatch config.backend backend))
  if place.size ≤ place.rank then throw (.config (.rankOutOfRange place.rank place.size))
  return initial place config

/-- The backend in use, which the configuration names. -/
def backend (d : Subdomain width α) : Backend := d.config.backend

/-- Indices of the own particles. -/
def ownedRange (d : Subdomain width α) : IndexRange := ⟨0, d.localCount⟩

/-- Indices of the halo particles. -/
def haloRange (d : Subdomain width α) : IndexRange := ⟨d.localCount, d.localCount + d.haloCount⟩

end Subdomain

end CurvePartition
