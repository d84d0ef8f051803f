-- SUMMARY: Configurations of the decomposition, their defaults, and the checks they have to pass.
import CurvePartition.Space.Box

/-!
# Configurations

A configuration holds the parameters of a decomposition. `Config.check` finds the first parameter that makes no sense,
in a fixed order.
-/

namespace CurvePartition

/-- How far a rank looks for halos. -/
inductive HaloRadius (α : Type) where
  /-- The same radius everywhere. -/
  | fixed (radius : α)
  /-- A multiple of the largest smoothing length. -/
  | perParticle (factor : α)
  deriving Repr

namespace HaloRadius

variable {α : Type} [Scalar α]

/-- The radius where the largest smoothing length is `length`. -/
def radius (r : HaloRadius α) (length : α) : α :=
  match r with
  | fixed radius => radius
  | perParticle factor => factor * length

end HaloRadius

/-- Parameters of a decomposition. -/
structure Config (α : Type) where
  /-- Most particles in a leaf of the global tree. -/
  bucketSize : Nat
  haloRadius : HaloRadius α
  curve : Curve
  backend : Backend
  /-- Opening angle of focus trees. -/
  theta : α
  /-- Most rounds of balancing in a step. -/
  maxRounds : Nat
  /-- Box before the first step. -/
  box : Box α
  deriving Repr

namespace Config

variable {α : Type} [Scalar α]

/-- The configuration when nothing is said. -/
def standard : Config α where
  bucketSize := 64
  haloRadius := .perParticle (Scalar.ofNat 2)
  curve := .hilbert
  backend := .host
  theta := 1 / Scalar.ofNat 2
  maxRounds := 64
  box := .unit

/-- Whether a radius or factor is a number and not negative. -/
def isLength (value : α) : Bool := Scalar.isFinite value && 0 ≤ value

/-- Check of the way in which radii are found. -/
def checkRadius : HaloRadius α → Except (Error α) Unit
  | .fixed radius => if isLength radius then .ok () else .error (.config (.badFixedRadius radius))
  | .perParticle factor => if isLength factor then .ok () else .error (.config (.badRadiusFactor factor))

/-- The first parameter that makes no sense is the cause of failure. -/
def check (c : Config α) : Except (Error α) Unit := do
  if c.bucketSize = 0 then throw (.config .zeroBucketSize)
  checkRadius c.haloRadius
  if !(Scalar.isFinite c.theta && 0 < c.theta) then throw (.config (.badTheta c.theta))
  if c.maxRounds = 0 then throw (.config .zeroIterations)
  c.box.check

end Config

end CurvePartition
