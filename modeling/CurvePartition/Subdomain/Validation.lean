-- SUMMARY: Checks before a step: of each rank's own particles, and the agreement of all ranks on whether to go on.
import CurvePartition.Cluster.Attempt
import CurvePartition.Subdomain.Basic

/-!
# Validation and agreement

Before a step each rank checks its place and its particles. Then all ranks find out together, with one maximum and
one minimum reduction, whether some rank failed, and whether row widths, backends and property layouts are the
same everywhere. All ranks stop or all go on: a rank that failed returns its own cause, the others that it failed.
-/

namespace CurvePartition

namespace Subdomain

variable {width : KeyWidth} {α β : Type} [Scalar α]

/-- The names of the coordinates of a position, with their values. -/
def fields (p : Triple α) : List (String × α) := [("x", p.x), ("y", p.y), ("z", p.z)]

/-- Check of one particle: its smoothing length, its coordinates, and its place in the box. -/
def checkParticle (box : Box α) (particles : ParticleSet width α) (i : Nat) : Except (Error α) Unit := do
  let h := particles.h.getD i 0
  if !(Scalar.isFinite h && 0 ≤ h) then throw (.invalidParticle i "h" h)
  let position := particles.position i
  match (fields position).find? fun (_, value) => !Scalar.isFinite value with
  | some (name, value) => throw (.invalidParticle i name value)
  | none => do
    let _ ← box.normalize position
    return ()

/-- Checks that need no other rank. -/
def validate (d : Subdomain width α) (place : Place) (particles : ParticleSet width α) : Except (Error α) Unit := do
  if place ≠ d.place then
    throw (.config (.wrongPlace d.place.rank d.place.size place.rank place.size))
  particles.checkLengths
  (List.range particles.size).forM (checkParticle d.box particles)

/-- The common verdict from the reduced words: `failed`, `rows`, `backend` and `layout` are the largest of all
ranks, the primed ones the smallest. -/
def verdict (own : Except (Error α) Unit) (failed rows backend layout rows' backend' layout' : Nat) :
    Except (Error α) Unit := do
  own
  if failed ≠ 0 then throw (.peerRejected (failed - 1))
  if rows' ≠ rows then throw (.rowSizeMismatch rows' rows)
  if backend' ≠ backend then throw (.config .mixedBackends)
  if layout' ≠ layout then throw .layoutMismatch

/-- Agreement of all ranks on whether to go on, given a rank's own result. -/
def agree (d : Subdomain width α) (own : Except (Error α) Unit) (particles : ParticleSet width α) :
    Attempt α β Unit := do
  let failed := match own with
    | .ok () => 0
    | .error _ => d.place.rank + 1
  let traits := [particles.rowWidth, d.backend.id, particles.fingerprint]
  let most ← Attempt.exchange (Exchange.reduceWords .max (failed :: traits))
  let least ← Attempt.exchange (Exchange.reduceWords .min traits)
  Attempt.ofExcept (verdict own (most.getD 0 0) (most.getD 1 0) (most.getD 2 0) (most.getD 3 0)
    (least.getD 0 0) (least.getD 1 0) (least.getD 2 0))

end Subdomain

end CurvePartition
