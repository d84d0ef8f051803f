-- SUMMARY: The wording of each cause of failure.
import CurvePartition.Error.Basic
import CurvePartition.Decimal.Layout

/-!
# Wording of failures

One function per kind of cause. Coordinates and radii are written as `Decimal.Layout.message` lays them out, and
keys of leaves in base sixteen.
-/

namespace CurvePartition

/-- Text of a number in a message. -/
def numberText (x : Float) : String := Decimal.render .message x

/-- A key in base sixteen. -/
def keyText (key : Nat) : String := "0x" ++ String.ofList (Nat.toDigits 16 key)

namespace CommError

def message : CommError → String
  | aborted rank code => s!"rank {rank} aborted with code {code}"
  | timeout peer tag => s!"timed out waiting for message from rank {peer} with tag {tag}"
  | sizeMismatch peer tag expected received =>
    s!"message from rank {peer} with tag {tag} has {received} bytes, expected {expected}"
  | invalidRank rank size => s!"rank {rank} is outside a communicator of size {size}"
  | transport reason => s!"transport failure: {reason}"

end CommError

namespace Imbalance

def message : Imbalance → String
  | unsplittable key count bucketSize =>
    s!"{count} particles fall into leaf {keyText key} at the deepest level, bucket size is {bucketSize}"
  | notConverged iterations => s!"tree did not converge within {iterations} iterations"
  | bucketTooLarge bucketSize => s!"bucket size {bucketSize} is too large to be compared with counts"

end Imbalance

/-- Name of a backend in a message. -/
def Backend.label : Backend → String
  | .host => "Host"
  | .threadPool => "ThreadPool"

namespace ConfigFault

def message : ConfigFault Float → String
  | zeroBucketSize => "bucket size must be positive"
  | badFixedRadius radius => s!"fixed halo radius must be finite and non-negative, got {numberText radius}"
  | badRadiusFactor factor => s!"halo radius factor must be finite and non-negative, got {numberText factor}"
  | badTheta theta => s!"focus opening angle must be positive, got {numberText theta}"
  | zeroIterations => "at least one rebalance iteration is required"
  | unreadable => "failed to parse configuration"
  | backendMismatch configured actual =>
    s!"configured backend {configured.label} does not match the domain backend {actual.label}"
  | rankOutOfRange rank size => s!"rank {rank} out of range for {size} ranks"
  | wrongPlace rank size actualRank actualSize =>
    s!"domain of rank {rank} out of {size} used with rank {actualRank} out of {actualSize}"
  | mixedBackends => "ranks run different backends"
  | other reason => reason

end ConfigFault

namespace Error

def message : Error Float → String
  | outOfBounds axis value lo hi =>
    s!"coordinate {numberText value} on axis {axis} lies outside [{numberText lo}, {numberText hi}]"
  | imbalance cause => s!"octree rebalance failed: {cause.message}"
  | tooFewLeaves ranks leaves => s!"cannot assign {leaves} leaves to {ranks} ranks"
  | lengthMismatch name expected found => s!"array '{name}' has length {found}, expected {expected}"
  | communication cause => s!"communication failure: {cause.message}"
  | invalidBox axis lo hi => s!"invalid box on axis {axis}: lo = {numberText lo}, hi = {numberText hi}"
  | config fault => s!"invalid configuration: {fault.message}"
  | rowSizeMismatch min max =>
    s!"particle property layouts differ between ranks ({min} to {max} bytes per particle)"
  | layoutMismatch => "particle property names or types differ between ranks"
  | invalidParticle index field value => s!"particle {index} has invalid {field} {numberText value}"
  | peerRejected rank => s!"rank {rank} rejected the synchronization"
  | haloMismatch peer expected received =>
    s!"halo exchange with rank {peer}: expected {expected} particles, peer sends {received}"
  | focusDiverged iterations => s!"focused tree did not converge within {iterations} iterations"

end Error

end CurvePartition
