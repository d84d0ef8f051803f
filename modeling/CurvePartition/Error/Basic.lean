-- SUMMARY: Causes of failure: of message passing, of balancing, of a configuration and of a synchronization step; which of them end the run, and with what code.
import CurvePartition.Backend

/-!
# Causes of failure

A cause says what went wrong as data; its wording is in `Error.Message`. A failure is fatal when it may have
left the ranks without a common state: then the whole run ends with the cause's exit code. All other
failures are found before any particle moved, and the caller may try again.
-/

namespace CurvePartition

/-- Why a message could not be passed. -/
inductive CommError where
  /-- A rank ended the run. -/
  | aborted (rank : Nat) (code : Int)
  /-- A message did not arrive in time. -/
  | timeout (peer : Nat) (tag : Int)
  /-- A message arrived with another size than expected. -/
  | sizeMismatch (peer : Nat) (tag : Int) (expected received : Nat)
  /-- A rank that the cluster does not have. -/
  | invalidRank (rank size : Nat)
  /-- A failure of the transport itself. -/
  | transport (reason : String)
  deriving DecidableEq, Repr

/-- Why a tree could not be balanced. -/
inductive Imbalance where
  /-- A leaf of the deepest level holds more particles than a bucket may. -/
  | unsplittable (key count bucketSize : Nat)
  /-- The bound on the number of iterations was reached. -/
  | notConverged (iterations : Nat)
  /-- The multiples of the bucket size that decide about splits do not fit into 64 bits. -/
  | bucketTooLarge (bucketSize : Nat)
  deriving DecidableEq, Repr

/-- What is wrong with a configuration. -/
inductive ConfigFault (α : Type) where
  | zeroBucketSize
  | badFixedRadius (radius : α)
  | badRadiusFactor (factor : α)
  | badTheta (theta : α)
  | zeroIterations
  /-- The text is no configuration. -/
  | unreadable
  | backendMismatch (configured actual : Backend)
  | rankOutOfRange (rank size : Nat)
  | wrongPlace (rank size actualRank actualSize : Nat)
  | mixedBackends
  | other (reason : String)
  deriving Repr

/-- Why an operation of the decomposition failed. -/
inductive Error (α : Type) where
  /-- A coordinate outside a fixed axis, or no number. -/
  | outOfBounds (axis : Nat) (value lo hi : α)
  | imbalance (cause : Imbalance)
  /-- More ranks than leaves. -/
  | tooFewLeaves (ranks leaves : Nat)
  /-- Columns of different lengths. -/
  | lengthMismatch (name : String) (expected found : Nat)
  | communication (cause : CommError)
  /-- Bounds that are not finite or not in order. -/
  | invalidBox (axis : Nat) (lo hi : α)
  | config (fault : ConfigFault α)
  /-- Rows of different sizes on the ranks. -/
  | rowSizeMismatch (min max : Nat)
  /-- Rows of one size, but with different properties on the ranks. -/
  | layoutMismatch
  /-- A coordinate that is no number, or a smoothing length that is none or negative. -/
  | invalidParticle (index : Nat) (field : String) (value : α)
  /-- Another rank rejected its particles. -/
  | peerRejected (rank : Nat)
  /-- Sender and receiver count a halo message differently. -/
  | haloMismatch (peer expected received : Nat)
  /-- The focus tree kept changing. -/
  | focusDiverged (iterations : Nat)
  deriving Repr

namespace Error

variable {α : Type}

/-- Whether the failure ends the run on every rank. -/
def isFatal : Error α → Bool
  | imbalance _ | tooFewLeaves .. | communication _ | haloMismatch .. | focusDiverged _ => true
  | outOfBounds .. | lengthMismatch .. | invalidBox .. | config _ | rowSizeMismatch .. | layoutMismatch
  | invalidParticle .. | peerRejected _ => false

/-- Code with which a run ends for this cause. -/
def exitCode : Error α → Int
  | outOfBounds .. => 1
  | imbalance (.bucketTooLarge _) => -1
  | imbalance _ => 2
  | tooFewLeaves .. => 3
  | lengthMismatch .. => 4
  | communication _ => 5
  | invalidBox .. => 6
  | config _ => 7
  | rowSizeMismatch .. => 8
  | peerRejected _ => 9
  | haloMismatch .. => 10
  | focusDiverged _ => 11
  | layoutMismatch => 12
  | invalidParticle .. => 13

end Error

end CurvePartition
