-- SUMMARY: Programs of a rank that may fail with a cause of the decomposition.
import CurvePartition.Cluster.Call

/-!
# Attempts

An attempt is a program of a rank whose failures are those of the decomposition. A failure to communicate is one
of them.
-/

namespace CurvePartition

/-- A program of a rank that may fail. -/
abbrev Attempt (α β : Type) := ExceptT (Error α) (Program (Call.Answer : Call α β → Type))

namespace Attempt

variable {α β τ : Type}

/-- An exchange, whose failure is that of the attempt. -/
def exchange (e : Exchange α β τ) : Attempt α β τ :=
  ExceptT.mk (e.run >>= fun
    | .ok r => .done (.ok r)
    | .error cause => .done (.error (.communication cause)))

/-- A result that needs no communication. -/
def ofExcept (r : Except (Error α) τ) : Attempt α β τ := ExceptT.mk (.done r)

/-- A result of balancing that needs no communication. -/
def ofBalance (r : Except Imbalance τ) : Attempt α β τ := ofExcept (r.mapError .imbalance)

end Attempt

end CurvePartition
