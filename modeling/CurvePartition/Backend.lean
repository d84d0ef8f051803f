-- SUMMARY: The two execution backends and what they compute: images of an index range, gathered rows, and the extent of a list of values.
import CurvePartition.Scalar

/-!
# Execution backends

A backend evaluates data parallel steps either on one thread or on a pool of threads. Results do not depend on
it, with one exception: `Backend.extent` starts from the first value on one thread and from the bounds of the
finite numbers on a pool, which shows when a value is not finite.
-/

namespace CurvePartition

/-- An execution backend. -/
inductive Backend where
  /-- One thread. -/
  | host
  /-- A pool of threads. -/
  | threadPool
  deriving DecidableEq, Repr, Inhabited

namespace Backend

/-- Number that ranks exchange to find out whether they run the same backend. -/
def id : Backend → Nat
  | host => 1
  | threadPool => 2

/-- The values of `f` on `0, 1, …, n - 1`. -/
def mapIndices {α : Type} (_ : Backend) (n : Nat) (f : Nat → α) : Array α := (Array.range n).map f

/-- The values at the given positions, and `blank` where there is none. -/
def gather {α : Type} (b : Backend) (blank : α) (source : Array α) (order : Array Nat) : Array α :=
  b.mapIndices order.size fun i => source.getD (order.getD i 0) blank

/-- Smallest and largest value, nothing for no values. -/
def extent {α : Type} [Scalar α] (b : Backend) (values : Array α) : Option (α × α) :=
  let widen (e : α × α) (v : α) := (Scalar.min e.1 v, Scalar.max e.2 v)
  match b with
  | host =>
    match values.toList with
    | [] => none
    | v :: rest => some (rest.foldl widen (v, v))
  | threadPool =>
    if values.isEmpty then none
    else some (values.foldl widen (Scalar.highest, Scalar.lowest))

end Backend

end CurvePartition
