-- SUMMARY: Counts of ascending values per bin, and running sums of counts as positions.
import CurvePartition.Sorted.Search

/-!
# Bins and offsets

Bin `j` of an ascending list of starts holds the values from its start up to the next start, the last bin all
others. As the values ascend as well, the counts say which value is in which bin. `Sorted.offsets` turns counts
into the position of the first value of each bin.
-/

namespace CurvePartition

namespace Sorted

/-- The sums of the first 0, 1, … of `counts`, from `start` on, without the sum of all. -/
def offsetsFrom : Nat → List Nat → List Nat
  | _, [] => []
  | start, c :: rest => start :: offsetsFrom (start + c) rest

/-- Position of the first element of each group when groups of the given sizes follow each other. -/
def offsets (counts : List Nat) : List Nat := offsetsFrom 0 counts

/-- The lengths of the steps from one end to the next. -/
def steps : Nat → List Nat → List Nat
  | _, [] => []
  | start, e :: rest => (e - start) :: steps e rest

/-- Number of ascending `keys` in each bin. -/
def binCounts (keys : Array Nat) (bins : List Nat) : List Nat :=
  steps 0 ((bins.drop 1).map (lowerBound keys) ++ [keys.size])

/-- All running sums, from zero up to the sum of all. -/
def runningSums (counts : Array Nat) : Array Nat :=
  counts.foldl (fun sums c => sums.push (sums.back?.getD 0 + c)) #[0]

@[simp] theorem length_offsetsFrom (start : Nat) (counts : List Nat) :
    (offsetsFrom start counts).length = counts.length := by
  induction counts generalizing start with
  | nil => rfl
  | cons c rest ih => simp [offsetsFrom, ih]

@[simp] theorem length_steps (start : Nat) (ends : List Nat) : (steps start ends).length = ends.length := by
  induction ends generalizing start with
  | nil => rfl
  | cons e rest ih => simp [steps, ih]

theorem getElem?_offsetsFrom (start : Nat) (counts : List Nat) (i : Nat) (h : i < counts.length) :
    (offsetsFrom start counts)[i]? = some (start + (counts.take i).sum) := by
  induction counts generalizing start i with
  | nil => simp at h
  | cons c rest ih =>
    cases i with
    | zero => simp [offsetsFrom]
    | succ i =>
      simp only [offsetsFrom, List.getElem?_cons_succ, List.take_succ_cons, List.sum_cons]
      rw [ih _ _ (by simpa using h), Nat.add_assoc]

end Sorted

end CurvePartition
