-- SUMMARY: How many particles halo lists stand for: send lists name the particles of their leaves in order, and receive counts add up the leaves of each rank.
import Mathlib.Data.List.Induction
import CurvePartition.Halo.Plan
import CurvePartition.Proofs.Leaves.Counting

/-!
# Counts of halo lists

Merging ranges that touch changes neither which particles a send list names nor their order, as no range of it is
empty. So the list of some leaves names the particles of these leaves one after the other, and its count is the sum of
the numbers of keys in the leaves.
-/

namespace CurvePartition

open Node Leaves

variable {depth : Nat}

/-! ## Send lists -/

theorem IndexRange.toList_append {a b c : Nat} (hab : a ≤ b) (hbc : b ≤ c) :
    IndexRange.toList ⟨a, b⟩ ++ IndexRange.toList ⟨b, c⟩ = IndexRange.toList ⟨a, c⟩ := by
  simp only [toList, length]
  obtain ⟨x, rfl⟩ := Nat.exists_eq_add_of_le hab
  obtain ⟨y, rfl⟩ := Nat.exists_eq_add_of_le hbc
  rw [Nat.add_sub_cancel_left, Nat.add_sub_cancel_left, Nat.add_assoc, Nat.add_sub_cancel_left, List.range_add]
  simp [Function.comp_def, Nat.add_assoc]

theorem IndexRange.toList_of_le {r : IndexRange} (h : r.stop ≤ r.start) : r.toList = [] := by
  simp [toList, length, Nat.sub_eq_zero_of_le h]

namespace SendList

variable {s : SendList} {r : IndexRange} {ranges : List IndexRange}

/-- Whether no range of a list is empty. -/
def Proper (s : SendList) : Prop := ∀ r ∈ s.ranges, r.start < r.stop

theorem append_spec (hproper : ∀ r ∈ ranges, r.start < r.stop) (hr : r.start < r.stop) :
    (∀ r' ∈ append ranges r, r'.start < r'.stop) ∧
      (append ranges r).flatMap IndexRange.toList = ranges.flatMap IndexRange.toList ++ r.toList := by
  fun_induction append ranges r with
  | case1 r => simpa using hr
  | case2 l r htouch =>
    have hl := hproper l (by simp)
    refine ⟨by simpa using Nat.lt_trans hl (htouch ▸ hr), ?_⟩
    simp only [List.flatMap_cons, List.flatMap_nil, List.append_nil]
    rw [← IndexRange.toList_append (Nat.le_of_lt hl) (htouch ▸ Nat.le_of_lt hr)]
    exact congrArg (l.toList ++ IndexRange.toList ⟨·, r.stop⟩) htouch
  | case3 l r _ =>
    have hl := hproper l (by simp)
    simpa using ⟨hl, hr⟩
  | case4 l l' rest r ih =>
    obtain ⟨hall, hlist⟩ := ih (fun r' hr' => hproper r' (List.mem_cons_of_mem l hr')) hr
    refine ⟨fun r' hr' => ?_, by
      rw [List.flatMap_cons, hlist, ← List.append_assoc, ← List.flatMap_cons]⟩
    rcases List.mem_cons.1 hr' with rfl | hr'
    · exact hproper r' (by simp)
    · exact hall r' hr'

/-- A list with one more range names the particles of the range behind all others. -/
theorem push_spec (hs : s.Proper) (r : IndexRange) :
    (s.push r).Proper ∧ (s.push r).toList = s.toList ++ r.toList := by
  unfold push
  split
  · rename_i hempty
    rw [IndexRange.toList_of_le hempty, List.append_nil]
    exact ⟨hs, rfl⟩
  · rename_i hfull
    exact append_spec hs (Nat.not_le.1 hfull)

/-- The list after pushing ranges one after the other. -/
def ofRanges (pushes : List IndexRange) : SendList := pushes.foldl push .empty

theorem ofRanges_concat (pushes : List IndexRange) (r : IndexRange) :
    ofRanges (pushes ++ [r]) = (ofRanges pushes).push r :=
  List.foldl_concat ..

/-- A list names the particles of all ranges that were pushed, whatever their order. -/
theorem ofRanges_spec (pushes : List IndexRange) :
    (ofRanges pushes).Proper ∧ (ofRanges pushes).toList = pushes.flatMap IndexRange.toList := by
  induction pushes using List.reverseRecOn with
  | nil => exact ⟨fun r hr => absurd hr (List.not_mem_nil), rfl⟩
  | append_singleton pushes r ih =>
    obtain ⟨hproper, hlist⟩ := push_spec ih.1 r
    rw [ofRanges_concat]
    refine ⟨hproper, ?_⟩
    rw [hlist, ih.2, List.flatMap_append, List.flatMap_singleton]

end SendList

namespace HaloPlan

variable {global : Leaves depth} {keys : Array Nat}

theorem particlesIn_eq (global : Leaves depth) (keys : Array Nat) (leaves : List Nat) :
    particlesIn global keys leaves =
      .ofRanges (leaves.map fun l => ⟨(global.slice keys l).1, (global.slice keys l).2⟩) := by
  rw [SendList.ofRanges, List.foldl_map]
  rfl

/-- The particles of some leaves, one leaf after the other. -/
theorem toList_particlesIn (global : Leaves depth) (keys : Array Nat) (leaves : List Nat) :
    (particlesIn global keys leaves).toList = leaves.flatMap fun l =>
      IndexRange.toList ⟨(global.slice keys l).1, (global.slice keys l).2⟩ := by
  rw [particlesIn_eq, (SendList.ofRanges_spec _).2, List.flatMap_map]

/-- A send list has as many particles as its leaves have keys. -/
theorem count_particlesIn (hglobal : global.isValid = true) (hkeys : Sorted.Ascending keys) {leaves : List Nat}
    (hleaves : ∀ l ∈ leaves, l < global.count) : (particlesIn global keys leaves).count =
      (leaves.map fun l => (global.node l).keyCount depth keys.toList).sum := by
  rw [← SendList.length_toList, toList_particlesIn, List.length_flatMap]
  refine congrArg List.sum (List.map_congr_left fun l hl => ?_)
  have hl := hleaves l hl
  rw [← getD_histogram keys.toList hl, ← counts_eq_histogram .host hglobal hkeys]
  simp [counts, Backend.mapIndices, IndexRange.length, Array.getD, hl]

/-! ## Receive counts -/

/-- Each rank's count is the sum over the leaves that it holds. -/
theorem getD_foldl_modify {owner weight : Nat → Nat} (leaves : List Nat) {counts : Array Nat} {s : Nat}
    (hs : s < counts.size) :
    (leaves.foldl (fun counts l => counts.modify (owner l) (· + weight l)) counts).getD s 0 =
      counts.getD s 0 + ((leaves.filter fun l => owner l = s).map weight).sum := by
  induction leaves generalizing counts with
  | nil => simp
  | cons l leaves ih =>
    rw [List.foldl_cons, ih (by simpa using hs)]
    by_cases howner : owner l = s
    · rw [List.filter_cons_of_pos (by simpa using howner), List.map_cons, List.sum_cons, ← Nat.add_assoc]
      simp [Array.getD, hs, howner, Array.getElem_modify]
    · rw [List.filter_cons_of_neg (by simpa using howner)]
      simp [Array.getD, hs, howner, Array.getElem_modify]

theorem getD_receiveCountsOf {α : Type} [Scalar α] (focus : Focus depth α) (assignment : Assignment depth)
    (leaves : List Nat) {s : Nat} (hs : s < assignment.ranks) :
    (receiveCountsOf focus assignment leaves).getD s 0 =
      ((leaves.filter fun l => assignment.rankOf (focus.leaves.start l) = s).map fun l => focus.counts.getD l 0).sum := by
  refine (getD_foldl_modify leaves (by simpa using hs)).trans ?_
  simp [Array.getD, hs]

end HaloPlan

end CurvePartition
