-- SUMMARY: Pruning loses no halo: every node around a leaf that reaches a key range passes the tests of both searches.
import CurvePartition.Proofs.Halo.Pruning
import CurvePartition.Proofs.Key.Cover

/-!
# Leaves that reach a key range

A leaf that reaches a range lies within the largest radius of the cells that cover the range, and so does every cell around it
(`mayHoldHalos_of_reaches`). So neither the search for received leaves nor the one for sent leaves skips it.
-/

namespace CurvePartition

open Key Node Leaves Octree

variable {depth : Nat} {α : Type} [Scalar α]

/-- A search of halos whose tree is valid, whose radii are not negative, and whose distances are those of nested cells. -/
structure HaloSearch.Sound (global : Leaves depth) (radii : Array α) (box : Box α) (curve : Curve) : Prop where
  valid : global.isValid = true
  order : Scalar.LawfulOrder α
  nests : box.Nests depth curve
  radii_nonneg : ∀ l < global.count, 0 ≤ radii.getD l 0

namespace HaloSearch

variable {global : Leaves depth} {radii : Array α} {box : Box α} {curve : Curve} {l : Nat} {target : KeyRange}

section Sound

variable (h : Sound global radii box curve)
include h

theorem Sound.prunes : Prunes global radii box curve :=
  ⟨h.valid, h.order.comparison, h.nests.distances, fun l hl => h.order.right (h.radii_nonneg l hl)⟩

theorem Sound.maxRadius_nonneg : 0 ≤ (ofGlobal global radii box curve).maxRadius := by
  have hpos := (ascends_of_isValid h.valid).count_pos
  exact h.order.trans (h.radii_nonneg 0 hpos) (h.prunes.radius_le_maxRadius hpos)

/-- A cell may hold halos of a range exactly if its distance to the cover is at most the largest radius. -/
theorem Sound.mayHoldHalos_iff (hlast : target.last ≤ bound depth) {n : Node} (hn : n.IsCell depth) :
    (ofGlobal global radii box curve).mayHoldHalos (box.rangeBounds depth curve target) n = true ↔
      box.distanceToAny (box.nodeBounds depth curve n) (box.rangeBounds depth curve target) ≤
        (ofGlobal global radii box curve).maxRadius := by
  have hcells : ∀ c ∈ cover depth target.first target.last, c.IsCell depth := fun c hc =>
    (isCell_of_mem_cover hlast hc).1
  have hself := h.order.left (Box.distanceToAny_spec h.order h.nests hcells hn).2.2
  unfold mayHoldHalos
  rw [Bool.not_eq_true', decide_eq_false_iff_not]
  exact h.order.comparison.not_lt_iff h.prunes.maxRadius_self hself

/-- Every cell around a leaf that reaches a range may hold halos of the range. -/
theorem Sound.mayHoldHalos_of_reaches (hl : l < global.count) (hbounds : global.Bounds target)
    (hreach : (ofGlobal global radii box curve).reaches l target = true) {n : Node} (hn : n.IsCell depth)
    (hin : (global.node l).Inside depth n) :
    (ofGlobal global radii box curve).mayHoldHalos (box.rangeBounds depth curve target) n = true := by
  have ha := ascends_of_isValid h.valid
  have hlast := hbounds.last_le ha
  have hcells : ∀ c ∈ cover depth target.first target.last, c.IsCell depth := fun c hc =>
    (isCell_of_mem_cover hlast hc).1
  obtain ⟨j, hj, hover, hle⟩ := (h.prunes.reaches_iff hl).1 hreach
  -- The leaf that is close lies in a cell of the cover, which is as close as the leaf.
  have hwithin := (hbounds.overlaps_iff ha hj).1 hover
  simp only [KeyRange.within, Bool.and_eq_true, decide_eq_true_eq] at hwithin
  obtain ⟨c, hc, hjc⟩ := exists_mem_cover hlast (isCell_node h.valid hj) hwithin.1
    (by rw [stop_node h.valid hj]; exact hwithin.2)
  rw [h.mayHoldHalos_iff hlast hn]
  have hcover := (Box.distanceToAny_spec h.order h.nests hcells hn).1 c hc
  have hnested := h.nests.distance_le (isCell_node h.valid hl) hn (isCell_node h.valid hj) (hcells c hc) hin hjc
  have hradius := h.order.comparison.max_le (h.prunes.radius_le_maxRadius hl) (h.prunes.radius_le_maxRadius hj)
  exact h.order.trans hcover (h.order.trans hnested (h.order.trans hle hradius))

end Sound

end HaloSearch

end CurvePartition
