-- SUMMARY: Focus trees and halo plans do not depend on the signs of zeros in boxes and radii.
import CurvePartition.Halo.Plan
import CurvePartition.Proofs.Focus.Settling
import CurvePartition.Proofs.Octree.Search
import CurvePartition.Proofs.Space.Signs

/-!
# Halos and signs of zeros

In alike boxes, with alike radii, a focus tree is updated in the same way (`Focus.update_alike`), and the searches for halos
find the same leaves, since they only compare distances and radii. So the plans are the same (`HaloPlan.build_alike`).
-/

namespace CurvePartition

variable {depth : Nat} {α : Type} [Scalar α] (hlaw : Scalar.LawfulSigns α)

/-! ## Focus trees -/

namespace Focus

variable {global t : Leaves depth} {counts : Array Nat} {assignment : Assignment depth} {curve : Curve}

/-- Rounds depend on the answers of the criterion only. -/
theorem settle_congr {c c' : Criterion α} (h : ∀ n, c'.needsResolution depth n = c.needsResolution depth n)
    (fuel rounds : Nat) : settle global c' fuel rounds t = settle global c fuel rounds t := by
  have hchange : change global c' = change global c := by
    funext t i
    simp only [change, h]
  induction fuel generalizing rounds t with
  | zero => simp only [settle, hchange]
  | succ fuel ih => simp only [settle, hchange, ih]

include hlaw in
theorem update_alike {box box' : Box α} {radius radius' : α} (hbox : box.Alike box') (hradius : Scalar.Alike radius radius')
    (f : Focus depth α) : f.update global counts assignment box' curve radius' =
      f.update global counts assignment box curve radius := by
  simp only [update, settle_congr fun n => hbox.needsResolution_eq hlaw hradius (assignment.keyRange f.rank) f.theta n]

end Focus

/-! ## Searches -/

/-- Searches whose boxes and radii differ in signs of zeros only. -/
structure HaloSearch.Alike (s s' : HaloSearch depth α) : Prop where
  octree_eq : s'.octree = s.octree
  curve_eq : s'.curve = s.curve
  box : s.box.Alike s'.box
  radii : ∀ l, Scalar.Alike (s.radii.getD l 0) (s'.radii.getD l 0)
  nodeRadii : ∀ i, Scalar.Alike (s.nodeRadii.getD i 0) (s'.nodeRadii.getD i 0)

namespace HaloSearch

variable {s s' : HaloSearch depth α} {octree : Octree depth} {curve : Curve}

include hlaw in
theorem make_alike {radii radii' : Array α} {box box' : Box α} (hbox : box.Alike box')
    (hradii : ∀ l, Scalar.Alike (radii.getD l 0) (radii'.getD l 0)) :
    (make octree radii box curve).Alike (make octree radii' box' curve) where
  octree_eq := rfl
  curve_eq := rfl
  box := hbox
  radii := hradii
  nodeRadii := Octree.upsweep_rel hlaw.max_alike (.refl 0) hradii

variable (h : s.Alike s')
include hlaw h

omit hlaw in
theorem Alike.maxRadius : Scalar.Alike s.maxRadius s'.maxRadius := h.nodeRadii 0

theorem Alike.bounds (n : Node) : (s.bounds n).Alike (s'.bounds n) := by
  rw [HaloSearch.bounds, HaloSearch.bounds, h.curve_eq]
  exact h.box.nodeBounds hlaw depth s.curve n

/-- The same leaves reach a key range. -/
theorem Alike.reaches_eq (leaf : Nat) (target : KeyRange) : s'.reaches leaf target = s.reaches leaf target := by
  have hnear : ∀ i, Scalar.max (s'.radius leaf) (s'.nodeRadii.getD i 0) <
      s'.box.distance (s'.bounds (s.octree.node (s.octree.leafNode leaf))) (s'.bounds (s.octree.node i)) ↔
      Scalar.max (s.radius leaf) (s.nodeRadii.getD i 0) <
        s.box.distance (s.bounds (s.octree.node (s.octree.leafNode leaf))) (s.bounds (s.octree.node i)) := fun i =>
    (hlaw.lt_alike_iff (hlaw.max_alike (h.radii leaf) (h.nodeRadii i))
      (h.box.distance hlaw (h.bounds hlaw _) (h.bounds hlaw _))).symm
  simp only [reaches, h.octree_eq, hnear]

/-- The same nodes are searched. -/
theorem Alike.mayHoldHalos_eq (range : KeyRange) (n : Node) :
    s'.mayHoldHalos (s'.box.rangeBounds depth s'.curve range) n = s.mayHoldHalos (s.box.rangeBounds depth s.curve range) n := by
  have hfar := hlaw.lt_alike_iff h.maxRadius (h.box.distanceToAny hlaw depth s.curve (h.bounds hlaw n) range)
  simp only [mayHoldHalos, h.curve_eq, hfar]

theorem Alike.received_eq (focus : Focus depth α) : s'.received focus = s.received focus := by
  simp only [received, h.mayHoldHalos_eq hlaw, h.reaches_eq hlaw, globalLeaf, h.octree_eq]

theorem Alike.sent_eq (own peer : KeyRange) : s'.sent own peer = s.sent own peer := by
  simp only [sent, h.mayHoldHalos_eq hlaw, h.reaches_eq hlaw, h.octree_eq]

end HaloSearch

/-! ## Plans -/

include hlaw in
theorem HaloPlan.build_alike {s s' : HaloSearch depth α} (h : s.Alike s') (backend : Backend) (rank : Nat)
    (focus : Focus depth α) (global : Leaves depth) (assignment : Assignment depth) (keys : Array Nat) :
    build backend rank focus s' global assignment keys = build backend rank focus s global assignment keys := by
  simp only [build, h.received_eq hlaw, h.sent_eq hlaw]

end CurvePartition
