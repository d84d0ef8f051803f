-- SUMMARY: No halo is missed: plans of all ranks match, no row is sent twice, and a rank sends every particle that is within reach of a particle of the receiver.
import CurvePartition.Proofs.Halo.Runs
import CurvePartition.Proofs.Particles.Fetching
import CurvePartition.Proofs.Particles.Placing

/-!
# Completeness of halos

Two particles are at least as far apart as the regions of the leaves that hold their keys. So if they are within the larger of
their radii, which the radii of their leaves cover, the leaf of one reaches the leaf of the other, and its rank sends it
(`HaloPlan.Setting.Proper.mem_send_of_near`).
-/

namespace CurvePartition

open Node Leaves

variable {depth : Nat} {α : Type} [Scalar α]

/-! ## Leaves of keys -/

/-- The leaf of a key that is assigned to a rank belongs to that rank. -/
theorem Assignment.Tiles.within_of_key_mem {a : Assignment depth} {t : Leaves depth} (h : a.Tiles t)
    (ht : t.isValid = true) {l r key : Nat} (hl : l < t.count) (hr : r < a.ranks) (hkey : key ∈ t.range l)
    (hmem : key ∈ a.keyRange r) : (t.range l).within (a.keyRange r) = true := by
  obtain ⟨s, hs, hstart⟩ := h.exists_rank ((ascends_of_isValid ht).start_lt_bound hl)
  have hwithin := h.within_of_mem ht hl hs hstart
  rwa [h.eq_of_mem hr hs hmem (KeyRange.mem_of_within hwithin hkey)]

namespace HaloPlan

omit [Scalar α] in
theorem size_receiveCountsOf [Scalar α] (focus : Focus depth α) (assignment : Assignment depth) (leaves : List Nat) :
    (receiveCountsOf focus assignment leaves).size = assignment.ranks := by
  have hfold : ∀ counts : Array Nat, (leaves.foldl (fun counts leaf =>
      counts.modify (assignment.rankOf (focus.leaves.start leaf)) (· + focus.counts.getD leaf 0)) counts).size =
        counts.size := by
    induction leaves with
    | nil => exact fun _ => rfl
    | cons l leaves ih => exact fun counts => (ih _).trans (Array.size_modify ..)
  exact (hfold _).trans (Array.size_replicate ..)

namespace Setting

variable {w : Setting depth α} {r s j : Nat} (h : w.Proper)
include h

/-! ## Plans match -/

/-- A rank receives no leaf that it holds itself. -/
theorem Proper.received_self (hr : r < w.assignment.ranks) :
    ((w.plan r).leaves.filter fun l => w.assignment.rankOf ((w.followed r).1.leaves.start l) = r) = [] := by
  refine List.filter_eq_nil_iff.2 fun l hl hrank => ?_
  obtain ⟨_, hown, hsettled⟩ := h.followed_spec hr
  obtain ⟨_, g, hg, heq, hwithin, _⟩ := ((h.sound.received_spec (hown ▸ h.tiles.bounds hr) hsettled).2 l).1 hl
  have hstart : w.global.start g = (w.followed r).1.leaves.start l := congrArg Node.first heq
  have hlt := (ascends_of_isValid h.sound.valid).start_lt_bound hg
  -- A received leaf is not one of the rank's own leaves.
  rw [decide_eq_true_eq, ← hstart, h.tiles.rankOf_eq_iff hlt hr, ← h.tiles.within_iff_mem h.sound.valid hg hr] at hrank
  rw [hown] at hwithin
  exact Bool.false_ne_true (hwithin.symm.trans hrank)

/-- A rank expects nothing from itself. -/
theorem Proper.receiveCount_self (hr : r < w.assignment.ranks) : (w.plan r).receiveCount r = 0 := by
  rw [receiveCount_plan hr, h.received_self hr]
  rfl

/-- Which particles a rank sends to another one: those in the leaves it found. -/
theorem Proper.mem_send_iff (hr : r < w.assignment.ranks) (hs : s < w.assignment.ranks) (hne : r ≠ s) :
    j ∈ ((w.plan s).send r).toList ↔ ∃ l ∈ w.search.sent (w.own s) (w.own r),
      j < (w.keys s).size ∧ (w.keys s).getD j 0 ∈ w.global.range l := by
  rw [send_eq hr, if_neg hne, toList_particlesIn, List.mem_flatMap]
  exact exists_congr fun l => and_congr_right fun _ => Sorted.mem_toList_bin_iff (h.countable.ascending s hs)

/-- No row is sent twice. -/
theorem Proper.nodup_send (hr : r < w.assignment.ranks) (hs : s < w.assignment.ranks) :
    ((w.plan s).send r).toList.Nodup :=
  (h.isNormal_send hr hs).nodup_toList

/-- The plans of all ranks match. -/
theorem Proper.matching : Matching w.assignment.ranks w.plan fun r => (w.keys r).size where
  localCount_eq _ _ := rfl
  size_eq _ _ := size_receiveCountsOf _ _ _
  offsets_eq _ _ := rfl
  receiveCount_eq i hi s hs := by
    by_cases heq : s = i
    · rw [if_pos heq, heq]
      exact h.receiveCount_self hi
    · rw [if_neg heq]
      exact h.receiveCount_eq hi hs (Ne.symm heq)
  send_lt i hi s hs j hj := by
    by_cases heq : i = s
    · rw [send_eq hi, if_pos heq] at hj
      cases hj
    · obtain ⟨_, _, hlt, _⟩ := (h.mem_send_iff hi hs heq).1 hj
      exact hlt

end Setting

end HaloPlan

/-! ## Particles within reach -/

namespace HaloPlan.Setting

variable {width : KeyWidth} {w : Setting width.depth EReal} {ps : Nat → ParticleSet width EReal} {r s i j : Nat}
  {x y : EReal} (h : w.Proper) (hkeys : ∀ s < w.assignment.ranks, w.keys s = (ps s).keys) (hbox : w.box.Valid)
include h hkeys hbox

/-- A particle is sent to a rank if it is within the larger of two radii of a particle of that rank, and the radii of the
leaves of both particles cover these. -/
theorem Proper.mem_send_of_near (hr : r < w.assignment.ranks) (hs : s < w.assignment.ranks) (hne : r ≠ s)
    (hi : i < (ps r).keys.size) (hj : j < (ps s).keys.size) (hp : (ps r).Placed w.box w.curve i)
    (hq : (ps s).Placed w.box w.curve j)
    (hx : ∀ l < w.global.count, (ps r).keys.getD i 0 ∈ w.global.range l → x ≤ w.radii.getD l 0)
    (hy : ∀ l < w.global.count, (ps s).keys.getD j 0 ∈ w.global.range l → y ≤ w.radii.getD l 0)
    (hnear : w.box.pointDistance ((ps r).position i) ((ps s).position j) ≤ max x y) :
    j ∈ ((w.plan s).send r).toList := by
  have ht := h.sound.valid
  have ha := ascends_of_isValid ht
  have hheld : ∀ {s j}, s < w.assignment.ranks → j < (ps s).keys.size →
      (ps s).keys.getD j 0 ∈ w.assignment.keyRange s := by
    intro s j hs hj
    refine h.holds s hs _ ?_
    rw [hkeys s hs]
    simp [Array.getD, hj]
  obtain ⟨g, hg, hpg⟩ := ha.exists_leaf hp.key_lt
  obtain ⟨l, hl, hql⟩ := ha.exists_leaf hq.key_lt
  have hgr := h.tiles.within_of_key_mem ht hg hr hpg (hheld hr hi)
  have hls := h.tiles.within_of_key_mem ht hl hs hql (hheld hs hj)
  -- The regions of both leaves contain the particles.
  obtain ⟨hpin, hpbox⟩ := hbox.within_nodeBounds width.depth_le (isCell_node ht hg) hp.inBox
    (by rw [← hp.key_eq, h.sound.prunes.range_leaf hg]; exact hpg)
  obtain ⟨hqin, hqbox⟩ := hbox.within_nodeBounds width.depth_le (isCell_node ht hl) hq.inBox
    (by rw [← hq.key_eq, h.sound.prunes.range_leaf hl]; exact hql)
  have hdistance : w.box.distance (w.box.nodeBounds width.depth w.curve (w.global.node l))
      (w.box.nodeBounds width.depth w.curve (w.global.node g)) ≤ Scalar.max (w.radii.getD l 0) (w.radii.getD g 0) :=
    calc _ ≤ w.box.pointDistance ((ps s).position j) ((ps r).position i) :=
          hbox.distance_le_pointDistance (hbox.spans_nodeBounds _) (hbox.spans_nodeBounds _) hqin hpin hqbox hpbox
      _ = w.box.pointDistance ((ps r).position i) ((ps s).position j) := hbox.pointDistance_comm hq.inBox hp.inBox
      _ ≤ max x y := hnear
      _ ≤ Scalar.max (w.radii.getD l 0) (w.radii.getD g 0) := by
          rw [Exact.max_eq]
          exact max_le (le_max_of_le_right (hx g hg hpg)) (le_max_of_le_left (hy l hl hql))
  have hreach : w.search.reaches l (w.own r) = true := (h.sound.prunes.reaches_iff hl).2
    ⟨g, hg, ((h.tiles.bounds hr).overlaps_iff ha hg).2 hgr, hdistance⟩
  have hsent : w.search.sent (w.own s) (w.own r) = _ := h.sound.sent_eq (h.tiles.bounds hs) (h.tiles.bounds hr)
  refine (h.mem_send_iff hr hs hne).2 ⟨l, ?_, ?_⟩
  · rw [hsent, List.mem_filter, List.mem_range, Bool.and_eq_true]
    exact ⟨hl, hls, hreach⟩
  · rw [hkeys s hs]
    exact ⟨hj, hql⟩

end HaloPlan.Setting

end CurvePartition
