-- SUMMARY: Completeness of halos after whole steps: each rank has every particle of another rank within reach of an own one exactly once, and none of its own.
import CurvePartition.Proofs.Subdomain.Outcomes

/-!
# Halos of whole steps

After a step that succeeds on all ranks the rows behind the own ones of a rank are rows that other ranks own, none of them
twice. With exact numbers no particle within reach of an own one is missing among them, whatever steps came before
(`Subdomain.halos_complete`). For this the particles of each rank were put into the common box, each key is that of the
position, and the radius of a leaf covers all particles in it, so the plans of all ranks name every such particle.

Two particles in opposite corners of a cube are halos of each other's ranks (`Subdomain.Prepared.haloCount_corners`).
-/

namespace CurvePartition

open HaloPlan

namespace ParticleSet

variable {width : KeyWidth} {α : Type} [Scalar α]

/-- Where the rows behind the own ones of a rank come from: each is a row that another rank owns, and no two are the same
row there. -/
structure HalosFrom (size : Nat) (final : Nat → ParticleSet width α) (i : Nat) (origins : List (Nat × Nat)) : Prop where
  rows_eq : (final i).haloRows = origins.map fun o => (final o.1).row o.2
  foreign : ∀ o ∈ origins, o.1 < size ∧ o.1 ≠ i ∧ o.2 < (final o.1).owned
  nodup : origins.Nodup

end ParticleSet

namespace Subdomain

variable {width : KeyWidth} {α β : Type} {size i j r s k : Nat}

section Connected

variable [Scalar α] {w : Setting width.depth α} {local' final : Nat → ParticleSet width α}

/-- Where the halos of sets are from that were connected in a proper setting. -/
theorem Connected.halosFrom (h : Connected size local' final w.plan) (hproper : w.Proper) (hranks : w.assignment.ranks = size)
    (hkeys : ∀ i < size, (w.keys i).size = (local' i).size) (hi : i < size) :
    ParticleSet.HalosFrom size final i (HaloPlan.origins size w.plan i) := by
  have hforeign : ∀ o ∈ HaloPlan.origins size w.plan i, o.1 < size ∧ o.1 ≠ i ∧ o.2 < (local' o.1).size := by
    intro o ho
    obtain ⟨hs, hne, hsend⟩ := mem_origins_iff.1 ho
    obtain ⟨_, _, hlt, _⟩ := (hproper.mem_send_iff (hranks.symm ▸ hi) (hranks.symm ▸ hs) hne.symm).1 hsend
    exact ⟨hs, hne, hkeys _ hs ▸ hlt⟩
  refine ⟨(h.haloRows_eq i hi).trans (List.map_congr_left fun o ho => ?_), fun o ho => ?_, nodup_origins fun s hs => ?_⟩
  · obtain ⟨hs, _, hlt⟩ := hforeign o ho
    exact (h.own_row _ hs _ hlt).symm
  · obtain ⟨hs, hne, hlt⟩ := hforeign o ho
    exact ⟨hs, hne, (h.owned_eq _ hs).symm ▸ hlt⟩
  · exact hproper.nodup_send (hranks.symm ▸ hi) (hranks.symm ▸ hs)

end Connected

section Exact

variable {config : Config EReal} {box : Box EReal} {tree : Leaves width.depth} {d : Nat → Subdomain width EReal}
  {ps s' local' : Nat → ParticleSet width EReal} {p : Partition width EReal} {order : Nat → List Nat}
  {origins : Nat → List (Nat × Nat)} (h : Prepared size config box tree ps p s' order local' origins)
  (hd : Peers size config box tree d) (hps : Admissible size ps)
include h hd

/-- Every row of a rank is at its place in the common box before the ranks connect. -/
theorem Prepared.placed (hi : i < size) (hj : j < (local' i).size) : (local' i).Placed p.box config.curve j := by
  obtain ⟨o, _, hs, hk, hrow, _⟩ := h.exists_origin hi hj
  obtain ⟨hvalid, hclosed, _⟩ := Global.fitted_valid hd.box_valid h.box_eq
  have hset := h.accepted.valid o.1 hs
  have hsize : (s' o.1).size = (ps o.1).own.size := (h.arranged o.1 hs).uniform.size_eq
  refine ParticleSet.Placed.of_row_eq ?_ hrow
  refine (h.arranged o.1 hs).isPlaced hvalid (fun j hj => hset.normalize_eq_ok hclosed hj) (fun j hj a hopen => ?_)
    (fun j hj => (hset.length_spec hj).2) (hsize ▸ hk)
  rw [hclosed.boundaries] at hopen
  exact Global.fitted_spec (Nat.zero_lt_of_lt hi) (fun r hr a => (h.accepted.valid r hr).finite_coordinates a) hd.box_valid
    h.box_eq hs a hopen ((ParticleSet.mem_coordinates_iff hset.uniform a).2 ⟨j, hj, rfl⟩)

include hps

/-- The plans of all ranks name each particle of another rank that is within reach of an own one. -/
theorem Prepared.mem_origins_of_near (hproper : (settingOf config p d local').Proper) (hranks : p.assignment.ranks = size)
    (hr : r < size) (hs : s < size) (hne : r ≠ s) (hi : i < (local' r).size) (hj : j < (local' s).size)
    (hnear : p.box.pointDistance ((local' r).position i) ((local' s).position j) ≤
      config.haloRadius.radius (Scalar.max ((local' r).h.getD i 0) ((local' s).h.getD j 0))) :
    (s, j) ∈ HaloPlan.origins size (settingOf config p d local').plan r := by
  obtain ⟨hvalid, _, _⟩ := Global.fitted_valid hd.box_valid h.box_eq
  obtain ⟨_, hradius, _⟩ := (Config.check_eq_ok_iff _).1 hd.checked
  have hcover : ∀ r < size, ∀ i < (local' r).size, ∀ l < p.tree.count, (local' r).keys.getD i 0 ∈ p.tree.range l →
      config.haloRadius.radius ((local' r).h.getD i 0) ≤ p.radii.getD l 0 := by
    intro r hr i hi l hl hmem
    rw [h.radii_eq]
    exact radiiOf_spec hradius (fun i hi => h.measured hps hi) hr hl hi hmem
  refine mem_origins_iff.2 ⟨hs, hne.symm, ?_⟩
  refine hproper.mem_send_of_near (fun _ _ => rfl) hvalid (hranks.symm ▸ hr) (hranks.symm ▸ hs) hne
    (by rwa [(h.uniform_local hr).size_keys]) (by rwa [(h.uniform_local hs).size_keys]) (h.placed hd hr hi)
    (h.placed hd hs hj) (hcover r hr i hi) (hcover s hs j hj) (hnear.trans ?_)
  rcases config.haloRadius.radius_max ((local' r).h.getD i 0) ((local' s).h.getD j 0) with heq | heq
  · exact heq.le.trans (le_max_left _ _)
  · exact heq.le.trans (le_max_right _ _)

end Exact

/-! ## Whole steps -/

section Whole

variable [Wire EReal β] [Wire.LawfulWords EReal β] [Wire.LawfulScalars EReal β] {config : Config EReal}
  {d : Nat → Subdomain width EReal} {ps : Nat → ParticleSet width EReal}
  {results : Nat → Except (Error EReal) (Report EReal) × StepState width EReal}

/-- After any steps and one that succeeds on all ranks each rank has, behind its own rows, rows that other ranks own and
none of them twice. Of each particle of another rank within reach of an own one it has the row exactly once. -/
theorem halos_complete (hpos : 0 < size) (hsize : size < 2 ^ 64) (hd : Reachable β size config d) (hps : Admissible size ps)
    (hrun : Completes (β := β) size (fun i => ⟨d i, ps i⟩) results)
    (hok : ∀ i < size, ∃ report, (results i).1 = .ok report) : ∃ origins : Nat → List (Nat × Nat), ∀ r < size,
      ParticleSet.HalosFrom size (fun i => (results i).2.particles) r (origins r) ∧
      ∀ s < size, r ≠ s → ∀ i < (results r).2.particles.owned, ∀ j < (results s).2.particles.owned,
        (results r).2.subdomain.box.pointDistance ((results r).2.particles.position i) ((results s).2.particles.position j) ≤
          config.haloRadius.radius (Scalar.max ((results r).2.particles.h.getD i 0) ((results s).2.particles.h.getD j 0)) →
        (origins r).count (s, j) = 1 := by
  obtain ⟨box, tree, hpeers, hfocus⟩ := hd.octrees (Exact.lawfulCells width.depth config.curve) hpos hsize
  have hgood : ∀ i < size, ∀ e, (results i).1 ≠ .error e := fun i hi e he => by
    obtain ⟨report, hreport⟩ := hok i hi
    cases hreport.symm.trans he
  rcases hpeers.after_step hps hpos hsize hrun fun i hi e he => absurd he (hgood i hi e) with hfailed |
    ⟨p, s', order, local', origins, hbucket, h, hconnect, hcommitted⟩
  · obtain ⟨⟨e, he⟩, _⟩ := hfailed 0 hpos
    exact absurd he (hgood 0 hpos e)
  obtain ⟨_, _, _, hranks⟩ := h.divided_spec hpeers hbucket
  have hproper := h.proper hpeers hps hbucket (Exact.lawfulCells width.depth config.curve) hfocus hpos
  obtain ⟨reports, hcollects⟩ := h.collects_connect (β := β) hpeers hps hbucket hproper
  have hfinal : ∀ i < size, (results i).2.particles =
      ParticleSet.withHalos (β := β) size (settingOf config p d local').plan local' i := fun i hi => by
    rw [hcollects.succeeds.unique hconnect hi]
  have hconnected := h.connected (β := β) hpeers hps hbucket hproper
  have hkeys : ∀ i < size, ((settingOf config p d local').keys i).size = (local' i).size := fun i hi =>
    (h.uniform_local hi).size_keys
  refine ⟨HaloPlan.origins size (settingOf config p d local').plan, fun r hr => ?_⟩
  have hfrom := hconnected.halosFrom hproper hranks hkeys hr
  refine ⟨⟨?_, fun o ho => ?_, hfrom.nodup⟩, fun s hs hne i hi j hj hnear => ?_⟩
  · simp only [hfinal r hr]
    exact hfrom.rows_eq.trans (List.map_congr_left fun o ho => by rw [hfinal _ (hfrom.foreign o ho).1])
  · obtain ⟨ho, hother, hlt⟩ := hfrom.foreign o ho
    simp only [hfinal _ ho]
    exact ⟨ho, hother, hlt⟩
  · -- The own rows are those from before the exchange.
    have hown : ∀ r < size, (results r).2.particles.owned = (local' r).size ∧ ∀ i < (local' r).size,
        (results r).2.particles.position i = (local' r).position i ∧
          (results r).2.particles.h.getD i 0 = (local' r).h.getD i 0 := fun r hr => by
      rw [hfinal r hr]
      exact ⟨hconnected.owned_eq r hr, fun i hi => (ParticleSet.fields_eq_of_row_eq (hconnected.own_row r hr i hi)).2⟩
    have hi : i < (local' r).size := (hown r hr).1 ▸ hi
    have hj : j < (local' s).size := (hown s hs).1 ▸ hj
    rw [(hcommitted r hr).2.box_eq, ((hown r hr).2 i hi).1, ((hown s hs).2 j hj).1, ((hown r hr).2 i hi).2,
      ((hown s hs).2 j hj).2] at hnear
    exact List.count_eq_one_of_mem hfrom.nodup (h.mem_origins_of_near hpeers hps hproper hranks hr hs hne hi hj hnear)

end Whole

/-- Two ranks with a particle each in opposite corners, before any step. -/
theorem halos_complete_corners : ∃ results, Completes (β := Exact.Symbol) 2 (fun i => ⟨initial ⟨i, 2⟩ (walled 64), corners i⟩)
      results ∧ (∀ i < 2, ∃ report, (results i).1 = .ok report) ∧ ∃ origins : Nat → List (Nat × Nat), ∀ r < 2,
      ParticleSet.HalosFrom 2 (fun i => (results i).2.particles) r (origins r) ∧
      ∀ s < 2, r ≠ s → ∀ i < (results r).2.particles.owned, ∀ j < (results s).2.particles.owned,
        (results r).2.subdomain.box.pointDistance ((results r).2.particles.position i) ((results s).2.particles.position j) ≤
          (walled 64).haloRadius.radius (Scalar.max ((results r).2.particles.h.getD i 0) ((results s).2.particles.h.getD j 0)) →
        (origins r).count (s, j) = 1 := by
  obtain ⟨results, hrun, hok⟩ := @exists_step_corners 64 (by decide)
  exact ⟨results, hrun, hok, halos_complete (by decide) (by decide) (.start (make_walled (by decide))) admissible_corners hrun
    hok⟩

/-! ## Halos of two particles -/

/-- Key of the particle of a rank, in the first or the last cell on every axis. -/
def cornerKey (i : Nat) : Nat := Curve.hilbert.encode 10 (.replicate (if i = 0 then 0 else 2 ^ 10 - 1))

theorem keyIn_corners {i j : Nat} (hi : i < 2) (hj : j < (corners i).own.size) :
    (corners i).own.keyIn (walled 64).box .hilbert j = cornerKey i := by
  have hb : (walled 64).box.Valid := Box.valid_unit
  have hwalls : ∀ a, (walled 64).box.boundaries.get a ≠ .periodic := fun a => by cases a <;> exact Boundary.noConfusion
  obtain ⟨q, hq⟩ := ((accepted_corners 64).valid i hi).normalize_eq_ok (Box.SameClosed.refl _) hj
  have hstays : (walled 64).box.moved ((corners i).own.position j) = (corners i).own.position j :=
    (Box.moved_of_eq_ok hq).trans (Box.normalize_eq_self hwalls hq)
  obtain rfl : j = 0 := Nat.lt_one_iff.1 (Nat.lt_of_lt_of_le hj (size_own_le (corners i)))
  have hcell : ∀ a, Box.gridCoordinate 10 ((walled 64).box.lo.get a) ((walled 64).box.hi.get a)
      (((corners i).own.position 0).get a) = if i = 0 then 0 else 2 ^ 10 - 1 := by
    intro a
    have hcases : i = 0 ∨ i = 1 := by omega
    rcases hcases with rfl | rfl
    · have hposition : ((corners 0).own.position 0).get a = (walled 64).box.lo.get a := by cases a <;> rfl
      rw [hposition, hb.gridCoordinate_lo, if_pos rfl]
    · have hposition : ((corners 1).own.position 0).get a = (walled 64).box.hi.get a := by cases a <;> rfl
      rw [hposition, hb.gridCoordinate_hi, if_neg Nat.one_ne_zero]
  rw [ParticleSet.keyIn, hstays, Box.encode, Box.gridCoordinates, cornerKey]
  show Curve.hilbert.encode 10 (.ofFn fun a => Box.gridCoordinate 10 _ _ _) = _
  rw [funext hcell]
  rfl

/-- The tree of both keys, with its counts. -/
def cornerTree : Leaves KeyWidth.narrow.depth × Array Nat × Nat :=
  let root : Leaves KeyWidth.narrow.depth := .root
  refined 2 [cornerKey 0, cornerKey 1] (root, root.histogram [cornerKey 0, cornerKey 1], 0)

/-- The first rank gets the first octant, the second one all others. -/
theorem compute_cornerTree : (Assignment.compute cornerTree.1 cornerTree.2.1 2 : Except (Error EReal) _).toOption.map
    Assignment.keys = some #[0, 8 ^ 9, 8 ^ 10] := by
  decide +kernel

section Corners

variable {p : Partition .narrow EReal} {s local' : Nat → ParticleSet .narrow EReal} {order : Nat → List Nat}
  {origins : Nat → List (Nat × Nat)}
  (h : Prepared 2 (walled 64) (walled 64).box .root corners p s order local' origins)
include h

/-- No axis is open, so the box stays. -/
theorem Prepared.box_corners : p.box = (walled 64).box := by
  have hwalls : ∀ a, (walled 64).box.boundaries.get a ≠ .unbounded := fun a => by cases a <;> exact Boundary.noConfusion
  exact Except.ok.inj (h.box_eq.symm.trans (Global.fitted_of_closed Box.valid_unit hwalls))

theorem Prepared.keys_corners {i : Nat} (hi : i < 2) : (s i).keys.toList = [cornerKey i] := by
  have harranged := h.arranged i hi
  have hsize : (s i).keys.size = 1 := harranged.uniform.size_keys
  obtain ⟨j, hj, hkey⟩ := harranged.getD_keys (i := 0) (show 0 < 1 by decide)
  have hlt : j < (corners i).own.size := List.mem_range.1 (harranged.perm.mem_iff.1 (List.mem_of_getElem? hj))
  rw [h.box_corners] at hkey
  refine List.ext_getElem (by simpa using hsize) fun k hk hk' => ?_
  obtain rfl : k = 0 := by simpa using hk'
  have hkey := hkey.trans (keyIn_corners hi hlt)
  simpa [Array.getD, hsize] using hkey

theorem Prepared.assignment_corners : p.assignment.keys = #[0, 8 ^ 9, 8 ^ 10] := by
  have hall : Global.allKeys 2 (fun i => (s i).keys) = [cornerKey 0, cornerKey 1] := by
    simp [Global.allKeys, List.range_succ, h.keys_corners]
  have hbucket : (walled 64).bucketSize * 512 < 2 ^ 64 := show 64 * 512 < 2 ^ 64 by decide
  have hfew : [cornerKey 0, cornerKey 1].length ≤ (walled 64).bucketSize := show 2 ≤ 64 by decide
  have hrounds : 0 < (walled 64).maxRounds := show 0 < 64 by decide
  have htree : refinedFrom EReal 2 [cornerKey 0, cornerKey 1] (walled 64).bucketSize (walled 64).maxRounds .root =
      .ok (cornerTree.1, cornerTree.2.1, cornerTree.2.2) := refinedFrom_root hbucket hfew hrounds
  have hkeys := compute_cornerTree
  have hdivided := h.divided_eq
  rw [hall, divided_of_ok htree] at hdivided
  cases hcompute : (Assignment.compute cornerTree.1 cornerTree.2.1 2 : Except (Error EReal) _) with
  | error e =>
    rw [hcompute] at hkeys
    cases hkeys
  | ok a =>
    rw [hcompute] at hkeys hdivided
    have hassignment : a = p.assignment := congrArg (fun r => r.2.2.2) (Except.ok.inj hdivided)
    rw [← hassignment]
    exact Option.some.inj hkeys

/-- Each rank owns a particle. -/
theorem Prepared.size_corners {i : Nat} (hi : i < 2) : 0 < (local' i).size := by
  have hkey : ParticleSet.keyAt s (i, 0) = cornerKey i := by
    show (s i).keys.getD 0 0 = cornerKey i
    rw [Array.getD_eq_getD_getElem?, ← Array.getElem?_toList, h.keys_corners hi]
    rfl
  have hrange : cornerKey i ∈ p.assignment.keyRange i := by
    rw [Assignment.keyRange, h.assignment_corners]
    have hcases : i = 0 ∨ i = 1 := by omega
    rcases hcases with rfl | rfl <;> exact ⟨by decide +kernel, by decide +kernel⟩
  have hown : 0 < (s i).size := (h.arranged i hi).uniform.size_eq ▸ Nat.one_pos
  have hmem : (i, 0) ∈ origins i := (h.redistributed.mem_iff i hi _).2 ⟨hi, hown, hkey.symm ▸ hrange⟩
  rw [h.size_local hi]
  exact List.length_pos_of_mem hmem

/-- The particle of the other rank is a halo, as no two positions in the box are more than two apart. -/
theorem Prepared.haloCount_corners {i : Nat} (hi : i < 2) :
    0 < ((settingOf (walled 64) p (fun i => initial ⟨i, 2⟩ (walled 64)) local').plan i).haloCount := by
  have hbucket : (walled 64).bucketSize * 512 < 2 ^ 64 := show 64 * 512 < 2 ^ 64 by decide
  have hproper := h.proper peers_corners admissible_corners hbucket (Exact.lawfulCells _ _)
    (fun i _ => Leaves.isValid_root _) (by decide)
  obtain ⟨_, _, _, hranks⟩ := h.divided_spec peers_corners hbucket
  have hin : ∀ i, (hi : i < 2) → p.box.InBox ((local' i).position 0) := fun i hi =>
    (h.placed peers_corners hi (h.size_corners hi)).inBox
  have hother : 1 - i < 2 ∧ i ≠ 1 - i := by omega
  have hunit : ∀ a, p.box.high a - p.box.low a = 1 := fun a => by
    have hhigh : (walled 64).box.high a = 1 := by cases a <;> exact EReal.toReal_one
    have hlow : (walled 64).box.low a = 0 := by cases a <;> exact EReal.toReal_zero
    rw [h.box_corners, hhigh, hlow, sub_zero]
  have hdiagonal : (Exact.norm fun a => p.box.high a - p.box.low a) ≤ ((2 : ℕ) : ℝ) := by
    rw [funext hunit, Exact.norm, Real.sqrt_le_left (by norm_num)]
    norm_num
  have hvalid : p.box.Valid := h.box_corners ▸ Box.valid_unit
  have hnear := (hvalid.pointDistance_le (hin i hi) (hin (1 - i) hother.1)).trans (EReal.coe_le_coe_iff.2 hdiagonal)
  have hmem := h.mem_origins_of_near peers_corners admissible_corners hproper hranks hi hother.1 hother.2 (h.size_corners hi)
    (h.size_corners hother.1) hnear
  rw [← (h.matching peers_corners hbucket hproper).length_origins hi]
  exact List.length_pos_of_mem hmem

end Corners

end Subdomain

end CurvePartition
