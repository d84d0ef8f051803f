-- SUMMARY: The last stage on all ranks: where distances do not grow under nesting, focus trees settle, plans match, and every rank commits with the halos of its plan behind its own rows.
import CurvePartition.Proofs.Halo.Completeness
import CurvePartition.Proofs.Subdomain.History

/-!
# Connecting

A partition and the focus trees of all ranks are the setting of a halo plan (`Subdomain.settingOf`). When it is a proper one,
the last stage cannot fail: every rank gets the rows that its plan asks for and commits (`Subdomain.collects_connect`). It is
proper if distances do not grow from cells to cells inside and the focus trees are octrees, and these stay octrees then
(`Subdomain.Reachable.octrees`).
-/

namespace CurvePartition

open Program HaloPlan

variable {width : KeyWidth} {α β : Type} [Scalar α] {size i j : Nat}

namespace ParticleSet

/-- A set is not cut by its own length. -/
theorem truncate_self {p : ParticleSet width α} {n : Nat} (h : p.Uniform n) (howned : p.owned = n) :
    p.truncate n = p := by
  refine ext_rows (h.truncate (Nat.le_refl n)) h (layout_truncate p n) ?_ fun j hj => row_truncate hj p
  rw [truncate, howned]
  exact Nat.min_self n

/-- The rows of the copies of other ranks' particles. -/
def haloRows (p : ParticleSet width α) : List (List (Entry α)) := (List.range p.halos).map fun k => p.row (p.owned + k)

section Halos

variable [Wire α β]

/-- Whatever is read behind them, the rows of a set stay. -/
theorem own_unpackAll_resize {q : ParticleSet width α} {n : Nat} (h : q.Uniform q.size) (howned : q.owned = q.size)
    (hle : q.size ≤ n) (counts offsets : List Nat) {messages : List (Nat × Message β)}
    (hbehind : ∀ m ∈ messages, q.size ≤ offsets.getD m.1 0) :
    ((q.resize n).unpackAll counts offsets messages).own = q := by
  have hsame : ((q.resize n).unpackAll counts offsets messages).owned = q.size := by
    rw [owned_unpackAll]
    exact (owned_withColumns _ _).trans howned
  have huniform : ((q.resize n).unpackAll counts offsets messages).own.Uniform q.size := by
    rw [own, hsame]
    exact ((uniform_resize q n).unpackAll counts offsets messages).truncate hle
  refine ext_rows huniform h ?_ ?_ fun j hj => ?_
  · rw [layout_own, layout_unpackAll, layout_resize]
  · rw [owned_own, hsame, howned]
  · rw [row_own (hsame.symm ▸ hj), row_unpackAll_of_lt counts offsets fun m hm => Nat.lt_of_lt_of_le hj (hbehind m hm),
      row_resize h hj (Nat.lt_of_lt_of_le hj hle)]

theorem owned_withHalos (plan : Nat → HaloPlan) (ps : Nat → ParticleSet width α) (i : Nat) :
    (withHalos (β := β) size plan ps i).owned = (ps i).owned := by
  rw [withHalos, owned_unpackAll]
  exact owned_withColumns _ _

theorem layout_withHalos (plan : Nat → HaloPlan) (ps : Nat → ParticleSet width α) (i : Nat) :
    (withHalos (β := β) size plan ps i).layout = (ps i).layout := by
  rw [withHalos, layout_unpackAll, layout_resize]

/-- Behind the own rows of plans that match stand the halos. -/
theorem own_withHalos {plan : Nat → HaloPlan} {ps : Nat → ParticleSet width α}
    (h : Matching size plan fun s => (ps s).size) (huniform : (ps i).Uniform (ps i).size) (howned : (ps i).owned = (ps i).size)
    (hi : i < size) : (withHalos (β := β) size plan ps i).own = ps i := by
  rw [withHalos, h.localCount_eq i hi]
  refine own_unpackAll_resize huniform howned (Nat.le_add_right _ _) _ _ fun m hm => ?_
  obtain ⟨s, hs, rfl⟩ := List.mem_map.1 hm
  rw [h.getD_receiveOffsets hi (Delivery.mem_peers_iff.1 hs).1]
  exact Nat.le_add_left _ _

/-- The halos behind the own rows of plans that match are the rows that the plans name. -/
theorem haloRows_withHalos [Wire.LawfulWords α β] [Wire.LawfulScalars α β] {plan : Nat → HaloPlan}
    {ps : Nat → ParticleSet width α} {kinds : List (Option ElementKind)} (h : Matching size plan fun s => (ps s).size)
    (hfilled : ∀ s < size, (ps s).Filled kinds (ps s).size) (howned : (ps i).owned = (ps i).size) (hi : i < size) :
    (withHalos (β := β) size plan ps i).haloRows = (HaloPlan.origins size plan i).map fun o => (ps o.1).row o.2 := by
  obtain ⟨_, huniform, _, hhalos⟩ := withHalos_spec (β := β) h hfilled hi
  refine List.ext_getElem ?_ fun k hk hk' => ?_
  · rw [haloRows, List.length_map, List.length_range, List.length_map, h.length_origins hi, halos, huniform.size_eq,
      owned_withHalos, howned, Nat.add_sub_cancel_left]
  · have hlt : k < (HaloPlan.origins size plan i).length := by
      rwa [List.length_map] at hk'
    simp only [haloRows, List.getElem_map, List.getElem_range, owned_withHalos, howned]
    exact hhalos k _ (List.getElem?_eq_getElem hlt)

end Halos

end ParticleSet

namespace Subdomain

/-- The setting of the plans of all ranks. -/
def settingOf (config : Config α) (p : Partition width α) (d : Nat → Subdomain width α)
    (local' : Nat → ParticleSet width α) : Setting width.depth α where
  global := p.tree
  radii := p.radii
  box := p.box
  curve := config.curve
  assignment := p.assignment
  keys i := (local' i).keys
  focus i := (d i).focus
  backend _ := config.backend

/-- The laws under which halos are found: those of radii, and that distances do not grow from cells to cells inside. -/
structure LawfulCells (α : Type) [Scalar α] (depth : Nat) (curve : Curve) : Prop where
  radii : Scalar.LawfulRadii α
  nests : ∀ b : Box α, b.Valid → b.Nests depth curve

theorem Exact.lawfulCells (depth : Nat) (curve : Curve) : LawfulCells EReal depth curve :=
  ⟨Exact.lawfulRadii, fun _ hb => hb.nests⟩

/-- What sets are after a halo exchange with some plans: the own rows, and the rows that the plans name behind them. -/
structure Connected (size : Nat) (local' final : Nat → ParticleSet width α) (plan : Nat → HaloPlan) : Prop where
  owned_eq : ∀ i < size, (final i).owned = (local' i).size
  layout_eq : ∀ i < size, (final i).layout = (local' i).layout
  own_row : ∀ i < size, ∀ j < (local' i).size, (final i).row j = (local' i).row j
  haloRows_eq : ∀ i < size, (final i).haloRows = (HaloPlan.origins size plan i).map fun o => (local' o.1).row o.2

section Prepared

variable {config : Config α} {box : Box α} {tree : Leaves width.depth} {d : Nat → Subdomain width α}
  {ps s local' : Nat → ParticleSet width α} {p : Partition width α} {order : Nat → List Nat}
  {origins : Nat → List (Nat × Nat)} (h : Prepared size config box tree ps p s order local' origins)
  (hd : Peers size config box tree d) (hps : Admissible size ps)
include h

theorem Prepared.size_local (hi : i < size) : (local' i).size = (origins i).length :=
  (h.redistributed.uniform i hi).size_eq

theorem Prepared.uniform_local (hi : i < size) : (local' i).Uniform (local' i).size :=
  h.size_local hi ▸ h.redistributed.uniform i hi

theorem Prepared.owned_local (hi : i < size) : (local' i).owned = (local' i).size :=
  (h.redistributed.owned_eq i hi).trans (h.size_local hi).symm

theorem Prepared.layout_local (hi : i < size) : (local' i).layout = (ps 0).layout := by
  rw [h.redistributed.layout_eq i hi, (h.arranged i hi).layout_eq, ParticleSet.layout_own, h.accepted.layout_eq i hi]

/-- Where a row of a rank comes from. -/
theorem Prepared.exists_origin (hi : i < size) (hj : j < (local' i).size) : ∃ o : Nat × Nat, (origins i)[j]? = some o ∧
    o.1 < size ∧ o.2 < (s o.1).size ∧ (local' i).row j = (s o.1).row o.2 ∧
    (local' i).keys.getD j 0 ∈ p.assignment.keyRange i := by
  have hlt : j < (origins i).length := h.size_local hi ▸ hj
  have hrow := h.redistributed.row_eq hi hlt
  obtain ⟨hs, hk, hkey⟩ := (h.redistributed.mem_iff i hi _).1 (List.getElem_mem hlt)
  refine ⟨_, List.getElem?_eq_getElem hlt, hs, hk, hrow, ?_⟩
  rw [(ParticleSet.fields_eq_of_row_eq hrow).1]
  exact hkey

include hps

theorem Prepared.ready : Ready size (ps 0).kinds s := h.accepted.ready hps h.arranged

theorem Prepared.measured (hi : i < size) : Measured (local' i) := h.ready hps |>.measured h.redistributed h.ascending hi

theorem Prepared.filled (hi : i < size) : (local' i).Filled (ps 0).kinds (local' i).size where
  kinds_eq := h.kinds_eq i hi
  uniform := h.uniform_local hi
  fits j hj := by
    obtain ⟨o, _, hs, hk, hrow, _⟩ := h.exists_origin hi hj
    have hfilled := (h.ready hps).filled o.1 hs
    exact ParticleSet.rowFits_of_eq hrow ((h.kinds_eq i hi).trans hfilled.kinds_eq.symm) (hfilled.fits o.2 hk)

include hd

omit hps in
theorem Prepared.divided_spec (hbucket : config.bucketSize * 512 < 2 ^ 64) : p.tree.isValid = true ∧
    p.counts = p.tree.histogram (Global.allKeys size fun i => (s i).keys) ∧ p.assignment.Tiles p.tree ∧
      p.assignment.ranks = size := Subdomain.divided_spec hbucket hd.tree_valid h.divided_eq

/-- The rows of all ranks stay the same when they move. -/
theorem Prepared.perm_rows (hbucket : config.bucketSize * 512 < 2 ^ 64) :
    ((List.range size).flatMap fun i => (local' i).rows).Perm ((List.range size).flatMap fun i => (s i).rows) := by
  obtain ⟨_, _, htiles, hranks⟩ := h.divided_spec hd hbucket
  refine h.redistributed.perm_rows htiles hranks fun r hr j hj => (h.ready hps).key_lt r hr _ ?_
  have hsize := ((h.ready hps).filled r hr).uniform.size_keys
  simp [ParticleSet.keyAt, Array.getD, hsize, hj]

/-- The rows of all ranks are the particles that the ranks are given, each at its place in the box. -/
theorem Prepared.perm_placed (hbucket : config.bucketSize * 512 < 2 ^ 64) :
    ((List.range size).flatMap fun i => (local' i).rows).Perm
      ((ParticleSet.allData size fun i => (ps i).own).map (p.box.placed width.depth config.curve)) :=
  (h.perm_rows hd hps hbucket).trans (ParticleSet.perm_rows_of_arranged h.arranged)

/-- The keys of all ranks stay the same when the rows move. -/
theorem Prepared.perm_keys (hbucket : config.bucketSize * 512 < 2 ^ 64) :
    (Global.allKeys size fun i => (local' i).keys).Perm (Global.allKeys size fun i => (s i).keys) := by
  rw [ParticleSet.allKeys_eq_map_rowKey fun i hi => h.uniform_local hi,
    ParticleSet.allKeys_eq_map_rowKey fun i hi => ((h.ready hps).filled i hi).uniform]
  exact (h.perm_rows hd hps hbucket).map _

/-- Partitions of ranks with focus trees that are octrees are a proper setting. -/
theorem Prepared.proper (hbucket : config.bucketSize * 512 < 2 ^ 64) (hlaw : LawfulCells α width.depth config.curve)
    (hfocus : ∀ i < size, (d i).focus.leaves.isValid = true) (hpos : 0 < size) :
    (settingOf config p d local').Proper := by
  obtain ⟨hvalid, _, htiles, hranks⟩ := h.divided_spec hd hbucket
  obtain ⟨hbox, _, _⟩ := Global.fitted_valid hd.box_valid h.box_eq
  obtain ⟨_, hradius, ⟨_, htheta⟩, _⟩ := (Config.check_eq_ok_iff _).1 hd.checked
  refine ⟨⟨hvalid, hlaw.radii.toLawfulOrder, hlaw.nests _ hbox, fun l hl => ?_⟩, htiles, fun r hr k hk => ?_,
    ⟨fun r hr => ?_, ?_⟩, fun r hr => ?_⟩
  · show 0 ≤ p.radii.getD l 0
    rw [h.radii_eq]
    exact radiiOf_nonneg hpos (fun i hi => h.measured hps hi) hlaw.radii hradius hl
  · have hr : r < size := hranks ▸ hr
    obtain ⟨j, hj, rfl⟩ := Array.mem_iff_getElem.1 (Array.mem_toList_iff.1 hk)
    have hj : j < (local' r).keys.size := hj
    have hlt : j < (local' r).size := (h.uniform_local hr).size_keys ▸ hj
    obtain ⟨_, _, _, _, _, hkey⟩ := h.exists_origin hr hlt
    simpa [Array.getD, hj, settingOf] using hkey
  · exact h.ascending r (hranks ▸ hr)
  · show (Global.allKeys p.assignment.ranks fun i => (local' i).keys).length < 2 ^ 64
    rw [hranks, (h.perm_keys hd hps hbucket).length_eq]
    exact (h.ready hps).countable.fits
  · have hr : r < size := hranks ▸ hr
    refine ⟨hd.focus_rank r hr, hfocus r hr, ?_⟩
    show 0 < (d r).focus.theta
    rw [hd.focus_theta r hr]
    exact htheta

/-- Counts and settings agree. -/
theorem Prepared.counts_eq (hbucket : config.bucketSize * 512 < 2 ^ 64) : (settingOf config p d local').counts = p.counts := by
  obtain ⟨_, hcounts, _, hranks⟩ := h.divided_spec hd hbucket
  show p.tree.histogram (Global.allKeys p.assignment.ranks fun i => (local' i).keys) = p.counts
  rw [hranks, hcounts, Leaves.histogram_perm (h.perm_keys hd hps hbucket)]

theorem Prepared.followed_eq (hbucket : config.bucketSize * 512 < 2 ^ 64) (hi : i < size) :
    followed (d i) p = (settingOf config p d local').followed i := by
  rw [Setting.followed, h.counts_eq hd hps hbucket, followed, hd.config_eq i hi]
  rfl

omit hps in
/-- In a proper setting the plans of all ranks match. -/
theorem Prepared.matching (hbucket : config.bucketSize * 512 < 2 ^ 64) (hproper : (settingOf config p d local').Proper) :
    Matching size (settingOf config p d local').plan fun i => (local' i).size := by
  obtain ⟨_, _, _, hranks⟩ := h.divided_spec hd hbucket
  have hsize : ∀ i < size, ((settingOf config p d local').keys i).size = (local' i).size := fun i hi =>
    (h.uniform_local hi).size_keys
  have hmatching := hproper.matching
  have hwranks : (settingOf config p d local').assignment.ranks = size := hranks
  rw [hwranks] at hmatching
  exact ⟨fun i hi => (hmatching.localCount_eq i hi).trans (hsize i hi), hmatching.size_eq,
    fun i hi => by rw [hmatching.offsets_eq i hi, hsize i hi], hmatching.receiveCount_eq,
    fun i hi s hs j hj => hsize s hs ▸ hmatching.send_lt i hi s hs j hj⟩

variable [Wire α β] [Wire.LawfulWords α β] [Wire.LawfulScalars α β]

omit hd in
/-- With plans that match, all ranks fetch their halos, sum up their totals and commit. -/
theorem Prepared.collects_afterPlan {plan : Nat → HaloPlan} (hmatching : Matching size plan fun i => (local' i).size)
    (focus : Nat → Focus width.depth α) (rounds : Nat → Nat) : ∃ totals : Nat → List Nat,
    Collects size (fun i => (afterPlan ⟨i, size⟩ (d i) p (local' i) (focus i) (rounds i) (plan i) :
      Stage width α β (Report α)).exec ⟨{ d i with focus := focus i }, local' i⟩) fun i =>
      (.ok (reportOf (d i) p (focus i) (rounds i) (plan i) (local' i).size (totals i)),
        ⟨(d i).commit p (focus i) (plan i) (local' i).size, ParticleSet.withHalos (β := β) size plan local' i⟩) := by
  have hfetch := ParticleSet.collects_fetchHalos (β := β) hmatching (fun i hi => h.filled hps hi)
  obtain ⟨halos, hhalos⟩ : ∃ halos, halos = ParticleSet.withHalos (β := β) size plan local' := ⟨_, rfl⟩
  rw [← hhalos] at hfetch ⊢
  obtain ⟨totals, htotals⟩ : ∃ totals : Nat → List Nat, Collects size
      (fun i => (Exchange.reduceWords .sum [(local' i).size, (plan i).haloCount] : Exchange α β (List Nat)).run)
      fun i => .ok (totals i) := ⟨_, Exchange.collects_reduceWords_read (n := 2) .sum fun _ _ => rfl⟩
  refine ⟨totals, ?_⟩
  -- The rows are the own ones, so nothing is cut off before the halos are fetched.
  have hwithout : ∀ i < size, (local' i).withoutHalos (plan i) = local' i := fun i hi => by
    rw [ParticleSet.withoutHalos, hmatching.localCount_eq i hi]
    exact ParticleSet.truncate_self (h.uniform_local hi) (h.owned_local hi)
  refine (Stage.collects_bind (Stage.collects_attempt hfetch) (f := fun i complete => do
    Stage.setParticles complete
    let totals ← Stage.attempt (Attempt.exchange (Exchange.reduceWords .sum [(local' i).size, (plan i).haloCount]))
    Stage.setSubdomain ((d i).commit p (focus i) (plan i) (local' i).size)
    return reportOf (d i) p (focus i) (rounds i) (plan i) (local' i).size totals)
    (s := fun i => ⟨{ d i with focus := focus i }, local' i⟩) ?_).congr (fun i hi => ?_) fun _ _ => rfl
  · simp only [Stage.exec_setParticles]
    exact Stage.collects_bind (Stage.collects_attempt htotals.attempt) (Collects.done _)
  · rw [afterPlan, Stage.exec_setParticles, hwithout i hi]

/-- In a proper setting all ranks commit, with the halos of their plans behind their own rows. -/
theorem Prepared.collects_connect (hbucket : config.bucketSize * 512 < 2 ^ 64)
    (hproper : (settingOf config p d local').Proper) : ∃ reports : Nat → Report α,
    Collects size (fun i => (connect ⟨i, size⟩ p : Stage width α β (Report α)).exec ⟨d i, local' i⟩) fun i =>
      (.ok (reports i), ⟨(d i).commit p ((settingOf config p d local').followed i).1 ((settingOf config p d local').plan i)
        (local' i).size, ParticleSet.withHalos (β := β) size (settingOf config p d local').plan local' i⟩) := by
  obtain ⟨_, _, _, hranks⟩ := h.divided_spec hd hbucket
  have hmatching := h.matching hd hbucket hproper
  obtain ⟨w, hw⟩ : ∃ w, w = settingOf config p d local' := ⟨_, rfl⟩
  have hwranks : w.assignment.ranks = size := by rw [hw]; exact hranks
  have hplan : ∀ i < size, planOf (d i) p (w.followed i).1 (local' i).keys = w.plan i := by
    intro i hi
    rw [hw, planOf, backend, hd.config_eq i hi, hd.place_eq i hi]
    rfl
  rw [← hw] at hproper hmatching ⊢
  have hverify := hproper.collects_verify (β := β)
  rw [hwranks] at hverify
  have hsettles : ∀ i < size, ∃ n, (w.followed i).2 = .ok n := fun i hi => by
    obtain ⟨⟨n, _, hok⟩, _⟩ := hproper.followed_spec (hwranks.symm ▸ hi)
    exact ⟨n, hok⟩
  choose! rounds hrounds using hsettles
  obtain ⟨totals, hrest⟩ := h.collects_afterPlan (β := β) hps hmatching (fun i => (w.followed i).1) rounds
  refine ⟨fun i => reportOf (d i) p (w.followed i).1 (rounds i) (w.plan i) (local' i).size (totals i), ?_⟩
  refine (Stage.collects_bind (Stage.collects_attempt hverify)
    (f := fun i _ => afterPlan ⟨i, size⟩ (d i) p (local' i) (w.followed i).1 (rounds i) (w.plan i)) hrest).congr
      (fun i hi => ?_) fun _ _ => rfl
  have hfollowed : followed (d i) p = w.followed i := by rw [hw, h.followed_eq hd hps hbucket hi]
  rw [exec_connect, hfollowed, hrounds i hi, Stage.exec_ofExcept_ok, afterFocus, hplan i hi]

omit [Wire α β] [Wire.LawfulWords α β] [Wire.LawfulScalars α β] in
/-- Focus trees that followed in a proper setting are octrees. -/
theorem Prepared.octree (hbucket : config.bucketSize * 512 < 2 ^ 64) (hproper : (settingOf config p d local').Proper)
    (hi : i < size) {d' : Subdomain width α} (hd' : Committed (d i) p d') : d'.focus.leaves.isValid = true := by
  obtain ⟨_, _, _, hranks⟩ := h.divided_spec hd hbucket
  obtain ⟨_, _, hsettled⟩ := hproper.followed_spec (hranks.symm ▸ hi : i < (settingOf config p d local').assignment.ranks)
  obtain ⟨rounds, hfollowed⟩ := hd'.focus_eq
  rw [h.followed_eq hd hps hbucket hi] at hfollowed
  rw [hfollowed] at hsettled
  exact hsettled.valid

/-- What the sets of all ranks are at the end of a step: the own rows, and the rows that the plans of the others send behind
them. -/
theorem Prepared.connected (hbucket : config.bucketSize * 512 < 2 ^ 64) (hproper : (settingOf config p d local').Proper) :
    Connected size local'
      (ParticleSet.withHalos (β := β) size (settingOf config p d local').plan local') (settingOf config p d local').plan := by
  have hmatching := h.matching hd hbucket hproper
  have hfilled : ∀ i < size, (local' i).Filled (ps 0).kinds (local' i).size := fun i hi => h.filled hps hi
  refine ⟨fun i hi => ?_, fun i hi => ?_, fun i hi j hj => ?_, fun i hi => ?_⟩
  · rw [ParticleSet.owned_withHalos]
    exact h.owned_local hi
  · rw [ParticleSet.layout_withHalos]
  · exact (ParticleSet.withHalos_spec (β := β) hmatching hfilled hi).2.2.1 j hj
  · exact ParticleSet.haloRows_withHalos hmatching hfilled (h.owned_local hi) hi

end Prepared

/-! ## Octrees -/

/-- After any steps that no rank ended fatally the ranks are peers whose focus trees are octrees. -/
theorem Reachable.octrees [Wire α β] [Wire.LawfulWords α β] [Wire.LawfulScalars α β] {config : Config α}
    {d : Nat → Subdomain width α} (h : Reachable β size config d) (hlaw : LawfulCells α width.depth config.curve)
    (hpos : 0 < size) (hsize : size < 2 ^ 64) :
    ∃ (box : Box α) (tree : Leaves width.depth), Peers size config box tree d ∧
      ∀ i < size, (d i).focus.leaves.isValid = true := by
  induction h with
  | start hmake =>
    refine ⟨_, _, peers_initial hpos hmake, fun i hi => ?_⟩
    rw [(eq_initial_of_make hi (hmake i hi)).2]
    exact Leaves.isValid_root width.depth
  | step before given completes notFatal after ih =>
    obtain ⟨box, tree, hd, hfocus⟩ := ih
    rcases hd.after_step given hpos hsize completes notFatal with hsame | ⟨p, s, order, local', origins, hbucket, hprepared,
      _, hcommitted⟩
    · refine ⟨box, tree, hd.congr fun i hi => (after i hi).trans (hsame i hi).2, fun i hi => ?_⟩
      rw [after i hi, (hsame i hi).2]
      exact hfocus i hi
    · have hproper := hprepared.proper hd given hbucket hlaw hfocus hpos
      refine ⟨p.box, p.tree, hprepared.peers hd hbucket fun i hi => ?_, fun i hi => ?_⟩
      all_goals rw [after i hi]
      · exact (hcommitted i hi).2
      · exact hprepared.octree hd given hbucket hproper hi (hcommitted i hi).2

end Subdomain

end CurvePartition
