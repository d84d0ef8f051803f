-- SUMMARY: A step made again: without a periodic axis all ranks come to the partition they have, and no particle changes, unless the rounds that balance the refined tree run out.
import CurvePartition.Proofs.Focus.Canonical
import CurvePartition.Proofs.Halo.Signs
import CurvePartition.Proofs.Subdomain.Finishing
import CurvePartition.Proofs.Subdomain.Outcomes

/-!
# Repeated steps

A step that succeeded on all ranks is made again, with the subdomains and the particles it left. Halos are dropped first, so
each rank starts with the rows it got by redistribution (`Subdomain.every_own_of_connect`). Without a periodic axis they are in
the box, in order and on their ranks already, so the same box is found, but for the signs of zeros, and no row moves
(`Subdomain.Prepared.eq_again`). Balancing starts from the tree of the step, which may have been refined for the number of
ranks, and merges it back first. If the rounds suffice for this, the partition is the one of the step, the focus trees stay, and
so do the halos (`Subdomain.connect_again`).
-/

namespace CurvePartition

open Program HaloPlan

variable {width : KeyWidth} {α β : Type} [Scalar α] {size i j : Nat}

namespace ParticleSet

variable {p q : ParticleSet width α}

/-- Whatever a halo exchange gives, the own rows stay. -/
theorem every_fetchHalos [Wire α β] {place : Place} {plan : HaloPlan} (h : q.Uniform q.size) (howned : q.owned = q.size)
    (hlocal : plan.localCount = q.size) (hbehind : ∀ s < place.size, q.size ≤ plan.receiveOffsets.toList.getD s 0) :
    (q.fetchHalos place plan : Attempt α β _).run.Every fun r => ∀ complete, r = .ok complete → complete.own = q := by
  refine (every_true (Attempt.exchange (Exchange.messages Purpose.halos.tag
    (place.peers.map fun peer => (peer, q.pack (plan.send peer).ranges))
    (place.peers.map fun peer => (peer, plan.receiveCount peer * q.rowWidth)) : Exchange α β _)).run).bind fun r _ => ?_
  cases r with
  | error e => exact fun _ h => nomatch h
  | ok messages =>
    intro complete hcomplete
    obtain rfl := Except.ok.inj hcomplete
    refine own_unpackAll_resize h howned (hlocal ▸ Nat.le_add_right _ _) _ _ fun m hm => hbehind m.1 ?_
    exact (Delivery.mem_peers_iff.1 (List.of_mem_zip (a := m.1) (b := m.2) hm).1).1

end ParticleSet

/-- Halos are put behind the own particles. -/
theorem HaloPlan.le_receiveOffset {depth : Nat} {backend : Backend} {rank s : Nat} {focus : Focus depth α}
    {search : HaloSearch depth α} {global : Leaves depth} {a : Assignment depth} {keys : Array Nat} (hs : s < a.ranks) :
    keys.size ≤ (build backend rank focus search global a keys).receiveOffsets.toList.getD s 0 := by
  have hlength : s < (Sorted.offsets (receiveCountsOf focus a (search.received focus)).toList).length := by
    rw [Sorted.offsets, Sorted.length_offsetsFrom, Array.length_toList, size_receiveCountsOf]
    exact hs
  rw [build, List.getD_eq_getElem?_getD, List.getElem?_map, List.getElem?_eq_getElem hlength]
  exact Nat.le_add_left _ _

namespace Subdomain

variable {d d' : Subdomain width α} {p : Partition width α} {q : ParticleSet width α}

/-! ## The last stage -/

section Connect

variable [Wire α β]

/-- If the last stage succeeds, the own rows are those from before it. -/
theorem every_own_of_connect {place : Place} (h : q.Uniform q.size) (howned : q.owned = q.size)
    (hranks : p.assignment.ranks = place.size) :
    ((connect place p : Stage width α β (Report α)).exec ⟨d, q⟩).Every fun r =>
      ∀ report, r.1 = .ok report → r.2.particles.own = q := by
  rw [exec_connect]
  cases (followed d p).2 with
  | error e => exact fun _ h => by cases h
  | ok rounds =>
    have hlocal : (planOf d p (followed d p).1 q.keys).localCount = q.size := h.size_keys
    have hwithout : q.withoutHalos (planOf d p (followed d p).1 q.keys) = q := by
      rw [ParticleSet.withoutHalos, hlocal]
      exact ParticleSet.truncate_self h howned
    have hfetch := ParticleSet.every_fetchHalos (β := β) h howned hlocal fun s hs =>
      h.size_keys ▸ le_receiveOffset (hranks.symm ▸ hs)
    rw [Stage.exec_ofExcept_ok, afterFocus]
    refine Stage.every_attempt_bind (every_true _) (fun _ _ => ?_) fun _ _ _ h => by cases h
    rw [afterPlan, Stage.exec_setParticles, hwithout]
    refine Stage.every_attempt_bind hfetch (fun complete hcomplete => ?_) fun _ _ _ h => by cases h
    rw [Stage.exec_setParticles]
    refine Stage.every_attempt_bind (every_true _) (fun _ _ => ?_) fun _ _ _ h => by cases h
    exact fun _ _ => hcomplete complete rfl

end Connect

/-! ## Rows that stay -/

section Again

variable {config : Config α} {box : Box α} {tree : Leaves width.depth} {d : Nat → Subdomain width α}
  {ps s local' q : Nat → ParticleSet width α} {p : Partition width α} {order : Nat → List Nat}
  {origins : Nat → List (Nat × Nat)} (h : Prepared size config box tree ps p s order local' origins)
  (hd : Peers size config box tree d) (hwalls : ∀ a, config.box.boundaries.get a ≠ .periodic)
include h hd hwalls

/-- Without a periodic axis no particle moves. -/
theorem Prepared.moved_eq_self (hi : i < size) (hj : j < (ps i).own.size) :
    p.box.moved ((ps i).own.position j) = (ps i).own.position j := by
  obtain ⟨_, hclosed, _⟩ := Global.fitted_valid hd.box_valid h.box_eq
  obtain ⟨v, hv⟩ := (h.accepted.valid i hi).normalize_eq_ok hclosed hj
  rw [Box.moved_of_eq_ok hv]
  refine Box.normalize_eq_self (fun a => ?_) hv
  rw [hclosed.boundaries, hd.closed.boundaries]
  exact hwalls a

/-- So each row that a rank gets is one that it or another one had, and it is at its place already. -/
theorem Prepared.exists_data (hi : i < size) (hj : j < (local' i).size) :
    ∃ r < size, ∃ k < (ps r).own.size, (local' i).data j = (ps r).own.data k ∧
      p.box.placed width.depth config.curve ((local' i).data j) = (local' i).row j := by
  obtain ⟨o, _, hr, hk, hrow, _⟩ := h.exists_origin hi hj
  obtain ⟨k, _, hk, hplaced⟩ := (h.arranged o.1 hr).exists_row ((h.arranged o.1 hr).uniform.size_eq ▸ hk)
  have hsame := hrow.trans hplaced
  have hdata : (local' i).data j = (ps o.1).own.data k := by
    rw [ParticleSet.placed_data_of_unmoved (h.moved_eq_self hd hwalls hr hk), ParticleSet.row_eq_cons] at hsame
    exact (List.cons.inj hsame).2
  exact ⟨o.1, hr, k, hk, hdata, by rw [hdata, hsame]⟩

theorem Prepared.valid_local (hi : i < size) : (local' i).Valid p.box := by
  obtain ⟨_, hclosed, _⟩ := Global.fitted_valid hd.box_valid h.box_eq
  refine ⟨h.uniform_local hi, fun j hj => ?_⟩
  obtain ⟨r, hr, k, hk, hdata, _⟩ := h.exists_data hd hwalls hi hj
  obtain ⟨hposition, hlength⟩ := ParticleSet.fields_eq_of_data_eq hdata
  have hvalid := ParticleSet.checkParticle_eq_ok_iff.1 (((h.accepted.valid r hr).of_sameClosed hclosed).checked k hk)
  rw [← hposition, ← hlength] at hvalid
  exact ParticleSet.checkParticle_eq_ok_iff.2 hvalid

variable (hps : Admissible size ps) (hbucket : config.bucketSize * 512 < 2 ^ 64)
include hps hbucket

theorem Prepared.perm_data : (ParticleSet.allData size local').Perm (ParticleSet.allData size fun i => (ps i).own) := by
  have hrows : ParticleSet.allData size local' = ((List.range size).flatMap fun i => (local' i).rows).map List.tail := by
    rw [ParticleSet.allData, List.map_flatMap]
    refine List.flatMap_congr fun i _ => ?_
    rw [ParticleSet.rows, List.map_map]
    rfl
  have hplaced : ((ParticleSet.allData size fun i => (ps i).own).map (p.box.placed width.depth config.curve)).map List.tail =
      ParticleSet.allData size fun i => (ps i).own := by
    rw [List.map_map]
    refine (List.map_congr_left fun e he => ?_).trans (List.map_id _)
    obtain ⟨i, hi, he⟩ := List.mem_flatMap.1 he
    obtain ⟨j, hj, rfl⟩ := List.mem_map.1 he
    rw [Function.comp, ParticleSet.placed_data_of_unmoved (h.moved_eq_self hd hwalls (List.mem_range.1 hi) (List.mem_range.1 hj))]
    rfl
  rw [hrows, ← hplaced]
  exact (h.perm_placed hd hps hbucket).map _

omit hwalls in
/-- What the ranks got can be given to them again. -/
theorem Prepared.admissible_again (hown : ∀ i < size, (q i).own = local' i) (hpos : 0 < size) : Admissible size q := by
  have hlayout : ∀ i < size, (q i).layout = (ps 0).layout := fun i hi => by
    rw [← (q i).layout_own, hown i hi, h.layout_local hi]
  refine ⟨fun i hi => ?_, ?_, fun i hi j hj => ?_, fun i hi k hk _ => (hlayout i hi).trans (hlayout k hk).symm⟩
  · rw [ParticleSet.rowWidth_eq_of_layout_eq (hlayout i hi)]
    exact hps.rowWidth_lt 0 hpos
  · have hlength : (Global.allKeys size fun i => (local' i).keys).length = ((List.range size).map fun i => (q i).owned).sum := by
      rw [Global.allKeys, List.length_flatMap]
      refine congrArg List.sum (List.map_congr_left fun i hi => ?_)
      have hi := List.mem_range.1 hi
      rw [Array.length_toList, (h.uniform_local hi).size_keys, ← h.owned_local hi, ← hown i hi, ParticleSet.owned_own]
    rw [← hlength, (h.perm_keys hd hps hbucket).length_eq]
    exact (h.ready hps).countable.fits
  · have hj' : j < (local' i).size := by rwa [← h.owned_local hi, ← hown i hi, ParticleSet.owned_own]
    have hfits : (q i).own.RowFits j := hown i hi ▸ (h.filled hps hi).fits j hj'
    exact ParticleSet.rowFits_of_eq (ParticleSet.row_own hj).symm (ParticleSet.kinds_truncate _ _).symm hfits

omit hps hbucket in
theorem Prepared.accepted_again (hown : ∀ i < size, (q i).own = local' i) (hpos : 0 < size) : Accepted size p.box q where
  valid i hi := hown i hi ▸ h.valid_local hd hwalls hi
  layout_eq i hi := by
    rw [← (q i).layout_own, ← (q 0).layout_own, hown i hi, hown 0 hpos, h.layout_local hi, h.layout_local hpos]

variable (hlaw : Scalar.LawfulSigns α)
include hlaw

/-- The same box is found again, but for the signs of zeros. -/
theorem Prepared.commonBox_again (hown : ∀ i < size, (q i).own = local' i) (hpos : 0 < size) :
    ∃ b, commonBox size config p.box q = .ok b ∧ p.box.Alike b := by
  have haccepted := h.accepted_again hd hwalls hown hpos
  have hdata : ParticleSet.allData size (fun i => (q i).own) = ParticleSet.allData size local' := ParticleSet.allData_congr hown
  refine Global.fitted_again hlaw hd.box_valid h.box_eq (Global.extremes_alike hlaw hpos
    (fun i hi => (h.accepted.valid i hi).finite_coordinates) (fun i hi => (haccepted.valid i hi).finite_coordinates)
      fun a v => ?_)
  rw [ParticleSet.onAxis_iff fun i hi => (haccepted.valid i hi).uniform,
    ParticleSet.onAxis_iff fun i hi => (h.accepted.valid i hi).uniform, hdata]
  exact exists_congr fun e => and_congr_left fun _ => (h.perm_data hd hwalls hps hbucket).mem_iff.symm

omit hps hbucket in
/-- The rows of a rank are in order in the box already. -/
theorem Prepared.arranged_again (hown : ∀ i < size, (q i).own = local' i) (hi : i < size) {b : Box α} (hbox : p.box.Alike b)
    {s' : ParticleSet width α} {order' : List Nat} (harranged : ParticleSet.Arranged b config.curve (q i).own s' order') :
    s' = local' i := by
  obtain ⟨hvalid, _, _⟩ := Global.fitted_valid hd.box_valid h.box_eq
  have harranged := harranged.of_alike hlaw hbox hvalid
  rw [hown i hi] at harranged
  refine harranged.eq_self (h.uniform_local hi) (h.ascending i hi) fun j hj => ?_
  obtain ⟨_, _, _, _, _, hplaced⟩ := h.exists_data hd hwalls hi hj
  exact hplaced

/-- The first stages fail again only if there is no tree any more. -/
theorem Prepared.divided_of_fails (hown : ∀ i < size, (q i).own = local' i) (hpos : 0 < size)
    {e : Error α} (hfails : PrepareFails size config p.box p.tree q e) :
    divided size config (Global.allKeys size fun i => (local' i).keys) p.tree = .error e := by
  obtain ⟨b, hbox, halike⟩ := h.commonBox_again hd hwalls hps hbucket hlaw hown hpos
  rcases hfails with hcommon | ⟨box', s', order', hcommon, harranged, hdivided⟩
  · cases hbox.symm.trans hcommon
  · cases hbox.symm.trans hcommon
    have hkeys := ParticleSet.allKeys_congr fun i hi => h.arranged_again hd hwalls hlaw hown hi halike (harranged i hi)
    rwa [hkeys] at hdivided

section Again

variable {p' : Partition width α} {s' local'' : Nat → ParticleSet width α} {order' : Nat → List Nat}
  {origins' : Nat → List (Nat × Nat)} (h' : Prepared size config p.box p.tree q p' s' order' local'' origins')
  (hown : ∀ i < size, (q i).own = local' i) (hpos : 0 < size)
include h' hown hpos

theorem Prepared.box_again : p.box.Alike p'.box := by
  obtain ⟨b, hbox, halike⟩ := h.commonBox_again hd hwalls hps hbucket hlaw hown hpos
  rwa [Except.ok.inj (h'.box_eq.symm.trans hbox)]

theorem Prepared.sorted_again (hi : i < size) : s' i = local' i :=
  h.arranged_again hd hwalls hlaw hown hi (h.box_again hd hwalls hps hbucket hlaw h' hown hpos) (h'.arranged i hi)

theorem Prepared.divided_again : divided size config (Global.allKeys size fun i => (local' i).keys) p.tree =
    .ok (p'.tree, p'.counts, p'.rounds, p'.assignment) := by
  rw [← ParticleSet.allKeys_congr fun i hi => h.sorted_again hd hwalls hps hbucket hlaw h' hown hpos hi]
  exact h'.divided_eq

/-- If they succeed again, only the number of rounds and signs of zeros in the box are other ones, and no row has moved. -/
theorem Prepared.eq_again {k : Nat} (hk : divided size config (Global.allKeys size fun i => (local' i).keys) p.tree =
      .ok (p.tree, p.counts, k, p.assignment)) :
    ∃ b, p.box.Alike b ∧ p' = { p with box := b, rounds := k } ∧ ∀ i < size, local'' i = local' i := by
  have hs : ∀ i < size, s' i = local' i := fun i hi => h.sorted_again hd hwalls hps hbucket hlaw h' hown hpos hi
  obtain ⟨htree, hcounts, hrounds, hassignment⟩ : p.tree = p'.tree ∧ p.counts = p'.counts ∧ k = p'.rounds ∧
      p.assignment = p'.assignment := by
    simpa using hk.symm.trans (h.divided_again hd hwalls hps hbucket hlaw h' hown hpos)
  obtain ⟨_, _, htiles, hranks⟩ := h.divided_spec hd hbucket
  have hredistributed : ParticleSet.Redistributed size p.assignment s' local'' origins' := hassignment ▸ h'.redistributed
  have hlocal : ∀ i < size, local'' i = local' i := by
    intro i hi
    refine (hredistributed.eq_self htiles hranks (fun r hr => hs r hr ▸ h.uniform_local hr)
      (fun r hr => hs r hr ▸ h.owned_local hr) (fun r hr => hs r hr ▸ h.ascending r hr) (fun r hr j hj => ?_) hi).trans (hs i hi)
    rw [hs r hr] at hj
    obtain ⟨_, _, _, _, _, hkey⟩ := h.exists_origin hr hj
    rwa [ParticleSet.keyAt, hs r hr]
  refine ⟨p'.box, h.box_again hd hwalls hps hbucket hlaw h' hown hpos, ?_, hlocal⟩
  have hradii : p'.radii = p.radii := by rw [h'.radii_eq, h.radii_eq, ← htree, radiiOf_eq_of_eq hlocal]
  show Partition.mk p'.box p'.tree p'.counts p'.rounds p'.assignment p'.radii = _
  rw [← htree, ← hcounts, ← hrounds, ← hassignment, hradii]

end Again

end Again

/-! ## The last stage again -/

section ConnectAgain

variable [Wire α β] {b : Box α} {k : Nat}

/-- What comes out of the last stage when it is made again with another box, from what came out before. -/
def repeated (d' : Subdomain width α) (b : Box α) (k : Nat) :
    Except (Error α) (Report α) × StepState width α → Except (Error α) (Report α) × StepState width α
  | (.ok report, s) => (.ok { report with balanceRounds := k, focusRounds := 0 }, ⟨{ s.subdomain with box := b }, s.particles⟩)
  | (.error e, s) => (.error e, ⟨d', s.particles⟩)

omit [Scalar α] [Wire α β] in
/-- An attempt that is made again with another subdomain. -/
theorem exec_attempt_bind_repeated {σ : Type} {x : Attempt α β σ} {f f' : σ → Stage width α β (Report α)}
    {s : StepState width α} (hf : ∀ a, (f' a).exec ⟨d', s.particles⟩ = (f a).exec s >>= fun r => .done (repeated d' b k r)) :
    (Stage.attempt x >>= f').exec ⟨d', s.particles⟩ =
      (Stage.attempt x >>= f).exec s >>= fun r => .done (repeated d' b k r) := by
  rw [Stage.exec_bind, Stage.exec_bind, Stage.exec_attempt, Stage.exec_attempt, LawfulMonad.bind_assoc,
    LawfulMonad.bind_assoc, LawfulMonad.bind_assoc]
  refine congrArg (x.run >>= ·) (funext fun r => ?_)
  cases r with
  | ok a => exact hf a
  | error e => rfl

/-- A committed subdomain commits the same partition again with an alike box, and only the numbers of rounds in the report are
other ones. -/
theorem connect_again (hlaw : Scalar.LawfulSigns α) (hbox : p.box.Alike b) (hd' : Committed d p d') (place : Place)
    (q : ParticleSet width α) :
    (connect place { p with box := b, rounds := k } : Stage width α β (Report α)).exec ⟨d', q⟩ =
      (connect place p).exec ⟨d, q⟩ >>= fun r => .done (repeated d' b k r) := by
  obtain ⟨n, hfollowed⟩ := hd'.focus_eq
  have hsearch : (p.search d.config.curve).Alike (Partition.search { p with box := b, rounds := k } d.config.curve) :=
    HaloSearch.make_alike hlaw hbox fun _ => .refl _
  have hagain : followed d' { p with box := b, rounds := k } = (d'.focus, .ok 0) := by
    rw [followed, hd'.config_eq, Focus.update_alike hlaw hbox hsearch.maxRadius]
    exact Focus.update_again hfollowed
  have hplan : ∀ keys, planOf d' { p with box := b, rounds := k } d'.focus keys = planOf d p d'.focus keys := fun keys => by
    rw [planOf, planOf, backend, backend, hd'.place_eq, hd'.config_eq]
    exact HaloPlan.build_alike hlaw hsearch ..
  rw [exec_connect, exec_connect, hagain, hfollowed, Stage.exec_ofExcept_ok, Stage.exec_ofExcept_ok, afterFocus, afterFocus,
    hplan]
  refine exec_attempt_bind_repeated (s := ⟨{ d with focus := d'.focus }, q⟩) fun _ => ?_
  rw [afterPlan, afterPlan, Stage.exec_setParticles, Stage.exec_setParticles]
  refine exec_attempt_bind_repeated (s := ⟨{ d with focus := d'.focus }, _⟩) fun complete => ?_
  rw [Stage.exec_setParticles, Stage.exec_setParticles]
  refine exec_attempt_bind_repeated (s := ⟨{ d with focus := d'.focus }, complete⟩) fun totals => ?_
  have hcommit : ∀ plan n, d'.commit { p with box := b, rounds := k } d'.focus plan n =
      { d.commit p d'.focus plan n with box := b } := fun plan n => by
    rw [commit, commit, hd'.place_eq, hd'.config_eq]
  have hreport : ∀ plan n' totals, reportOf d' { p with box := b, rounds := k } d'.focus 0 plan n' totals =
      { reportOf d p d'.focus n plan n' totals with balanceRounds := k, focusRounds := 0 } := fun plan n' totals => by
    rw [reportOf, reportOf, hd'.config_eq]
    rfl
  rw [hcommit, hreport]
  rfl

end ConnectAgain

/-! ## Whole steps again -/

section Whole

variable {config : Config α} {box : Box α} {tree : Leaves width.depth} {d : Nat → Subdomain width α}
  {ps : Nat → ParticleSet width α} {results : Nat → Except (Error α) (Report α) × StepState width α}
  [Wire α β] [Wire.LawfulWords α β] [Wire.LawfulScalars α β]

/-- What a step of peers that succeeded comes to when it is made again: nothing changes but the reports and signs of zeros in
the box, or the rounds that lead back to the balanced tree run out. -/
theorem Peers.exists_again (hd : Peers size config box tree d) (hps : Admissible size ps) (hpos : 0 < size)
    (hsize : size < 2 ^ 64) (hbucket : config.bucketSize * 512 < 2 ^ 64) (hlaw : Scalar.LawfulSigns α)
    (hwalls : ∀ a, config.box.boundaries.get a ≠ .periodic)
    (hrun : Completes (β := β) size (fun i => ⟨d i, ps i⟩) results)
    (hok : ∀ i < size, ∃ report, (results i).1 = .ok report) :
    ∃ committed balanced : Leaves width.depth, ∃ k ≤ width.depth,
      (∀ i < size, (results i).2.subdomain.tree = committed) ∧ size ≤ committed.count ∧
      (Global.allKeys size fun i => (results i).2.particles.own.keys).length ≤ ((List.range size).map fun i => (ps i).owned).sum ∧
      balanced.IsBalanced (Global.allKeys size fun i => (results i).2.particles.own.keys) config.bucketSize ∧
      Leaves.Rounds (Global.allKeys size fun i => (results i).2.particles.own.keys) config.bucketSize k committed balanced ∧
      (size ≤ balanced.count → k = 0) ∧
      (k < config.maxRounds → ∃ b, (∀ i < size, (results i).2.subdomain.box.Alike b) ∧
        Succeeds size (fun i => (stages ⟨i, size⟩ : Stage width α β (Report α)).exec (results i).2)
          fun i => repeated (results i).2.subdomain b k (results i)) ∧
      (config.maxRounds ≤ k → ∃ rest : Nat → StepState width α,
        Collects size (fun i => (stages ⟨i, size⟩ : Stage width α β (Report α)).exec (results i).2)
          fun i => (.error (.imbalance (.notConverged config.maxRounds)), rest i)) := by
  have hgood : ∀ i < size, ∀ e, (results i).1 ≠ .error e := fun i hi e he => by
    obtain ⟨report, hreport⟩ := hok i hi
    cases hreport.symm.trans he
  rcases hd.after_step hps hpos hsize hrun fun i hi e he => absurd he (hgood i hi e) with hfailed |
    ⟨p, s, order, local', origins, _, h, hconnect, hcommitted⟩
  · obtain ⟨⟨e, he⟩, _⟩ := hfailed 0 hpos
    exact absurd he (hgood 0 hpos e)
  obtain ⟨_, _, _, hranks⟩ := h.divided_spec hd hbucket
  have hown : ∀ i < size, (results i).2.particles.own = local' i := fun i hi => by
    obtain ⟨report, hreport⟩ := hok i hi
    exact hconnect.every hi (every_own_of_connect (h.uniform_local hi) (h.owned_local hi) hranks) report hreport
  obtain ⟨balanced, k, hk, hbalanced, hrounds, hzero, hfound, hlost⟩ :=
    Subdomain.divided_again hbucket hd.tree_valid h.divided_eq (h.perm_keys hd hps hbucket)
  rw [← ParticleSet.allKeys_congr hown] at hbalanced hrounds
  refine ⟨p.tree, balanced, k, hk, fun i hi => (hcommitted i hi).2.tree_eq,
    Assignment.le_count_of_compute (divided_eq_ok h.divided_eq).2, ?_, hbalanced, hrounds, hzero, fun hlt => ?_, fun hle => ?_⟩
  · rw [ParticleSet.allKeys_congr hown, (h.perm_keys hd hps hbucket).length_eq]
    exact length_allKeys_le h.arranged
  -- The first stages again.
  all_goals
    have hd' : Peers size config p.box p.tree fun i => (results i).2.subdomain :=
      h.peers hd hbucket fun i hi => (hcommitted i hi).2
    have hps' : Admissible size fun i => (results i).2.particles := h.admissible_again hd hps hbucket hown hpos
    have hstages : ∀ i, (stages ⟨i, size⟩ : Stage width α β (Report α)).exec (results i).2 =
        (prepare ⟨i, size⟩ >>= connect ⟨i, size⟩).exec (results i).2 := fun i => by rw [stages_eq]
    rcases collects_prepare (β := β) hd' hps' hpos hsize hbucket with ⟨hnot, _⟩ | ⟨_, e, rest, hfails, hprepare⟩ |
      ⟨p', s', order', local'', origins', h', hprepare⟩
    · exact absurd (h.accepted_again hd hwalls hown hpos) hnot
  · cases (h.divided_of_fails hd hwalls hps hbucket hlaw hown hpos hfails).symm.trans (hfound hlt)
  · obtain ⟨b, hbox, rfl, hlocal⟩ := h.eq_again hd hwalls hps hbucket hlaw h' hown hpos (hfound hlt)
    have hagain : Succeeds size (fun i => Stage.andThen (connect ⟨i, size⟩ : _ → Stage width α β (Report α))
        (.ok { p with box := b, rounds := k }, ⟨(results i).2.subdomain, local'' i⟩))
        fun i => repeated (results i).2.subdomain b k (results i) :=
      (hconnect.map fun i r => repeated (results i).2.subdomain b k r).congr fun i hi => by
        rw [hlocal i hi]
        exact (connect_again hlaw hbox (hcommitted i hi).2 _ _).symm
    refine ⟨b, fun i hi => (hcommitted i hi).2.box_eq.symm ▸ hbox, Succeeds.congr (hagain.bind hprepare) fun i _ => ?_⟩
    exact ((hstages i).trans (Stage.exec_bind _ _ _)).symm
  · obtain rfl : e = .imbalance (.notConverged config.maxRounds) := Except.error.inj
      ((h.divided_of_fails hd hwalls hps hbucket hlaw hown hpos hfails).symm.trans (hlost hle))
    exact ⟨_, (Stage.collects_bind_error hprepare).congr (fun i _ => hstages i) fun _ _ => rfl⟩
  · cases (h.divided_again hd hwalls hps hbucket hlaw h' hown hpos).symm.trans (hlost hle)

/-- After any steps and one that succeeds on all ranks, the step is made again with the subdomains and the particles it left, by
ranks that do not lose patience. They never get stuck. All succeed and leave the particles exactly as they are, and the subdomains
but for signs of zeros in the box, unless the rounds run out that lead from the tree of the step, which may have been refined for
the number of ranks, back to the balanced one. There are no more of them than levels, and none if the balanced tree has a leaf
for every rank. If they do run out, all ranks fail with this cause, or are cut off by one that does. -/
theorem step_again (hlaw : Scalar.LawfulSigns α) (hpos : 0 < size) (hsize : size < 2 ^ 64)
    (hbucket : config.bucketSize * 512 < 2 ^ 64) (hwalls : ∀ a, config.box.boundaries.get a ≠ .periodic)
    (hd : Reachable β size config d) (hps : Admissible size ps) (hrun : Completes (β := β) size (fun i => ⟨d i, ps i⟩) results)
    (hok : ∀ i < size, ∃ report, (results i).1 = .ok report) :
    ∃ balanced : Leaves width.depth, ∃ k ≤ width.depth,
      balanced.IsBalanced (Global.allKeys size fun i => (results i).2.particles.own.keys) config.bucketSize ∧
      (∀ i < size, Leaves.Rounds (Global.allKeys size fun i => (results i).2.particles.own.keys) config.bucketSize k
        (results i).2.subdomain.tree balanced) ∧
      (size ≤ balanced.count → k = 0) ∧
      (stepping (β := β) size fun i => (results i).2).NeverStuck ∧
      ∀ results', CompletesInTurns (β := β) size (fun i => (results i).2) results' →
        (k < config.maxRounds → ∃ b, ∀ i < size, (results i).2.subdomain.box.Alike b ∧ (∃ report, (results' i).1 = .ok report) ∧
          (results' i).2.particles = (results i).2.particles ∧
          (results' i).2.subdomain = { (results i).2.subdomain with box := b }) ∧
        (config.maxRounds ≤ k → FailsWith size (.imbalance (.notConverged config.maxRounds)) results') := by
  obtain ⟨box, tree, hpeers⟩ := hd.peers hpos hsize
  obtain ⟨committed, balanced, k, hk, htree, _, _, hbalanced, hrounds, hzero, hsame, hlost⟩ :=
    hpeers.exists_again hps hpos hsize hbucket hlaw hwalls hrun hok
  refine ⟨balanced, k, hk, hbalanced, fun i hi => htree i hi ▸ hrounds, hzero, ?_⟩
  rcases Nat.lt_or_ge k config.maxRounds with hlt | hle
  · obtain ⟨b, hbox, hstages⟩ := hsame hlt
    have hrepeated : ∀ i < size, ∃ report,
        repeated (results i).2.subdomain b k (results i) =
          (.ok report, ⟨{ (results i).2.subdomain with box := b }, (results i).2.particles⟩) := fun i hi => by
      obtain ⟨report, hreport⟩ := hok i hi
      rw [show results i = (.ok report, (results i).2) from Prod.ext hreport rfl]
      exact ⟨_, rfl⟩
    refine ⟨neverStuck_stepping hstages,
      fun results' hrun' => ⟨fun _ => ⟨b, fun i hi => ?_⟩, fun hle => absurd hlt (Nat.not_lt.2 hle)⟩⟩
    obtain ⟨report, hreport⟩ := hrepeated i hi
    have hresult : results' i = repeated (results i).2.subdomain b k (results i) :=
      (hrun'.cutShort hstages).eq_of_not_fatal (fun j hj cause he => by
        obtain ⟨_, hreport⟩ := hrepeated j hj
        cases (congrArg Prod.fst hreport).symm.trans he) hi
    rw [hresult, hreport]
    exact ⟨hbox i hi, ⟨report, rfl⟩, rfl, rfl⟩
  · obtain ⟨rest, hstages⟩ := hlost hle
    exact ⟨neverStuck_stepping hstages.succeeds, fun results' hrun' =>
      ⟨fun hlt => absurd hlt (Nat.not_lt.2 hle), fun _ => hrun'.failsWith hstages hpos fun _ _ => rfl⟩⟩

end Whole

theorem walled_not_periodic (maxRounds : Nat) (a : Axis) : (walled maxRounds).box.boundaries.get a ≠ .periodic := by
  cases a <;> exact fun h => nomatch h

/-- Two ranks with a particle each in opposite corners can make a step that succeeds. -/
theorem exists_turns_corners {maxRounds : Nat} (hrounds : 0 < maxRounds) :
    ∃ results, CompletesInTurns (β := Exact.Symbol) 2 (fun i => ⟨initial ⟨i, 2⟩ (walled maxRounds), corners i⟩) results ∧
      ∀ i < 2, ∃ report, (results i).1 = .ok report := by
  obtain ⟨_, _, _, _, _, reports, _, _, hstages⟩ := collects_step_corners hrounds
  exact ⟨_, exists_completesInTurns hstages.succeeds, fun i _ => ⟨reports i, rfl⟩⟩

/-- Two ranks with a particle each in opposite corners: all their keys fit into the root, and the tree of the step has been
refined for them. -/
theorem step_again_corners : ∃ results,
    CompletesInTurns (β := Exact.Symbol) 2 (fun i => ⟨initial ⟨i, 2⟩ (walled 64), corners i⟩) results ∧
      (∀ i < 2, ∃ report, (results i).1 = .ok report) ∧
      ∃ results', CompletesInTurns (β := Exact.Symbol) 2 (fun i => (results i).2) results' ∧
        ∃ b, ∀ i < 2, (results i).2.subdomain.box.Alike b ∧ (∃ report, (results' i).1 = .ok report) ∧
          (results' i).2.particles = (results i).2.particles ∧
          (results' i).2.subdomain = { (results i).2.subdomain with box := b } := by
  obtain ⟨results, hrun, hok⟩ := @exists_turns_corners 64 (by decide)
  have hbucket : (walled 64).bucketSize * 512 < 2 ^ 64 := by show 64 * 512 < 2 ^ 64; decide
  obtain ⟨_, k, hk, _, _, _, hstuck, hall⟩ := step_again Exact.lawfulSigns (by decide) (by decide) hbucket
    (walled_not_periodic 64) (.start (make_walled (by decide))) admissible_corners hrun.completes hok
  have hlt : k < (walled 64).maxRounds := Nat.lt_of_le_of_lt hk (by show KeyWidth.narrow.depth < 64; decide)
  obtain ⟨results', hrun'⟩ := hstuck.exists_results (by decide)
  exact ⟨results, hrun, hok, results', hrun', (hall results' hrun').1 hlt⟩

/-- With one round only, the same step succeeds, but not when it is made again: the round is needed to merge the tree. -/
theorem not_step_again_corners : (walled 1).check = .ok () ∧ (walled 1).bucketSize * 512 < 2 ^ 64 ∧
    (∀ a, (walled 1).box.boundaries.get a ≠ .periodic) ∧
    Reachable Exact.Symbol 2 (walled 1) (fun i => (initial ⟨i, 2⟩ (walled 1) : Subdomain .narrow EReal)) ∧ Admissible 2 corners ∧
    ∃ results,
    CompletesInTurns (β := Exact.Symbol) 2 (fun i => ⟨initial ⟨i, 2⟩ (walled 1), corners i⟩) results ∧
      (∀ i < 2, ∃ report, (results i).1 = .ok report) ∧
      ∃ results', CompletesInTurns (β := Exact.Symbol) 2 (fun i => (results i).2) results' ∧
        ∀ i < 2, (results' i).1 = .error (.imbalance (.notConverged 1)) := by
  obtain ⟨results, hrun, hok⟩ := @exists_turns_corners 1 (by decide)
  have hbucket : (walled 1).bucketSize * 512 < 2 ^ 64 := by show 64 * 512 < 2 ^ 64; decide
  obtain ⟨committed, balanced, k, _, _, hmany, hfew, hbalanced, hrounds, _, _, hlost⟩ :=
    (peers_initial (by decide) (make_walled (by decide))).exists_again (β := Exact.Symbol) admissible_corners (by decide)
      (by decide) hbucket Exact.lawfulSigns (walled_not_periodic 1) hrun.completes hok
  have hsum : ((List.range 2).map fun i => (corners i).owned).sum = 2 := by decide
  have hroot : balanced = .root := hbalanced.unique (Leaves.isBalanced_root (hfew.trans (hsum ▸ by show 2 ≤ 64; decide)))
  have hk : k ≠ 0 := by
    rintro rfl
    cases hrounds
    rw [hroot] at hmany
    exact absurd hmany (by decide)
  obtain ⟨rest, hagain⟩ := hlost (Nat.one_le_iff_ne_zero.2 hk)
  exact ⟨check_walled (by decide), hbucket, walled_not_periodic 1, .start (make_walled (by decide)), admissible_corners,
    results, hrun, hok, _, exists_completesInTurns hagain.succeeds, fun _ _ => rfl⟩

end Subdomain

end CurvePartition
