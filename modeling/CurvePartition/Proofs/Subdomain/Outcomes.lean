-- SUMMARY: What the stages of peers come to when all communication works: one failure on all ranks, or one partition that all ranks commit.
import CurvePartition.Proofs.Subdomain.Connecting

/-!
# Outcomes of steps

For particles that the ranks accept the stages have one outcome: all ranks fail with one cause, or all commit one partition with
the halos of its plans (`Subdomain.Peers.collects_outcome`). A first step succeeds in a box without open axis, for no more
particles than a bucket holds (`Subdomain.collects_first_step`).
-/

namespace CurvePartition

open Program HaloPlan

variable {width : KeyWidth} {α β : Type} [Scalar α] {size i : Nat}

namespace Subdomain

/-! ## Outcomes -/

section Step

variable {config : Config α} {box : Box α} {tree : Leaves width.depth} {d : Nat → Subdomain width α}
  {ps : Nat → ParticleSet width α} [Wire α β] [Wire.LawfulWords α β] [Wire.LawfulScalars α β]

/-- What a rank comes to that connects with a partition: it commits the partition, with its halos behind its own rows. -/
def successOf (β : Type) [Wire α β] (size : Nat) (config : Config α) (p : Partition width α) (d : Nat → Subdomain width α)
    (local' : Nat → ParticleSet width α) (reports : Nat → Report α) (i : Nat) : Except (Error α) (Report α) × StepState width α :=
  let w := settingOf config p d local'
  (.ok (reports i), ⟨(d i).commit p (w.followed i).1 (w.plan i) (local' i).size,
    ParticleSet.withHalos (β := β) size w.plan local' i⟩)

/-- A step with particles that the ranks accept: all fail for one cause, or all commit one partition. -/
theorem Peers.collects_outcome (hd : Peers size config box tree d) (hps : Admissible size ps) (hpos : 0 < size)
    (hsize : size < 2 ^ 64) (hbucket : config.bucketSize * 512 < 2 ^ 64) (hlaw : LawfulCells α width.depth config.curve)
    (hfocus : ∀ i < size, (d i).focus.leaves.isValid = true) (haccepted : Accepted size box ps) :
    (∃ (e : Error α) (rest : Nat → ParticleSet width α), PrepareFails size config box tree ps e ∧
      Collects size (fun i => (stages ⟨i, size⟩ : Stage width α β (Report α)).exec ⟨d i, ps i⟩)
        fun i => (.error e, ⟨d i, rest i⟩)) ∨
    ∃ (p : Partition width α) (s : Nat → ParticleSet width α) (order : Nat → List Nat)
      (local' : Nat → ParticleSet width α) (origins : Nat → List (Nat × Nat)) (reports : Nat → Report α),
      Prepared size config box tree ps p s order local' origins ∧
      Collects size (fun i => (prepare ⟨i, size⟩ : Stage width α β (Partition width α)).exec ⟨d i, ps i⟩)
        (fun i => (.ok p, ⟨d i, local' i⟩)) ∧
      Collects size (fun i => (stages ⟨i, size⟩ : Stage width α β (Report α)).exec ⟨d i, ps i⟩)
        (successOf β size config p d local' reports) := by
  simp only [stages_eq]
  rcases collects_prepare (β := β) hd hps hpos hsize hbucket with ⟨hnot, _⟩ | ⟨_, e, rest, hfails, hprepare⟩ |
    ⟨p, s, order, local', origins, hprepared, hprepare⟩
  · exact absurd haccepted hnot
  · exact .inl ⟨e, rest, hfails, Stage.collects_bind_error hprepare⟩
  · obtain ⟨reports, hconnect⟩ := hprepared.collects_connect (β := β) hd hps hbucket
      (hprepared.proper hd hps hbucket hlaw hfocus hpos)
    exact .inr ⟨p, s, order, local', origins, reports, hprepared, hprepare, Stage.collects_bind hprepare hconnect⟩

end Step

/-! ## First steps -/

section First

variable {config : Config α} {d : Nat → Subdomain width α} {ps : Nat → ParticleSet width α} [Wire α β]
  [Wire.LawfulWords α β] [Wire.LawfulScalars α β]

/-- A first step succeeds in a box without open axis, for no more particles than a bucket holds. -/
theorem collects_first_step (hmake : ∀ i < size, make ⟨i, size⟩ config.backend config = .ok (d i)) (hps : Admissible size ps)
    (hpos : 0 < size) (hsize : size < 2 ^ 64) (hbucket : config.bucketSize * 512 < 2 ^ 64)
    (hlaw : LawfulCells α width.depth config.curve) (hclosed : ∀ a, config.box.boundaries.get a ≠ .unbounded)
    (haccepted : Accepted size config.box ps) (hfew : ((List.range size).map fun i => (ps i).owned).sum ≤ config.bucketSize)
    (hroom : size ≤ ((Leaves.root : Leaves width.depth).refine size).count) :
    ∃ (p : Partition width α) (s : Nat → ParticleSet width α) (order : Nat → List Nat)
      (local' : Nat → ParticleSet width α) (origins : Nat → List (Nat × Nat)) (reports : Nat → Report α),
      Prepared size config config.box .root ps p s order local' origins ∧
      Collects size (fun i => (prepare ⟨i, size⟩ : Stage width α β (Partition width α)).exec ⟨d i, ps i⟩)
        (fun i => (.ok p, ⟨d i, local' i⟩)) ∧
      Collects size (fun i => (stages ⟨i, size⟩ : Stage width α β (Report α)).exec ⟨d i, ps i⟩)
        (successOf β size config p d local' reports) := by
  have hd := peers_initial hpos hmake
  have hfocus : ∀ i < size, (d i).focus.leaves.isValid = true := fun i hi => by
    rw [(eq_initial_of_make hi (hmake i hi)).2]
    exact Leaves.isValid_root width.depth
  rcases hd.collects_outcome (β := β) hps hpos hsize hbucket hlaw hfocus haccepted with ⟨e, rest, hfails, _⟩ | hprepared
  swap
  · exact hprepared
  have hbox : Global.fitted size (fun _ => config.backend) (fun i => (ps i).own.coordinates) config.box = .ok config.box :=
    Global.fitted_of_closed hd.box_valid hclosed
  rcases hfails with hcommon | ⟨box', s, order, _, hs, hdivided⟩
  · cases hbox.symm.trans hcommon
  · have hlength : (Global.allKeys size fun i => (s i).keys).length ≤ config.bucketSize :=
      Nat.le_trans (length_allKeys_le hs) hfew
    obtain ⟨t, counts, a, hok⟩ := divided_root hbucket hlength ((Config.check_eq_ok_iff _).1 hd.checked).2.2.2.1 hpos hroom
    cases hok.symm.trans hdivided

end First

/-! ## Two particles between walls -/

/-- The unit cube between walls, with halos within a distance of two. -/
noncomputable def walled (maxRounds : Nat) : Config EReal where
  bucketSize := 64
  haloRadius := .fixed ((2 : ℕ) : ℝ)
  curve := .hilbert
  backend := .host
  theta := (1 : ℝ)
  maxRounds := maxRounds
  box := ⟨.replicate 0, .replicate 1, .replicate .fixed⟩

/-- A particle of a rank, with one number for all its coordinates. -/
noncomputable def single (v : EReal) (rank : Nat) : ParticleSet .narrow EReal :=
  ⟨#[0], #[v], #[v], #[v], #[0], [⟨"id", .unsigned8, #[rank]⟩], 1⟩

/-- A particle on each of two ranks, in opposite corners of the cube. -/
noncomputable def corners (rank : Nat) : ParticleSet .narrow EReal :=
  let corner : Array EReal := #[if rank = 0 then 0 else 1]
  ⟨#[0], corner, corner, corner, #[0], [⟨"id", .unsigned8, #[rank]⟩], 1⟩

theorem corners_eq (rank : Nat) : corners rank = single (if rank = 0 then 0 else 1) rank := rfl

theorem check_walled {maxRounds : Nat} (hrounds : 0 < maxRounds) : (walled maxRounds).check = .ok () := by
  have hfinite : ∀ r : ℝ, Scalar.isFinite (r : EReal) = true := fun r => Exact.isFinite_iff.2 ⟨r, rfl⟩
  have hlength : Config.isLength (((2 : ℕ) : ℝ) : EReal) = true := by
    rw [Config.isLength, hfinite, Bool.true_and, decide_eq_true_eq]
    exact EReal.coe_nonneg.2 (Nat.cast_nonneg 2)
  refine (Config.check_eq_ok_iff _).2 ⟨Nat.succ_pos 63, if_pos hlength, ⟨hfinite 1, zero_lt_one⟩, hrounds, Box.valid_unit⟩

theorem make_walled {maxRounds : Nat} (hrounds : 0 < maxRounds) : ∀ i < 2,
    make ⟨i, 2⟩ (walled maxRounds).backend (walled maxRounds) =
      .ok (initial ⟨i, 2⟩ (walled maxRounds) : Subdomain .narrow EReal) := fun _ hi =>
  make_of_check (check_walled hrounds) hi

theorem peers_corners : Peers 2 (walled 64) (walled 64).box .root fun i =>
    (initial ⟨i, 2⟩ (walled 64) : Subdomain .narrow EReal) :=
  peers_initial (by decide) (make_walled (by decide))

/-- Single particles can be packed, whichever of the ranks they are given to. -/
theorem admissible_single {size : Nat} (hsize : size < 2 ^ 64) (v : Nat → EReal) {place : Nat → Nat}
    (hplace : ∀ i < size, place i < 256) : Admissible size fun i => single (v i) (place i) where
  rowWidth_lt i _ := by
    have hwidth : (single (v i) (place i)).rowWidth = 37 := rfl
    omega
  total_lt := by
    have hsum : ((List.range size).map fun i => (single (v i) (place i)).owned).sum = size := by
      simp only [single, List.map_const', List.length_range, List.sum_replicate, smul_eq_mul, mul_one]
    omega
  fits i hi j hj := by
    obtain rfl : j = 0 := Nat.lt_one_iff.1 hj
    simpa [ParticleSet.rowFits_iff, single, ElementKind.width] using hplace i hi
  layout_eq _ _ _ _ _ := rfl

theorem admissible_corners : Admissible 2 corners :=
  admissible_single (by decide) (fun rank => if rank = 0 then 0 else 1) (by decide)

theorem own_single (v : EReal) (rank : Nat) : (single v rank).own = single v rank :=
  ParticleSet.truncate_self (by simp [ParticleSet.uniform_iff, single]) rfl

/-- A particle in the cube is valid. -/
theorem valid_single {v : ℝ} (hv : 0 ≤ v ∧ v ≤ 1) (maxRounds rank : Nat) :
    (single v rank).own.Valid (walled maxRounds).box := by
  have hfinite : ∀ r : ℝ, Scalar.isFinite (r : EReal) = true := fun r => Exact.isFinite_iff.2 ⟨r, rfl⟩
  have hposition : ∀ a, ((single v rank).position 0).get a = v := fun a => by cases a <;> rfl
  have hnormal : ∀ a, (walled maxRounds).box.normalizeAxis a (v : EReal) = .ok (v : EReal) := fun a => by
    have hin : (0 : EReal) ≤ v ∧ (v : EReal) ≤ 1 := ⟨EReal.coe_nonneg.2 hv.1, EReal.coe_le_coe_iff.2 hv.2⟩
    simp only [Box.normalizeAxis, walled, Triple.get_replicate, hfinite, if_pos hin]
    rfl
  rw [own_single]
  refine ⟨by simp [ParticleSet.uniform_iff, single, ParticleSet.size], fun j hj => ?_⟩
  obtain rfl : j = 0 := Nat.lt_one_iff.1 hj
  refine ParticleSet.checkParticle_eq_ok_iff.2 ⟨⟨hfinite 0, le_refl _⟩, fun a => ?_, ⟨v, v, v⟩, ?_⟩
  · rw [hposition a]
    exact hfinite v
  · rw [Box.normalize, show ((single v rank).position 0).x = v from hposition .x,
      show ((single v rank).position 0).y = v from hposition .y, show ((single v rank).position 0).z = v from hposition .z,
      hnormal .x, hnormal .y, hnormal .z]
    rfl

theorem accepted_corners (maxRounds : Nat) : Accepted 2 (walled maxRounds).box corners where
  valid i _ := by
    obtain ⟨v, hv, hcorner⟩ : ∃ v : ℝ, (0 ≤ v ∧ v ≤ 1) ∧ (if i = 0 then 0 else 1 : EReal) = v := by
      by_cases hi : i = 0
      · exact ⟨0, by norm_num, if_pos hi⟩
      · exact ⟨1, by norm_num, if_neg hi⟩
    rw [corners_eq, hcorner]
    exact valid_single hv maxRounds i
  layout_eq _ _ := rfl

/-- The first step with them succeeds. -/
theorem collects_step_corners {maxRounds : Nat} (hrounds : 0 < maxRounds) :
    ∃ (p : Partition .narrow EReal) (s : Nat → ParticleSet .narrow EReal) (order : Nat → List Nat)
      (local' : Nat → ParticleSet .narrow EReal) (origins : Nat → List (Nat × Nat)) (reports : Nat → Report EReal),
      Prepared 2 (walled maxRounds) (walled maxRounds).box .root corners p s order local' origins ∧
      Collects 2 (fun i => (prepare ⟨i, 2⟩ : Stage .narrow EReal Exact.Symbol (Partition .narrow EReal)).exec
        ⟨initial ⟨i, 2⟩ (walled maxRounds), corners i⟩)
        (fun i => (.ok p, ⟨initial ⟨i, 2⟩ (walled maxRounds), local' i⟩)) ∧
      Collects 2 (fun i => (stages ⟨i, 2⟩ : Stage .narrow EReal Exact.Symbol (Report EReal)).exec
        ⟨initial ⟨i, 2⟩ (walled maxRounds), corners i⟩)
        (successOf Exact.Symbol 2 (walled maxRounds) p (fun i => initial ⟨i, 2⟩ (walled maxRounds)) local' reports) := by
  have hbucket : 64 * 512 < 2 ^ 64 := by decide
  have hfew : ((List.range 2).map fun i => (corners i).owned).sum ≤ 64 := by decide
  have hwalls : ∀ a, (Triple.replicate Boundary.fixed).get a ≠ .unbounded := fun a => by cases a <;> decide
  exact collects_first_step (make_walled hrounds) admissible_corners (by decide) (by decide) hbucket (Exact.lawfulCells _ _)
    hwalls (accepted_corners maxRounds) hfew (by decide +kernel)

theorem exists_step_corners {maxRounds : Nat} (hrounds : 0 < maxRounds) :
    ∃ results, Completes (β := Exact.Symbol) 2 (fun i => ⟨initial ⟨i, 2⟩ (walled maxRounds), corners i⟩) results ∧
      ∀ i < 2, ∃ report, (results i).1 = .ok report := by
  obtain ⟨p, s, order, local', origins, reports, _, _, hstages⟩ := collects_step_corners hrounds
  exact ⟨_, exists_completes hstages.succeeds, fun i _ => ⟨reports i, rfl⟩⟩

end Subdomain

end CurvePartition
