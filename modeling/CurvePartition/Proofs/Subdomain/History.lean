-- SUMMARY: What ranks have in common after any steps that none of them ended fatally: a place each, one configuration, one box with its closed axes, and one valid tree.
import CurvePartition.Proofs.Config.Checking
import CurvePartition.Proofs.Subdomain.Preparing

/-!
# Steps one after the other

`Subdomain.Reachable` are the families of subdomains that ranks come to: the initial ones, and those that a step leaves which
no rank ends with a fatal failure, whatever particles it is given. Every failure after the partition is fatal, so either no
subdomain has changed or all ranks have committed the same box and tree (`Subdomain.Peers.after_step`). So all reachable
families are peers (`Subdomain.Reachable.peers`).
-/

namespace CurvePartition

open Program

variable {width : KeyWidth} {α β : Type} [Scalar α] {size i j : Nat}

namespace Subdomain

/-! ## The last stage -/

section Connect

variable [Wire α β]

/-- The search for halos in a partition. -/
def Partition.search (p : Partition width α) (curve : Curve) : HaloSearch width.depth α :=
  .make (.ofLeaves p.tree) p.radii p.box curve

/-- The focus tree of a rank after it has followed a partition, and how that went. -/
def followed (d : Subdomain width α) (p : Partition width α) : Focus width.depth α × Except (Error α) Nat :=
  d.focus.update p.tree p.counts p.assignment p.box d.config.curve (p.search d.config.curve).maxRadius

/-- The halo plan of a rank. -/
def planOf (d : Subdomain width α) (p : Partition width α) (focus : Focus width.depth α) (keys : Array Nat) : HaloPlan :=
  .build d.backend d.place.rank focus (p.search d.config.curve) p.tree p.assignment keys

/-- The subdomain that has taken over a partition. -/
def commit (d : Subdomain width α) (p : Partition width α) (focus : Focus width.depth α) (plan : HaloPlan)
    (localCount : Nat) : Subdomain width α :=
  { d with
    box := p.box, tree := p.tree, counts := p.counts, radii := p.radii, octree := .ofLeaves p.tree
    assignment := some p.assignment, focus, plan, localCount, haloCount := plan.haloCount }

/-- The report of a step. -/
def reportOf (d : Subdomain width α) (p : Partition width α) (focus : Focus width.depth α) (rounds : Nat)
    (plan : HaloPlan) (localCount : Nat) (totals : List Nat) : Report α where
  localCount := localCount
  haloCount := plan.haloCount
  globalParticles := totals.getD 0 0
  globalHalos := totals.getD 1 0
  globalLeaves := p.tree.count
  focusLeaves := focus.leaves.count
  balanceRounds := p.rounds
  focusRounds := rounds
  haloRadius := (p.search d.config.curve).maxRadius

/-- What follows the check of the plans. -/
def afterPlan (place : Place) (d : Subdomain width α) (p : Partition width α) (q : ParticleSet width α)
    (focus : Focus width.depth α) (rounds : Nat) (plan : HaloPlan) : Stage width α β (Report α) := do
  Stage.setParticles (q.withoutHalos plan)
  let complete ← Stage.attempt ((q.withoutHalos plan).fetchHalos place plan)
  Stage.setParticles complete
  let totals ← Stage.attempt (Attempt.exchange (Exchange.reduceWords .sum [q.size, plan.haloCount]))
  Stage.setSubdomain (d.commit p focus plan q.size)
  return reportOf d p focus rounds plan q.size totals

/-- What follows the focus tree. -/
def afterFocus (place : Place) (d : Subdomain width α) (p : Partition width α) (q : ParticleSet width α)
    (focus : Focus width.depth α) (rounds : Nat) : Stage width α β (Report α) :=
  Stage.attempt ((planOf d p focus q.keys).verify place) >>= fun _ =>
    afterPlan place d p q focus rounds (planOf d p focus q.keys)

theorem exec_connect (place : Place) (p : Partition width α) (d : Subdomain width α) (q : ParticleSet width α) :
    (connect place p : Stage width α β (Report α)).exec ⟨d, q⟩ =
      (Stage.ofExcept (followed d p).2 >>= afterFocus place d p q (followed d p).1).exec
        ⟨{ d with focus := (followed d p).1 }, q⟩ := (rfl)

end Connect

/-! ## Commitment -/

/-- A subdomain that has taken over a partition. -/
structure Committed (d : Subdomain width α) (p : Partition width α) (d' : Subdomain width α) : Prop where
  place_eq : d'.place = d.place
  config_eq : d'.config = d.config
  box_eq : d'.box = p.box
  tree_eq : d'.tree = p.tree
  counts_eq : d'.counts = p.counts
  radii_eq : d'.radii = p.radii
  assignment_eq : d'.assignment = some p.assignment
  focus_eq : ∃ rounds, followed d p = (d'.focus, .ok rounds)

/-- Whether the only failures are fatal ones. -/
def OnlyFatal {τ : Type} (r : Except (Error α) τ) : Prop := ∀ e, r = .error e → e.isFatal = true

omit [Scalar α] in
theorem onlyFatal_bind {σ τ : Type} {x : Attempt α β σ} {f : σ → Attempt α β τ} (hx : x.run.Every OnlyFatal)
    (hf : ∀ a, (f a).run.Every OnlyFatal) : (x >>= f).run.Every OnlyFatal :=
  every_bind_of_failsOnly hx hf fun _ he => FailsOnly.error he

omit [Scalar α] in
theorem onlyFatal_verify [Wire α β] (place : Place) (plan : HaloPlan) :
    (plan.verify place : Attempt α β Unit).run.Every OnlyFatal := by
  refine onlyFatal_bind (every_exchange _) fun announced => ?_
  split
  · exact fun e h => Except.error.inj h ▸ rfl
  · exact fun e h => nomatch h

theorem onlyFatal_fetchHalos [Wire α β] (place : Place) (plan : HaloPlan) (p : ParticleSet width α) :
    (p.fetchHalos place plan : Attempt α β _).run.Every OnlyFatal :=
  onlyFatal_bind (every_exchange _) fun _ _ h => nomatch h

/-- A subdomain is committed, or the last stage fails fatally. -/
theorem every_connect [Wire α β] (place : Place) (p : Partition width α) (d : Subdomain width α) (q : ParticleSet width α) :
    ((connect place p : Stage width α β (Report α)).exec ⟨d, q⟩).Every fun r =>
      (∃ e, r.1 = .error e ∧ e.isFatal = true) ∨ (∃ report, r.1 = .ok report) ∧ Committed d p r.2.subdomain := by
  rw [exec_connect]
  cases hfollowed : followed d p with
  | mk focus settled =>
  cases settled with
  | error e =>
    refine .inl ⟨e, rfl, ?_⟩
    have herror : (followed d p).2 = .error e := by rw [hfollowed]
    unfold followed Focus.update at herror
    dsimp only at herror
    split at herror
    · cases herror
      rfl
    · cases herror
  | ok rounds =>
    rw [Stage.exec_ofExcept_ok]
    refine Stage.every_attempt_bind (onlyFatal_verify _ _) (fun _ _ => ?_) fun e he => .inl ⟨e, rfl, he e rfl⟩
    refine Stage.every_attempt_bind (onlyFatal_fetchHalos _ _ _) (fun _ _ => ?_) fun e he => .inl ⟨e, rfl, he e rfl⟩
    refine Stage.every_attempt_bind (every_exchange _) (fun _ _ => ?_) fun e he => .inl ⟨e, rfl, he e rfl⟩
    exact .inr ⟨⟨_, rfl⟩, rfl, rfl, rfl, rfl, rfl, rfl, rfl, rounds, hfollowed⟩

/-! ## Reachable families -/

/-- Families of subdomains that ranks come to: at first those of a configuration, then those that a step leaves which no rank
ends with a fatal failure. -/
inductive Reachable (β : Type) [Wire α β] (size : Nat) (config : Config α) : (Nat → Subdomain width α) → Prop
  | start {d : Nat → Subdomain width α} (h : ∀ i < size, make ⟨i, size⟩ config.backend config = .ok (d i)) :
    Reachable β size config d
  | step {d d' : Nat → Subdomain width α} {ps : Nat → ParticleSet width α}
    {results : Nat → Except (Error α) (Report α) × StepState width α} (before : Reachable β size config d)
    (given : Admissible size ps) (completes : Completes (β := β) size (fun i => ⟨d i, ps i⟩) results)
    (notFatal : ∀ i < size, ∀ e, (results i).1 = .error e → e.isFatal = false)
    (after : ∀ i < size, d' i = (results i).2.subdomain) : Reachable β size config d'

section Step

variable {config : Config α} {box : Box α} {tree : Leaves width.depth} {d d' : Nat → Subdomain width α}
  {ps : Nat → ParticleSet width α} {results : Nat → Except (Error α) (Report α) × StepState width α}
  [Wire α β] [Wire.LawfulWords α β] [Wire.LawfulScalars α β]

omit [Scalar α] [Wire α β] [Wire.LawfulWords α β] [Wire.LawfulScalars α β] in
theorem faultFree_of_notFatal (h : ∀ i < size, ∀ e, (results i).1 = .error e → e.isFatal = false) :
    FaultFree size results := fun i hi cause heq => by
  have := h i hi _ heq
  cases this

/-- After a step that no rank ended fatally no subdomain has changed, as all failed together, or all are committed to one
partition. -/
theorem Peers.after_step (hd : Peers size config box tree d) (hps : Admissible size ps) (hpos : 0 < size)
    (hsize : size < 2 ^ 64) (h : Completes (β := β) size (fun i => ⟨d i, ps i⟩) results)
    (hfatal : ∀ i < size, ∀ e, (results i).1 = .error e → e.isFatal = false) :
    (∀ i < size, (∃ e, (results i).1 = .error e) ∧ (results i).2.subdomain = d i) ∨
    ∃ (p : Partition width α) (s : Nat → ParticleSet width α) (order : Nat → List Nat)
      (local' : Nat → ParticleSet width α) (origins : Nat → List (Nat × Nat)), config.bucketSize * 512 < 2 ^ 64 ∧
      Prepared size config box tree ps p s order local' origins ∧
      Succeeds size (fun i => (connect ⟨i, size⟩ p : Stage width α β (Report α)).exec ⟨d i, local' i⟩) results ∧
      ∀ i < size, (∃ report, (results i).1 = .ok report) ∧ Committed (d i) p (results i).2.subdomain := by
  have hsucceeds := h.succeeds (faultFree_of_notFatal hfatal)
  rcases Nat.lt_or_ge (config.bucketSize * 512) (2 ^ 64) with hbucket | hlarge
  swap
  · rcases every_prepare_of_too_large hd hps hpos hsize hlarge hsucceeds with ⟨e, he⟩ | hall
    · exact .inl fun i hi => by simp [he i hi]
    · obtain ⟨e, he, hbad⟩ := hall 0 hpos
      exact absurd ((hfatal 0 hpos e he).symm.trans hbad) Bool.false_ne_true
  have hstages : ∀ i, (stages ⟨i, size⟩ : Stage width α β (Report α)).exec ⟨d i, ps i⟩ =
      (prepare ⟨i, size⟩).exec ⟨d i, ps i⟩ >>= Stage.andThen (connect ⟨i, size⟩) := fun i => by
    rw [stages_eq, Stage.exec_bind]
  simp only [hstages] at hsucceeds
  have hfailed : ∀ {e : Nat → Error α} {rest : Nat → ParticleSet width α}, Collects size (fun i => (prepare ⟨i, size⟩ :
      Stage width α β (Partition width α)).exec ⟨d i, ps i⟩) (fun i => (.error (e i), ⟨d i, rest i⟩)) →
      ∀ i < size, (∃ e, (results i).1 = .error e) ∧ (results i).2.subdomain = d i := fun {e rest} hprepare i hi => by
    have heq : results i = (.error (e i), ⟨d i, rest i⟩) := (Collects.done _).succeeds.unique
      (hsucceeds.after (k := fun i => Stage.andThen (connect ⟨i, size⟩)) hprepare) hi
    rw [heq]
    exact ⟨⟨e i, rfl⟩, rfl⟩
  rcases collects_prepare (β := β) hd hps hpos hsize hbucket with ⟨_, e, hprepare⟩ | ⟨_, e, rest, _, hprepare⟩ |
    ⟨p, s, order, local', origins, hprepared, hprepare⟩
  · exact .inl (hfailed hprepare)
  · exact .inl (hfailed hprepare)
  · have hconnect := hsucceeds.after (k := fun i => Stage.andThen (connect ⟨i, size⟩)) hprepare
    refine .inr ⟨p, s, order, local', origins, hbucket, hprepared, hconnect, fun i hi => ?_⟩
    rcases hconnect.every hi (every_connect _ _ _ _) with ⟨e, he, hbad⟩ | hok
    · exact absurd ((hfatal i hi e he).symm.trans hbad) Bool.false_ne_true
    · exact hok

/-- Subdomains committed to one partition are peers again. -/
theorem Prepared.peers {p : Partition width α} {s : Nat → ParticleSet width α} {order : Nat → List Nat}
    {local' : Nat → ParticleSet width α} {origins : Nat → List (Nat × Nat)}
    (h : Prepared size config box tree ps p s order local' origins) (hd : Peers size config box tree d)
    (hbucket : config.bucketSize * 512 < 2 ^ 64) (hd' : ∀ i < size, Committed (d i) p (d' i)) :
    Peers size config p.box p.tree d' := by
  obtain ⟨hvalid, hclosed, _⟩ := Global.fitted_valid hd.box_valid h.box_eq
  have hfocus : ∀ i < size, (d' i).focus.rank = (d i).focus.rank ∧ (d' i).focus.theta = (d i).focus.theta := by
    intro i hi
    obtain ⟨rounds, hfollowed⟩ := (hd' i hi).focus_eq
    have heq : (d' i).focus = (followed (d i) p).1 := by rw [hfollowed]
    rw [heq, followed, Focus.update]
    split
    · exact ⟨rfl, rfl⟩
    · exact ⟨rfl, rfl⟩
  exact {
    place_eq := fun i hi => (hd' i hi).place_eq.trans (hd.place_eq i hi)
    config_eq := fun i hi => (hd' i hi).config_eq.trans (hd.config_eq i hi)
    box_eq := fun i hi => (hd' i hi).box_eq
    tree_eq := fun i hi => (hd' i hi).tree_eq
    focus_rank := fun i hi => (hfocus i hi).1.trans (hd.focus_rank i hi)
    focus_theta := fun i hi => (hfocus i hi).2.trans (hd.focus_theta i hi)
    checked := hd.checked
    box_valid := hvalid
    closed := hd.closed.trans hclosed
    tree_valid := (divided_spec hbucket hd.tree_valid h.divided_eq).1 }

omit [Wire α β] [Wire.LawfulWords α β] [Wire.LawfulScalars α β] in
theorem eq_initial_of_make (hi : i < size) {d : Subdomain width α} (h : make ⟨i, size⟩ config.backend config = .ok d) :
    config.check = .ok () ∧ d = initial ⟨i, size⟩ config := by
  obtain ⟨_, hcheck, hrest⟩ := bind_eq_ok.1 h
  refine ⟨hcheck, ?_⟩
  rw [if_neg (fun hne => hne rfl), if_neg (Nat.not_le.2 hi)] at hrest
  exact (Except.ok.inj hrest).symm

omit [Wire α β] [Wire.LawfulWords α β] [Wire.LawfulScalars α β] in
theorem make_of_check (hcheck : config.check = .ok ()) (hi : i < size) :
    make ⟨i, size⟩ config.backend config = .ok (initial ⟨i, size⟩ config : Subdomain width α) := by
  rw [make, hcheck, if_neg (fun h => h rfl), if_neg (Nat.not_le.2 hi)]
  rfl

omit [Wire α β] [Wire.LawfulWords α β] [Wire.LawfulScalars α β] in
theorem peers_initial (hpos : 0 < size) (h : ∀ i < size, make ⟨i, size⟩ config.backend config = .ok (d i)) :
    Peers size config config.box .root d := by
  have hchecked := (eq_initial_of_make hpos (h 0 hpos)).1
  have hvalid := ((Config.check_eq_ok_iff _).1 hchecked).2.2.2.2
  constructor
  case checked => exact hchecked
  case box_valid => exact hvalid
  case closed => exact .refl _
  case tree_valid => exact Leaves.isValid_root width.depth
  all_goals
    intro i hi
    rw [(eq_initial_of_make hi (h i hi)).2]
    rfl

omit [Wire α β] [Wire.LawfulWords α β] [Wire.LawfulScalars α β] in
theorem Peers.congr (h : Peers size config box tree d) (heq : ∀ i < size, d' i = d i) : Peers size config box tree d' where
  place_eq i hi := heq i hi ▸ h.place_eq i hi
  config_eq i hi := heq i hi ▸ h.config_eq i hi
  box_eq i hi := heq i hi ▸ h.box_eq i hi
  tree_eq i hi := heq i hi ▸ h.tree_eq i hi
  focus_rank i hi := heq i hi ▸ h.focus_rank i hi
  focus_theta i hi := heq i hi ▸ h.focus_theta i hi
  checked := h.checked
  box_valid := h.box_valid
  closed := h.closed
  tree_valid := h.tree_valid

/-- After any steps that no rank ended fatally the ranks are peers. -/
theorem Reachable.peers (h : Reachable β size config d) (hpos : 0 < size) (hsize : size < 2 ^ 64) :
    ∃ (box : Box α) (tree : Leaves width.depth), Peers size config box tree d := by
  induction h with
  | start hmake => exact ⟨_, _, peers_initial hpos hmake⟩
  | step before given completes notFatal after ih =>
    obtain ⟨box, tree, hd⟩ := ih
    rcases hd.after_step given hpos hsize completes notFatal with hsame | ⟨p, s, order, local', origins, hbucket, hprepared,
      _, hcommitted⟩
    · exact ⟨box, tree, hd.congr fun i hi => (after i hi).trans (hsame i hi).2⟩
    · exact ⟨p.box, p.tree, hprepared.peers hd hbucket fun i hi => after i hi ▸ (hcommitted i hi).2⟩

end Step

end Subdomain

end CurvePartition
