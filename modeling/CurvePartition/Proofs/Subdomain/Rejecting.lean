-- SUMMARY: Steps that ranks reject before anything has changed: all of them stop with causes that are not fatal, keep their subdomains and own particles, and leave no message behind.
import CurvePartition.Proofs.Cluster.Succession
import CurvePartition.Proofs.Subdomain.Finishing
import CurvePartition.Proofs.Subdomain.Outcomes

/-!
# Rejected steps

Before a step the ranks agree on whether to go on. If the checks of some rank fail, or the traits of the ranks differ, all of
them stop together (`Subdomain.step_rejected`). No such failure is fatal. What a rank reports is described by
`Subdomain.Rejection`: its own failure if there is one, else the number that the last failing subdomain has for its place.
That number is the one of a rank that failed only as long as each rank works with the subdomain of its own place.

When all ranks try again after a rejected step, they come to what they would have come to without it. In turns this is so
whatever the second step comes to (`Subdomain.reachesInTurns_retry`): it begins with a reduction, so no rank can end the run in it
before all have begun it.
-/

namespace CurvePartition

open Program

variable {width : KeyWidth} {α β τ : Type} [Scalar α] {size : Nat}

/-- Whether the caller may try again after any failure. -/
abbrev Retryable (r : Except (Error α) τ) : Prop := FailsOnly (fun e => e.isFatal = false) r

/-! ## Failures of the checks -/

omit [Scalar α] in
theorem ParticleSet.retryable_checkLength (name : String) (expected found : Nat) :
    Retryable (checkLength name expected found : Except (Error α) Unit) := by
  unfold checkLength
  split
  · exact FailsOnly.ok _
  · exact FailsOnly.error rfl

omit [Scalar α] in
theorem ParticleSet.retryable_checkLengths (p : ParticleSet width α) : Retryable p.checkLengths :=
  (retryable_checkLength _ _ _).bind fun _ => (retryable_checkLength _ _ _).bind fun _ =>
    (retryable_checkLength _ _ _).bind fun _ => (retryable_checkLength _ _ _).bind fun _ =>
      FailsOnly.forM (fun _ => retryable_checkLength _ _ _) _

theorem Box.retryable_normalizeAxis (b : Box α) (a : Axis) (value : α) : Retryable (b.normalizeAxis a value) := by
  unfold normalizeAxis
  dsimp only
  split
  · exact FailsOnly.error rfl
  · split
    · exact FailsOnly.ok _
    · exact FailsOnly.ok _
    · split
      · exact FailsOnly.ok _
      · exact FailsOnly.error rfl

theorem Box.retryable_normalize (b : Box α) (p : Triple α) : Retryable (b.normalize p) :=
  (b.retryable_normalizeAxis _ _).bind fun _ => (b.retryable_normalizeAxis _ _).bind fun _ =>
    (b.retryable_normalizeAxis _ _).bind fun _ => FailsOnly.ok _

namespace Subdomain

theorem retryable_checkParticle (box : Box α) (p : ParticleSet width α) (i : Nat) : Retryable (checkParticle box p i) := by
  unfold checkParticle
  dsimp only
  split
  · exact FailsOnly.error rfl
  · split
    · exact FailsOnly.error rfl
    · exact (box.retryable_normalize _).bind fun _ => FailsOnly.ok _

theorem retryable_validate (d : Subdomain width α) (place : Place) (p : ParticleSet width α) : Retryable (d.validate place p) := by
  unfold validate
  split
  · exact FailsOnly.error rfl
  · exact p.retryable_checkLengths.bind fun _ => FailsOnly.forM (fun i => retryable_checkParticle d.box p i) _

omit [Scalar α] in
theorem retryable_verdict {own : Except (Error α) Unit} (h : Retryable own)
    (failed rows backend layout rows' backend' layout' : Nat) :
    Retryable (verdict own failed rows backend layout rows' backend' layout') := by
  cases own with
  | error e => exact h
  | ok u =>
    rw [verdict_ok]
    refine FailsOnly.bind (FailsOnly.guard rfl) fun _ => FailsOnly.bind (FailsOnly.guard rfl) fun _ => ?_
    exact FailsOnly.bind (FailsOnly.guard rfl) fun _ => FailsOnly.bind (FailsOnly.guard rfl) fun _ => FailsOnly.ok _

/-! ## What the ranks report -/

/-- What ranks report that stopped before a step, given the results of their own checks. -/
structure Rejection (size : Nat) (d : Nat → Subdomain width α) (own : Nat → Except (Error α) Unit) (e : Nat → Error α) :
    Prop where
  not_fatal : ∀ i < size, (e i).isFatal = false
  /-- A rank that failed reports its own cause. -/
  own_cause : ∀ i < size, ∀ cause, own i = .error cause → e i = cause
  /-- The others report the place of the last subdomain among those that failed. -/
  peers_cause : (∃ s < size, own s ≠ .ok ()) → ∃ s < size, own s ≠ .ok () ∧
    (∀ t < size, own t ≠ .ok () → (d t).place.rank ≤ (d s).place.rank) ∧
    ∀ i < size, own i = .ok () → e i = .peerRejected (d s).place.rank
  /-- If none failed all report the same. -/
  common_cause : (∀ i < size, own i = .ok ()) → ∀ i < size, e i = e 0

section Rejection

variable {d : Nat → Subdomain width α} {own : Nat → Except (Error α) Unit} {ps : Nat → ParticleSet width α}

omit [Scalar α] in
/-- The largest of the words for failed ranks is that of the last failing subdomain. -/
theorem exists_last_failed (d : Nat → Subdomain width α) (ps : Nat → ParticleSet width α) (hpos : 0 < size)
    (hfailed : ∃ s < size, own s ≠ .ok ()) : ∃ s < size, own s ≠ .ok () ∧
      (∀ t < size, own t ≠ .ok () → (d t).place.rank ≤ (d s).place.rank) ∧
        (largestWords size d own ps).getD 0 0 = (d s).place.rank + 1 := by
  obtain ⟨hle, s, hs, hmost⟩ := Delivery.combineAll_max (f := fun s => words (d s) (own s) (ps s)) (n := 4) (j := 0) hpos
    (fun _ _ => rfl) (by decide)
  have hword : ∀ t, own t ≠ .ok () → (words (d t) (own t) (ps t)).getD 0 0 = (d t).place.rank + 1 := by
    intro t ht
    cases hown : own t with
    | ok u => exact absurd hown ht
    | error e => rfl
  have hsfailed : own s ≠ .ok () := by
    intro hok
    obtain ⟨t, ht, htfailed⟩ := hfailed
    have hbound := hle t ht
    rw [hmost, hok, hword t htfailed] at hbound
    exact absurd hbound (Nat.not_succ_le_zero _)
  rw [hword s hsfailed] at hmost
  refine ⟨s, hs, hsfailed, fun t ht htfailed => ?_, hmost⟩
  have hbound := hle t ht
  rw [hmost, hword t htfailed] at hbound
  exact Nat.le_of_succ_le_succ hbound

omit [Scalar α] in
/-- Ranks that do not go on report a rejection. -/
theorem exists_rejection (hpos : 0 < size) (hown : ∀ i, Retryable (own i))
    (hreject : ¬ ((∀ i < size, own i = .ok ()) ∧ ∀ i < size, traits (d i) (ps i) = traits (d 0) (ps 0))) :
    ∃ e, (∀ i < size, conclusion size d own ps i = .error (e i)) ∧ Rejection size d own e := by
  obtain ⟨e, he⟩ := exists_causes hpos hreject
  refine ⟨e, he, ?_, ?_, ?_, ?_⟩
  · exact fun i hi => retryable_verdict (hown i) _ _ _ _ _ _ _ (e i) (he i hi)
  · intro i hi cause hcause
    have hconclusion := he i hi
    rw [conclusion, hcause] at hconclusion
    exact (Except.error.inj hconclusion).symm
  · intro hfailed
    obtain ⟨s, hs, hsfailed, hlast, hmost⟩ := exists_last_failed d ps hpos hfailed
    refine ⟨s, hs, hsfailed, hlast, fun i hi hok => ?_⟩
    have hconclusion := he i hi
    rw [conclusion, hok, verdict_ok, hmost, if_pos (Nat.succ_ne_zero _)] at hconclusion
    exact (Except.error.inj hconclusion).symm
  · intro hall i hi
    have hsame : conclusion size d own ps i = conclusion size d own ps 0 := by
      rw [conclusion, conclusion, hall i hi, hall 0 hpos]
    exact Except.error.inj ((he i hi).symm.trans (hsame.trans (he 0 hpos)))

end Rejection

/-! ## Rejected steps -/

variable [Wire α β]

/-- What comes after a step: nothing, unless it was rejected. Then another one is made with other particles. -/
def retry {Op : Type} {Answer : Op → Type} (corrected : ParticleSet width α)
    (again : StepState width α → Program Answer (Except (Error α) (Report α) × StepState width α))
    (r : Except (Error α) (Report α) × StepState width α) :
    Program Answer (Except (Error α) (Report α) × StepState width α) :=
  match r.1 with
  | .ok _ => .done r
  | .error cause => if cause.isFatal then .done r else again ⟨r.2.subdomain, corrected⟩

/-- A step, and if it was rejected another one with other particles. -/
def stepOrRetry (place : Place) (state : StepState width α) (corrected : ParticleSet width α) :
    Program (Call.Answer : Call α β → Type) (Except (Error α) (Report α) × StepState width α) :=
  step place state >>= retry corrected (step place)

/-- Only the last of the steps may end the run. -/
theorem expand_stepOrRetry (place : Place) (state : StepState width α) (corrected : ParticleSet width α) :
    (stepOrRetry place state corrected : Program (Call.Answer : Call α β → Type) _).expand (Call.toActions place) =
      ((stages place).exec state >>= retry corrected (stages place).exec).expand (Call.toActions place) >>= closing := by
  rw [stepOrRetry, expand_bind, expand_step, expand_bind, bind_assoc, bind_assoc]
  refine congrArg (((stages place).exec state).expand (Call.toActions place) >>= ·) (funext fun r => ?_)
  obtain ⟨result, s'⟩ := r
  cases result with
  | ok report => rfl
  | error cause =>
    cases hfatal : cause.isFatal with
    | true => simp only [closing, retry, hfatal, if_true, call_bind, done_bind, expand]
    | false => simp only [closing, retry, hfatal, Bool.false_eq_true, if_false, done_bind, expand_step]

theorem failsFast_stages_retry (place : Place) (state : StepState width α) (corrected : ParticleSet width α) :
    ((stages place).exec state >>= retry corrected (stages place).exec : Program (Call.Answer : Call α β → Type) _).FailsFast
      Call.failure fun e r => r.1 = .error (.communication e) := by
  refine ((regular_stages place).failsFast state).bind (fun r => ?_) fun e (result, s') hr => ?_
  · unfold retry
    split
    · exact .done _
    · split
      · exact .done _
      · exact (regular_stages place).failsFast _
  · obtain rfl : result = .error (.communication e) := hr
    exact ⟨_, rfl, rfl⟩

/-- A step begins with a reduction, in which a rank has to wait for all others. -/
theorem awaits_step [Wire.LawfulWords α β] (place : Place) {s : Nat} (hs : s < place.size) (hrank : place.rank < place.size)
    (hne : s ≠ place.rank) (state : StepState width α) : Awaits place.size (fun data => data.length = 4 * Wire.wordWidth) s
      ((step place state : Program (Call.Answer : Call α β → Type) _).expand (Call.toActions place)) := by
  obtain ⟨d, p⟩ := state
  rw [expand_step, stages, Stage.exec_bind, exec_gather, Stage.exec_bind, Stage.exec_attempt]
  refine Awaits.bind (Awaits.expand_bind (Awaits.expand_bind (Awaits.expand_bind ?_)))
  exact Awaits.expand_bind (Awaits.expand_bind (Exchange.awaits_reduceWords hs hrank hne .max rfl))

section Reject

variable [Wire.LawfulWords α β] {d : Nat → Subdomain width α} {ps : Nat → ParticleSet width α}

/-- Ranks that do not accept their particles make no stage but the agreement. -/
theorem collects_stages_rejected (hpos : 0 < size) (hplace : ∀ i < size, (d i).place.rank + 1 < 2 ^ 64)
    (hrows : ∀ i < size, (ps i).rowWidth < 2 ^ 64)
    (hreject : (∃ i < size, (d i).validate ⟨i, size⟩ (ps i).own ≠ .ok ()) ∨
      ∃ i < size, traits (d i) (ps i) ≠ traits (d 0) (ps 0)) :
    ∃ e, Rejection size d (fun i => (d i).validate ⟨i, size⟩ (ps i).own) e ∧
      Collects size (fun i => (stages ⟨i, size⟩ : Stage width α β (Report α)).exec ⟨d i, ps i⟩)
        fun i => (.error (e i), ⟨d i, (ps i).own⟩) := by
  have htraits : ∀ i, traits (d i) (ps i).own = traits (d i) (ps i) := fun i => by
    rw [traits, traits, ParticleSet.rowWidth_eq_of_layout_eq (ps i).layout_own,
      ParticleSet.fingerprint_eq_of_layout_eq (ps i).layout_own]
  have hnot : ¬ ((∀ i < size, (d i).validate ⟨i, size⟩ (ps i).own = .ok ()) ∧
      ∀ i < size, traits (d i) (ps i).own = traits (d 0) (ps 0).own) := by
    simp only [htraits]
    rintro ⟨hvalid, hsame⟩
    rcases hreject with ⟨i, hi, hne⟩ | ⟨i, hi, hne⟩
    · exact hne (hvalid i hi)
    · exact hne (hsame i hi)
  obtain ⟨e, he, hrejection⟩ := exists_rejection hpos (fun i => retryable_validate (d i) ⟨i, size⟩ (ps i).own) hnot
  have hagree := collects_conclusion (β := β) d (fun i => (d i).validate ⟨i, size⟩ (ps i).own) (fun i => (ps i).own) hplace
    fun i hi => by
      rw [ParticleSet.rowWidth_eq_of_layout_eq (ps i).layout_own]
      exact hrows i hi
  refine ⟨e, hrejection, ?_⟩
  have hgather : Collects size (fun i => (gather ⟨i, size⟩ : Stage width α β (Box α)).exec ⟨d i, ps i⟩)
      fun i => (.error (e i), ⟨d i, (ps i).own⟩) := by
    simp only [exec_gather]
    exact Stage.collects_bind_error (Stage.collects_attempt (hagree.congr (fun _ _ => rfl) fun i hi => (he i hi).symm))
  exact Stage.collects_bind_error hgather

/-- When the first step settles with what is tried again, the second one comes to what it comes to alone. -/
theorem reachesInTurns_retry {before : Nat → StepState width α} {corrected : Nat → ParticleSet width α}
    {rs results : Nat → Except (Error α) (Report α) × StepState width α}
    (hstep : Collects size (fun i => (step ⟨i, size⟩ (before i) : Program (Call.Answer : Call α β → Type) _)) rs)
    (hretry : ∀ i < size, retry (corrected i) (step ⟨i, size⟩ : _ → Program (Call.Answer : Call α β → Type) _) (rs i) =
      step ⟨i, size⟩ ⟨d i, corrected i⟩) :
    Cluster.ReachesInTurns size (fun i => (stepOrRetry ⟨i, size⟩ (before i) (corrected i) :
      Program (Call.Answer : Call α β → Type) _).expand (Call.toActions ⟨i, size⟩)) results ↔
        CompletesInTurns (β := β) size (fun i => ⟨d i, corrected i⟩) results := by
  have hlast : ∀ i < size, (retry (corrected i) (step ⟨i, size⟩) (rs i) : Program (Call.Answer : Call α β → Type) _).expand
      (Call.toActions ⟨i, size⟩) = (step ⟨i, size⟩ ⟨d i, corrected i⟩).expand (Call.toActions ⟨i, size⟩) := fun i hi =>
    congrArg (Program.expand (Call.toActions ⟨i, size⟩)) (hretry i hi)
  have hawaits : ∀ s < size, ∀ i < size, i ≠ s → Awaits size (fun data => data.length = 4 * Wire.wordWidth) s
      ((retry (corrected i) (step ⟨i, size⟩) (rs i) : Program (Call.Answer : Call α β → Type) _).expand
        (Call.toActions ⟨i, size⟩)) := fun s hs i hi hne => by
    rw [hlast i hi]
    exact awaits_step ⟨i, size⟩ hs hi (Ne.symm hne) _
  simp only [stepOrRetry, expand_bind]
  exact (Cluster.reachesInTurns_bind_iff (k := fun i r => (retry (corrected i) (step ⟨i, size⟩) r).expand
    (Call.toActions ⟨i, size⟩)) hstep hawaits).trans (Cluster.reachesInTurns_congr hlast)

/-- Ranks stop together before anything has changed if the checks of some rank fail or the traits of the ranks differ. What
they report is a rejection. In whatever order they act, they keep their subdomains and their own particles as they are and
leave no message behind. So the next step comes to the same results as if this one had not been made, if nobody loses patience,
and if somebody may but nobody fails to communicate. -/
theorem step_rejected (hpos : 0 < size) (hplace : ∀ i < size, (d i).place.rank + 1 < 2 ^ 64)
    (hrows : ∀ i < size, (ps i).rowWidth < 2 ^ 64)
    (hreject : (∃ i < size, (d i).validate ⟨i, size⟩ (ps i).own ≠ .ok ()) ∨
      ∃ i < size, traits (d i) (ps i) ≠ traits (d 0) (ps 0)) :
    ∃ e, Rejection size d (fun i => (d i).validate ⟨i, size⟩ (ps i).own) e ∧
      (Cluster.start ((List.range size).map fun i =>
        (step ⟨i, size⟩ ⟨d i, ps i⟩ : Program (Call.Answer : Call α β → Type) _).expand (Call.toActions ⟨i, size⟩))).Settles
          ((List.range size).map fun i => (.error (e i), ⟨d i, (ps i).own⟩)) ∧
      ∀ (corrected : Nat → ParticleSet width α) (results : Nat → Except (Error α) (Report α) × StepState width α),
        (Cluster.ReachesInTurns size (fun i => (stepOrRetry ⟨i, size⟩ ⟨d i, ps i⟩ (corrected i) :
          Program (Call.Answer : Call α β → Type) _).expand (Call.toActions ⟨i, size⟩)) results ↔
            CompletesInTurns (β := β) size (fun i => ⟨d i, corrected i⟩) results) ∧
        (FaultFree size results →
          (Cluster.Reaches size (fun i => (stepOrRetry ⟨i, size⟩ ⟨d i, ps i⟩ (corrected i) :
            Program (Call.Answer : Call α β → Type) _).expand (Call.toActions ⟨i, size⟩)) results ↔
              Completes (β := β) size (fun i => ⟨d i, corrected i⟩) results)) := by
  obtain ⟨e, hrejection, hstages⟩ := collects_stages_rejected (β := β) hpos hplace hrows hreject
  have hstep : Collects size (fun i => (step ⟨i, size⟩ ⟨d i, ps i⟩ : Program (Call.Answer : Call α β → Type) _))
      fun i => (.error (e i), ⟨d i, (ps i).own⟩) := collects_step hstages fun i hi cause hcause => by
    rw [← Except.error.inj hcause]
    exact hrejection.not_fatal i hi
  have hretry : ∀ (corrected : Nat → ParticleSet width α) {Op : Type} {Answer : Op → Type}
      (again : StepState width α → Program Answer (Except (Error α) (Report α) × StepState width α)) {i : Nat}, i < size →
        retry (corrected i) again (.error (e i), ⟨d i, (ps i).own⟩) = again ⟨d i, corrected i⟩ :=
    fun corrected _ _ again i hi => by simp only [retry, hrejection.not_fatal i hi, Bool.false_eq_true, if_false]
  refine ⟨e, hrejection, hstep.settles, fun corrected results => ⟨?_, fun hfault => ?_⟩⟩
  · exact reachesInTurns_retry hstep fun i hi => hretry corrected _ hi
  · simp only [expand_stepOrRetry]
    constructor
    · intro h
      have hrest := (succeeds_of_reaches (fun i => failsFast_stages_retry ⟨i, size⟩ _ (corrected i)) h hfault).after
        (k := fun i => retry (corrected i) (stages ⟨i, size⟩).exec) hstages
      exact exists_completes (hrest.congr fun i hi => hretry corrected _ hi)
    · intro h
      refine (reachesInTurns_of_succeeds
        (Succeeds.bind (k := fun i => retry (corrected i) (stages ⟨i, size⟩).exec) ?_ hstages)).reaches
      exact (h.succeeds hfault).congr fun i hi => (hretry corrected _ hi).symm

end Reject

/-! ## Two ranks with the subdomain of one place -/

/-- The subdomain of the first of two places on both ranks. -/
noncomputable def misplaced (_rank : Nat) : Subdomain .narrow EReal := initial ⟨0, 2⟩ (walled 64)

theorem validate_misplaced_zero : (misplaced 0).validate ⟨0, 2⟩ (corners 0).own = .ok () :=
  have hvalid := (accepted_corners 64).valid 0 (by decide)
  validate_eq_ok_iff.2 ⟨rfl, hvalid.uniform, hvalid.checked⟩

theorem validate_misplaced_one : (misplaced 1).validate ⟨1, 2⟩ (corners 1).own ≠ .ok () := fun h => by
  have hplace := (validate_eq_ok_iff.1 h).1
  cases hplace

theorem step_rejected_corners : ∃ e, Rejection 2 misplaced (fun i => (misplaced i).validate ⟨i, 2⟩ (corners i).own) e ∧
    (Cluster.start ((List.range 2).map fun i => (step ⟨i, 2⟩ ⟨misplaced i, corners i⟩ :
      Program (Call.Answer : Call EReal Exact.Symbol → Type) _).expand (Call.toActions ⟨i, 2⟩))).Settles
        ((List.range 2).map fun i => (.error (e i), ⟨misplaced i, (corners i).own⟩)) ∧
    ∀ (corrected : Nat → ParticleSet .narrow EReal) (results : Nat → Except (Error EReal) (Report EReal) × StepState .narrow EReal),
      (Cluster.ReachesInTurns 2 (fun i => (stepOrRetry ⟨i, 2⟩ ⟨misplaced i, corners i⟩ (corrected i) :
        Program (Call.Answer : Call EReal Exact.Symbol → Type) _).expand (Call.toActions ⟨i, 2⟩)) results ↔
          CompletesInTurns (β := Exact.Symbol) 2 (fun i => ⟨misplaced i, corrected i⟩) results) ∧
      (FaultFree 2 results →
        (Cluster.Reaches 2 (fun i => (stepOrRetry ⟨i, 2⟩ ⟨misplaced i, corners i⟩ (corrected i) :
          Program (Call.Answer : Call EReal Exact.Symbol → Type) _).expand (Call.toActions ⟨i, 2⟩)) results ↔
            Completes (β := Exact.Symbol) 2 (fun i => ⟨misplaced i, corrected i⟩) results)) :=
  step_rejected (by decide) (fun i _ => show 0 + 1 < 2 ^ 64 by decide) admissible_corners.rowWidth_lt
    (.inl ⟨1, by decide, validate_misplaced_one⟩)

/-- Only the second rank fails its checks, but the first is told that it rejected the step itself. -/
theorem rejected_by_itself_corners : (misplaced 0).validate ⟨0, 2⟩ (corners 0).own = .ok () ∧
    (misplaced 1).validate ⟨1, 2⟩ (corners 1).own ≠ .ok () ∧
    ∃ results, CompletesInTurns (β := Exact.Symbol) 2 (fun i => ⟨misplaced i, corners i⟩) results ∧ FaultFree 2 results ∧
      (results 0).1 = .error (.peerRejected 0) := by
  obtain ⟨e, hrejection, hstages⟩ := collects_stages_rejected (β := Exact.Symbol) (d := misplaced) (by decide)
    (fun i _ => show 0 + 1 < 2 ^ 64 by decide) admissible_corners.rowWidth_lt (.inl ⟨1, by decide, validate_misplaced_one⟩)
  obtain ⟨s, _, _, _, hpeers⟩ := hrejection.peers_cause ⟨1, by decide, validate_misplaced_one⟩
  refine ⟨validate_misplaced_zero, validate_misplaced_one, _, exists_completesInTurns hstages.succeeds, fun i hi cause heq => ?_,
    congrArg Except.error (hpeers 0 (by decide) validate_misplaced_zero)⟩
  have hfatal := hrejection.not_fatal i hi
  rw [Except.error.inj heq] at hfatal
  cases hfatal

end Subdomain

end CurvePartition
