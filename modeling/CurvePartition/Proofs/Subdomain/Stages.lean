-- SUMMARY: Stages and steps of all ranks: composition of stages that ranks make together, how stages communicate, the runs of whole steps to the end, and their results without a failure to communicate.
import CurvePartition.Proofs.Cluster.Messages
import CurvePartition.Proofs.Cluster.Sending
import CurvePartition.Proofs.Global.Balance
import CurvePartition.Proofs.Global.Extremes
import CurvePartition.Proofs.Halo.Agreement
import CurvePartition.Proofs.Particles.Moving
import CurvePartition.Subdomain.Step

/-!
# Steps of all ranks

`Stage.exec` runs a stage from a state. Stages that all ranks make together compose (`Stage.collects_bind`), and a failure that
all of them meet is the result of all that follows (`Stage.collects_bind_error`). A stage fails with the first failure to
communicate and sends to other ranks only (`Stage.Regular`).

`Subdomain.Completes` says of the steps of all ranks that some order of their actions, of lost patience and of ends of the
run leads to given results. When no result is a failure to communicate, they are the ones that the stages come to
(`Subdomain.Completes.succeeds`), and all results of the stages can be reached (`Subdomain.exists_completes`).
-/

namespace CurvePartition

open Program

variable {width : KeyWidth} {α β σ τ : Type}

namespace Stage

/-- A stage from a state. -/
def exec (x : Stage width α β τ) (s : StepState width α) :
    Program (Call.Answer : Call α β → Type) (Except (Error α) τ × StepState width α) :=
  x.run.run s

/-- What follows the result of a stage. -/
def andThen (f : σ → Stage width α β τ) : Except (Error α) σ × StepState width α →
    Program (Call.Answer : Call α β → Type) (Except (Error α) τ × StepState width α)
  | (.ok a, s) => (f a).exec s
  | (.error e, s) => .done (.error e, s)

theorem exec_bind (x : Stage width α β σ) (f : σ → Stage width α β τ) (s : StepState width α) :
    (x >>= f).exec s = x.exec s >>= andThen f := by
  refine congrArg (x.exec s >>= ·) (funext fun (r, s') => ?_)
  cases r <;> rfl

theorem exec_attempt (a : Attempt α β τ) (s : StepState width α) :
    (attempt a : Stage width α β τ).exec s = a.run >>= fun r => .done (r, s) := rfl

theorem exec_ofExcept_ok (a : σ) (f : σ → Stage width α β τ) (s : StepState width α) :
    (ofExcept (.ok a) >>= f).exec s = (f a).exec s := rfl

theorem exec_setParticles (p : ParticleSet width α) (f : Unit → Stage width α β τ) (s : StepState width α) :
    (setParticles p >>= f).exec s = (f ()).exec { s with particles := p } := rfl

/-! ## Results of all kinds -/

section Every

variable {good : Except (Error α) σ × StepState width α → Prop} {good' : Except (Error α) τ × StepState width α → Prop}
  {s : StepState width α}

theorem every_bind {x : Stage width α β σ} {f : σ → Stage width α β τ} (hx : (x.exec s).Every good)
    (hok : ∀ a s', good (.ok a, s') → ((f a).exec s').Every good') (herror : ∀ e s', good (.error e, s') → good' (.error e, s')) :
    ((x >>= f).exec s).Every good' := by
  rw [exec_bind]
  refine hx.bind fun (r, s') hr => ?_
  cases r with
  | ok a => exact hok a s' hr
  | error e => exact herror e s' hr

/-- An attempt leaves the state alone. -/
theorem every_attempt {a : Attempt α β σ} {good : Except (Error α) σ → Prop} (h : a.run.Every good) :
    ((attempt a : Stage width α β σ).exec s).Every fun r => good r.1 ∧ r.2 = s :=
  h.bind fun _ hr => ⟨hr, rfl⟩

/-- An attempt that leads to some results only, and what follows it. -/
theorem every_attempt_bind {a : Attempt α β σ} {f : σ → Stage width α β τ} {of : Except (Error α) σ → Prop} (ha : a.run.Every of)
    (hok : ∀ v, of (.ok v) → ((f v).exec s).Every good') (herror : ∀ e, of (.error e) → good' (.error e, s)) :
    ((attempt a >>= f).exec s).Every good' :=
  every_bind (every_attempt ha) (fun v _ ⟨hv, hs⟩ => by obtain rfl := hs; exact hok v hv)
    fun e _ ⟨he, hs⟩ => by obtain rfl := hs; exact herror e he

end Every

/-! ## How stages communicate -/

/-- Whether a stage of a rank fails with the first failure to communicate, and sends to other ranks only. -/
structure Regular (rank : Nat) (x : Stage width α β τ) : Prop where
  failsFast : ∀ s, (x.exec s).FailsFast Call.failure fun e r => r.1 = .error (.communication e)
  calls : ∀ s, (x.exec s).Calls (Call.NotTo rank)

namespace Regular

variable {rank : Nat}

theorem bind {x : Stage width α β σ} {f : σ → Stage width α β τ} (h : Regular rank x) (hf : ∀ a, Regular rank (f a)) :
    Regular rank (x >>= f) where
  failsFast s := by
    rw [exec_bind]
    refine (h.failsFast s).bind (fun (r, s') => ?_) fun e (r, s') hr => ?_
    · cases r with
      | ok a => exact (hf a).failsFast s'
      | error e => exact .done _
    · obtain rfl : r = .error (.communication e) := hr
      exact ⟨_, rfl, rfl⟩
  calls s := by
    rw [exec_bind]
    refine (h.calls s).bind fun (r, s') => ?_
    cases r with
    | ok a => exact (hf a).calls s'
    | error e => trivial

theorem attempt {a : Attempt α β τ} (h : Throws Call.failure Error.communication a) (hcalls : a.run.Calls (Call.NotTo rank)) :
    Regular rank (Stage.attempt a : Stage width α β τ) where
  failsFast _ := FailsFast.bind h (fun _ => .done _) fun _ _ hr => ⟨_, rfl, hr⟩
  calls _ := hcalls.bind fun _ => trivial

theorem ofExcept (r : Except (Error α) τ) : Regular rank (Stage.ofExcept r : Stage width α β τ) :=
  ⟨fun _ => .done _, fun _ => trivial⟩

theorem pure (a : τ) : Regular rank (Pure.pure a : Stage width α β τ) := ⟨fun _ => .done _, fun _ => trivial⟩

theorem particles : Regular rank (Stage.particles : Stage width α β _) := ⟨fun _ => .done _, fun _ => trivial⟩

theorem setParticles (p : ParticleSet width α) : Regular rank (Stage.setParticles p : Stage width α β _) :=
  ⟨fun _ => .done _, fun _ => trivial⟩

theorem subdomain : Regular rank (Stage.subdomain : Stage width α β _) := ⟨fun _ => .done _, fun _ => trivial⟩

theorem setSubdomain (d : Subdomain width α) : Regular rank (Stage.setSubdomain d : Stage width α β _) :=
  ⟨fun _ => .done _, fun _ => trivial⟩

end Regular

/-! ## Stages of all ranks -/

section Collects

variable [Scalar α] [Wire α β] {size : Nat} {x : Nat → Stage width α β σ} {f : Nat → σ → Stage width α β τ}
  {s s' : Nat → StepState width α} {v : Nat → σ} {e : Nat → Error α}
  {rs : Nat → Except (Error α) τ × StepState width α}

theorem collects_bind (h : Collects size (fun i => (x i).exec (s i)) fun i => (.ok (v i), s' i))
    (hf : Collects size (fun i => (f i (v i)).exec (s' i)) rs) : Collects size (fun i => (x i >>= f i).exec (s i)) rs := by
  simp only [exec_bind]
  exact h.bind hf

/-- What all ranks fail with is the result of what follows. -/
theorem collects_bind_error (h : Collects size (fun i => (x i).exec (s i)) fun i => (.error (e i), s' i)) :
    Collects size (fun i => (x i >>= f i).exec (s i)) fun i => (.error (e i), s' i) := by
  simp only [exec_bind]
  exact h.bind (Collects.done _)

theorem collects_attempt {a : Nat → Attempt α β σ} {r : Nat → Except (Error α) σ}
    (h : Collects size (fun i => (a i).run) r) :
    Collects size (fun i => (attempt (a i) : Stage width α β σ).exec (s i)) fun i => (r i, s i) :=
  h.bind (Collects.done _)

theorem collects_ofExcept {r : Nat → Except (Error α) σ} :
    Collects size (fun i => (ofExcept (r i) : Stage width α β σ).exec (s i)) fun i => (r i, s i) :=
  Collects.done _

end Collects

end Stage

namespace Subdomain

variable [Scalar α] [Wire α β]

/-! ## How steps communicate -/

section Failures

omit [Scalar α] [Wire α β] in
theorem throws_agree [Scalar α] (d : Subdomain width α) (own : Except (Error α) Unit) (p : ParticleSet width α) :
    Throws Call.failure Error.communication (d.agree own p : Attempt α β Unit) :=
  (Attempt.throws_exchange (Exchange.throws_reduceWords _ _)).bind fun _ =>
    (Attempt.throws_exchange (Exchange.throws_reduceWords _ _)).bind fun _ => Attempt.throws_ofExcept _

omit [Scalar α] [Wire α β] in
theorem throws_balancedTree (d : Subdomain width α) (keys : Array Nat) :
    Throws Call.failure Error.communication (d.balancedTree keys : Attempt α β _) := by
  refine (Global.throws_balance _ _ _ _ _).bind fun (tree, counts, rounds) => ?_
  dsimp only
  split
  · exact .pure _
  · exact (Attempt.throws_exchange ((Exchange.throws_reduceWords _ _).bind fun _ => .pure _)).bind fun _ => .pure _

omit [Wire α β] in
theorem throws_leafRadii (d : Subdomain width α) (tree : Leaves width.depth) (p : ParticleSet width α) :
    Throws Call.failure Error.communication (d.leafRadii tree p : Attempt α β _) := by
  unfold leafRadii
  split
  · exact .pure _
  · exact (Attempt.throws_exchange ((Exchange.throws_reduceScalars _ _).bind fun _ => .pure _)).bind fun _ => .pure _

theorem throws_fetchHalos (place : Place) (plan : HaloPlan) (p : ParticleSet width α) :
    Throws Call.failure Error.communication (p.fetchHalos place plan : Attempt α β _) :=
  (Attempt.throws_exchange (Exchange.throws_messages _ _ _)).bind fun _ => .pure _

end Failures

section Calls

variable {rank : Nat}

omit [Scalar α] [Wire α β] in
theorem calls_counts {depth : Nat} (backend : Backend) (t : Leaves depth) (keys : Array Nat) :
    (Attempt.exchange (Global.counts backend t keys) : Attempt α β _).run.Calls (Call.NotTo rank) :=
  Attempt.calls_exchange (Calls.ok_bind (Exchange.calls_reduceWords _ _) fun _ => .pure _)

omit [Scalar α] [Wire α β] in
theorem calls_balanceFrom {depth : Nat} (backend : Backend) (keys : Array Nat) (bucketSize maxRounds fuel rounds : Nat)
    (t : Leaves depth) (leafCounts : Array Nat) :
    (Global.balanceFrom backend keys bucketSize maxRounds fuel rounds t leafCounts : Attempt α β _).run.Calls
      (Call.NotTo rank) := by
  induction fuel generalizing rounds t leafCounts with
  | zero => exact .throw _
  | succ fuel ih =>
    refine Calls.ok_bind (Calls.ok_bind trivial fun next => ?_) fun next => ?_
    · split
      · exact .pure _
      · exact (calls_counts _ _ _).ok_bind fun _ => .pure _
    · split
      · exact Calls.ok_bind trivial fun _ => .pure _
      · exact ih _ _ _

omit [Scalar α] [Wire α β] in
theorem calls_balancedTree (d : Subdomain width α) (keys : Array Nat) :
    (d.balancedTree keys : Attempt α β _).run.Calls (Call.NotTo rank) := by
  refine Calls.ok_bind ((calls_counts _ _ _).ok_bind fun _ => calls_balanceFrom _ _ _ _ _ _ _ _) fun (tree, counts, rounds) => ?_
  dsimp only
  split
  · exact .pure _
  · exact (calls_counts _ _ _).ok_bind fun _ => .pure _

omit [Scalar α] [Wire α β] in
theorem calls_agree [Scalar α] (d : Subdomain width α) (own : Except (Error α) Unit) (p : ParticleSet width α) :
    (d.agree own p : Attempt α β Unit).run.Calls (Call.NotTo rank) :=
  Calls.ok_bind (Attempt.calls_exchange (Exchange.calls_reduceWords _ _)) fun _ =>
    Calls.ok_bind (Attempt.calls_exchange (Exchange.calls_reduceWords _ _)) fun _ => trivial

omit [Wire α β] in
theorem calls_boundingBox (backend : Backend) (coordinates : Triple (Array α)) (old : Box α) :
    (Global.boundingBox backend coordinates old : Attempt α β _).run.Calls (Call.NotTo rank) :=
  Calls.ok_bind (Attempt.calls_exchange (Exchange.calls_reduceScalars _ _)) fun _ => trivial

omit [Wire α β] in
theorem calls_leafRadii (d : Subdomain width α) (tree : Leaves width.depth) (p : ParticleSet width α) :
    (d.leafRadii tree p : Attempt α β _).run.Calls (Call.NotTo rank) := by
  unfold leafRadii
  split
  · exact .pure _
  · exact Calls.ok_bind (Attempt.calls_exchange (Calls.ok_bind (Exchange.calls_reduceScalars _ _) fun _ => .pure _))
      fun _ => .pure _

theorem calls_redistribute (backend : Backend) (place : Place) (a : Assignment width.depth) (p : ParticleSet width α) :
    (p.redistribute backend place a : Attempt α β _).run.Calls (Call.NotTo place.rank) :=
  Calls.ok_bind (Attempt.calls_exchange (Exchange.calls_counts _ _)) fun _ =>
    Calls.ok_bind (Attempt.calls_exchange (Exchange.calls_messages_peers _ _ _)) fun _ => trivial

omit [Scalar α] in
theorem calls_verify (place : Place) (plan : HaloPlan) :
    (plan.verify place : Attempt α β Unit).run.Calls (Call.NotTo place.rank) := by
  refine Calls.ok_bind (Attempt.calls_exchange (Exchange.calls_counts _ _)) fun announced => ?_
  split
  · exact .throw _
  · exact .pure _

theorem calls_fetchHalos (place : Place) (plan : HaloPlan) (p : ParticleSet width α) :
    (p.fetchHalos place plan : Attempt α β _).run.Calls (Call.NotTo place.rank) :=
  Calls.ok_bind (Attempt.calls_exchange (Exchange.calls_messages_peers _ _ _)) fun _ => .pure _

end Calls

open Stage.Regular

omit [Wire α β] in
theorem regular_gather (place : Place) : Stage.Regular place.rank (gather place : Stage width α β (Box α)) := by
  refine particles.bind fun _ => (setParticles _).bind fun _ => subdomain.bind fun d => ?_
  refine (attempt (throws_agree _ _ _) (calls_agree _ _ _)).bind fun _ => ?_
  refine (attempt (Global.throws_boundingBox _ _ _) (calls_boundingBox _ _ _)).bind fun box => ?_
  refine (ofExcept _).bind fun _ => (setParticles _).bind fun _ => (ofExcept _).bind fun _ => ?_
  exact (setParticles _).bind fun _ => pure _

theorem regular_distribute (place : Place) (box : Box α) :
    Stage.Regular place.rank (distribute place box : Stage width α β (Partition width α)) := by
  refine particles.bind fun _ => subdomain.bind fun d => ?_
  refine (attempt (throws_balancedTree _ _) (calls_balancedTree _ _)).bind fun _ => (ofExcept _).bind fun a => ?_
  refine (attempt (ParticleSet.throws_redistribute _ _ _ _) (calls_redistribute _ _ _ _)).bind fun _ => ?_
  exact (setParticles _).bind fun _ => (attempt (throws_leafRadii _ _ _) (calls_leafRadii _ _ _)).bind fun _ => pure _

theorem regular_connect (place : Place) (p : Partition width α) :
    Stage.Regular place.rank (connect place p : Stage width α β (Report α)) := by
  refine particles.bind fun _ => subdomain.bind fun d => (setSubdomain _).bind fun _ => (ofExcept _).bind fun _ => ?_
  refine (attempt (HaloPlan.throws_verify _ _) (calls_verify _ _)).bind fun _ => (setParticles _).bind fun _ => ?_
  refine (attempt (throws_fetchHalos _ _ _) (calls_fetchHalos _ _ _)).bind fun _ => (setParticles _).bind fun _ => ?_
  refine (attempt (Attempt.throws_exchange (Exchange.throws_reduceWords _ _))
    (Attempt.calls_exchange (Exchange.calls_reduceWords _ _))).bind fun _ => ?_
  exact (setSubdomain _).bind fun _ => pure _

theorem regular_stages (place : Place) : Stage.Regular place.rank (stages place : Stage width α β (Report α)) :=
  (regular_gather place).bind fun box => (regular_distribute place box).bind fun p => regular_connect place p

/-! ## Runs to the end -/

/-- How a step ends: a fatal failure ends the run. -/
def closing (r : Except (Error α) (Report α) × StepState width α) :
    Program (Action.Answer : Action β → Type) (Except (Error α) (Report α) × StepState width α) :=
  match r.1 with
  | .ok _ => .done r
  | .error cause => if cause.isFatal then .call (.abort cause.exitCode) fun _ => .done r else .done r

omit [Scalar α] [Wire α β] in
theorem closes_closing :
    Cluster.Closes (closing : Except (Error α) (Report α) × StepState width α → Program (Action.Answer : Action β → Type) _) := by
  intro r
  unfold closing
  split
  · exact .inl rfl
  · split
    · exact .inr ⟨_, rfl⟩
    · exact .inl rfl

/-- A step is its stages, after which a fatal failure ends the run. -/
theorem step_eq (place : Place) (s : StepState width α) :
    (step place s : Program (Call.Answer : Call α β → Type) _) = (stages place).exec s >>= fun r =>
      match r.1 with
      | .ok _ => .done r
      | .error cause => do
        if cause.isFatal then Program.perform (Call.abort cause.exitCode)
        return r := by
  refine congrArg ((stages place).exec s >>= ·) (funext fun r => ?_)
  obtain ⟨_ | _, _⟩ := r <;> rfl

theorem expand_step (place : Place) (s : StepState width α) :
    (step place s : Program (Call.Answer : Call α β → Type) _).expand (Call.toActions place) =
      ((stages place).exec s).expand (Call.toActions place) >>= closing := by
  rw [step_eq, expand_bind]
  refine congrArg (((stages place).exec s).expand (Call.toActions place) >>= ·) (funext fun r => ?_)
  obtain ⟨result, s'⟩ := r
  cases result with
  | ok report => rfl
  | error cause =>
    unfold closing
    by_cases hfatal : cause.isFatal = true
    · simp only [hfatal, if_true]
      rfl
    · simp only [hfatal]
      rfl

/-- Stages that all ranks make together are steps as well, if no failure is fatal. -/
theorem collects_step {size : Nat} {s : Nat → StepState width α} {rs : Nat → Except (Error α) (Report α) × StepState width α}
    (h : Collects size (fun i => (stages ⟨i, size⟩ : Stage width α β (Report α)).exec (s i)) rs)
    (hfatal : ∀ i < size, ∀ cause, (rs i).1 = .error cause → cause.isFatal = false) :
    Collects size (fun i => (step ⟨i, size⟩ (s i) : Program (Call.Answer : Call α β → Type) _)) rs := by
  simp only [step_eq]
  refine h.bind ((Collects.done rs).congr (fun i hi => ?_) fun _ _ => rfl)
  cases hresult : (rs i).1 with
  | ok report => rfl
  | error cause =>
    simp only [hfatal i hi cause hresult, Bool.false_eq_true, if_false]
    rfl

/-- Whether the steps of all ranks, run together in some order, lead from given states to given results. -/
def Completes (size : Nat) (before : Nat → StepState width α)
    (results : Nat → Except (Error α) (Report α) × StepState width α) : Prop :=
  ∃ c : Cluster β (Except (Error α) (Report α) × StepState width α), Relation.ReflTransGen Cluster.Step
    (.start ((List.range size).map fun rank => (step ⟨rank, size⟩ (before rank)).expand (Call.toActions ⟨rank, size⟩))) c ∧
      c.ranks = (List.range size).map fun rank => .done (results rank)

/-- Whether no rank reports a failure to communicate. A rank that another one has cut off does, also when nobody lost patience. -/
def FaultFree (size : Nat) (results : Nat → Except (Error α) (Report α) × StepState width α) : Prop :=
  ∀ i < size, ∀ cause, (results i).1 ≠ .error (.communication cause)

section Runs

variable {size : Nat} {before : Nat → StepState width α} {results : Nat → Except (Error α) (Report α) × StepState width α}
  {ps : Nat → Program (Call.Answer : Call α β → Type) (Except (Error α) (Report α) × StepState width α)}

/-- What programs that are closed come to without a failure to communicate, they come to without the ends of the run. -/
theorem succeeds_of_reaches (hfast : ∀ i, (ps i).FailsFast Call.failure fun e r => r.1 = .error (.communication e))
    (h : Cluster.Reaches size (fun i => (ps i).expand (Call.toActions ⟨i, size⟩) >>= closing) results)
    (hfault : FaultFree size results) : Succeeds size ps results := by
  obtain ⟨c, hsteps, hdone⟩ := h
  have hclosed : Cluster.AllClosed closing
      ((List.range size).map fun i => (ps i).expand (Call.toActions ⟨i, size⟩) >>= closing)
      ((List.range size).map fun i => (ps i).expand (Call.toActions ⟨i, size⟩)) := by
    refine ⟨by simp, fun {i p' p} hp' hp => .inl ?_⟩
    rw [List.getElem?_map, Option.map_eq_some_iff] at hp' hp
    obtain ⟨j, hj, rfl⟩ := hp'
    obtain ⟨j', hj', rfl⟩ := hp
    cases hj.symm.trans hj'
    rfl
  have hreports' : ∀ p ∈ (List.range size).map fun i => (ps i).expand (Call.toActions ⟨i, size⟩),
      p.Reports Action.failure fun r => ∃ e, r.1 = .error (.communication e) := by
    intro p hp
    obtain ⟨i, _, rfl⟩ := List.mem_map.1 hp
    exact ((hfast i).expand (Call.failsFast_toActions _)).reports fun e _ he => ⟨e, he⟩
  have hresults : c.ranks = ((List.range size).map results).map .done := hdone.trans (List.map_map ..).symm
  obtain ⟨n, q, hrun⟩ := Cluster.net_run_of_steps closes_closing hclosed hreports' hsteps hresults fun r hr ⟨e, he⟩ => by
    obtain ⟨i, hi, rfl⟩ := List.mem_map.1 hr
    exact hfault i (List.mem_range.1 hi) e he
  rw [Cluster.channels_start] at hrun
  exact ⟨n, q, hrun⟩

/-- What programs come to, they come to when they are closed, in turns. -/
theorem reachesInTurns_of_succeeds (h : Succeeds size ps results) :
    Cluster.ReachesInTurns size (fun i => (ps i).expand (Call.toActions ⟨i, size⟩) >>= closing) results := by
  obtain ⟨n, q, hrun⟩ := h
  obtain ⟨c, hturns, hdone⟩ := Cluster.exists_turns_of_run closes_closing rfl (Cluster.ranks_start size _)
    (by rwa [Cluster.channels_start])
  exact ⟨c, hturns, hdone.trans (List.map_map ..)⟩

theorem completes_iff_reaches : Completes (β := β) size before results ↔ Cluster.Reaches size
    (fun i => ((stages ⟨i, size⟩).exec (before i)).expand (Call.toActions ⟨i, size⟩) >>= closing) results := by
  simp only [← expand_step]
  rfl

/-- Results without a failure to communicate are those that the stages come to. -/
theorem Completes.succeeds (h : Completes size before results) (hfault : FaultFree size results) :
    Succeeds size (fun i => (stages ⟨i, size⟩).exec (before i)) results :=
  succeeds_of_reaches (fun i => (regular_stages ⟨i, size⟩).failsFast (before i)) (completes_iff_reaches.1 h) hfault

/-- What the stages come to is the result of a run. -/
theorem exists_completes (h : Succeeds size (fun i => (stages ⟨i, size⟩).exec (before i)) results) :
    Completes (β := β) size before results := completes_iff_reaches.2 (reachesInTurns_of_succeeds h).reaches

end Runs

end Subdomain

end CurvePartition
