-- SUMMARY: All that one step can leave of the subdomain and the particles of a rank, whatever the other ranks answer: on a failure the subdomain as it was, but for the focus tree of a late one, and else a committed subdomain that counts the particles.
import CurvePartition.Proofs.Subdomain.Outcomes

/-!
# What a step leaves

Nothing is known here about the other ranks: any call may fail, and any answer may come. `Subdomain.StepLeaves` lists what is
left of the state of a rank. An early failure leaves the subdomain as it was. A late one, which is always fatal, comes after the
focus tree has followed the new partition, and that tree stays (`Subdomain.step_keeps`). No rank with a peer can exclude it, as
the counts are announced after that (`Subdomain.step_may_fail`). A step that succeeds has committed a partition, and its counts
are those of the particles.
-/

namespace CurvePartition

open Program

variable {width : KeyWidth} {α β σ τ : Type} [Scalar α]

/-- Whether a failure is found after the focus tree has followed a partition. -/
def Error.IsLate : Error α → Prop
  | .communication _ | .haloMismatch .. | .focusDiverged _ => True
  | _ => False

omit [Scalar α] in
theorem Error.IsLate.isFatal {e : Error α} (h : e.IsLate) : e.isFatal = true := by
  cases e with
  | communication | haloMismatch | focusDiverged => rfl
  | _ => exact h.elim

/-! ## Sizes of particle sets -/

namespace ParticleSet

theorem size_wrap {p w : ParticleSet width α} {box : Box α} (h : p.wrap box = .ok w) : w.size = p.size ∧ w.owned = p.owned := by
  obtain ⟨positions, hpositions, hw⟩ := bind_eq_ok.1 h
  obtain rfl := Except.ok.inj hw
  have hlength := (mapM_eq_ok hpositions).1
  rw [ParticleSet.positions, List.length_map, List.length_range] at hlength
  exact ⟨by simp [withPositions, size, hlength], rfl⟩

end ParticleSet

namespace Subdomain

/-! ## Fatal failures -/

omit [Scalar α] in
theorem onlyFatal_ofBalance (r : Except Imbalance τ) : (Attempt.ofBalance r : Attempt α β τ).run.Every OnlyFatal := by
  cases r with
  | ok a => exact fun e h => by cases h
  | error cause => exact fun e h => Except.error.inj h ▸ rfl

omit [Scalar α] in
theorem onlyFatal_pure (a : τ) : (pure a : Attempt α β τ).run.Every OnlyFatal := fun _ h => by cases h

omit [Scalar α] in
theorem onlyFatal_balanceFrom {depth : Nat} (backend : Backend) (keys : Array Nat) (bucketSize maxRounds fuel rounds : Nat)
    (t : Leaves depth) (leafCounts : Array Nat) :
    (Global.balanceFrom backend keys bucketSize maxRounds fuel rounds t leafCounts : Attempt α β _).run.Every OnlyFatal := by
  induction fuel generalizing rounds t leafCounts with
  | zero => exact fun e h => Except.error.inj h ▸ rfl
  | succ fuel ih =>
    refine onlyFatal_bind (onlyFatal_bind (onlyFatal_ofBalance _) fun next => ?_) fun next => ?_
    · split
      · exact onlyFatal_pure _
      · exact onlyFatal_bind (every_exchange _) fun _ => onlyFatal_pure _
    · split
      · exact onlyFatal_bind (onlyFatal_ofBalance _) fun _ => onlyFatal_pure _
      · exact ih _ _ _

omit [Scalar α] in
theorem onlyFatal_balancedTree (d : Subdomain width α) (keys : Array Nat) :
    (d.balancedTree keys : Attempt α β _).run.Every OnlyFatal := by
  refine onlyFatal_bind (onlyFatal_bind (every_exchange _) fun _ => onlyFatal_balanceFrom _ _ _ _ _ _ _ _)
    fun (tree, counts, rounds) => ?_
  dsimp only
  split
  · exact onlyFatal_pure _
  · exact onlyFatal_bind (every_exchange _) fun _ => onlyFatal_pure _

theorem onlyFatal_leafRadii (d : Subdomain width α) (tree : Leaves width.depth) (p : ParticleSet width α) :
    (d.leafRadii tree p : Attempt α β _).run.Every OnlyFatal := by
  unfold leafRadii
  split
  · exact onlyFatal_pure _
  · exact onlyFatal_bind (every_exchange _) fun _ => onlyFatal_pure _

omit [Scalar α] in
theorem onlyFatal_compute {depth : Nat} (t : Leaves depth) (counts : Array Nat) (ranks : Nat) :
    OnlyFatal (Assignment.compute t counts ranks : Except (Error α) _) := by
  unfold Assignment.compute
  split
  · exact fun e h => Except.error.inj h ▸ rfl
  · exact fun e h => by cases h

/-- Whether a result is a fatal failure or of a kind. -/
def FatalOr (good : τ → Prop) : Except (Error α) τ → Prop
  | .ok a => good a
  | .error e => e.isFatal = true

omit [Scalar α] in
theorem FatalOr.of_eq_ok {good : τ → Prop} {r : Except (Error α) τ} {a : τ} (hr : r = .ok a) (h : good a) : FatalOr good r :=
  hr ▸ h

/-- Redistribution fails fatally, or all rows that it gives are owned and have the properties of the given ones. -/
theorem every_redistribute [Wire α β] (backend : Backend) (place : Place) (a : Assignment width.depth) (p : ParticleSet width α) :
    (p.redistribute backend place a : Attempt α β _).run.Every
      (FatalOr fun q => (q.Uniform q.size ∧ q.owned = q.size) ∧ q.layout = p.layout) := by
  refine every_bind_of_failsOnly (every_exchange _) (fun counts => ?_) fun e he => he
  refine every_bind_of_failsOnly (every_exchange _) (fun messages => ?_) fun e he => he
  obtain ⟨filled, hfilled⟩ : ∃ filled, filled = ((p.truncate 0).resize counts.sum).unpackAll counts (Sorted.offsets counts)
    ((place.rank, p.pack [p.rowsFor a place.rank]) :: place.peers.zip messages) := ⟨_, rfl⟩
  have huniform : filled.Uniform counts.sum := by
    rw [hfilled]
    exact (ParticleSet.uniform_resize (p.truncate 0) counts.sum).unpackAll _ _ _
  have hkept : filled.layout = p.layout := by simp [hfilled]
  -- Columns do not depend on how many rows are owned.
  obtain ⟨q, _, hsort, _, _, huniform', howned, hlayout, _⟩ :=
    ParticleSet.sort_spec (p := { filled with owned := counts.sum }) backend huniform
  rw [hfilled] at hsort
  exact FatalOr.of_eq_ok hsort
    ⟨⟨huniform'.size_eq.symm ▸ huniform', howned.trans huniform'.size_eq.symm⟩, hlayout.trans hkept⟩

/-! ## Late failures -/

omit [Scalar α] in
theorem late_exchange (e : Exchange α β τ) : (Attempt.exchange e).run.Every (FailsOnly Error.IsLate) :=
  failsOnly_exchange (fun _ => trivial) e

omit [Scalar α] in
theorem late_verify [Wire α β] (place : Place) (plan : HaloPlan) :
    (plan.verify place : Attempt α β Unit).run.Every (FailsOnly Error.IsLate) := by
  refine every_bind_of_failsOnly (late_exchange _) (fun announced => ?_) fun e he => FailsOnly.error he
  split
  · exact FailsOnly.error trivial
  · exact FailsOnly.ok _

theorem late_fetchHalos [Wire α β] (place : Place) (plan : HaloPlan) (p : ParticleSet width α) :
    (p.fetchHalos place plan : Attempt α β _).run.Every fun r => FailsOnly Error.IsLate r ∧
      ∀ q, r = .ok q → q.Uniform (plan.localCount + plan.haloCount) ∧ q.owned = p.owned ∧ q.layout = p.layout := by
  refine every_bind_of_failsOnly (late_exchange _) (fun messages => ?_)
    fun e he => ⟨FailsOnly.error he, fun _ h => by cases h⟩
  refine ⟨FailsOnly.ok _, fun q hq => ?_⟩
  obtain rfl := Except.ok.inj hq
  have huniform := (ParticleSet.uniform_resize p (plan.localCount + plan.haloCount)).unpackAll plan.receiveCounts.toList
    plan.receiveOffsets.toList (place.peers.zip messages)
  exact ⟨huniform, (ParticleSet.owned_unpackAll _ _ _ _).trans (ParticleSet.owned_withColumns _ _),
    (ParticleSet.layout_unpackAll _ _ _ _).trans (p.layout_resize _)⟩

theorem late_followed {d : Subdomain width α} {p : Partition width α} : FailsOnly Error.IsLate (followed d p).2 := by
  unfold followed Focus.update
  dsimp only
  split
  · exact FailsOnly.error trivial
  · exact FailsOnly.ok _

/-! ## Failures that no rank can exclude -/

section Fails

variable [Wire α β] {place : Place} (hpeers : place.peers ≠ []) {rounds : Nat} {d : Subdomain width α}
  {p : Partition width α} {good : Except (Error α) (Report α) × StepState width α → Prop} (cause : CommError)
include hpeers

omit [Scalar α] in
/-- With another rank the announcement of counts may fail. -/
theorem counts_may_fail {values : List Nat} {of : Except CommError (List Nat) → Prop}
    (h : (Exchange.counts place values : Exchange α β _).run.Every of) : of (.error cause) := by
  obtain ⟨s, rest, hrest⟩ := List.exists_cons_of_ne_nil hpeers
  unfold Exchange.counts at h
  rw [hrest] at h
  exact h (.error cause)

omit [Scalar α] in
theorem verify_may_fail {plan : HaloPlan} {of : Except (Error α) Unit → Prop}
    (h : (plan.verify place : Attempt α β Unit).run.Every of) : of (.error (.communication cause)) :=
  counts_may_fail hpeers cause (every_bind.1 (every_bind.1 h))

/-- The focus tree has followed the partition then. -/
theorem connect_may_fail {q : ParticleSet width α} (hfollowed : (followed d p).2 = .ok rounds)
    (h : ((connect place p : Stage width α β (Report α)).exec ⟨d, q⟩).Every good) :
    good (.error (.communication cause), ⟨{ d with focus := (followed d p).1 }, q⟩) := by
  rw [exec_connect, hfollowed, Stage.exec_ofExcept_ok, afterFocus, Stage.exec_bind, Stage.exec_attempt] at h
  exact verify_may_fail hpeers cause (every_bind.1 (every_bind.1 h))

end Fails

/-- So a rank that has prepared a step with others may be left with a focus tree of its partition and nothing else. -/
theorem step_may_fail [Wire α β] {size i rounds : Nat} {s : Nat → StepState width α} {p : Partition width α}
    {d : Nat → Subdomain width α} {local' : Nat → ParticleSet width α}
    (hprepare : Collects size (fun i => (prepare ⟨i, size⟩ : Stage width α β (Partition width α)).exec (s i))
      fun i => (.ok p, ⟨d i, local' i⟩))
    (hi : i < size) (hpeers : (Place.mk i size).peers ≠ []) (hfollowed : (followed (d i) p).2 = .ok rounds)
    {good : Except (Error α) (Report α) × StepState width α → Prop}
    (h : (step ⟨i, size⟩ (s i) : Program (Call.Answer : Call α β → Type) _).Every good) (cause : CommError) :
    good (.error (.communication cause), ⟨{ d i with focus := (followed (d i) p).1 }, local' i⟩) := by
  rw [step_eq, stages_eq, Stage.exec_bind] at h
  have hconnect := hprepare.succeeds.every hi (every_bind.1 (every_bind.1 h))
  exact connect_may_fail hpeers cause hfollowed hconnect ()

/-! ## Stages -/

section Stages

variable {d : Subdomain width α} {p : ParticleSet width α}

/-- The first stages leave the subdomain alone. If they fail, the rank has as many particles as it owns. -/
theorem every_gather [Wire α β] (place : Place) : ((gather place : Stage width α β (Box α)).exec ⟨d, p⟩).Every fun r =>
    r.2.subdomain = d ∧ ∀ e, r.1 = .error e → r.2.particles.size = p.own.size ∧ r.2.particles.owned = p.owned := by
  have hown : p.own.size = p.own.size ∧ p.own.owned = p.owned := ⟨rfl, p.owned_own⟩
  rw [exec_gather]
  refine Stage.every_attempt_bind (every_true _) (fun _ _ => ?_) fun _ _ => ⟨rfl, fun _ _ => hown⟩
  refine Stage.every_attempt_bind (every_true _) (fun box _ => ?_) fun _ _ => ⟨rfl, fun _ _ => hown⟩
  cases hwrap : p.own.wrap box with
  | error e => exact ⟨rfl, fun _ _ => hown⟩
  | ok w =>
    obtain ⟨hsize, howned⟩ := ParticleSet.size_wrap hwrap
    rw [Stage.exec_ofExcept_ok, Stage.exec_setParticles]
    cases (w.withKeys box d.config.curve).sort d.backend with
    | error e => exact ⟨rfl, fun _ _ => ⟨hsize, howned.trans hown.2⟩⟩
    | ok s => exact ⟨rfl, fun _ h => by cases h⟩

/-- The stages up to the radii leave the subdomain alone. They fail fatally, or the rank owns all particles it has. -/
theorem every_distribute [Wire α β] (place : Place) (box : Box α) :
    ((distribute place box : Stage width α β (Partition width α)).exec ⟨d, p⟩).Every fun r => r.2.subdomain = d ∧
      FatalOr (fun _ => r.2.particles.Uniform r.2.particles.size ∧ r.2.particles.owned = r.2.particles.size) r.1 := by
  rw [exec_distribute]
  refine Stage.every_attempt_bind (onlyFatal_balancedTree d _) (fun (tree, counts, rounds) _ => ?_)
    fun e he => ⟨rfl, he e rfl⟩
  dsimp only [afterTree]
  cases hassignment : (Assignment.compute tree counts d.place.size : Except (Error α) _) with
  | error e => exact ⟨rfl, onlyFatal_compute _ _ _ e hassignment⟩
  | ok a =>
    rw [Stage.exec_ofExcept_ok]
    refine Stage.every_attempt_bind (every_redistribute d.backend place a p) (fun q hq => ?_)
      fun e he => ⟨rfl, he⟩
    rw [afterMoving, Stage.exec_setParticles]
    exact Stage.every_attempt_bind (onlyFatal_leafRadii d _ _) (fun radii _ => ⟨rfl, hq.1⟩) fun e he => ⟨rfl, he e rfl⟩

end Stages

/-! ## Whole steps -/

/-- What a step can leave of a subdomain and of the particles it is given. -/
inductive StepLeaves (d : Subdomain width α) (given : ParticleSet width α) :
    Except (Error α) (Report α) × StepState width α → Prop
  /-- A failure before the focus tree. If it is not fatal the rank has the particles it owned. -/
  | early (cause : Error α) (rest : ParticleSet width α)
    (kept : cause.isFatal = false → rest.size = given.own.size ∧ rest.owned = given.owned) :
    StepLeaves d given (.error cause, ⟨d, rest⟩)
  /-- A failure after the focus tree has followed a partition. -/
  | late (cause : Error α) (rest : ParticleSet width α) (p : Partition width α) (found : cause.IsLate) :
    StepLeaves d given (.error cause, ⟨{ d with focus := (followed d p).1 }, rest⟩)
  /-- Success, with a partition committed and halos behind the own particles. -/
  | committed (report : Report α) (d' : Subdomain width α) (rest : ParticleSet width α) (p : Partition width α)
    (taken : Committed d p d') (owned_eq : rest.owned = d'.localCount) (size_eq : rest.size = d'.localCount + d'.haloCount) :
    StepLeaves d given (.ok report, ⟨d', rest⟩)

section Steps

variable [Wire α β] {d : Subdomain width α} {given q : ParticleSet width α}

theorem every_connect_leaves (place : Place) (p : Partition width α) (huniform : q.Uniform q.size) (howned : q.owned = q.size) :
    ((connect place p : Stage width α β (Report α)).exec ⟨d, q⟩).Every (StepLeaves d given) := by
  have hlate := late_followed (d := d) (p := p)
  rw [exec_connect]
  cases hfollowed : followed d p with
  | mk focus settled =>
  have hfocus : focus = (followed d p).1 := by rw [hfollowed]
  rw [hfollowed] at hlate
  subst hfocus
  cases settled with
  | error e => exact .late e q p (hlate e rfl)
  | ok rounds =>
    have hlocal : (planOf d p (followed d p).1 q.keys).localCount = q.size := huniform.size_keys
    rw [Stage.exec_ofExcept_ok, afterFocus]
    refine Stage.every_attempt_bind (late_verify _ _) (fun _ _ => ?_) fun e he => .late e _ p (he e rfl)
    rw [afterPlan, Stage.exec_setParticles]
    refine Stage.every_attempt_bind (late_fetchHalos _ _ _) (fun complete hcomplete => ?_)
      fun e he => .late e _ p (he.1 e rfl)
    obtain ⟨hsize, hcount, _⟩ := hcomplete.2 complete rfl
    rw [Stage.exec_setParticles]
    refine Stage.every_attempt_bind (late_exchange _) (fun totals _ => ?_) fun e he => .late e _ p (he e rfl)
    refine .committed _ (d.commit p (followed d p).1 (planOf d p (followed d p).1 q.keys) q.size) complete p
      ⟨rfl, rfl, rfl, rfl, rfl, rfl, rfl, rounds, hfollowed⟩ ?_ ?_
    · have hcut : (q.withoutHalos (planOf d p (followed d p).1 q.keys)).owned = min q.owned q.size := by rw [← hlocal]; rfl
      rw [hcount, hcut, howned, Nat.min_self]
      rfl
    · rw [hsize.size_eq, hlocal]
      rfl

theorem every_stages (place : Place) :
    ((stages place : Stage width α β (Report α)).exec ⟨d, given⟩).Every (StepLeaves d given) := by
  refine Stage.every_bind (every_gather place) (fun box s hs => ?_) fun e s hs => ?_
  swap
  · obtain ⟨d', rest⟩ := s
    obtain ⟨rfl, hkept⟩ := hs
    exact .early e rest fun _ => hkept e rfl
  obtain ⟨d', arranged⟩ := s
  obtain ⟨rfl, -⟩ := hs
  refine Stage.every_bind (every_distribute place box) (fun p s hs => ?_) fun e s hs => ?_
  · obtain ⟨d'', q⟩ := s
    obtain ⟨rfl, hq⟩ := hs
    exact every_connect_leaves place p hq.1 hq.2
  · obtain ⟨d'', rest⟩ := s
    obtain ⟨rfl, hrest⟩ := hs
    exact .early e rest fun hnot => absurd (hnot.symm.trans hrest) Bool.false_ne_true

/-- Whatever the other ranks answer, a step leaves no more than `StepLeaves` lists. -/
theorem every_step (place : Place) :
    (step place ⟨d, given⟩ : Program (Call.Answer : Call α β → Type) _).Every (StepLeaves d given) := by
  rw [step_eq]
  refine (every_stages place).bind fun r hr => ?_
  obtain ⟨result, s'⟩ := r
  cases result with
  | ok report => exact hr
  | error cause =>
    dsimp only
    split
    · exact fun _ => hr
    · exact hr

/-- Whatever the other ranks answer, a step that fails leaves all of the subdomain as it was but for the focus tree. That has
changed only in a late failure, which comes after the tree has followed a partition. -/
theorem step_keeps (place : Place) (s : StepState width α) :
    (step place s : Program (Call.Answer : Call α β → Type) _).Every fun r => ∀ cause, r.1 = .error cause →
      r.2.subdomain = s.subdomain ∨
        cause.IsLate ∧ ∃ p, r.2.subdomain = { s.subdomain with focus := (followed s.subdomain p).1 } := by
  have hstep : (step place s : Program (Call.Answer : Call α β → Type) _).Every (StepLeaves s.subdomain s.particles) :=
    every_step place
  refine hstep.mono fun r hr cause hcause => ?_
  cases hr with
  | early cause' rest _ => exact .inl rfl
  | late cause' rest p found =>
    cases hcause
    exact .inr ⟨found, p, rfl⟩
  | committed => cases hcause

end Steps

/-- In its first step a rank may fail and have other keys in its focus tree than before. -/
theorem not_step_keeps_corners : ¬ (step ⟨1, 2⟩ ⟨initial ⟨1, 2⟩ (walled 64), corners 1⟩ :
    Program (Call.Answer : Call EReal Exact.Symbol → Type) _).Every fun r => ∀ cause, r.1 = .error cause →
      r.2.subdomain.focus.own = (initial ⟨1, 2⟩ (walled 64) : Subdomain .narrow EReal).focus.own := by
  intro hkeeps
  have hrounds : 0 < 64 := by decide
  obtain ⟨p, s, order, local', origins, reports, hprepared, hprepare, _⟩ := collects_step_corners hrounds
  have hbucket : (walled 64).bucketSize * 512 < 2 ^ 64 := show 64 * 512 < 2 ^ 64 by decide
  have hproper := hprepared.proper peers_corners admissible_corners hbucket (Exact.lawfulCells _ _)
    (fun i _ => Leaves.isValid_root _) (by decide)
  obtain ⟨_, _, htiles, hranks⟩ := hprepared.divided_spec peers_corners hbucket
  have hlast : 1 < p.assignment.ranks := hranks.symm ▸ Nat.lt_succ_self 1
  obtain ⟨⟨rounds, _, hsettles⟩, hown, _⟩ := hproper.followed_spec (r := 1) hlast
  rw [← hprepared.followed_eq peers_corners admissible_corners hbucket (by decide)] at hsettles hown
  have hsame := step_may_fail hprepare (by decide) (by decide) hsettles hkeeps (.timeout 0 100) _ rfl
  -- The keys of the last rank end at the bound, those of a new focus tree at zero.
  have hzero : p.assignment.boundaries.start 2 = 0 := congrArg KeyRange.last (hown.symm.trans hsame)
  have hascends := htiles.ascends.start_lt (i := 1) (j := 2) (by decide) (htiles.count_eq ▸ hlast)
  exact absurd (hzero ▸ hascends) (Nat.not_lt_zero _)

end Subdomain

end CurvePartition
