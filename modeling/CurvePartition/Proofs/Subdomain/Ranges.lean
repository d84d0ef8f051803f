-- SUMMARY: Index ranges of a subdomain over many steps with the same particles: they divide the particles after every step that succeeds, and after a rejected one only the own particles are left.
import CurvePartition.Proofs.Subdomain.Completeness
import CurvePartition.Proofs.Subdomain.Leaving
import CurvePartition.Proofs.Subdomain.Rejecting

/-!
# Index ranges over many steps

A rank makes steps one after the other with its particles, which their owner may edit in between (`Subdomain.steps`). Of the
outcomes so far, the newest first, each is one that a step can leave of the state before it (`Subdomain.Chained`).

From the first success on the own range is that of the owned particles (`Subdomain.ranges_fit`). The halo range is that of
the particles behind them only if the newest step succeeded. A rejected step has dropped the halos, while the subdomain still
counts those of the step before (`Subdomain.ranges_exceed_corners`).
-/

namespace CurvePartition

open Program Relation

variable {width : KeyWidth} {α β : Type} [Scalar α] {size n i : Nat}

namespace Subdomain

/-! ## Steps one after the other -/

/-- The result of a step and what it leaves. -/
abbrev Outcome (width : KeyWidth) (α : Type) := Except (Error α) (Report α) × StepState width α

/-- What the owner of the particles makes of them after some outcomes, the newest first. -/
abbrev Edit (width : KeyWidth) (α : Type) := List (Outcome width α) → ParticleSet width α → ParticleSet width α

/-- Whether an owner changes elements only. -/
def Edit.KeepsCounts (edit : Edit width α) : Prop := ∀ past p, (edit past p).size = p.size ∧ (edit past p).owned = p.owned

section Steps

variable (edit : Edit width α) (start : StepState width α)

/-- The state before the next step. -/
def stateAfter : List (Outcome width α) → StepState width α
  | [] => start
  | r :: past => ⟨r.2.subdomain, edit (r :: past) r.2.particles⟩

/-- A number of steps after some outcomes, whatever they come to. -/
def steps [Wire α β] (place : Place) : Nat → List (Outcome width α) →
    Program (Call.Answer : Call α β → Type) (List (Outcome width α))
  | 0, past => .done past
  | n + 1, past => step place (stateAfter edit start past) >>= fun r => steps place n (r :: past)

/-- Whether each outcome is one that a step can leave of the state before it. -/
def Chained : List (Outcome width α) → Prop
  | [] => True
  | r :: past => StepLeaves (stateAfter edit start past).subdomain (stateAfter edit start past).particles r ∧ Chained past

variable {edit start} {past : List (Outcome width α)}

theorem every_steps [Wire α β] (place : Place) (h : Chained edit start past) :
    (steps edit start place n past : Program (Call.Answer : Call α β → Type) _).Every fun outcomes =>
      Chained edit start outcomes ∧ outcomes.length = n + past.length := by
  induction n generalizing past with
  | zero => exact ⟨h, (Nat.zero_add _).symm⟩
  | succ n ih =>
    have hstep : (step place (stateAfter edit start past) : Program (Call.Answer : Call α β → Type) _).Every
        (StepLeaves (stateAfter edit start past).subdomain (stateAfter edit start past).particles) := every_step place
    refine hstep.bind fun r hr => ?_
    have hnext : Chained edit start (r :: past) := ⟨hr, h⟩
    refine (ih hnext).mono fun outcomes houtcomes => ⟨houtcomes.1, ?_⟩
    rw [houtcomes.2, List.length_cons, Nat.add_right_comm, Nat.add_assoc]

end Steps

/-! ## Ranges -/

/-- Whether the index ranges of a subdomain fit the particles that the rank has. -/
structure RangesFit (r : Outcome width α) : Prop where
  owned_eq : r.2.subdomain.ownedRange = ⟨0, r.2.particles.owned⟩
  /-- After a success the halos reach up to the last particle. -/
  halos_eq : ∀ report, r.1 = .ok report → r.2.subdomain.haloRange = ⟨r.2.particles.owned, r.2.particles.size⟩
  /-- After a rejection no halo is left. -/
  size_eq : ∀ cause, r.1 = .error cause → r.2.particles.size = r.2.particles.owned

section Fit

variable {r r' : Outcome width α} {d : Subdomain width α} {given : ParticleSet width α}

omit [Scalar α] in
theorem RangesFit.localCount_eq (h : RangesFit r) : r.2.subdomain.localCount = r.2.particles.owned :=
  congrArg IndexRange.stop h.owned_eq

omit [Scalar α] in
theorem RangesFit.owned_le (h : RangesFit r) : r.2.particles.owned ≤ r.2.particles.size := by
  obtain ⟨result, s⟩ := r
  cases result with
  | error cause => exact (h.size_eq cause rfl).symm.le
  | ok report =>
    have hstop : s.subdomain.localCount + s.subdomain.haloCount = s.particles.size :=
      congrArg IndexRange.stop (h.halos_eq report rfl)
    have hlocal : s.subdomain.localCount = s.particles.owned := h.localCount_eq
    show s.particles.owned ≤ s.particles.size
    omega

/-- They fit after a success. -/
theorem StepLeaves.rangesFit_of_ok (h : StepLeaves d given r) (hok : ∃ report, r.1 = .ok report) : RangesFit r := by
  cases h with
  | early cause rest kept => obtain ⟨report, hreport⟩ := hok; cases hreport
  | late cause rest p found => obtain ⟨report, hreport⟩ := hok; cases hreport
  | committed report d' rest p taken owned_eq size_eq =>
    refine ⟨?_, fun _ _ => ?_, fun cause hcause => ?_⟩
    · rw [ownedRange, owned_eq]
    · rw [haloRange, owned_eq, size_eq]
    · cases hcause

/-- They fit after a rejection if they did before and no particle was added or taken. -/
theorem StepLeaves.rangesFit_of_rejected (h : StepLeaves r'.2.subdomain given r) (hfit : RangesFit r')
    (hsize : given.size = r'.2.particles.size) (howned : given.owned = r'.2.particles.owned) {cause : Error α}
    (hcause : r.1 = .error cause) (hfatal : cause.isFatal = false) : RangesFit r := by
  cases h with
  | early cause rest kept =>
    cases hcause
    obtain ⟨hrest, hrestOwned⟩ := kept hfatal
    have hown : given.own.size = given.owned := by
      rw [ParticleSet.size_own, hsize, howned]
      exact Nat.min_eq_left hfit.owned_le
    refine ⟨?_, fun report hreport => ?_, fun _ _ => ?_⟩
    · show r'.2.subdomain.ownedRange = ⟨0, rest.owned⟩
      rw [hfit.owned_eq, hrestOwned, howned]
    · cases hreport
    · show rest.size = rest.owned
      rw [hrest, hown, hrestOwned]
  | late cause rest p found =>
    cases hcause
    cases found.isFatal.symm.trans hfatal
  | committed => cases hcause

variable {edit : Edit width α} {start : StepState width α} {past : List (Outcome width α)}

/-- They fit from the first success on as long as no failure is fatal. -/
theorem Chained.rangesFit (hedit : edit.KeepsCounts) (h : Chained edit start (r :: past))
    (hfatal : ∀ o ∈ r :: past, ∀ cause, o.1 = .error cause → cause.isFatal = false)
    (hsuccess : ∃ o ∈ r :: past, ∃ report, o.1 = .ok report) : RangesFit r := by
  induction past generalizing r with
  | nil =>
    obtain ⟨o, ho, hok⟩ := hsuccess
    obtain rfl := List.mem_singleton.1 ho
    exact h.1.rangesFit_of_ok hok
  | cons r' past ih =>
    cases hresult : r.1 with
    | ok report => exact h.1.rangesFit_of_ok ⟨report, hresult⟩
    | error cause =>
      have hearlier : ∃ o ∈ r' :: past, ∃ report, o.1 = .ok report := by
        obtain ⟨o, ho, report, hreport⟩ := hsuccess
        refine ⟨o, (List.mem_cons.1 ho).resolve_left fun heq => ?_, report, hreport⟩
        cases hresult.symm.trans (heq ▸ hreport)
      have hfit : RangesFit r' := ih h.2 (fun o ho => hfatal o (List.mem_cons_of_mem r ho)) hearlier
      obtain ⟨hsize, howned⟩ := hedit (r' :: past) r'.2.particles
      exact h.1.rangesFit_of_rejected hfit hsize howned hresult (hfatal r List.mem_cons_self cause hresult)

/-- What is chained was so after each step. -/
theorem Chained.of_suffix {outcomes : List (Outcome width α)} (h : Chained edit start outcomes) (hsuffix : past <:+ outcomes) :
    Chained edit start past := by
  obtain ⟨newer, rfl⟩ := hsuffix
  induction newer with
  | nil => exact h
  | cons r newer ih => exact ih h.2

end Fit

/-- Whatever the ranks of a cluster do in whatever order, a rank that made its steps without a fatal failure had fitting index
ranges after each of them from the first success on. -/
theorem ranges_fit [Wire α β] {edit : Nat → Edit width α} {start : Nat → StepState width α} (hedit : ∀ i, (edit i).KeepsCounts)
    {c : Cluster β (List (Outcome width α))} (hsteps : ReflTransGen Cluster.Step (Cluster.start ((List.range size).map fun i =>
      (steps (edit i) (start i) ⟨i, size⟩ n [] : Program (Call.Answer : Call α β → Type) _).expand
        (Call.toActions ⟨i, size⟩))) c)
    (hi : i < size) {outcomes : List (Outcome width α)} (hdone : c.ranks[i]? = some (.done outcomes))
    (hfatal : ∀ o ∈ outcomes, ∀ cause, o.1 = .error cause → cause.isFatal = false) :
    outcomes.length = n ∧ ∀ r past, r :: past <:+ outcomes → (∃ o ∈ r :: past, ∃ report, o.1 = .ok report) → RangesFit r := by
  have hnone : Chained (edit i) (start i) [] := trivial
  have hevery : (steps (edit i) (start i) ⟨i, size⟩ n [] : Program (Call.Answer : Call α β → Type) _).Every fun outcomes =>
      Chained (edit i) (start i) outcomes ∧ outcomes.length = n := every_steps ⟨i, size⟩ hnone
  obtain ⟨hchained, hlength⟩ := Cluster.every_result_of_steps hsteps hi (hevery.expand _) hdone
  refine ⟨hlength, fun r past hsuffix hsuccess => (hchained.of_suffix hsuffix).rangesFit (hedit i) (fun o ho => ?_) hsuccess⟩
  exact hfatal o (hsuffix.subset ho)

/-! ## A success and a rejection -/

/-- Every smoothing length is made negative. -/
noncomputable def negated : Edit .narrow EReal := fun _ p => { p with h := p.h.map fun _ => -1 }

theorem keepsCounts_negated : negated.KeepsCounts := fun _ _ => ⟨rfl, rfl⟩

/-- No rank that owns a particle accepts negative smoothing lengths. -/
theorem validate_negated (d : Subdomain .narrow EReal) (place : Place) (past : List (Outcome .narrow EReal))
    {p : ParticleSet .narrow EReal} (hp : p.Uniform p.size) (hpos : 0 < p.owned) (hle : p.owned ≤ p.size) :
    d.validate place (negated past p).own ≠ .ok () := by
  intro h
  have hsize : (negated past p).own.size = p.owned := by
    rw [ParticleSet.size_own]
    exact Nat.min_eq_left hle
  have hlength : (negated past p).own.h.getD 0 0 = -1 := by
    show ((p.h.map fun _ => (-1 : EReal)).take p.owned).getD 0 0 = -1
    have hh : 0 < p.h.size := hp.size_h.symm ▸ Nat.lt_of_lt_of_le hpos hle
    rw [Column.getD_take hpos]
    simp [Array.getD, hh]
  have hchecked := (validate_eq_ok_iff.1 h).2.2 0 (hsize.symm ▸ hpos)
  have hnonneg := (ParticleSet.checkParticle_eq_ok_iff.1 hchecked).1.2
  rw [hlength] at hnonneg
  exact absurd hnonneg (not_le.2 (by norm_num))

/-- What a rank has after a first step with these particles. -/
structure AfterFirst (i : Nat) (r : Outcome .narrow EReal) : Prop where
  ok : ∃ report, r.1 = .ok report
  place_eq : r.2.subdomain.place = ⟨i, 2⟩
  layout_eq : r.2.particles.layout = (corners 0).layout
  uniform : r.2.particles.Uniform r.2.particles.size
  owned_eq : r.2.particles.owned = r.2.subdomain.localCount
  owned_pos : 0 < r.2.particles.owned
  owned_le : r.2.particles.owned ≤ r.2.particles.size
  halos_pos : 0 < r.2.subdomain.haloCount

theorem exists_first_corners : ∃ first : Nat → Outcome .narrow EReal, (∀ i < 2, AfterFirst i (first i)) ∧
    Collects 2 (fun i => (stages ⟨i, 2⟩ : Stage .narrow EReal Exact.Symbol (Report EReal)).exec
      ⟨initial ⟨i, 2⟩ (walled 64), corners i⟩) first := by
  have hrounds : 0 < 64 := by decide
  obtain ⟨p, s, order, local', origins, reports, hprepared, _, hstages⟩ := collects_step_corners hrounds
  have hbucket : (walled 64).bucketSize * 512 < 2 ^ 64 := show 64 * 512 < 2 ^ 64 by decide
  have hproper := hprepared.proper peers_corners admissible_corners hbucket (Exact.lawfulCells _ _)
    (fun i _ => Leaves.isValid_root _) (by decide)
  refine ⟨_, fun i hi => ?_, hstages⟩
  have howned : (ParticleSet.withHalos (β := Exact.Symbol) 2 (settingOf (walled 64) p
      (fun i => initial ⟨i, 2⟩ (walled 64)) local').plan local' i).owned = (local' i).size :=
    (ParticleSet.owned_withHalos _ _ _).trans (hprepared.owned_local hi)
  obtain ⟨_, huniform, _⟩ := ParticleSet.withHalos_spec (β := Exact.Symbol) (hprepared.matching peers_corners hbucket hproper)
    (fun i hi => hprepared.filled admissible_corners hi) hi
  refine ⟨⟨reports i, rfl⟩, rfl, (ParticleSet.layout_withHalos _ _ _).trans (hprepared.layout_local hi),
    huniform.size_eq.symm ▸ huniform, howned, ?_, ?_, hprepared.haloCount_corners hi⟩
  · exact Nat.lt_of_lt_of_eq (hprepared.size_corners hi) howned.symm
  · simp only [successOf, howned, huniform.size_eq]
    exact Nat.le_add_right _ _

/-- The two ranks make that step, and then one that is rejected for negative smoothing lengths. -/
theorem exists_rejected_corners : ∃ (first : Nat → Outcome .narrow EReal) (e : Nat → Error EReal),
    (∀ i < 2, AfterFirst i (first i)) ∧ (∀ i < 2, (e i).isFatal = false) ∧
      Collects 2 (fun i => (steps negated ⟨initial ⟨i, 2⟩ (walled 64), corners i⟩ ⟨i, 2⟩ 2 [] :
        Program (Call.Answer : Call EReal Exact.Symbol → Type) _)) fun i =>
        [(.error (e i), ⟨(first i).2.subdomain, (negated [first i] (first i).2.particles).own⟩), first i] := by
  obtain ⟨first, hfirst, hstages⟩ := exists_first_corners
  have hplace : ∀ i < 2, (first i).2.subdomain.place.rank + 1 < 2 ^ 64 := fun i hi => by
    rw [(hfirst i hi).place_eq]
    exact Nat.lt_of_le_of_lt hi (by decide)
  have hrows : ∀ i < 2, (negated [first i] (first i).2.particles).rowWidth < 2 ^ 64 := fun i hi => by
    have hlayout : (negated [first i] (first i).2.particles).layout = (corners 0).layout := (hfirst i hi).layout_eq
    rw [ParticleSet.rowWidth_eq_of_layout_eq hlayout]
    exact admissible_corners.rowWidth_lt 0 (by decide)
  have hzero := hfirst 0 (by decide)
  obtain ⟨e, hrejection, hrejected⟩ := collects_stages_rejected (β := Exact.Symbol) (by decide) hplace hrows
    (.inl ⟨0, by decide, validate_negated _ _ _ hzero.uniform hzero.owned_pos hzero.owned_le⟩)
  refine ⟨first, e, hfirst, hrejection.not_fatal, ?_⟩
  refine (collects_step hstages fun i hi cause hcause => ?_).bind
    ((collects_step hrejected fun i hi cause hcause => ?_).bind (Collects.done _))
  · obtain ⟨report, hreport⟩ := (hfirst i hi).ok
    cases hreport.symm.trans hcause
  · rw [← Except.error.inj hcause]
    exact hrejection.not_fatal i hi

theorem ranges_fit_corners : ∃ (c : Cluster Exact.Symbol (List (Outcome .narrow EReal)))
    (first : Nat → Outcome .narrow EReal) (rejected : Nat → Outcome .narrow EReal),
    ReflTransGen Cluster.Step (Cluster.start ((List.range 2).map fun i =>
      (steps negated ⟨initial ⟨i, 2⟩ (walled 64), corners i⟩ ⟨i, 2⟩ 2 [] :
        Program (Call.Answer : Call EReal Exact.Symbol → Type) _).expand (Call.toActions ⟨i, 2⟩))) c ∧
    ∀ i < 2, c.ranks[i]? = some (.done [rejected i, first i]) ∧ (∃ report, (first i).1 = .ok report) ∧
      (∃ cause, (rejected i).1 = .error cause ∧ cause.isFatal = false) ∧
      [rejected i, first i].length = 2 ∧ ∀ r past, r :: past <:+ [rejected i, first i] →
        (∃ o ∈ r :: past, ∃ report, o.1 = .ok report) → RangesFit r := by
  obtain ⟨first, e, hfirst, hfatal, hcollects⟩ := exists_rejected_corners
  obtain ⟨c, hsteps, hdone⟩ := hcollects.exists_steps
  refine ⟨c, first, _, hsteps, fun i hi => ⟨hdone i hi, (hfirst i hi).ok, ⟨e i, rfl, hfatal i hi⟩, ?_⟩⟩
  refine ranges_fit (fun _ => keepsCounts_negated) hsteps hi (hdone i hi) fun o ho cause hcause => ?_
  obtain ⟨report, hreport⟩ := (hfirst i hi).ok
  rcases List.mem_cons.1 ho with rfl | ho
  · rw [← Except.error.inj hcause]
    exact hfatal i hi
  · obtain rfl := List.mem_singleton.1 ho
    cases hreport.symm.trans hcause

/-- After the rejected step the subdomains still count the halos, but no rank has them any more. -/
theorem ranges_exceed_corners : ∃ (c : Cluster Exact.Symbol (List (Outcome .narrow EReal)))
    (first : Nat → Outcome .narrow EReal) (rejected : Nat → Outcome .narrow EReal),
    ReflTransGen Cluster.Step (Cluster.start ((List.range 2).map fun i =>
      (steps negated ⟨initial ⟨i, 2⟩ (walled 64), corners i⟩ ⟨i, 2⟩ 2 [] :
        Program (Call.Answer : Call EReal Exact.Symbol → Type) _).expand (Call.toActions ⟨i, 2⟩))) c ∧
    ∀ i < 2, c.ranks[i]? = some (.done [rejected i, first i]) ∧ (∃ report, (first i).1 = .ok report) ∧
      (∃ cause, (rejected i).1 = .error cause ∧ cause.isFatal = false) ∧
      (rejected i).2.particles.size < (rejected i).2.subdomain.localCount + (rejected i).2.subdomain.haloCount := by
  obtain ⟨first, e, hfirst, hfatal, hcollects⟩ := exists_rejected_corners
  obtain ⟨c, hsteps, hdone⟩ := hcollects.exists_steps
  refine ⟨c, first, _, hsteps, fun i hi => ⟨hdone i hi, (hfirst i hi).ok, ⟨e i, rfl, hfatal i hi⟩, ?_⟩⟩
  have hown : (negated [first i] (first i).2.particles).own.size ≤ (first i).2.particles.owned := size_own_le _
  exact Nat.lt_of_le_of_lt (hown.trans (hfirst i hi).owned_eq.le) (Nat.lt_add_of_pos_right (hfirst i hi).halos_pos)

end Subdomain

end CurvePartition
