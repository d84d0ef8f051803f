-- SUMMARY: Steps of ranks that take turns and never lose patience: they never get stuck, and each rank has its own result or was cut off when one with a fatal failure ended the run.
import CurvePartition.Proofs.Cluster.Overtaking
import CurvePartition.Proofs.Subdomain.Stages

/-!
# Steps in turns

On a cluster without faults the ranks take turns and none loses patience. Their steps never get stuck
(`Subdomain.neverStuck_stepping`). If nobody fails fatally each rank has the result of its stages. Else the first rank that has a
fatal failure ends the run, and a rank that still has to communicate is cut off, so it reports the end of the run in place of its
own result (`Subdomain.CompletesInTurns.cutShort`). So ranks that fail with one cause together need not all report it
(`Subdomain.FailsWith`). On no more than two ranks they do, as a rank that is done has nothing left to tell the other one
(`Subdomain.CompletesInTurns.eq_of_two`).
-/

namespace CurvePartition

open Program Relation

variable {width : KeyWidth} {α β : Type}

namespace Subdomain

variable {size i : Nat} {own results : Nat → Except (Error α) (Report α) × StepState width α}

/-! ## Results that are cut short -/

/-- Whether a rank was cut off as another one ended the run for a cause. -/
def CutOffBy (s : Nat) (cause : Error α) (r : Except (Error α) (Report α) × StepState width α) : Prop :=
  r.1 = .error (.communication (.aborted s cause.exitCode))

/-- What ranks come to whose own results are given: these, unless a rank with a fatal failure has ended the run before some
others could come to theirs. -/
inductive CutShort (size : Nat) (own results : Nat → Except (Error α) (Report α) × StepState width α) : Prop
  | own (all : ∀ i < size, results i = own i)
  | ended {s : Nat} {cause : Error α} (hs : s < size) (failed : (own s).1 = .error cause) (fatal : cause.isFatal = true)
    (ender : results s = own s) (others : ∀ i < size, results i = own i ∨ CutOffBy s cause (results i))

/-- What ranks come to that fail with one cause together: some rank reports it, and the others report it as well or were cut off
by that rank. All report it if it is not fatal, or if there is one other rank at most. -/
structure FailsWith (size : Nat) (e : Error α) (results : Nat → Except (Error α) (Report α) × StepState width α) : Prop where
  reported : ∃ s < size, (results s).1 = .error e ∧ ∀ i < size, (results i).1 = .error e ∨ CutOffBy s e (results i)
  common : e.isFatal = false ∨ size ≤ 2 → ∀ i < size, (results i).1 = .error e

/-- Without a fatal failure all ranks have their own results. -/
theorem CutShort.eq_of_not_fatal (h : CutShort size own results)
    (hfatal : ∀ i < size, ∀ cause, (own i).1 = .error cause → cause.isFatal = false) (hi : i < size) : results i = own i := by
  cases h with
  | own all => exact all i hi
  | ended hs failed fatal _ _ => cases fatal.symm.trans (hfatal _ hs _ failed)

/-! ## Programs that are closed -/

variable [Scalar α] [Wire α β]

section Closing

variable {ps : Nat → Program (Call.Answer : Call α β → Type) (Except (Error α) (Report α) × StepState width α)}

omit [Scalar α] [Wire α β] in
theorem closing_eq_call {r : Except (Error α) (Report α) × StepState width α} {code : Int}
    (h : (closing r : Program (Action.Answer : Action β → Type) _) = .call (.abort code) fun _ => .done r) :
    ∃ cause, r.1 = .error cause ∧ cause.isFatal = true ∧ code = cause.exitCode := by
  unfold closing at h
  split at h
  · cases h
  · rename_i cause hcause
    split at h
    · rename_i hfatal
      cases h
      exact ⟨cause, hcause, hfatal, rfl⟩
    · cases h

theorem failsFast_expand (hfast : ∀ i < size, (ps i).FailsFast Call.failure fun e r => r.1 = .error (.communication e)) :
    ∀ p ∈ (List.range size).map fun i => (ps i).expand (Call.toActions ⟨i, size⟩),
      p.FailsFast Action.failure fun e r => r.1 = .error (.communication e) := by
  intro p hp
  obtain ⟨i, hi, rfl⟩ := List.mem_map.1 hp
  exact (hfast i (List.mem_range.1 hi)).expand (Call.failsFast_toActions _)

/-- Programs that succeed never get stuck when they are closed. -/
theorem neverStuck_closing (h : Succeeds size ps own)
    (hfast : ∀ i < size, (ps i).FailsFast Call.failure fun e r => r.1 = .error (.communication e)) :
    (Cluster.start ((List.range size).map fun i => (ps i).expand (Call.toActions ⟨i, size⟩) >>= closing)).NeverStuck := by
  obtain ⟨n, q, hrun⟩ := h
  rw [← Cluster.channels_start] at hrun
  exact Cluster.neverStuck_of_run closes_closing rfl (Cluster.ranks_start size _) hrun (failsFast_expand hfast)

/-- In turns they come to their results, or are cut short. -/
theorem cutShort_of_turns (h : Succeeds size ps own)
    (hfast : ∀ i < size, (ps i).FailsFast Call.failure fun e r => r.1 = .error (.communication e))
    (hreaches : Cluster.ReachesInTurns size (fun i => (ps i).expand (Call.toActions ⟨i, size⟩) >>= closing) results) :
    CutShort size own results := by
  obtain ⟨n, q, hrun⟩ := h
  obtain ⟨c, hturns, hdone⟩ := hreaches
  rw [← Cluster.channels_start] at hrun
  have hrank : ∀ i < size, c.ranks[i]? = some (.done (results i)) := fun i hi => hdone ▸ getElem?_map_range.2 ⟨hi, rfl⟩
  have hresult : ∀ i < size, results i = own i ∨ ∃ s code r₁, c.mail.ended = some (s, code) ∧ s < size ∧ r₁ = own s ∧
      c.ranks[s]? = some (.done r₁) ∧ (closing r₁ = .call (.abort code) fun _ => .done r₁) ∧
      (results i).1 = .error (.communication (.aborted s code)) := fun i hi => by
    rcases Cluster.result_of_turns closes_closing rfl (Cluster.ranks_start size _) hrun (failsFast_expand hfast) hturns
      (hrank i hi) with hr | ⟨s, code, r₁, hended, hs, hrest⟩
    · exact .inl (getElem?_map_range.1 hr).2.symm
    · obtain ⟨hlt, heq⟩ := getElem?_map_range.1 hs
      exact .inr ⟨s, code, r₁, hended, hlt, heq.symm, hrest⟩
  by_cases hall : ∀ i < size, results i = own i
  · exact .own hall
  obtain ⟨i, hi⟩ := not_forall.1 hall
  obtain ⟨hi, hne⟩ := Classical.not_imp.1 hi
  obtain ⟨s, code, _, hended, hs, rfl, hdone, hclosing, _⟩ := (hresult i hi).resolve_left hne
  obtain ⟨cause, hcause, hfatal, rfl⟩ := closing_eq_call hclosing
  refine .ended hs hcause hfatal ?_ fun j hj => (hresult j hj).imp_right ?_
  · exact Program.done.inj (Option.some.inj ((hrank s hs).symm.trans hdone))
  · rintro ⟨s', code', _, hended', _, _, _, _, herror⟩
    cases hended.symm.trans hended'
    exact herror

/-- On no more than two ranks they come to their results. -/
theorem eq_of_turns_of_two (h : Collects size ps own) (hcalls : ∀ i < size, (ps i).Calls (Call.NotTo i)) (htwo : size ≤ 2)
    (hreaches : Cluster.ReachesInTurns size (fun i => (ps i).expand (Call.toActions ⟨i, size⟩) >>= closing) results)
    (hi : i < size) : results i = own i := by
  obtain ⟨n, hrun⟩ := Collective.exists_run h
  obtain ⟨c, hturns, hdone⟩ := hreaches
  rw [← Cluster.channels_start] at hrun
  have hrank : c.ranks[i]? = some (.done (results i)) := hdone ▸ getElem?_map_range.2 ⟨hi, rfl⟩
  have hothers : ∀ (j : Nat) p, ((List.range size).map fun i => (ps i).expand (Call.toActions ⟨i, size⟩))[j]? = some p →
      p.Calls (Action.NotTo j) := fun j p hp => by
    obtain ⟨hj, rfl⟩ := getElem?_map_range.1 hp
    exact (hcalls j hj).expand fun c hc => Call.calls_toActions ⟨j, size⟩ hc
  have hresult := Cluster.result_of_turns_of_two closes_closing rfl (Cluster.ranks_start size _) hrun (by simpa using htwo)
    hothers hturns hrank
  exact (getElem?_map_range.1 hresult).2.symm

end Closing

/-! ## Steps -/

/-- The ranks before their steps. -/
def stepping (size : Nat) (before : Nat → StepState width α) : Cluster β (Except (Error α) (Report α) × StepState width α) :=
  .start ((List.range size).map fun rank => (step ⟨rank, size⟩ (before rank)).expand (Call.toActions ⟨rank, size⟩))

/-- Whether the steps of all ranks, which take turns and never lose patience, lead from given states to given results. -/
def CompletesInTurns (size : Nat) (before : Nat → StepState width α)
    (results : Nat → Except (Error α) (Report α) × StepState width α) : Prop :=
  Cluster.ReachesInTurns size
    (fun i => (step ⟨i, size⟩ (before i) : Program (Call.Answer : Call α β → Type) _).expand (Call.toActions ⟨i, size⟩)) results

section Steps

variable {before : Nat → StepState width α}

theorem completesInTurns_iff : CompletesInTurns (β := β) size before results ↔ Cluster.ReachesInTurns size
    (fun i => ((stages ⟨i, size⟩).exec (before i)).expand (Call.toActions ⟨i, size⟩) >>= closing) results := by
  simp only [← expand_step]
  rfl

theorem CompletesInTurns.completes (h : CompletesInTurns (β := β) size before results) : Completes (β := β) size before results :=
  Cluster.ReachesInTurns.reaches h

section Succeed

variable (hown : Succeeds size (fun i => (stages ⟨i, size⟩ : Stage width α β (Report α)).exec (before i)) own)
include hown

/-- Steps whose stages come to results never get stuck. -/
theorem neverStuck_stepping : (stepping size before : Cluster β (Except (Error α) (Report α) × StepState width α)).NeverStuck := by
  have h := neverStuck_closing hown fun i _ => (regular_stages ⟨i, size⟩).failsFast (before i)
  simp only [← expand_step] at h
  exact h

/-- They come to these results, or are cut short. -/
theorem CompletesInTurns.cutShort (h : CompletesInTurns (β := β) size before results) : CutShort size own results :=
  cutShort_of_turns hown (fun i _ => (regular_stages ⟨i, size⟩).failsFast (before i)) (completesInTurns_iff.1 h)

theorem exists_completesInTurns : CompletesInTurns (β := β) size before own :=
  completesInTurns_iff.2 (reachesInTurns_of_succeeds hown)

/-- If the first rank can have a fatal failure while another rank still has to post a message, that rank can be cut off. -/
theorem exists_cut_off {cause : Error α} {s : StepState width α}
    (h : Overtakes size (fun i => (stages ⟨i, size⟩ : Stage width α β (Report α)).exec (before i)) (.error cause, s))
    (hfatal : cause.isFatal = true) : ∃ results, CompletesInTurns (β := β) size before results ∧
      (results 0).1 = .error cause ∧ ∃ j < size, CutOffBy 0 cause (results j) := by
  have hfast : ∀ i < size, ((stages ⟨i, size⟩ : Stage width α β (Report α)).exec (before i)).FailsFast Call.failure
      fun e r => r.1 = .error (.communication e) := fun i _ => (regular_stages ⟨i, size⟩).failsFast (before i)
  obtain ⟨c, hturns, hdone, hzero, j, r, hj, hcut⟩ := Cluster.exists_cut_off closes_closing h
    (show closing (.error cause, s) = .call (.abort cause.exitCode) _ by simp only [closing, hfatal, if_true])
    (fun i hi => (hfast i hi).expand (Call.failsFast_toActions _)) (neverStuck_closing hown hfast)
  have hlength : c.ranks.length = size := (Cluster.length_of_turns hturns).trans (by simp [Cluster.start])
  have hlt : ∀ {i : Nat} {p}, c.ranks[i]? = some p → i < size := fun hp => hlength ▸ (List.getElem?_eq_some_iff.1 hp).1
  obtain ⟨results, hresults⟩ := hdone.exists_results hlength (hlt hzero)
  have hresult : ∀ {i : Nat} {r}, c.ranks[i]? = some (.done r) → results i = r := fun hr => by
    rw [hresults] at hr
    exact Program.done.inj (getElem?_map_range.1 hr).2
  refine ⟨results, completesInTurns_iff.2 ⟨c, hturns, hresults⟩, ?_, j, hlt hj, ?_⟩
  · rw [hresult hzero]
  · rw [CutOffBy, hresult hj]
    exact hcut

end Succeed

section Collect

variable (hown : Collects size (fun i => (stages ⟨i, size⟩ : Stage width α β (Report α)).exec (before i)) own)
include hown

theorem CompletesInTurns.eq_of_two (h : CompletesInTurns (β := β) size before results) (htwo : size ≤ 2) (hi : i < size) :
    results i = own i :=
  eq_of_turns_of_two hown (fun i _ => (regular_stages ⟨i, size⟩).calls (before i)) htwo (completesInTurns_iff.1 h) hi

/-- When all ranks fail with one cause, they report it or are cut off by one that does. -/
theorem CompletesInTurns.failsWith (h : CompletesInTurns (β := β) size before results) (hpos : 0 < size) {e : Error α}
    (he : ∀ i < size, (own i).1 = .error e) : FailsWith size e results where
  reported := by
    cases h.cutShort hown.succeeds with
    | own all => exact ⟨0, hpos, all 0 hpos ▸ he 0 hpos, fun i hi => .inl (all i hi ▸ he i hi)⟩
    | ended hs failed _ ender others =>
      cases (he _ hs).symm.trans failed
      exact ⟨_, hs, ender ▸ failed, fun i hi => (others i hi).imp_left fun heq => by rw [heq, he i hi]⟩
  common hcommon i hi := by
    have heq : results i = own i := by
      rcases hcommon with hfatal | htwo
      · refine (h.cutShort hown.succeeds).eq_of_not_fatal (fun j hj cause hcause => ?_) hi
        cases (he j hj).symm.trans hcause
        exact hfatal
      · exact h.eq_of_two hown htwo hi
    rw [heq]
    exact he i hi

end Collect

end Steps

end Subdomain

end CurvePartition
