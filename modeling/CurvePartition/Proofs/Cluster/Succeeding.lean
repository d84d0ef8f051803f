-- SUMMARY: Programs that come to results together: their results are unique, collective parts can be put in front and taken off, and failures on the way show in the results.
import CurvePartition.Proofs.Cluster.Exchanges
import CurvePartition.Proofs.Results

/-!
# Results of programs of all ranks

`Succeeds` says that programs of all ranks have a run to given results in which nobody fails to communicate. As the
order of actions does not matter, these results are the only ones (`Succeeds.unique`), and a collective part at the front
can be put there or taken off (`Succeeds.bind`, `Succeeds.after`).

A program *reports* failures if after a failed answer all its results are bad ones (`Program.Reports`).
-/

namespace CurvePartition

open Program

namespace Program

variable {Op Op' : Type} {Answer : Op → Type} {Answer' : Op' → Type} {ρ σ : Type}

/-! ## Results of all kinds -/

/-- Whether all results of a program are of one kind. -/
def Every (good : ρ → Prop) : Program Answer ρ → Prop
  | .done r => good r
  | .call _ next => ∀ a, (next a).Every good

theorem Every.mono {good good' : ρ → Prop} {p : Program Answer ρ} (h : p.Every good) (himp : ∀ r, good r → good' r) :
    p.Every good' := by
  induction p with
  | done r => exact himp r h
  | call op next ih => exact fun a => ih a (h a)

theorem every_bind {good : σ → Prop} {p : Program Answer ρ} {f : ρ → Program Answer σ} :
    (p >>= f).Every good ↔ p.Every fun r => (f r).Every good := by
  induction p with
  | done r => exact Iff.rfl
  | call op next ih => exact forall_congr' ih

theorem Every.bind {good : ρ → Prop} {good' : σ → Prop} {p : Program Answer ρ} {f : ρ → Program Answer σ}
    (h : p.Every good) (hf : ∀ r, good r → (f r).Every good') : (p >>= f).Every good' :=
  every_bind.2 (h.mono hf)

theorem every_true (p : Program Answer ρ) : p.Every fun _ => True := by
  induction p with
  | done r => trivial
  | call op next ih => exact ih

theorem Every.expand {good : ρ → Prop} {p : Program Answer ρ} (h : p.Every good)
    (handler : ∀ op, Program Answer' (Answer op)) : (p.expand handler).Every good := by
  induction p with
  | done r => exact h
  | call op next ih => exact (every_true (handler op)).bind fun a _ => ih a (h a)

/-- A program with exceptions whose first part fails in one kind of way only. -/
theorem every_bind_of_failsOnly {ε : Type} {kind : ε → Prop} {good : Except ε σ → Prop} {x : ExceptT ε (Program Answer) ρ}
    {f : ρ → ExceptT ε (Program Answer) σ} (hx : x.run.Every (FailsOnly kind)) (hf : ∀ a, (f a).run.Every good)
    (hbad : ∀ e, kind e → good (.error e)) : (x >>= f).run.Every good := by
  refine hx.bind fun r hr => ?_
  cases r with
  | ok a => exact hf a
  | error e => exact hbad e (hr e rfl)

/-- It fails badly if all that follows its first part does. -/
theorem every_error_bind {ε : Type} {bad : ε → Prop} {x : ExceptT ε (Program Answer) ρ}
    {f : ρ → ExceptT ε (Program Answer) σ} (hx : x.run.Every (FailsOnly bad))
    (h : ∀ a, (f a).run.Every fun r => ∃ e, r = .error e ∧ bad e) :
    (x >>= f).run.Every fun r => ∃ e, r = .error e ∧ bad e :=
  every_bind_of_failsOnly hx h fun e he => ⟨e, rfl, he⟩

/-- An exchange fails only with a failure to communicate. -/
theorem failsOnly_exchange {α β τ : Type} {kind : Error α → Prop} (hkind : ∀ cause, kind (.communication cause))
    (e : Exchange α β τ) : (Attempt.exchange e).run.Every (FailsOnly kind) := by
  refine (every_true e.run).bind fun r _ => ?_
  cases r with
  | ok a => exact FailsOnly.ok a
  | error cause => exact FailsOnly.error (hkind cause)

/-- So it fails fatally. -/
theorem every_exchange {α β τ : Type} (e : Exchange α β τ) :
    (Attempt.exchange e).run.Every fun r => ∀ cause, r = .error cause → cause.isFatal = true :=
  failsOnly_exchange (fun _ => rfl) e

/-! ## Reported failures -/

variable {failure : ∀ op, Answer op → Option CommError} {bad : ρ → Prop}

/-- Whether all results of a program are bad ones after a failed answer. -/
def Reports (failure : ∀ op, Answer op → Option CommError) (bad : ρ → Prop) : Program Answer ρ → Prop
  | .done _ => True
  | .call op next => ∀ a, (failure op a = none → (next a).Reports failure bad) ∧
      (failure op a ≠ none → (next a).Every bad)

/-- A program that fails fast reports failures. -/
theorem FailsFast.reports {failed : CommError → ρ → Prop} {p : Program Answer ρ} (h : p.FailsFast failure failed)
    (hbad : ∀ e r, failed e r → bad r) : p.Reports failure bad := by
  induction h with
  | done r => trivial
  | call op next _ stops ih =>
    refine fun a => ⟨ih a, fun hfail => ?_⟩
    obtain ⟨e, he⟩ := Option.ne_none_iff_exists'.1 hfail
    obtain ⟨r, hr, hfailed⟩ := stops a e he
    rw [hr]
    exact hbad e r hfailed

end Program

variable {β ρ σ τ : Type} {size : Nat}

/-! ## Collective parts -/

/-- Any actions at the front can be taken off a run to the end. -/
theorem Net.Run.after {m n : Nat} {c d : Net β ρ} {q : Channels β} {results : List ρ}
    (h : Net.Run n c (Net.finished q results)) (hfront : Net.Run m c d) :
    ∃ n', Net.Run n' d (Net.finished q results) := by
  induction hfront generalizing n with
  | refl => exact ⟨n, h⟩
  | act first _ ih =>
    obtain ⟨n', _, hrest⟩ := h.of_act first
    exact ih hrest

/-- All runs to the end come to the same results. -/
theorem Net.Run.unique {m n : Nat} {c : Net β ρ} {q q' : Channels β} {results results' : List ρ}
    (h : Net.Run n c (Net.finished q results)) (h' : Net.Run m c (Net.finished q' results')) :
    Net.finished q' results' = Net.finished q results := by
  obtain ⟨n', hrest⟩ := h.after h'
  generalize hc : Net.finished q' results' = d at hrest
  cases hrest with
  | refl => rfl
  | act first _ => exact absurd (hc ▸ first) not_act_finished

/-- What follows the programs of all ranks does not touch a run. -/
theorem Net.Run.bind {n : Nat} {c d : Net β σ} (h : Net.Run n c d)
    (k : Nat → σ → Program (Action.Answer : Action β → Type) ρ) :
    Net.Run n ⟨c.channels, c.ranks.mapIdx fun i p => p >>= k i⟩ ⟨d.channels, d.ranks.mapIdx fun i p => p >>= k i⟩ := by
  induction h with
  | refl => exact .refl _
  | @act _ i _ _ _ first _ ih =>
    refine Net.Run.act (i := i) ?_ ih
    cases first with
    | @act q q' ranks a next x program acts =>
      have hcall : (ranks.mapIdx fun i p => p >>= k i)[i]? = some (.call a fun x => next x >>= k i) := by
        rw [List.getElem?_mapIdx, program]
        rfl
      rw [List.mapIdx_set]
      exact .act hcall acts

theorem getElem?_map_range {f : Nat → σ} {a : σ} {i : Nat} : ((List.range size).map f)[i]? = some a ↔ i < size ∧ f i = a := by
  rw [List.getElem?_map, Option.map_eq_some_iff]
  constructor
  · rintro ⟨j, hj, rfl⟩
    obtain ⟨hi, rfl⟩ := List.getElem?_eq_some_iff.1 hj
    rw [List.getElem_range]
    exact ⟨by simpa using hi, rfl⟩
  · rintro ⟨hi, rfl⟩
    exact ⟨i, List.getElem?_range hi, rfl⟩

theorem mapIdx_map_range (f : Nat → σ) (g : Nat → σ → τ) :
    ((List.range size).map f).mapIdx g = (List.range size).map fun i => g i (f i) :=
  List.ext_getElem (by simp) fun i h₁ h₂ => by simp

section Calls

variable {α : Type} [Scalar α] [Wire α β]

/-- Whether programs of calls, one for each rank, have a run from empty channels to given results. -/
def Succeeds (size : Nat) (ps : Nat → Program (Call.Answer : Call α β → Type) ρ) (results : Nat → ρ) : Prop :=
  ∃ n q, Net.Run n ⟨.empty size, (List.range size).map fun i => (ps i).expand (Call.toActions ⟨i, size⟩)⟩
    (Net.finished q ((List.range size).map results))

variable {ps : Nat → Program (Call.Answer : Call α β → Type) σ} {rs : Nat → σ}
  {k : Nat → σ → Program (Call.Answer : Call α β → Type) ρ} {results : Nat → ρ}

theorem Succeeds.congr {ps ps' : Nat → Program (Call.Answer : Call α β → Type) ρ} (h : Succeeds size ps results)
    (hps : ∀ i < size, ps i = ps' i) : Succeeds size ps' results := by
  obtain ⟨n, q, hrun⟩ := h
  have hmap : ((List.range size).map fun i => (ps i).expand (Call.toActions ⟨i, size⟩)) =
      (List.range size).map fun i => (ps' i).expand (Call.toActions ⟨i, size⟩) :=
    List.map_congr_left fun i hi => by rw [hps i (List.mem_range.1 hi)]
  exact ⟨n, q, hmap ▸ hrun⟩

/-- What follows a collective part succeeds with the results of that part. -/
theorem Succeeds.after (h : Succeeds size (fun i => ps i >>= k i) results) (hps : Collects size ps rs) :
    Succeeds size (fun i => k i (rs i)) results := by
  obtain ⟨n, q, hrun⟩ := h
  simp only [expand_bind] at hrun
  obtain ⟨m, hfront⟩ := hps ρ fun i r => (k i r).expand (Call.toActions ⟨i, size⟩)
  obtain ⟨n', hrest⟩ := hrun.after hfront
  exact ⟨n', q, hrest⟩

theorem Collects.succeeds (h : Collects size ps rs) : Succeeds size ps rs := by
  obtain ⟨n, hrun⟩ := Collective.exists_run h
  exact ⟨n, _, hrun⟩

/-- Programs with a collective part at the front come to the results of what follows it. -/
theorem Succeeds.bind (h : Succeeds size (fun i => k i (rs i)) results) (hps : Collects size ps rs) :
    Succeeds size (fun i => ps i >>= k i) results := by
  obtain ⟨n, q, hrest⟩ := h
  obtain ⟨m, hfront⟩ := hps ρ fun i r => (k i r).expand (Call.toActions ⟨i, size⟩)
  refine ⟨m + n, q, ?_⟩
  simp only [expand_bind]
  exact hfront.trans hrest

/-- Programs come to one result each. -/
theorem Succeeds.unique {results' : Nat → σ} (h : Succeeds size ps rs) (h' : Succeeds size ps results') {i : Nat}
    (hi : i < size) : results' i = rs i := by
  obtain ⟨n, q, hrun⟩ := h
  obtain ⟨m, q', hrun'⟩ := h'
  have hranks := congrArg (fun c : Net β σ => c.ranks[i]?) (hrun.unique hrun')
  simpa [Net.finished, hi] using hranks

/-- Results may be put in another form. -/
theorem Succeeds.map (h : Succeeds size ps rs) (g : Nat → σ → ρ) :
    Succeeds size (fun i => ps i >>= fun r => .done (g i r)) fun i => g i (rs i) := by
  obtain ⟨n, q, hrun⟩ := h
  refine ⟨n, q, ?_⟩
  have hbind := hrun.bind fun i r => (.done (g i r) : Program (Action.Answer : Action β → Type) ρ)
  simp only [Net.finished, List.map_map] at hbind ⊢
  rw [mapIdx_map_range, mapIdx_map_range] at hbind
  simp only [expand_bind]
  exact hbind

/-- A result is of the kind of all results of its program. -/
theorem Succeeds.every {ps : Nat → Program (Call.Answer : Call α β → Type) ρ} {good : ρ → Prop} {i : Nat}
    (h : Succeeds size ps results) (hi : i < size) (hgood : (ps i).Every good) : good (results i) := by
  obtain ⟨n, q, hrun⟩ := h
  have hevery : ∀ c d : Net β ρ, Net.Run n c d → (∃ p, c.ranks[i]? = some p ∧ p.Every good) →
      ∃ p, d.ranks[i]? = some p ∧ p.Every good := by
    intro c d hcd
    clear hrun
    induction hcd with
    | refl => exact id
    | @act _ j _ _ _ first _ ih =>
      refine fun ⟨p, hp, hgood⟩ => ih ?_
      cases first with
      | @act _ _ ranks a next x program acts =>
        by_cases hij : j = i
        · subst hij
          cases program.symm.trans hp
          exact ⟨next x, List.getElem?_set_self (List.getElem?_eq_some_iff.1 program).1, hgood x⟩
        · exact ⟨p, by rwa [List.getElem?_set_ne hij], hgood⟩
  obtain ⟨p, hp, hgood⟩ := hevery _ _ hrun ⟨_, by
    rw [List.getElem?_map, List.getElem?_range hi]
    rfl, hgood.expand _⟩
  simp only [Net.finished, List.getElem?_map, List.getElem?_range hi, Option.map_some, Option.some.injEq] at hp
  rw [← hp] at hgood
  exact hgood

end Calls

end CurvePartition
