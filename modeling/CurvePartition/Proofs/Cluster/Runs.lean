-- SUMMARY: Runs of a cluster: the order of steps does not matter, and a rank that does not run out of patience comes to the result of every other run.
import Mathlib.Logic.Relation
import CurvePartition.Cluster.Basic
import CurvePartition.Proofs.Cluster.Channels
import CurvePartition.Proofs.Cluster.Failing

/-!
# Runs

A `Net` is a cluster seen through its channels, in which nobody ends the run and nobody loses patience. Actions of
different ranks commute there, so all its runs lead to the same end (`Net.Run.of_act`). It follows for clusters that
`Cluster.run` reaches that end whenever there is one (`Cluster.results_run`), and for arbitrary steps, in which ranks may
lose patience, that a rank of programs that fail fast either has the result of that end or reports a message that
did not arrive in time (`Cluster.result_of_steps`).
-/

namespace CurvePartition

open Program

/-- A cluster seen through its channels. -/
structure Net (β ρ : Type) where
  channels : Channels β
  ranks : List (Program (Action.Answer : Action β → Type) ρ)

namespace Net

variable {β ρ : Type} {c d e : Net β ρ} {i j n : Nat} {q : Channels β} {results : List ρ}

/-- A rank acts. -/
inductive Act (i : Nat) : Net β ρ → Net β ρ → Prop where
  | act {q q' : Channels β} {ranks : List (Program (Action.Answer : Action β → Type) ρ)} {a : Action β}
    {next : a.Answer → Program Action.Answer ρ} {x : a.Answer} (program : ranks[i]? = some (.call a next))
    (acts : q.Acts i a x q') : Act i ⟨q, ranks⟩ ⟨q', ranks.set i (next x)⟩

/-- A number of actions, one after the other. -/
inductive Run : Nat → Net β ρ → Net β ρ → Prop where
  | refl (c : Net β ρ) : Run 0 c c
  | act {n i : Nat} {c d e : Net β ρ} (first : Act i c d) (rest : Run n d e) : Run (n + 1) c e

/-- A net whose ranks are all done. -/
def finished (q : Channels β) (results : List ρ) : Net β ρ := ⟨q, results.map .done⟩

theorem Act.unique (h₁ : Act i c d) (h₂ : Act i c e) : d = e := by
  cases h₁ with
  | act program acts =>
    cases h₂ with
    | act program' acts' =>
      cases program.symm.trans program'
      obtain ⟨rfl, rfl⟩ := acts.unique acts'
      rfl

/-- Actions of different ranks commute. -/
theorem Act.comm (hij : i ≠ j) (h₁ : Act i c d) (h₂ : Act j c e) : ∃ f, Act j d f ∧ Act i e f := by
  cases h₁ with
  | @act _ _ ranks a next x program acts =>
    cases h₂ with
    | @act _ _ _ b next' y program' acts' =>
      obtain ⟨q, hq, hq'⟩ := acts.comm hij acts'
      have hj : (ranks.set i (next x))[j]? = some (.call b next') := by rwa [List.getElem?_set_ne hij]
      have hi : (ranks.set j (next' y))[i]? = some (.call a next) := by rwa [List.getElem?_set_ne hij.symm]
      refine ⟨_, .act hj hq, ?_⟩
      rw [List.set_comm _ _ hij]
      exact .act hi hq'

theorem not_act_finished : ¬ Act i (finished q results) d := by
  intro h
  generalize hc : finished q results = c at h
  cases h with
  | act program acts =>
    cases hc
    rw [List.getElem?_map, Option.map_eq_some_iff] at program
    obtain ⟨_, _, hr⟩ := program
    cases hr

/-- Whatever rank acts first, the run can still come to the same end. -/
theorem Run.of_act (h : Run n c (finished q results)) (hact : Act i c d) :
    ∃ m, n = m + 1 ∧ Run m d (finished q results) := by
  induction n generalizing c d with
  | zero =>
    cases h
    exact absurd hact not_act_finished
  | succ n ih =>
    cases h with
    | @act _ j _ c' _ first rest =>
      by_cases hij : j = i
      · subst hij
        exact ⟨n, rfl, first.unique hact ▸ rest⟩
      · obtain ⟨f, hf, hf'⟩ := first.comm hij hact
        obtain ⟨m, rfl, hrest⟩ := ih rest hf
        exact ⟨m + 1, rfl, .act hf' hrest⟩

/-- A program that is on its way to a result does not end the run. -/
theorem Run.not_abort (h : Run n c (finished q results)) (code : Int)
    (next : Unit → Program (Action.Answer : Action β → Type) ρ) : c.ranks[j]? ≠ some (.call (.abort code) next) := by
  intro hj
  induction n generalizing c with
  | zero =>
    cases h
    simp only [finished, List.getElem?_map, Option.map_eq_some_iff] at hj
    obtain ⟨_, _, hr⟩ := hj
    cases hr
  | succ n ih =>
    cases h with
    | @act _ i _ _ _ first rest =>
      refine ih rest ?_
      cases first with
      | act program acts =>
        have hne : i ≠ j := fun hij => by
          rw [hij] at program
          cases program.symm.trans hj
          cases acts
        rwa [List.getElem?_set_ne hne]

/-- A rank that is done stays so. -/
theorem Run.result_eq (h : Run n c d) {r : ρ} (hr : c.ranks[j]? = some (.done r)) : d.ranks[j]? = some (.done r) := by
  induction h with
  | refl => exact hr
  | @act _ i _ _ _ first rest ih =>
    refine ih ?_
    cases first with
    | act program acts =>
      have hne : i ≠ j := fun hij => by
        rw [hij] at program
        cases program.symm.trans hr
      rwa [List.getElem?_set_ne hne]

/-- It has its result. -/
theorem Run.results_eq (h : Run n c (finished q results)) {r : ρ} (hr : c.ranks[j]? = some (.done r)) : results[j]? = some r := by
  have hdone := h.result_eq hr
  rw [finished, List.getElem?_map, Option.map_eq_some_iff] at hdone
  obtain ⟨_, hresult, heq⟩ := hdone
  cases heq
  exact hresult

end Net

namespace Cluster

variable {β ρ : Type} {c c' : Cluster β ρ} {d : Net β ρ} {i n : Nat} {q : Channels β} {results : List ρ}

/-- The net of a cluster. -/
def net (c : Cluster β ρ) : Net β ρ := ⟨c.mail.channels, c.ranks⟩

/-- What a rank can do in the net, it can do in the cluster. -/
theorem exists_actAt (hend : c.mail.ended = none) (h : Net.Act i c.net d) :
    ∃ c', c.actAt i = some c' ∧ c'.net = d ∧ c'.mail.ended = none := by
  generalize hc : c.net = cn at h
  cases h with
  | @act _ _ ranks a next x program acts =>
    cases hc
    obtain ⟨m', hact, hchannels, hend'⟩ := Mail.exists_act hend acts
    refine ⟨⟨m', c.ranks.set i (next x)⟩, ?_, by rw [net, hchannels], hend'⟩
    simp only [actAt, program, hact, Option.map_some]

/-- An action of a rank that does not end the run is one of the net. -/
theorem act_of_actAt (hend : c.mail.ended = none) (hrun : Net.Run n c.net (Net.finished q results))
    (h : c.actAt i = some c') : Net.Act i c.net c'.net ∧ c'.mail.ended = none := by
  unfold actAt at h
  split at h
  case h_1 a next program =>
    obtain ⟨⟨x, m'⟩, hact, rfl⟩ := Option.map_eq_some_iff.1 h
    have ha : ∀ code, a ≠ .abort code := fun code heq => by
      subst heq
      exact hrun.not_abort code next program
    obtain ⟨hacts, hend'⟩ := Mail.acts_of_act hend ha hact
    exact ⟨.act program hacts, hend'⟩
  case h_2 => cases h

/-- Ranks that are done take no step. -/
theorem step?_eq_none (hranks : c.ranks = results.map .done) : c.step? = none := by
  have hact : ∀ i, c.actAt i = none := fun i => by
    simp only [actAt, hranks, List.getElem?_map]
    cases results[i]? <;> rfl
  have hexpire : ∀ i, c.expireAt i = none := fun i => by
    simp only [expireAt, hranks, List.getElem?_map]
    cases results[i]? <;> rfl
  have h₁ : (List.range c.ranks.length).findSome? c.actAt = none := List.findSome?_eq_none_iff.2 fun i _ => hact i
  have h₂ : (List.range c.ranks.length).findSome? c.expireAt = none := List.findSome?_eq_none_iff.2 fun i _ => hexpire i
  simp only [step?, h₁, h₂]

/-- If the net can act, the cluster finds a rank that acts. -/
theorem exists_findSome_actAt (hend : c.mail.ended = none) (h : Net.Act i c.net d) :
    ∃ c', (List.range c.ranks.length).findSome? c.actAt = some c' := by
  obtain ⟨c', hact, _⟩ := exists_actAt hend h
  have hi : i < c.ranks.length := by
    generalize hc : c.net = cn at h
    cases h with
    | act program acts =>
      cases hc
      exact (List.getElem?_eq_some_iff.1 program).1
  cases hsome : (List.range c.ranks.length).findSome? c.actAt with
  | some c'' => exact ⟨c'', rfl⟩
  | none => cases hact.symm.trans (List.findSome?_eq_none_iff.1 hsome i (List.mem_range.2 hi))

/-- The step of a cluster is one of a run of the net, whichever rank takes it. -/
theorem exists_step (hend : c.mail.ended = none) (hrun : Net.Run (n + 1) c.net (Net.finished q results)) :
    ∃ c', c.step? = some c' ∧ Net.Run n c'.net (Net.finished q results) ∧ c'.mail.ended = none := by
  have hfound : ∃ c', (List.range c.ranks.length).findSome? c.actAt = some c' := by
    generalize hc : c.net = cn at hrun
    cases hrun with
    | act first rest =>
      subst hc
      exact exists_findSome_actAt hend first
  obtain ⟨c', hc'⟩ := hfound
  obtain ⟨j, _, hj⟩ := List.exists_of_findSome?_eq_some hc'
  obtain ⟨hact, hend'⟩ := act_of_actAt hend hrun hj
  obtain ⟨m, hm, hrun'⟩ := hrun.of_act hact
  cases hm
  exact ⟨c', by simp only [step?, hc'], hrun', hend'⟩

/-- A run to the end comes to the results of any run of the net. -/
theorem results_run (hend : c.mail.ended = none) (hrun : Net.Run n c.net (Net.finished q results)) :
    c.run.results = results := by
  induction n generalizing c with
  | zero =>
    have hranks : c.ranks = results.map .done := by
      generalize hc : c.net = cn at hrun
      cases hrun
      exact congrArg Net.ranks hc
    have hstep : c.step? = none := step?_eq_none hranks
    rw [run]
    split
    case h_1 c' h => cases hstep.symm.trans h
    case h_2 =>
      rw [Cluster.results, hranks, List.filterMap_map]
      exact List.filterMap_some
  | succ n ih =>
    obtain ⟨c', hstep, hrun', hend'⟩ := exists_step hend hrun
    rw [run]
    split
    case h_1 c'' h =>
      cases hstep.symm.trans h
      exact ih hend' hrun'
    case h_2 h => cases hstep.symm.trans h

/-! ## Steps of every kind -/

/-- Where a cluster stands whose ranks may lose patience: like a net, but for ranks that have failed. -/
structure Follows (failed : CommError → ρ → Prop) (c : Cluster β ρ) (d : Net β ρ) : Prop where
  running : c.mail.ended = none
  channels_eq : c.mail.channels = d.channels
  length_eq : c.ranks.length = d.ranks.length
  rank_eq : ∀ i : Nat, c.ranks[i]? = d.ranks[i]? ∨
    ∃ r source tag, c.ranks[i]? = some (.done r) ∧ failed (.timeout source tag) r
  failsFast : ∀ (i : Nat) p, d.ranks[i]? = some p → p.FailsFast Action.failure failed

theorem Follows.rank_eq_set {failed : CommError → ρ → Prop} (h : Follows failed c d) {i : Nat} (hi : i < c.ranks.length)
    (p : Program Action.Answer ρ) (j : Nat) : (c.ranks.set i p)[j]? = (d.ranks.set i p)[j]? ∨
      ∃ r source tag, (c.ranks.set i p)[j]? = some (.done r) ∧ failed (.timeout source tag) r := by
  by_cases hij : i = j
  · subst hij
    have hi' : i < d.ranks.length := h.length_eq ▸ hi
    rw [List.getElem?_set_self hi, List.getElem?_set_self hi']
    exact .inl rfl
  · rw [List.getElem?_set_ne hij, List.getElem?_set_ne hij]
    exact h.rank_eq j

/-- A step of the cluster is one of the net, or a rank fails. -/
theorem Follows.step {failed : CommError → ρ → Prop} (h : Follows failed c d)
    (hrun : Net.Run n d (Net.finished q results)) (hstep : Step c c') :
    ∃ d' m, Net.Run m d' (Net.finished q results) ∧ Follows failed c' d' := by
  cases hstep with
  | @act mail mail' ranks i a next x program acted =>
    have hi : i < ranks.length := (List.getElem?_eq_some_iff.1 program).1
    have hprogram : d.ranks[i]? = some (.call a next) := by
      rcases h.rank_eq i with heq | ⟨r, _, _, hr, _⟩
      · exact heq.symm.trans program
      · cases hr.symm.trans program
    have ha : ∀ code, a ≠ .abort code := fun code heq => by
      subst heq
      exact hrun.not_abort code next hprogram
    obtain ⟨hacts, hend⟩ := Mail.acts_of_act h.running ha acted
    have hact : Net.Act i d ⟨mail'.channels, d.ranks.set i (next x)⟩ := by
      rw [h.channels_eq] at hacts
      exact .act hprogram hacts
    obtain ⟨m, _, hrun'⟩ := hrun.of_act hact
    refine ⟨_, m, hrun', hend, rfl, by simpa using h.length_eq, h.rank_eq_set hi (next x), fun j p hp => ?_⟩
    by_cases hij : i = j
    · subst hij
      rw [List.getElem?_set_self (h.length_eq ▸ hi), Option.some.injEq] at hp
      rw [← hp]
      exact (h.failsFast i _ hprogram).next x
    · rw [List.getElem?_set_ne hij] at hp
      exact h.failsFast j p hp
  | @expire mail ranks i source tag next program waiting =>
    have hi : i < ranks.length := (List.getElem?_eq_some_iff.1 program).1
    have hprogram : d.ranks[i]? = some (.call (.take source tag) next) := by
      rcases h.rank_eq i with heq | ⟨r, _, _, hr, _⟩
      · exact heq.symm.trans program
      · cases hr.symm.trans program
    refine ⟨d, n, hrun, h.running, h.channels_eq, by simpa using h.length_eq, fun j => ?_, h.failsFast⟩
    by_cases hij : i = j
    · subst hij
      cases h.failsFast i _ hprogram with
      | call _ _ _ stops =>
        obtain ⟨r, hr, hfailed⟩ := stops (.error (.timeout source tag)) _ rfl
        exact .inr ⟨r, source, tag, by rw [List.getElem?_set_self hi, hr], hfailed⟩
    · rw [List.getElem?_set_ne hij]
      exact h.rank_eq j

/-- Whatever happens, a rank of programs that fail fast has the result of any run of the net, or reports a message that
did not arrive in time. -/
theorem result_of_steps {failed : CommError → ρ → Prop} (hend : c.mail.ended = none)
    (hfast : ∀ p ∈ c.ranks, p.FailsFast Action.failure failed)
    (hrun : Net.Run n c.net (Net.finished q results)) (hsteps : Relation.ReflTransGen Step c c') {i : Nat} {r : ρ}
    (hr : c'.ranks[i]? = some (.done r)) : results[i]? = some r ∨ ∃ source tag, failed (.timeout source tag) r := by
  obtain ⟨d, m, hrun', hfollows⟩ : ∃ d m, Net.Run m d (Net.finished q results) ∧ Follows failed c' d := by
    clear hr
    induction hsteps with
    | refl =>
      exact ⟨c.net, n, hrun, hend, rfl, rfl, fun _ => .inl rfl, fun j p hp =>
        hfast p (List.mem_of_getElem? hp)⟩
    | tail _ hstep ih =>
      obtain ⟨d, m, hrun', hfollows⟩ := ih
      obtain ⟨d', m', hrun'', hfollows'⟩ := hfollows.step hrun' hstep
      exact ⟨d', m', hrun'', hfollows'⟩
  rcases hfollows.rank_eq i with heq | ⟨r', source, tag, hr', hfailed⟩
  · exact .inl (hrun'.results_eq (heq.symm.trans hr))
  · cases hr'.symm.trans hr
    exact .inr ⟨source, tag, hfailed⟩

end Cluster

end CurvePartition
