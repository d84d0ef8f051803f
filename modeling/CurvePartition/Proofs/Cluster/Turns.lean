-- SUMMARY: Clusters whose ranks take turns and never lose patience: every order of turns goes on until all ranks are done, with the same results and without mail left.
import CurvePartition.Proofs.Cluster.Exchanges

/-!
# Turns

`Cluster.Turn` is what may happen next as long as no rank loses patience: some rank acts. A cluster *settles* with results
if its ranks cannot get stuck, whatever the order of their turns, and come to these results with no message left
(`Cluster.Settles`). One run of the net that ends so is enough, as no turn can lead away from its end
(`Cluster.settles_of_run`). So collective programs settle with their results.
-/

namespace CurvePartition

open Program Relation

variable {α β ρ : Type} {i n : Nat}

/-- Mail without messages in any channel is empty. -/
theorem Mail.eq_empty {m : Mail β} {size : Nat} (hend : m.ended = none) (h : m.channels = .empty size) : m = .empty size := by
  obtain ⟨size', envelopes, ended⟩ := m
  obtain rfl : size' = size := congrArg Channels.size h
  obtain rfl : ended = none := hend
  cases envelopes with
  | nil => rfl
  | cons e rest =>
    have hqueue : ((e :: rest).filter (isFor e.source e.dest e.tag)).map Envelope.data = [] :=
      congrFun (congrFun (congrFun (congrArg Channels.queue h) e.source) e.dest) e.tag
    rw [List.filter_cons_of_pos (isFor_iff.2 ⟨rfl, rfl, rfl⟩)] at hqueue
    cases hqueue

namespace Cluster

variable {c c' : Cluster β ρ} {results : List ρ} {q : Channels β}

/-- Some rank acts. -/
def Turn (c c' : Cluster β ρ) : Prop := ∃ i, c.actAt i = some c'

theorem turn_iff : Turn c c' ↔ ∃ (i : Nat) (a : Action β) (next : a.Answer → Program Action.Answer ρ) (x : a.Answer)
    (m : Mail β), c.ranks[i]? = some (.call a next) ∧ c.mail.act i a = some (x, m) ∧ c' = ⟨m, c.ranks.set i (next x)⟩ := by
  constructor
  · rintro ⟨i, hact⟩
    unfold actAt at hact
    split at hact
    case h_1 a next program =>
      obtain ⟨⟨x, m⟩, acted, rfl⟩ := Option.map_eq_some_iff.1 hact
      exact ⟨i, a, next, x, m, program, acted, rfl⟩
    case h_2 => cases hact
  · rintro ⟨i, a, next, x, m, program, acted, rfl⟩
    exact ⟨i, by simp only [actAt, program, acted, Option.map_some]⟩

/-- A cluster whose ranks are all done, without mail. -/
def finished (results : List ρ) : Cluster β ρ := ⟨.empty results.length, results.map .done⟩

/-- Whether the ranks come to given results in whatever order they take their turns. -/
structure Settles (c : Cluster β ρ) (results : List ρ) : Prop where
  /-- Some rank can act, or all are done and no mail is left. -/
  turn_or_finished : ∀ c', ReflTransGen Turn c c' → (∃ c'', Turn c' c'') ∨ c' = finished results
  /-- There is an end to all turns. -/
  ends : Acc (fun c'' c' => Turn c' c'') c
  /-- A rank that is done has its result, also while others are at work. -/
  result_eq : ∀ c', ReflTransGen Turn c c' → ∀ (i : Nat) r, c'.ranks[i]? = some (.done r) → results[i]? = some r

/-- Turns are steps. -/
theorem steps_of_turns (h : ReflTransGen Turn c c') : ReflTransGen Step c c' :=
  ReflTransGen.mono (fun _ _ ⟨_, hact⟩ => step_of_actAt hact) _ _ h

/-- There is an end to the turns of any ranks. -/
theorem turn_wf : WellFounded fun c' c : Cluster β ρ => Turn c c' :=
  Subrelation.wf (fun ⟨_, h⟩ => (step_of_actAt h).oneAfter) (InvImage.wf Cluster.ranks Program.oneAfter_wf)

/-- A run of the net is one of turns. -/
theorem exists_turns {d : Net β ρ} (hend : c.mail.ended = none) (h : Net.Run n c.net d) :
    ∃ c', ReflTransGen Turn c c' ∧ c'.net = d ∧ c'.mail.ended = none := by
  generalize hc : c.net = cn at h
  induction h generalizing c with
  | refl => exact ⟨c, .refl, hc, hend⟩
  | act first _ ih =>
    obtain ⟨c', hact, hnet, hend'⟩ := exists_actAt hend (hc ▸ first)
    obtain ⟨c'', hturns, hnet', hend''⟩ := ih hend' hnet
    exact ⟨c'', .head ⟨_, hact⟩ hturns, hnet', hend''⟩

/-- Wherever the turns have led, there is still a run to the end. -/
theorem exists_run_of_turns (hend : c.mail.ended = none) (hrun : Net.Run n c.net (Net.finished q results))
    (hturns : ReflTransGen Turn c c') : c'.mail.ended = none ∧ ∃ m, Net.Run m c'.net (Net.finished q results) := by
  induction hturns with
  | refl => exact ⟨hend, n, hrun⟩
  | tail _ hturn ih =>
    obtain ⟨hend', m, hrun'⟩ := ih
    obtain ⟨i, hact⟩ := hturn
    obtain ⟨hnet, hend''⟩ := act_of_actAt hend' hrun' hact
    obtain ⟨m', _, hrun''⟩ := hrun'.of_act hnet
    exact ⟨hend'', m', hrun''⟩

/-- A run of the net to results and empty channels shows that the cluster settles. -/
theorem settles_of_run (hend : c.mail.ended = none)
    (hrun : Net.Run n c.net (Net.finished (.empty results.length) results)) : Settles c results where
  turn_or_finished c' hturns := by
    obtain ⟨hend', m, hrun'⟩ := exists_run_of_turns hend hrun hturns
    generalize hc : c'.net = cn at hrun'
    cases hrun' with
    | refl =>
      have hmail : c'.mail = .empty results.length := Mail.eq_empty hend' (congrArg Net.channels hc)
      have hranks : c'.ranks = results.map .done := congrArg Net.ranks hc
      exact .inr (by rw [finished, ← hmail, ← hranks])
    | act first _ =>
      obtain ⟨c'', hact, _⟩ := exists_actAt hend' (hc ▸ first)
      exact .inl ⟨c'', _, hact⟩
  ends := turn_wf.apply c
  result_eq c' hturns i r hr := by
    obtain ⟨_, m, hrun'⟩ := exists_run_of_turns hend hrun hturns
    exact hrun'.results_eq hr

/-- Turns that lead to an end lead to the results. -/
theorem Settles.exists_finished (h : Settles c results) : ReflTransGen Turn c (finished results) := by
  suffices hall : ∀ c', Acc (fun c'' c' => Turn c' c'') c' → ReflTransGen Turn c c' → ReflTransGen Turn c' (finished results) from
    hall c h.ends .refl
  intro c' hacc
  induction hacc with
  | intro c' _ ih =>
    intro hturns
    rcases h.turn_or_finished c' hturns with ⟨c'', hturn⟩ | rfl
    · exact .head hturn (ih c'' hturn (hturns.tail hturn))
    · exact .refl

end Cluster

/-- Programs of calls that are collective settle with their results. -/
theorem Collects.settles [Scalar α] [Wire α β] {size : Nat} {ps : Nat → Program (Call.Answer : Call α β → Type) ρ} {rs : Nat → ρ}
    (h : Collects size ps rs) :
    (Cluster.start ((List.range size).map fun i => (ps i).expand (Call.toActions ⟨i, size⟩))).Settles
      ((List.range size).map rs) := by
  obtain ⟨n, hn⟩ := Collective.exists_run h
  refine Cluster.settles_of_run (n := n) rfl ?_
  rw [Cluster.net, Cluster.start, Mail.channels_empty, List.length_map, List.length_map, List.length_range]
  exact hn

/-- Such programs have a run of the cluster to their results. -/
theorem Collects.exists_steps [Scalar α] [Wire α β] {size : Nat} {ps : Nat → Program (Call.Answer : Call α β → Type) ρ}
    {rs : Nat → ρ} (h : Collects size ps rs) : ∃ c : Cluster β ρ, ReflTransGen Cluster.Step
      (.start ((List.range size).map fun i => (ps i).expand (Call.toActions ⟨i, size⟩))) c ∧
      ∀ i < size, c.ranks[i]? = some (.done (rs i)) := by
  refine ⟨_, Cluster.steps_of_turns h.settles.exists_finished, fun i hi => ?_⟩
  rw [Cluster.finished, List.getElem?_map, List.getElem?_map, List.getElem?_range hi, Option.map_some, Option.map_some]

end CurvePartition
