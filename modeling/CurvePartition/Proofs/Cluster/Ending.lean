-- SUMMARY: Ranks that take turns and may end the run when they are done: they never get stuck, and each has its result of the net or was cut off by the first rank that ended the run.
import CurvePartition.Proofs.Cluster.Closing
import CurvePartition.Proofs.Cluster.Turns

/-!
# Ranks that are cut off

A closed rank may end the run while others are still at work. From then on no message is posted. A rank that still has one to
post, or waits for one that was never posted, fails to communicate: it is *cut off*. If no rank loses patience, nothing else
can keep a rank from its result of the net (`Cluster.result_of_turns`), and the ranks never get stuck
(`Cluster.neverStuck_of_run`).

The proof follows the cluster with the net (`Cluster.Trails`). A rank that is cut off makes no more actions there, which the
net does not mind, as it has no order of actions to keep.
-/

namespace CurvePartition

open Program Relation

variable {β ρ : Type}

/-! ## Actions after the end of the run -/

namespace Mail

variable {m m' : Mail β} {i : Nat}

/-- An action is one on the channels, or it ends the run, or it fails as the run has been ended. -/
theorem act_cases {a : Action β} {x : a.Answer} (h : m.act i a = some (x, m')) :
    (m.channels.Acts i a x m'.channels ∧ m'.ended = m.ended) ∨ (∃ code, a = .abort code ∧ m' = m.abort i code) ∨
      ∃ s code, m.ended = some (s, code) ∧ m' = m ∧ Action.failure a x = some (.aborted s code) ∧
        ((∃ dest tag data, a = .post dest tag data ∧ dest < m.size) ∨ ∀ y q, ¬ m.channels.Acts i a y q) := by
  cases a with
  | post dest tag data =>
    simp only [act, post] at h
    split at h
    case isTrue invalid =>
      cases h
      exact .inl ⟨.reject tag data invalid, rfl⟩
    case isFalse valid =>
      cases hended : m.ended with
      | none =>
        rw [endError_eq_none hended] at h
        cases h
        refine .inl ⟨?_, hended⟩
        rw [channels_post]
        exact .post tag data (Nat.not_le.1 valid)
      | some e =>
        rw [endError, hended] at h
        cases h
        exact .inr (.inr ⟨e.1, e.2, rfl, rfl, rfl, .inl ⟨dest, tag, data, rfl, Nat.not_le.1 valid⟩⟩)
  | take source tag =>
    simp only [act, pick_eq] at h
    cases hq : m.channels.queue source i tag with
    | cons data rest =>
      simp only [hq, List.head?_cons, Option.map_some, Option.some.injEq] at h
      cases h
      rw [channels_erase, hq]
      exact .inl ⟨.take hq, rfl⟩
    | nil =>
      simp only [hq, List.head?_nil, Option.map_none, endError, Option.map_map, Option.map_eq_some_iff] at h
      obtain ⟨⟨s, code⟩, hended, heq⟩ := h
      cases heq
      refine .inr (.inr ⟨s, code, hended, rfl, rfl, .inr fun y q hacts => ?_⟩)
      cases hacts with
      | take waiting => cases hq.symm.trans waiting
  | abort code =>
    cases h
    exact .inr (.inl ⟨code, rfl, rfl⟩)

/-- When the run has been ended, nobody has to wait. -/
theorem exists_act_of_ended {e : Nat × Int} (h : m.ended = some e) (a : Action β) : ∃ x m', m.act i a = some (x, m') := by
  cases a with
  | post dest tag data => exact ⟨_, _, rfl⟩
  | abort code => exact ⟨_, _, rfl⟩
  | take source tag =>
    cases hpick : m.pick source i tag with
    | some p => exact ⟨.ok p.1, p.2, by simp only [act, hpick]⟩
    | none => exact ⟨.error (.aborted e.1 e.2), m, by simp only [act, hpick, endError, h, Option.map_some]⟩

/-- No message is posted any more. -/
theorem act_post_of_ended {s dest : Nat} {code tag : Int} (h : m.ended = some (s, code)) (hdest : dest < m.size)
    (data : Message β) : m.act i (.post dest tag data) = some (.error (.aborted s code), m) := by
  simp only [act, post, endError, h, if_neg (Nat.not_le.2 hdest), Option.map_some]
  rfl

/-- Only the first end of the run counts. -/
theorem abort_of_ended {e : Nat × Int} (h : m.ended = some e) (code : Int) : m.abort i code = m := by
  obtain ⟨size, envelopes, ended⟩ := m
  obtain rfl : ended = some e := h
  rfl

end Mail

namespace Cluster

variable {c c' : Cluster β ρ} {d : Net β ρ} {k : ρ → Program (Action.Answer : Action β → Type) ρ}
  {failed : CommError → ρ → Prop} {i n : Nat} {q : Channels β} {results : List ρ}

/-! ## The end of all turns -/

/-- Whether all ranks are done. -/
def AllDone (c : Cluster β ρ) : Prop := ∀ p ∈ c.ranks, ∃ r, p = .done r

/-- Whether some rank can act, whatever turns were taken, until all are done. -/
def NeverStuck (c : Cluster β ρ) : Prop := ∀ c', ReflTransGen Turn c c' → (∃ c'', Turn c' c'') ∨ c'.AllDone

/-- Such ranks come to an end, wherever their turns have led. -/
theorem NeverStuck.exists_allDone (h : c.NeverStuck) (hturns : ReflTransGen Turn c c') :
    ∃ c'', ReflTransGen Turn c' c'' ∧ c''.AllDone := by
  induction turn_wf.apply c' with
  | intro c' _ ih =>
    rcases h c' hturns with ⟨c'', hturn⟩ | hdone
    · obtain ⟨e, hrest, hdone⟩ := ih c'' hturn (hturns.tail hturn)
      exact ⟨e, .head hturn hrest, hdone⟩
    · exact ⟨c', .refl, hdone⟩

/-- A rank that is done stays so. -/
theorem done_of_turns (hturns : ReflTransGen Turn c c') {r : ρ} (hr : c.ranks[i]? = some (.done r)) :
    c'.ranks[i]? = some (.done r) := by
  induction hturns with
  | refl => exact hr
  | tail _ hturn ih =>
    obtain ⟨j, a, next, x, m, program, _, rfl⟩ := turn_iff.1 hturn
    have hne : j ≠ i := fun heq => by
      subst heq
      cases program.symm.trans ih
    rwa [List.getElem?_set_ne hne]

theorem length_of_turns (hturns : ReflTransGen Turn c c') : c'.ranks.length = c.ranks.length := by
  induction hturns with
  | refl => rfl
  | tail _ hturn ih =>
    obtain ⟨_, _, _, _, _, _, _, rfl⟩ := turn_iff.1 hturn
    rwa [List.length_set]

/-- Whether programs, one for each rank, whose ranks take turns and never lose patience, come to given results. -/
def ReachesInTurns (size : Nat) (ps : Nat → Program (Action.Answer : Action β → Type) ρ) (results : Nat → ρ) : Prop :=
  ∃ c : Cluster β ρ, ReflTransGen Turn (.start ((List.range size).map ps)) c ∧
    c.ranks = (List.range size).map fun rank => .done (results rank)

theorem reachesInTurns_congr {size : Nat} {ps ps' : Nat → Program (Action.Answer : Action β → Type) ρ} {results : Nat → ρ}
    (hps : ∀ i < size, ps i = ps' i) : ReachesInTurns size ps results ↔ ReachesInTurns size ps' results := by
  rw [ReachesInTurns, List.map_congr_left fun i hi => hps i (List.mem_range.1 hi)]
  rfl

theorem ReachesInTurns.reaches {size : Nat} {ps : Nat → Program (Action.Answer : Action β → Type) ρ} {results : Nat → ρ}
    (h : ReachesInTurns size ps results) : Reaches size ps results := by
  obtain ⟨c, hturns, hdone⟩ := h
  exact ⟨c, steps_of_turns hturns, hdone⟩

/-- The results of all ranks. -/
theorem AllDone.exists_results (h : c.AllDone) {size : Nat} (hlength : c.ranks.length = size) (hpos : 0 < size) :
    ∃ results : Nat → ρ, c.ranks = (List.range size).map fun i => .done (results i) := by
  have hdone : ∀ i, ∃ r, i < size → c.ranks[i]? = some (.done r) := fun i => by
    by_cases hi : i < size
    · obtain ⟨r, hr⟩ := h _ (List.getElem_mem (hlength.symm ▸ hi))
      exact ⟨r, fun _ => by rw [List.getElem?_eq_getElem (hlength.symm ▸ hi), hr]⟩
    · obtain ⟨r, _⟩ := h _ (List.getElem_mem (hlength.symm ▸ hpos))
      exact ⟨r, fun hlt => absurd hlt hi⟩
  obtain ⟨results, hresults⟩ := Classical.skolem.1 hdone
  refine ⟨results, List.ext_getElem? fun i => ?_⟩
  rw [List.getElem?_map]
  by_cases hi : i < size
  · rw [hresults i hi, List.getElem?_range hi]
    rfl
  · rw [List.getElem?_eq_none (by omega), List.getElem?_eq_none (by simpa using hi)]
    rfl

/-- Ranks that never get stuck come to results. -/
theorem NeverStuck.exists_results {size : Nat} {ps : Nat → Program (Action.Answer : Action β → Type) ρ}
    (h : (start ((List.range size).map ps) : Cluster β ρ).NeverStuck) (hpos : 0 < size) :
    ∃ results, ReachesInTurns size ps results := by
  obtain ⟨c, hturns, hdone⟩ := h.exists_allDone .refl
  obtain ⟨results, hresults⟩ := hdone.exists_results ((length_of_turns hturns).trans (by simp [start])) hpos
  exact ⟨results, c, hturns, hresults⟩

/-! ## Following a cluster with the net -/

/-- Whether a rank was cut off: it failed as the run has been ended, and at most has to end the run itself. -/
def CutOff (k : ρ → Program (Action.Answer : Action β → Type) ρ) (failed : CommError → ρ → Prop) (m : Mail β)
    (p : Program (Action.Answer : Action β → Type) ρ) : Prop :=
  ∃ s code r, m.ended = some (s, code) ∧ failed (.aborted s code) r ∧ (p = k r ∨ p = .done r)

/-- Whether ranks on their way are done with a failure when an action of theirs fails as the run has been ended. This can only
happen to a post, and to a take of a message that is not there. -/
def Stops (failed : CommError → ρ → Prop) (m : Mail β) (d : Net β ρ) : Prop :=
  ∀ {i : Nat} {a : Action β} {next : a.Answer → Program Action.Answer ρ} {x : a.Answer} {s : Nat} {code : Int},
    d.ranks[i]? = some (.call a next) → m.ended = some (s, code) → Action.failure a x = some (.aborted s code) →
      ((∃ dest tag data, a = .post dest tag data ∧ dest < d.channels.size) ∨ ∀ y q, ¬ d.channels.Acts i a y q) →
        ∃ r, next x = .done r ∧ failed (.aborted s code) r

/-- Where a cluster of closed ranks stands: like a net, but for ranks that are cut off. Who ended the run is done. -/
structure Trails (k : ρ → Program (Action.Answer : Action β → Type) ρ) (failed : CommError → ρ → Prop) (c : Cluster β ρ)
    (d : Net β ρ) : Prop where
  channels_eq : c.mail.channels = d.channels
  length_eq : c.ranks.length = d.ranks.length
  rank : ∀ {i : Nat} {p' p}, c.ranks[i]? = some p' → d.ranks[i]? = some p → Closed k p' p ∨ CutOff k failed c.mail p'
  ender : ∀ {s code}, c.mail.ended = some (s, code) → ∃ r, c.ranks[s]? = some (.done r) ∧ d.ranks[s]? = some (.done r) ∧
    k r = .call (.abort code) fun _ => .done r

namespace Trails

/-- At first all ranks are on their way. -/
theorem start {ps : List (Program (Action.Answer : Action β → Type) ρ)} (hended : c.mail.ended = none)
    (hranks : c.ranks = ps.map (· >>= k)) : Trails k failed c ⟨c.mail.channels, ps⟩ where
  channels_eq := rfl
  length_eq := by rw [hranks, List.length_map]
  rank {i p' p} hp' hp := by
    rw [hranks, List.getElem?_map, hp] at hp'
    exact .inl (.inl (Option.some.inj hp').symm)
  ender hsome := by cases hended.symm.trans hsome

theorem exists_rank (h : Trails k failed c d) {p' : Program (Action.Answer : Action β → Type) ρ}
    (hp' : c.ranks[i]? = some p') : ∃ p, d.ranks[i]? = some p :=
  ⟨_, List.getElem?_eq_getElem (h.length_eq ▸ (List.getElem?_eq_some_iff.1 hp').1)⟩

/-- One rank goes on, or ends the run. -/
theorem set (h : Trails k failed c d) {a : Action β} {next : a.Answer → Program Action.Answer ρ}
    (program : c.ranks[i]? = some (.call a next)) {m : Mail β} {p' p : Program (Action.Answer : Action β → Type) ρ}
    (hsame : ∀ e, c.mail.ended = some e → m.ended = some e) (hp : Closed k p' p ∨ CutOff k failed m p')
    (hender : ∀ s code, m.ended = some (s, code) → c.mail.ended = some (s, code) ∨
      s = i ∧ ∃ r, p' = .done r ∧ p = .done r ∧ k r = .call (.abort code) fun _ => .done r) :
    Trails k failed ⟨m, c.ranks.set i p'⟩ ⟨m.channels, d.ranks.set i p⟩ := by
  have hi : i < c.ranks.length := (List.getElem?_eq_some_iff.1 program).1
  have hi' : i < d.ranks.length := h.length_eq ▸ hi
  refine ⟨rfl, by simpa using h.length_eq, fun {j q' q} hq' hq => ?_, fun {s code} hsome => ?_⟩
  · by_cases hij : i = j
    · subst hij
      rw [List.getElem?_set_self hi, Option.some.injEq] at hq'
      rw [List.getElem?_set_self hi', Option.some.injEq] at hq
      exact hq' ▸ hq ▸ hp
    · rw [List.getElem?_set_ne hij] at hq' hq
      refine (h.rank hq' hq).imp_right fun ⟨s, code, r, hsome, hfailed, heq⟩ => ?_
      exact ⟨s, code, r, hsame _ hsome, hfailed, heq⟩
  · rcases hender s code hsome with hbefore | ⟨rfl, r, rfl, rfl, hr⟩
    · obtain ⟨r, hc, hd, hr⟩ := h.ender hbefore
      have hne : i ≠ s := fun heq => by
        subst heq
        cases program.symm.trans hc
      exact ⟨r, by rwa [List.getElem?_set_ne hne], by rwa [List.getElem?_set_ne hne], hr⟩
    · exact ⟨r, List.getElem?_set_self hi, List.getElem?_set_self hi', hr⟩

theorem set_same (h : Trails k failed c d) {a : Action β} {next : a.Answer → Program Action.Answer ρ}
    (program : c.ranks[i]? = some (.call a next)) {m : Mail β} {p' p : Program (Action.Answer : Action β → Type) ρ}
    (hchannels : m.channels = c.mail.channels) (hd : d.ranks[i]? = some p) (hsame : ∀ e, c.mail.ended = some e → m.ended = some e)
    (hp : Closed k p' p ∨ CutOff k failed m p') (hender : ∀ s code, m.ended = some (s, code) → c.mail.ended = some (s, code) ∨
      s = i ∧ ∃ r, p' = .done r ∧ p = .done r ∧ k r = .call (.abort code) fun _ => .done r) :
    Trails k failed ⟨m, c.ranks.set i p'⟩ d := by
  obtain ⟨hi, rfl⟩ := List.getElem?_eq_some_iff.1 hd
  have hset := h.set program hsame hp hender
  rwa [List.set_getElem_self, hchannels, h.channels_eq] at hset

/-- A turn is an action of the net, or the end of the run, or a rank is cut off. -/
theorem turn (hk : Closes k) (h : Trails k failed c d) (hrun : Net.Run n d (Net.finished q results))
    (hstops : Stops failed c.mail d) (hturn : Turn c c') :
    ∃ d', Trails k failed c' d' ∧ (d' = d ∨ ∃ i, Net.Act i d d') := by
  obtain ⟨i, a, next, x, m, program, acted, rfl⟩ := turn_iff.1 hturn
  obtain ⟨p, hp⟩ := h.exists_rank program
  rcases h.rank program hp with hclosed | ⟨s, code, r, hended, hfailed, hr⟩
  · rcases hclosed.cases_call hk with ⟨next', rfl, rfl⟩ | ⟨r, code, rfl, hr, heq⟩
    · rcases Mail.act_cases acted with ⟨hacts, hended⟩ | ⟨code, rfl, rfl⟩ | ⟨s, code, hended, rfl, hfailure, hblocked⟩
      · refine ⟨_, h.set program (fun e he => hended.trans he) (.inl (.inl rfl)) fun s code hsome => .inl (hended ▸ hsome),
          .inr ⟨i, ?_⟩⟩
        rw [h.channels_eq] at hacts
        exact .act hp hacts
      · exact absurd hp (hrun.not_abort code next')
      · obtain ⟨r, hr, hfailed⟩ := hstops hp hended hfailure (h.channels_eq ▸ hblocked)
        refine ⟨d, h.set_same program rfl hp (fun _ => id) (.inr ⟨s, code, r, hended, hfailed, .inl ?_⟩) fun _ _ => .inl, .inl rfl⟩
        exact congrArg (· >>= k) hr
    · cases heq.trans hr
      cases acted
      refine ⟨d, h.set_same program rfl hp (fun e he => by rw [Mail.abort, he]; rfl) (.inl (.inr ⟨r, rfl, rfl⟩))
        fun s code' hsome => ?_, .inl rfl⟩
      cases hended : c.mail.ended with
      | some e =>
        rw [Mail.abort_of_ended hended] at hsome
        exact .inl (hended.symm.trans hsome)
      | none =>
        rw [Mail.abort, hended] at hsome
        cases hsome
        exact .inr ⟨rfl, r, rfl, rfl, hr⟩
  · -- A rank that is cut off can only end the run once more.
    rcases hr with heq | heq
    · rcases hk r with hr | ⟨code', hr⟩
      · cases heq.trans hr
      · cases heq.trans hr
        cases acted
        rw [Mail.abort_of_ended hended]
        exact ⟨d, h.set_same program rfl hp (fun _ => id) (.inr ⟨s, code, r, hended, hfailed, .inr rfl⟩) fun _ _ => .inl, .inl rfl⟩
    · cases heq

/-- As long as a rank is not done, some rank can act. -/
theorem turn_or_done (hk : Closes k) (h : Trails k failed c d) (hrun : Net.Run n d (Net.finished q results)) :
    (∃ c', Turn c c') ∨ c.AllDone := by
  by_cases hdone : c.AllDone
  · exact .inr hdone
  refine .inl ?_
  obtain ⟨i, a, next, program⟩ : ∃ (i : Nat) (a : Action β) (next : a.Answer → Program Action.Answer ρ),
      c.ranks[i]? = some (.call a next) := by
    by_contra hnone
    refine hdone fun p hp => ?_
    obtain ⟨i, hi⟩ := List.mem_iff_getElem?.1 hp
    cases p with
    | done r => exact ⟨r, rfl⟩
    | call a next => exact absurd ⟨i, a, next, hi⟩ hnone
  cases hended : c.mail.ended with
  | some e =>
    obtain ⟨x, m, acted⟩ := Mail.exists_act_of_ended (i := i) hended a
    exact ⟨_, turn_iff.2 ⟨i, a, next, x, m, program, acted, rfl⟩⟩
  | none =>
    have hclosed : ∀ {j : Nat} {p' p}, c.ranks[j]? = some p' → d.ranks[j]? = some p → Closed k p' p := fun hp' hp => by
      rcases h.rank hp' hp with hclosed | ⟨_, _, _, hsome, _⟩
      · exact hclosed
      · cases hended.symm.trans hsome
    obtain ⟨p, hp⟩ := h.exists_rank program
    rcases (hclosed program hp).cases_call hk with ⟨next', rfl, _⟩ | ⟨r, code, _, hr, heq⟩
    · -- The rank is on its way, so the net has not come to its end.
      cases hrun with
      | refl =>
        rw [Net.finished, List.getElem?_map, Option.map_eq_some_iff] at hp
        obtain ⟨_, _, hr⟩ := hp
        cases hr
      | @act _ j _ _ _ first _ =>
        cases first with
        | @act q₁ q₂ ranks b next₁ y program₁ acts =>
          obtain ⟨p', hp'⟩ : ∃ p', c.ranks[j]? = some p' :=
            ⟨_, List.getElem?_eq_getElem (h.length_eq.symm ▸ (List.getElem?_eq_some_iff.1 program₁).1)⟩
          rcases hclosed hp' program₁ with rfl | ⟨r, _, hr⟩
          · have hchannels : c.mail.channels = q₁ := h.channels_eq
            obtain ⟨m, acted, _⟩ := Mail.exists_act hended (hchannels.symm ▸ acts)
            exact ⟨_, turn_iff.2 ⟨j, b, _, y, m, hp', acted, rfl⟩⟩
          · cases hr
    · cases heq.trans hr
      exact ⟨_, turn_iff.2 ⟨i, .abort code, _, (), _, program, rfl, rfl⟩⟩

/-- A run of turns is a run of the net, but for ends of the run and for ranks that are cut off. -/
theorem turns (inv : Net β ρ → Prop) (hk : Closes k) (hinv : ∀ i d d', inv d → Net.Act i d d' → inv d')
    (hstops : ∀ c d n, inv d → Trails k failed c d → Net.Run n d (Net.finished q results) → Stops failed c.mail d)
    (h : Trails k failed c d) (hrun : Net.Run n d (Net.finished q results)) (hd : inv d) (hturns : ReflTransGen Turn c c') :
    ∃ d' m, Net.Run m d' (Net.finished q results) ∧ Trails k failed c' d' := by
  suffices hall : ∃ d' m, inv d' ∧ Net.Run m d' (Net.finished q results) ∧ Trails k failed c' d' by
    obtain ⟨d', m, _, hrun', h'⟩ := hall
    exact ⟨d', m, hrun', h'⟩
  induction hturns with
  | refl => exact ⟨d, n, hd, hrun, h⟩
  | tail _ hturn ih =>
    obtain ⟨d', m, hd', hrun', h'⟩ := ih
    obtain ⟨d'', h'', rfl | ⟨i, hact⟩⟩ := h'.turn hk hrun' (hstops _ _ _ hd' h' hrun') hturn
    · exact ⟨d'', m, hd', hrun', h''⟩
    · obtain ⟨m', _, hrun''⟩ := hrun'.of_act hact
      exact ⟨d'', m', hinv i d' d'' hd' hact, hrun'', h''⟩

/-- A rank that is done has its result of the net, or was cut off by one that has its result and ended the run. -/
theorem result_eq (hk : Closes k) (h : Trails k failed c d) (hrun : Net.Run n d (Net.finished q results)) {r : ρ}
    (hdone : c.ranks[i]? = some (.done r)) : results[i]? = some r ∨ ∃ s code r₁, c.mail.ended = some (s, code) ∧
      results[s]? = some r₁ ∧ c.ranks[s]? = some (.done r₁) ∧ (k r₁ = .call (.abort code) fun _ => .done r₁) ∧
        failed (.aborted s code) r := by
  obtain ⟨p, hp⟩ := h.exists_rank hdone
  rcases h.rank hdone hp with hclosed | ⟨s, code, r', hsome, hfailed, hr⟩
  · exact .inl (hrun.results_eq (hp.trans (congrArg some (hclosed.eq_done hk))))
  · obtain ⟨r₁, hc, hd, hr₁⟩ := h.ender hsome
    have heq : r = r' := by
      rcases hr with heq | heq
      · rcases hk r' with hdone | ⟨_, hcall⟩
        · cases heq.trans hdone
          rfl
        · cases heq.trans hcall
      · cases heq
        rfl
    exact .inr ⟨s, code, r₁, hsome, hrun.results_eq hd, hc, hr₁, heq ▸ hfailed⟩

end Trails

/-- Net actions keep what holds of programs and of what follows their calls. -/
theorem forall_rank_of_act (good : Nat → Program (Action.Answer : Action β → Type) ρ → Prop) {d d' : Net β ρ}
    (hgood : ∀ i (a : Action β) next x, good i (.call a next) → good i (next x)) (hact : Net.Act i d d')
    (h : ∀ (j : Nat) p, d.ranks[j]? = some p → good j p) : ∀ (j : Nat) p, d'.ranks[j]? = some p → good j p := by
  cases hact with
  | @act _ _ ranks a next x program _ =>
    intro j p hp
    by_cases hij : i = j
    · subst hij
      rw [List.getElem?_set_self (List.getElem?_eq_some_iff.1 program).1, Option.some.injEq] at hp
      exact hp ▸ hgood i a next x (h i _ program)
    · rw [List.getElem?_set_ne hij] at hp
      exact h j p hp

theorem forall_rank_of_run (good : Nat → Program (Action.Answer : Action β → Type) ρ → Prop) {d d' : Net β ρ}
    (hgood : ∀ i (a : Action β) next x, good i (.call a next) → good i (next x)) (hrun : Net.Run n d d')
    (h : ∀ (j : Nat) p, d.ranks[j]? = some p → good j p) : ∀ (j : Nat) p, d'.ranks[j]? = some p → good j p := by
  induction hrun with
  | refl => exact h
  | act first _ ih => exact ih (forall_rank_of_act good hgood first h)

/-! ## What the ranks come to -/

section Results

variable {ps : List (Program (Action.Answer : Action β → Type) ρ)}
  (hk : Closes k) (hended : c.mail.ended = none) (hranks : c.ranks = ps.map (· >>= k))
  (hrun : Net.Run n ⟨c.mail.channels, ps⟩ (Net.finished q results))
include hk hended hranks hrun

/-- Whatever turns they take, ranks that fail fast follow the net until they are done or cut off. -/
theorem exists_trails (hfast : ∀ p ∈ ps, p.FailsFast Action.failure failed) (hturns : ReflTransGen Turn c c') :
    ∃ d m, Net.Run m d (Net.finished q results) ∧ Trails k failed c' d := by
  refine Trails.turns (fun d => ∀ (i : Nat) p, d.ranks[i]? = some p → p.FailsFast Action.failure failed) hk
    (fun i d d' hd hact => forall_rank_of_act _ (fun _ _ _ x h => h.next x) hact hd) (fun c d n hd _ _ => ?_)
    (.start hended hranks) hrun (fun i p hp => hfast p (List.mem_of_getElem? hp)) hturns
  intro i a next x s code hp _ hfailure _
  cases hd i _ hp with
  | call _ _ _ stops => exact stops x _ hfailure

/-- They never get stuck. -/
theorem neverStuck_of_run (hfast : ∀ p ∈ ps, p.FailsFast Action.failure failed) : c.NeverStuck := by
  intro c' hturns
  obtain ⟨d, m, hrun', h⟩ := exists_trails hk hended hranks hrun hfast hturns
  exact h.turn_or_done hk hrun'

/-- A rank that is done has its result of the net, or was cut off by the rank that ended the run. -/
theorem result_of_turns (hfast : ∀ p ∈ ps, p.FailsFast Action.failure failed) (hturns : ReflTransGen Turn c c') {i : Nat} {r : ρ}
    (hdone : c'.ranks[i]? = some (.done r)) : results[i]? = some r ∨ ∃ s code r₁, c'.mail.ended = some (s, code) ∧
      results[s]? = some r₁ ∧ c'.ranks[s]? = some (.done r₁) ∧ (k r₁ = .call (.abort code) fun _ => .done r₁) ∧
        failed (.aborted s code) r := by
  obtain ⟨d, m, hrun', h⟩ := exists_trails hk hended hranks hrun hfast hturns
  exact h.result_eq hk hrun' hdone

end Results

end Cluster

end CurvePartition
