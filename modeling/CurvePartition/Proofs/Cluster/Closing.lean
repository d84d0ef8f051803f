-- SUMMARY: Programs that may end the run for all ranks when they are done: their runs without failures to communicate are runs of the net, and every run of the net is one of the cluster.
import CurvePartition.Proofs.Cluster.Succeeding
import CurvePartition.Proofs.Cluster.Turns

/-!
# Programs that end the run

A program is *closed* by what it does with its result, which is at most to end the run for all ranks (`Cluster.Closes`).
Ending the run changes no channel, but lets others fail to communicate. If the programs report such failures
and none is among the results, the steps of a cluster are a run of the net (`Cluster.net_run_of_steps`). Conversely
each run of the net can be made by a cluster whose ranks take turns and end the run when all are done
(`Cluster.exists_turns_of_run`).
-/

namespace CurvePartition

open Program

variable {β ρ : Type}

/-! ## From steps to runs of the net -/

/-- A take or post that did not fail is one on the channels, also after the run was ended. -/
theorem Mail.acts_of_act_of_ok {m m' : Mail β} {i : Nat} {a : Action β} {x : a.Answer} (hx : Action.failure a x = none)
    (h : m.act i a = some (x, m')) : m.channels.Acts i a x m'.channels := by
  cases a with
  | post dest tag data =>
    simp only [act, post] at h
    split at h
    · cases h
      cases hx
    · rename_i valid
      split at h
      · cases h
        cases hx
      · cases h
        rw [channels_post]
        exact .post tag data (Nat.not_le.1 valid)
  | take source tag =>
    simp only [act, pick_eq] at h
    cases hq : m.channels.queue source i tag with
    | nil =>
      simp only [hq, List.head?_nil, Option.map_none, Option.map_eq_some_iff] at h
      obtain ⟨error, _, heq⟩ := h
      cases heq
      cases hx
    | cons data rest =>
      simp only [hq, List.head?_cons, Option.map_some, Option.some.injEq] at h
      cases h
      rw [channels_erase, hq]
      exact .take hq
  | abort code => cases hx

namespace Cluster

variable {c c' : Cluster β ρ} {good bad : ρ → Prop} {results : List ρ}
  {k : ρ → Program (Action.Answer : Action β → Type) ρ}

/-- A step keeps what is known about all results of a rank. -/
theorem every_of_steps {i : Nat} {p : Program (Action.Answer : Action β → Type) ρ}
    (hsteps : Relation.ReflTransGen Step c c') (hp : c.ranks[i]? = some p) (h : p.Every good) :
    ∃ p', c'.ranks[i]? = some p' ∧ p'.Every good := by
  induction hsteps with
  | refl => exact ⟨p, hp, h⟩
  | tail _ hstep ih =>
    obtain ⟨p', hp', h'⟩ := ih
    cases hstep with
    | @act _ _ ranks j a next x program acted =>
      by_cases hij : j = i
      · subst hij
        cases program.symm.trans hp'
        exact ⟨next x, List.getElem?_set_self (List.getElem?_eq_some_iff.1 program).1, h' x⟩
      · exact ⟨p', by rwa [List.getElem?_set_ne hij], h'⟩
    | @expire _ ranks j source tag next program waiting =>
      by_cases hij : j = i
      · subst hij
        cases program.symm.trans hp'
        exact ⟨_, List.getElem?_set_self (List.getElem?_eq_some_iff.1 program).1, h' _⟩
      · exact ⟨p', by rwa [List.getElem?_set_ne hij], h'⟩

/-- A rank that is done has a result of the kind of all results of its program. -/
theorem every_result_of_steps {size i : Nat} {ps : Nat → Program (Action.Answer : Action β → Type) ρ} {r : ρ}
    (hsteps : Relation.ReflTransGen Step (.start ((List.range size).map ps)) c) (hi : i < size) (h : (ps i).Every good)
    (hdone : c.ranks[i]? = some (.done r)) : good r := by
  have hrank : ((List.range size).map ps)[i]? = some (ps i) := by rw [List.getElem?_map, List.getElem?_range hi, Option.map_some]
  obtain ⟨p, hp, hgood⟩ := every_of_steps hsteps hrank h
  obtain rfl : p = .done r := Option.some.inj (hp.symm.trans hdone)
  exact hgood

@[simp] theorem channels_start (size : Nat) (ps : Nat → Program (Action.Answer : Action β → Type) ρ) :
    (start ((List.range size).map ps)).mail.channels = .empty size := by
  rw [start, Mail.channels_empty, List.length_map, List.length_range]

theorem ranks_start (size : Nat) (ps : Nat → Program (Action.Answer : Action β → Type) ρ) :
    (start ((List.range size).map fun i => ps i >>= k)).ranks = ((List.range size).map ps).map (· >>= k) := by
  rw [start, List.map_map]
  rfl

/-- Whether programs, one for each rank, run together in some order, come to given results. -/
def Reaches (size : Nat) (ps : Nat → Program (Action.Answer : Action β → Type) ρ) (results : Nat → ρ) : Prop :=
  ∃ c : Cluster β ρ, Relation.ReflTransGen Step (.start ((List.range size).map ps)) c ∧
    c.ranks = (List.range size).map fun rank => .done (results rank)

/-- Whether programs end with the result they are given, and at most end the run before. -/
def Closes (k : ρ → Program (Action.Answer : Action β → Type) ρ) : Prop :=
  ∀ r, k r = .done r ∨ ∃ code, k r = .call (.abort code) fun _ => .done r

/-- A rank whose program was closed is on its way to the end, or has come to it. -/
def Closed (k : ρ → Program (Action.Answer : Action β → Type) ρ) (p' p : Program (Action.Answer : Action β → Type) ρ) :
    Prop :=
  p' = p >>= k ∨ ∃ r, p' = .done r ∧ p = .done r

theorem Closed.every {p' p : Program (Action.Answer : Action β → Type) ρ} (hk : Closes k) (h : Closed k p' p)
    (hp : p.Every good) : p'.Every good := by
  rcases h with rfl | ⟨r, rfl, rfl⟩
  · refine hp.bind fun r hr => ?_
    rcases hk r with heq | ⟨code, heq⟩
    · rw [heq]
      exact hr
    · rw [heq]
      exact fun _ => hr
  · exact hp

theorem Closed.eq_done {p : Program (Action.Answer : Action β → Type) ρ} {r : ρ} (hk : Closes k)
    (h : Closed k (.done r) p) : p = .done r := by
  rcases h with heq | ⟨r', heq, rfl⟩
  · cases p with
    | done r' =>
      rcases hk r' with hr | ⟨code, hr⟩
      · exact hr.symm.trans heq.symm
      · cases heq.trans hr
    | call op next => cases heq
  · exact heq.symm

/-- A closed rank that calls does so on its way, or ends the run. -/
theorem Closed.cases_call {a : Action β} {next : a.Answer → Program (Action.Answer : Action β → Type) ρ}
    {p : Program (Action.Answer : Action β → Type) ρ} (hk : Closes k) (h : Closed k (.call a next) p) :
    (∃ next', p = .call a next' ∧ next = fun x => next' x >>= k) ∨
      ∃ (r : ρ) (code : Int), p = .done r ∧ k r = (.call (.abort code) fun _ => .done r) ∧ .call a next = k r := by
  rcases h with heq | ⟨r, heq, _⟩
  · cases p with
    | done r =>
      rcases hk r with hr | ⟨code, hr⟩
      · cases heq.trans hr
      · exact .inr ⟨r, code, rfl, hr, heq⟩
    | call op next' =>
      cases heq
      exact .inl ⟨next', rfl, rfl⟩
  · cases heq

/-- Ranks whose programs were closed. -/
structure AllClosed (k : ρ → Program (Action.Answer : Action β → Type) ρ)
    (ranks ps : List (Program (Action.Answer : Action β → Type) ρ)) : Prop where
  length_eq : ranks.length = ps.length
  closed : ∀ {i : Nat} {p' p}, ranks[i]? = some p' → ps[i]? = some p → Closed k p' p

theorem AllClosed.set {ranks ps : List (Program (Action.Answer : Action β → Type) ρ)} (h : AllClosed k ranks ps)
    {p' p : Program (Action.Answer : Action β → Type) ρ} (hp : Closed k p' p) (i : Nat) :
    AllClosed k (ranks.set i p') (ps.set i p) where
  length_eq := by simpa using h.length_eq
  closed {j q' q} hq' hq := by
    by_cases hij : i = j
    · subst hij
      have hi : i < ranks.length := by simpa using (List.getElem?_eq_some_iff.1 hq').1
      rw [List.getElem?_set_self hi] at hq'
      rw [List.getElem?_set_self (h.length_eq ▸ hi)] at hq
      cases hq'
      cases hq
      exact hp
    · rw [List.getElem?_set_ne hij] at hq' hq
      exact h.closed hq' hq

/-- A step of ranks that can still come to good results is an action of the net, unless it ends the run. -/
theorem step_closed {ps : List (Program (Action.Answer : Action β → Type) ρ)} (hk : Closes k)
    (hclosed : AllClosed k c.ranks ps) (hreports : ∀ p ∈ ps, p.Reports Action.failure bad) (hstep : Step c c')
    (hnot : ∀ (i : Nat) p, c'.ranks[i]? = some p → ¬ p.Every bad) :
    ∃ ps', AllClosed k c'.ranks ps' ∧ (∀ p ∈ ps', p.Reports Action.failure bad) ∧
      ((⟨c.mail.channels, ps⟩ : Net β ρ) = ⟨c'.mail.channels, ps'⟩ ∨
        ∃ i, Net.Act i ⟨c.mail.channels, ps⟩ ⟨c'.mail.channels, ps'⟩) := by
  cases hstep with
  | @act mail mail' ranks i a next x program acted =>
    have hi : i < ranks.length := (List.getElem?_eq_some_iff.1 program).1
    have hnext : (ranks.set i (next x))[i]? = some (next x) := List.getElem?_set_self hi
    obtain ⟨p, hp⟩ : ∃ p, ps[i]? = some p := ⟨_, List.getElem?_eq_getElem (hclosed.length_eq ▸ hi)⟩
    have hrank := hclosed.closed program hp
    rcases hrank.cases_call hk with ⟨next', rfl, rfl⟩ | ⟨r, code, rfl, hr, heq⟩
    · obtain ⟨hgoes, hstops⟩ := hreports _ (List.mem_of_getElem? hp) x
      have hok : Action.failure a x = none := by
        by_contra hfail
        exact hnot i _ hnext (Closed.every hk (.inl rfl) (hstops hfail))
      refine ⟨ps.set i (next' x), hclosed.set (.inl rfl) i, fun p hp => ?_,
        .inr ⟨i, .act hp (Mail.acts_of_act_of_ok hok acted)⟩⟩
      rcases List.mem_or_eq_of_mem_set hp with hp | rfl
      · exact hreports p hp
      · exact hgoes hok
    · -- Ending the run changes no channel.
      cases heq.trans hr
      cases acted
      have hset : ps.set i (.done r) = ps := List.ext_getElem? fun j => by
        by_cases hij : i = j
        · subst hij
          rw [List.getElem?_set_self (List.getElem?_eq_some_iff.1 hp).1, hp]
        · rw [List.getElem?_set_ne hij]
      exact ⟨ps, hset ▸ hclosed.set (.inr ⟨r, rfl, rfl⟩) i, hreports, .inl rfl⟩
  | @expire mail ranks i source tag next program waiting =>
    have hi : i < ranks.length := (List.getElem?_eq_some_iff.1 program).1
    obtain ⟨p, hp⟩ : ∃ p, ps[i]? = some p := ⟨_, List.getElem?_eq_getElem (hclosed.length_eq ▸ hi)⟩
    rcases (hclosed.closed program hp).cases_call hk with ⟨next', rfl, rfl⟩ | ⟨r, code, _, hr, heq⟩
    · have hstops := (hreports _ (List.mem_of_getElem? hp) (.error (.timeout source tag))).2 (by simp [Action.failure])
      exact absurd (Closed.every hk (.inl rfl) hstops) (hnot i _ (List.getElem?_set_self hi))
    · cases heq.trans hr

/-- If all ranks come to good results, their steps are actions of the net, but for those that end the run. -/
theorem net_run_of_steps {ps : List (Program (Action.Answer : Action β → Type) ρ)} (hk : Closes k)
    (hclosed : AllClosed k c.ranks ps) (hreports : ∀ p ∈ ps, p.Reports Action.failure bad)
    (hsteps : Relation.ReflTransGen Step c c') (hdone : c'.ranks = results.map .done)
    (hgood : ∀ r ∈ results, ¬ bad r) : ∃ n q, Net.Run n ⟨c.mail.channels, ps⟩ (Net.finished q results) := by
  induction hsteps using Relation.ReflTransGen.head_induction_on generalizing ps with
  | refl =>
    have hps : ps = results.map .done := by
      rw [hdone] at hclosed
      have hlength := hclosed.length_eq
      refine List.ext_getElem hlength.symm fun i h₁ h₂ => ?_
      have hrank := hclosed.closed (List.getElem?_eq_getElem h₂) (List.getElem?_eq_getElem h₁)
      rw [List.getElem_map] at hrank ⊢
      exact hrank.eq_done hk
    exact ⟨0, c'.mail.channels, hps ▸ .refl _⟩
  | @head c d hstep hrest ih =>
    -- A rank all of whose results are bad cannot come to a good one.
    have hnot : ∀ (i : Nat) p, d.ranks[i]? = some p → ¬ p.Every bad := by
      intro i p hp hevery
      obtain ⟨p', hp', hbad⟩ := every_of_steps hrest hp hevery
      rw [hdone, List.getElem?_map, Option.map_eq_some_iff] at hp'
      obtain ⟨r, hr, rfl⟩ := hp'
      exact hgood r (List.mem_of_getElem? hr) hbad
    obtain ⟨ps', hclosed', hreports', hnet⟩ := step_closed hk hclosed hreports hstep hnot
    obtain ⟨n, q, hrun⟩ := ih hclosed' hreports'
    rcases hnet with heq | ⟨i, hact⟩
    · exact ⟨n, q, heq ▸ hrun⟩
    · exact ⟨n + 1, q, .act hact hrun⟩

end Cluster

namespace Cluster

variable {c : Cluster β ρ} {results : List ρ} {k : ρ → Program (Action.Answer : Action β → Type) ρ}

/-! ## From runs of the net to turns -/

/-- The same end for all programs. -/
theorem mapIdx_bind (ps : List (Program (Action.Answer : Action β → Type) ρ)) :
    (ps.mapIdx fun _ p => p >>= k) = ps.map (· >>= k) := List.ext_getElem (by simp) fun i h₁ h₂ => by simp

/-- Ranks that only have to end the run can do so one after the other. -/
theorem exists_turns_closes (hk : Closes k) (before after : List ρ)
    (hc : c.ranks = before.map .done ++ after.map k) :
    ∃ c', Relation.ReflTransGen Turn c c' ∧ c'.ranks = (before ++ after).map .done := by
  induction after generalizing before c with
  | nil => exact ⟨c, .refl, by rw [hc, List.map_nil, List.append_nil, List.append_nil]⟩
  | cons r after ih =>
    have hmore : (before ++ [r]).map Program.done ++ after.map k =
        before.map Program.done ++ (.done r :: after.map k) := by simp
    rcases hk r with heq | ⟨code, heq⟩
    · obtain ⟨c', hturns, hranks⟩ := @ih c (before ++ [r]) (by rw [hc, hmore, List.map_cons, heq])
      exact ⟨c', hturns, by rw [hranks, List.append_assoc, List.singleton_append]⟩
    · rw [List.map_cons, heq] at hc
      have hprogram : c.ranks[before.length]? = some (.call (.abort code) fun _ => .done r) := by
        rw [hc, List.getElem?_append_right (by simp)]
        simp
      have hturn : Turn c ⟨c.mail.abort before.length code, c.ranks.set before.length (.done r)⟩ :=
        turn_iff.2 ⟨before.length, .abort code, _, (), _, hprogram, rfl, rfl⟩
      obtain ⟨c', hturns, hranks⟩ := @ih ⟨c.mail.abort before.length code, c.ranks.set before.length (.done r)⟩ (before ++ [r]) (by
        rw [hmore]
        dsimp only
        rw [hc, List.set_append_right _ _ (by simp)]
        simp)
      exact ⟨c', .head hturn hturns, by rw [hranks, List.append_assoc, List.singleton_append]⟩

/-- A run of the net to results is one of turns, after which the ranks end the run. -/
theorem exists_turns_of_run {n : Nat} {q : Channels β} {ps : List (Program (Action.Answer : Action β → Type) ρ)}
    (hk : Closes k) (hend : c.mail.ended = none) (hc : c.ranks = ps.map (· >>= k))
    (h : Net.Run n ⟨c.mail.channels, ps⟩ (Net.finished q results)) :
    ∃ c', Relation.ReflTransGen Turn c c' ∧ c'.ranks = results.map .done := by
  have hrun := h.bind fun _ => k
  rw [mapIdx_bind, mapIdx_bind, ← hc] at hrun
  obtain ⟨c', hturns, hnet, _⟩ := exists_turns hend hrun
  have hclosing : c'.ranks = ([] : List ρ).map .done ++ results.map k := by
    rw [show c'.ranks = _ from congrArg Net.ranks hnet, Net.finished, List.map_map]
    rfl
  obtain ⟨c'', hturns', hranks⟩ := exists_turns_closes hk [] results hclosing
  exact ⟨c'', hturns.trans hturns', hranks⟩

end Cluster

end CurvePartition
