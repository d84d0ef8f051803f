-- SUMMARY: Sessions cover clusters: whatever the steps of a cluster whose ranks run programs of calls, some session has the same mail and its ranks are where those of the cluster are.
import Mathlib.Logic.Relation
import CurvePartition.Cluster.Basic
import CurvePartition.Proofs.Cluster.Mailboxes

/-!
# Clusters as sessions

A rank of a cluster runs a program of calls, each replaced by its actions. In a session it makes the same calls one after the
other. What is left of its program is then what is left of the call that it is busy with, followed by the rest of the program
(`Session.Follows`). A session has more moves than a cluster has steps, as a rank that posts is cleared first and makes calls
without actions at once, and each step of a cluster is one or more of these moves (`Session.Reachable.exists_covers_step`). So
what holds of all sessions holds of all that clusters do (`Session.exists_covers`).
-/

namespace CurvePartition

open Program

namespace Session

variable {α β ρ : Type} [Scalar α] [Wire α β] {s : Session α β} {size i : Nat}

/-- What is left of the program of a rank that is busy with something. -/
inductive Follows (place : Place) : Activity α β → Program (Action.Answer : Action β → Type) ρ → Prop where
  | idle (p : Program (Call.Answer : Call α β → Type) ρ) : Follows place .idle (p.expand (Call.toActions place))
  | within (c : Call α β) (trace : List (Deed β)) {a : Action β} (rest : a.Answer → Program Action.Answer c.Answer)
    (after : c.Answer → Program (Call.Answer : Call α β → Type) ρ) : Follows place (.within c trace false (.call a rest))
      (.call a fun x => rest x >>= fun r => (after r).expand (Call.toActions place))

/-- Whether a session has the mail of a cluster and its ranks are where those of the cluster are. -/
structure Covers (s : Session α β) (c : Cluster β ρ) (size : Nat) : Prop where
  mail : s.mail = c.mail
  ranks : ∀ i p, c.ranks[i]? = some p → i < size ∧ Follows ⟨i, size⟩ (s.activity i) p

/-- A rank that goes on with some program of a call is where it then is in the cluster. -/
theorem Covers.goOn {mail mail' : Mail β} {ranks : List (Program (Action.Answer : Action β → Type) ρ)} {s₀ : Session α β}
    (h : s₀.Covers ⟨mail, ranks⟩ size) (hi : i < size) (hmail : s.mail = mail')
    (hothers : ∀ j, j ≠ i → s.activity j = s₀.activity j) (c : Call α β) (trace : List (Deed β))
    (rest : Program (Action.Answer : Action β → Type) c.Answer) (after : c.Answer → Program (Call.Answer : Call α β → Type) ρ) :
    (s.goOn i c trace rest).Covers ⟨mail', ranks.set i (rest >>= fun r => (after r).expand (Call.toActions ⟨i, size⟩))⟩ size where
  mail := hmail
  ranks j p hp := by
    by_cases hji : j = i
    · subst hji
      obtain ⟨_, rfl⟩ := List.getElem?_eq_some_iff.1 hp
      rw [List.getElem_set_self, activity_goOn_self]
      refine ⟨hi, ?_⟩
      cases rest with
      | done r => exact .idle (after r)
      | call a rest => exact .within c trace rest after
    · rw [List.getElem?_set_ne (Ne.symm hji)] at hp
      rw [activity_goOn_of_ne hji, hothers j hji]
      exact h.ranks j p hp

namespace Reachable

/-- A rank that is about to act in a cluster can get there in a session. -/
theorem exists_ready (h : Reachable size s) (hi : i < size) {a : Action β} {next : a.Answer → Program Action.Answer ρ}
    (hfollows : Follows ⟨i, size⟩ (s.activity i) (.call a next)) : ∃ s', Reachable size s' ∧ s'.mail = s.mail ∧
    (∀ j, j ≠ i → s'.activity j = s.activity j) ∧ ∃ c trace rest, ∃ after : c.Answer → Program (Call.Answer : Call α β → Type) ρ,
      s'.activity i = .within c trace false (.call a rest) ∧
      next = fun x => rest x >>= fun r => (after r).expand (Call.toActions ⟨i, size⟩) := by
  generalize hactivity : s.activity i = activity at hfollows
  generalize hp : Program.call a next = p' at hfollows
  cases hfollows with
  | within c trace rest after =>
    cases hp
    exact ⟨s, h, rfl, fun _ _ => rfl, c, trace, rest, after, hactivity, rfl⟩
  | idle p =>
    induction p generalizing s with
    | done r => cases hp
    | call c after ih =>
      -- The next call has no actions, or this is its first one.
      have hrank : i < s.mail.size := h.size_eq.symm ▸ hi
      have hbegin : Reachable size (s.goOn i c [] (c.toActions ⟨i, size⟩)) := by
        have hmove := h.move (.begin c hrank hactivity)
        rwa [h.size_eq] at hmove
      have hself : (s.goOn i c [] (c.toActions ⟨i, size⟩)).activity i = .after c [] (c.toActions ⟨i, size⟩) :=
        activity_goOn_self s
      rw [expand] at hp
      cases hcall : c.toActions ⟨i, size⟩ with
      | done r =>
        rw [hcall] at hp hself hbegin
        obtain ⟨s', hreachable, hmail, hothers, hready⟩ := ih r hbegin hself hp
        exact ⟨s', hreachable, hmail, fun j hj => (hothers j hj).trans (activity_goOn_of_ne hj s), hready⟩
      | call a' rest =>
        rw [hcall] at hp hself hbegin
        cases hp
        exact ⟨_, hbegin, rfl, fun j hj => activity_goOn_of_ne hj s, c, [], rest, after, hself, rfl⟩

/-- What a rank of a cluster does it can do in a session. -/
theorem exists_note (h : Reachable size s) {c : Call α β} {trace : List (Deed β)} {a : Action β} {answer : a.Answer}
    {rest : a.Answer → Program Action.Answer c.Answer} (hactivity : s.activity i = .within c trace false (.call a rest))
    {mail : Mail β} (acted : s.mail.act i a = some (answer, mail)) :
    ∃ s' : Session α β, s'.mail = mail ∧ (∀ j, j ≠ i → s'.activity j = s.activity j) ∧
      ∃ trace, Reachable size (s'.goOn i c trace (rest answer)) := by
  cases a with
  | post dest tag data =>
    have hpost : s.mail.post ⟨i, dest, tag, data⟩ = (answer, mail) := Option.some.inj acted
    have hrefused : ∀ error, s.mail.post ⟨i, dest, tag, data⟩ = (.error error, s.mail) →
        ∃ s' : Session α β, s'.mail = mail ∧ (∀ j, j ≠ i → s'.activity j = s.activity j) ∧
          ∃ trace, Reachable size (s'.goOn i c trace (rest answer)) := by
      intro error heq
      cases hpost.symm.trans heq
      exact ⟨s.note i ⟨.post dest tag data, (.error error : Except CommError Unit)⟩ s.mail, rfl, fun _ _ => rfl, _,
        h.move (.act hactivity (.refuse (congrArg Prod.fst heq)))⟩
    rcases s.mail.post_cases ⟨i, dest, tag, data⟩ with ⟨_, heq⟩ | ⟨error, _, heq⟩ | ⟨_, heq⟩
    · exact hrefused _ heq
    · exact hrefused error heq
    · -- It is cleared first, and nothing happens in between.
      cases hpost.symm.trans heq
      have hcleared := h.move (.clear hactivity (congrArg Prod.fst heq))
      exact ⟨(s.busy i (.within c trace true (.call (.post dest tag data) rest))).note i
        ⟨.post dest tag data, (.ok () : Except CommError Unit)⟩ (s.mail.enqueue ⟨i, dest, tag, data⟩),
        rfl, fun j hj => activity_busy_of_ne hj s _, _, hcleared.move (.act (activity_busy_self s _) .enqueue)⟩
  | take source tag =>
    exact ⟨s.note i ⟨.take source tag, answer⟩ mail, rfl, fun _ _ => rfl, _, h.move (.act hactivity (.take acted))⟩
  | abort code =>
    cases acted
    exact ⟨s.note i ⟨.abort code, ()⟩ (s.mail.abort i code), rfl, fun _ _ => rfl, _, h.move (.act hactivity .abort)⟩

/-- A step of a cluster is made of moves of a session. -/
theorem exists_covers_step (h : Reachable size s) {c c' : Cluster β ρ} (hcovers : s.Covers c size) (step : Cluster.Step c c') :
    ∃ s' : Session α β, Reachable size s' ∧ s'.Covers c' size := by
  cases step with
  | @act mail mail' ranks i a next answer program acted =>
    obtain ⟨hi, hfollows⟩ := hcovers.ranks i _ program
    obtain ⟨s₁, h₁, hmail₁, hothers₁, call, trace, rest, after, hactivity, rfl⟩ := h.exists_ready hi hfollows
    rw [← (show s.mail = mail from hcovers.mail), ← hmail₁] at acted
    obtain ⟨s₂, hmail₂, hothers₂, trace', hreachable⟩ := h₁.exists_note hactivity acted
    exact ⟨_, hreachable, hcovers.goOn hi hmail₂ (fun j hj => (hothers₂ j hj).trans (hothers₁ j hj)) call trace' _ after⟩
  | @expire mail ranks i source tag next program waiting =>
    obtain ⟨hi, hfollows⟩ := hcovers.ranks i _ program
    obtain ⟨s₁, h₁, hmail₁, hothers₁, call, trace, rest, after, hactivity, rfl⟩ :=
      h.exists_ready (a := .take source tag) hi hfollows
    have hmail : s₁.mail = mail := hmail₁.trans hcovers.mail
    have hpick : s₁.mail.pick source i tag = none := by
      rw [hmail]
      cases hpick : mail.pick source i tag with
      | none => rfl
      | some => simp [Mail.act, hpick] at waiting
    let deed : Deed β := ⟨.take source tag, (.error (.timeout source tag) : Except CommError (Message β))⟩
    have hnoted : (s₁.note i deed s₁.mail).mail = mail := hmail
    exact ⟨_, h₁.move (.act hactivity (.expire hpick)), hcovers.goOn hi hnoted hothers₁ call (trace ++ [deed]) _ after⟩

end Reachable

/-- Whatever the ranks of a cluster do that run programs of calls, there is a session in which they did it. -/
theorem exists_covers {program : Place → Program (Call.Answer : Call α β → Type) ρ} {c : Cluster β ρ}
    (h : Relation.ReflTransGen Cluster.Step (Cluster.start ((List.range size).map fun rank =>
      (program ⟨rank, size⟩).expand (Call.toActions ⟨rank, size⟩))) c) :
    ∃ s : Session α β, Reachable size s ∧ s.Covers c size := by
  induction h with
  | refl =>
    refine ⟨start size, .start, by simp [start, Cluster.start], fun i p hp => ?_⟩
    obtain ⟨rank, hrank, rfl⟩ := Option.map_eq_some_iff.1 (List.getElem?_map ▸ hp)
    obtain ⟨hi, rfl⟩ := List.getElem?_eq_some_iff.1 hrank
    rw [List.getElem_range]
    exact ⟨by simpa using hi, .idle _⟩
  | tail _ step ih =>
    obtain ⟨s, hreachable, hcovers⟩ := ih
    exact hreachable.exists_covers_step hcovers step

end Session

end CurvePartition
