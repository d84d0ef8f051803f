-- SUMMARY: Which contributions of other ranks a reduction combines after earlier ones have failed: those whose numbers are the counts of messages taken before.
import Mathlib.Data.List.Basic
import CurvePartition.Proofs.Cluster.Contributions

/-!
# Pairing of contributions

In a session a rank may call again after a reduction has failed, while messages that the failed one should have taken are still
in its mailbox. The messages of a rank to a peer are its contributions in their order (`Session.Reachable.enqueued_prefix`),
since each reduction posts to all peers before it takes anything, and a rank that was told of the end of the run posts no more
(`Session.Reachable.pairwise_deeds`). A reduction that succeeds takes the next message of each peer. So it is paired with the
contribution whose number is the count of messages taken before, and that is known from the answers of the earlier reductions
(`Session.Reachable.exists_partner`).
-/

namespace CurvePartition

open Delivery

theorem Mail.ended_eq_none_of_post {β : Type} {m : Mail β} {e : Envelope β} (h : (m.post e).1 = .ok ()) : m.ended = none := by
  rcases m.post_cases e with ⟨_, heq⟩ | ⟨_, _, heq⟩ | ⟨hended, _⟩
  · rw [heq] at h
    cases h
  · rw [heq] at h
    cases h
  · exact hended

/-- Only a rank that is cleared puts a message into a mailbox. -/
theorem Mail.Does.postedTo_eq_none {β : Type} {m m' : Mail β} {i dest : Nat} {tag : Int} {deed : Deed β}
    (h : m.Does i false deed m') : deed.postedTo dest tag = none := by
  cases h <;> rfl

namespace Activity

variable {α β : Type}

/-- Whether a rank is cleared to post. -/
def Cleared : Activity α β → Prop
  | .within _ _ true _ => True
  | _ => False

/-- The call that a rank is busy with, and what it did in it so far. -/
def current : Activity α β → List (Call α β × List (Deed β))
  | .idle => []
  | .within call trace _ _ => [(call, trace)]

end Activity

namespace Session

variable {α β : Type} {s : Session α β} {size i q : Nat}

/-- What a rank has called, and what it did in each call so far. -/
def calls (s : Session α β) (i : Nat) : List (Call α β × List (Deed β)) :=
  (Event.records s.log i).map (fun record => (record.call, record.trace)) ++ (s.activity i).current

/-- The contributions of a rank, oldest first. -/
def contributions (s : Session α β) (i : Nat) : List (Contribution α) := (s.calls i).filterMap (·.1.contribution?)

/-- The reductions of a rank that have returned, oldest first. -/
def reductions (s : Session α β) (i : Nat) : List (Outcome α) := (Event.records s.log i).filterMap Record.outcome?

/-- Whether only reductions use their tag. -/
def Reserves (s : Session α β) (size : Nat) : Prop := ∀ i < size, ∀ c ∈ s.calls i, c.1.Reserves

theorem accounted_eq_flatMap (s : Session α β) (i : Nat) : s.accounted i = (s.calls i).flatMap Prod.snd := by
  rw [accounted, calls, List.flatMap_append, List.flatMap_map]
  cases s.activity i <;> simp [Activity.trace, Activity.current]

/-- The reductions that have returned come first among the contributions. -/
theorem contributions_eq (s : Session α β) (i : Nat) : s.contributions i =
    (s.reductions i).map Outcome.contribution ++ (s.activity i).current.filterMap (·.1.contribution?) := by
  rw [contributions, calls, List.filterMap_append, List.filterMap_map, reductions, List.map_filterMap]
  exact congrArg (List.filterMap · _ ++ _) (funext Record.contribution?_eq)

/-- A rank that goes on is not cleared, and the others are what they were. -/
theorem cleared_goOn {j : Nat} {call : Call α β} {trace : List (Deed β)}
    {rest : Program (Action.Answer : Action β → Type) call.Answer} (h : ((s.goOn j call trace rest).activity i).Cleared) :
    i ≠ j ∧ (s.activity i).Cleared := by
  by_cases hij : i = j
  · subst hij
    rw [activity_goOn_self] at h
    cases rest <;> exact h.elim
  · exact ⟨hij, activity_goOn_of_ne hij s ▸ h⟩

/-- A call has returned, or it is the last one. -/
theorem mem_records_or_last {c : Call α β × List (Deed β)} {front back : List (Call α β × List (Deed β))}
    (hcalls : s.calls i = front ++ c :: back) :
    (∃ record ∈ Event.records s.log i, (record.call, record.trace) = c) ∨ back = [] := by
  rcases List.eq_nil_or_concat back with rfl | ⟨back', last, rfl⟩
  · exact .inr rfl
  refine .inl (List.mem_map.1 ?_)
  rw [List.concat_eq_append, ← List.cons_append, ← List.append_assoc, calls] at hcalls
  cases hactivity : s.activity i with
  | idle =>
    rw [hactivity, Activity.current, List.append_nil] at hcalls
    simp [hcalls]
  | within =>
    rw [hactivity, Activity.current] at hcalls
    simp [(List.append_inj' hcalls rfl).1]

/-- As long as each part is what it should be, or nothing comes after it. -/
theorem flatMap_prefix {σ τ : Type} {f g : σ → List τ} {l : List σ}
    (h : ∀ front a back, l = front ++ a :: back → f a = g a ∨ f a = [] ∧ back.flatMap f = []) :
    l.flatMap f <+: l.flatMap g := by
  induction l with
  | nil => exact List.prefix_refl _
  | cons a l ih =>
    rw [List.flatMap_cons, List.flatMap_cons]
    rcases h [] a l rfl with heq | ⟨ha, hl⟩
    · rw [heq]
      exact (List.prefix_append_right_inj _).2 (ih fun front b back hl => h (a :: front) b back (congrArg (a :: ·) hl))
    · rw [ha, hl]
      exact List.nil_prefix

/-- The element that a filtered list has at some place, and what comes before it. -/
theorem exists_split_of_filterMap {σ τ : Type} {f : σ → Option τ} {l : List σ} {n : Nat} {b : τ}
    (h : (l.filterMap f)[n]? = some b) :
    ∃ front a back, l = front ++ a :: back ∧ f a = some b ∧ front.filterMap f = (l.filterMap f).take n := by
  obtain ⟨hlt, hget⟩ := List.getElem?_eq_some_iff.1 h
  have hsplit : l.filterMap f = (l.filterMap f).take n ++ b :: (l.filterMap f).drop (n + 1) := by
    rw [← hget, ← List.drop_eq_getElem_cons hlt, List.take_append_drop]
  obtain ⟨front, rest, hl, hfront, hrest⟩ := List.filterMap_eq_append_iff.1 hsplit
  obtain ⟨gap, a, back, rfl, hgap, ha, _⟩ := List.filterMap_eq_cons_iff.1 hrest
  refine ⟨front ++ gap, a, back, by rw [hl, List.append_assoc], ha, ?_⟩
  rw [List.filterMap_append, List.filterMap_eq_nil_iff.2 hgap, List.append_nil, hfront]

theorem length_flatMap_eq_countP {σ τ ρ : Type} {f : σ → List τ} {g : σ → Option ρ} {p : ρ → Bool} {l : List σ}
    (h : ∀ a ∈ l, (f a).length = ((g a).map fun b => (p b).toNat).getD 0) :
    (l.flatMap f).length = (l.filterMap g).countP p := by
  induction l with
  | nil => rfl
  | cons a l ih =>
    rw [List.flatMap_cons, List.length_append, ih fun b hb => h b (List.mem_cons_of_mem a hb), h a List.mem_cons_self,
      List.filterMap_cons]
    cases g a with
    | none => exact Nat.zero_add _
    | some b => cases hb : p b <;> simp [hb, Nat.add_comm]

variable [Scalar α] [Wire α β]

namespace Reachable

variable (h : Reachable size s)
include h

/-! ## The end of the run -/

theorem credible {deed : Deed β} (hdeed : deed ∈ Event.deeds s.log i) : deed.Credible size := by
  obtain ⟨s', _, _, hreachable, _, does⟩ := h.exists_moment hdeed
  intro error herror
  rcases does.error_cases herror with ⟨dest, tag, data, hpost, hsize, _⟩ | hend | htimeout
  · exact .inr (.inl ⟨dest, tag, data, hpost, hreachable.size_eq ▸ hsize⟩)
  · obtain ⟨⟨rank, code⟩, _, rfl⟩ := Option.map_eq_some_iff.1 hend
    exact .inl ⟨rank, code, rfl⟩
  · exact .inr (.inr htimeout)

/-- A rank is told of the end only when the run has ended. -/
theorem ended_ne_none {deed : Deed β} (hdeed : deed ∈ Event.deeds s.log i) (haborted : deed.Aborted) :
    s.mail.ended ≠ none := by
  obtain ⟨_, herror, rank, code, rfl⟩ := haborted
  rw [h.ended_eq, h.firstAbort_eq hdeed herror]
  exact Option.some_ne_none _

/-- A rank that is cleared has not been told of the end. -/
theorem not_aborted_of_cleared (hcleared : (s.activity i).Cleared) : ∀ deed ∈ Event.deeds s.log i, ¬ deed.Aborted := by
  induction h with
  | start => exact hcleared.elim
  | @move s s' before move ih =>
    cases move with
    | begin =>
      rw [deeds_goOn]
      exact ih (cleared_goOn hcleared).2
    | @clear j _ _ _ _ _ _ _ allowed =>
      by_cases hij : i = j
      · exact fun deed hdeed haborted =>
          before.ended_ne_none hdeed haborted (Mail.ended_eq_none_of_post allowed)
      · rw [activity_busy_of_ne hij] at hcleared
        exact ih hcleared
    | act =>
      obtain ⟨hij, hcleared⟩ := cleared_goOn hcleared
      rw [deeds_goOn]
      refine fun deed hdeed => ih hcleared deed ?_
      rw [note, Event.deeds_acted, if_neg (Ne.symm hij), List.append_nil] at hdeed
      exact hdeed

/-- A rank that was told of the end posts no more. -/
theorem pairwise_deeds (dest : Nat) (tag : Int) :
    (Event.deeds s.log i).Pairwise fun deed later => deed.Aborted → later.postedTo dest tag = none := by
  induction h with
  | start => exact .nil
  | @move s s' before move ih =>
    cases move with
    | begin => rwa [deeds_goOn]
    | clear => exact ih
    | @act j _ _ cleared _ _ _ _ acts does =>
      rw [deeds_goOn, note, Event.deeds_acted]
      by_cases hji : j = i
      · subst hji
        rw [if_pos rfl]
        refine List.pairwise_append.2 ⟨ih, List.pairwise_singleton _ _, fun deed hdeed later hlater haborted => ?_⟩
        rw [List.mem_singleton.1 hlater]
        cases cleared with
        | false => exact does.postedTo_eq_none
        | true =>
          have hcleared : (s.activity j).Cleared := by
            rw [acts]
            trivial
          exact absurd haborted (before.not_aborted_of_cleared hcleared deed hdeed)
      · rwa [if_neg hji, List.append_nil]

/-- The same of calls. -/
theorem pairwise_calls (dest : Nat) (tag : Int) : (s.calls i).Pairwise fun c later =>
    (∃ deed ∈ c.2, deed.Aborted) → later.2.filterMap (Deed.postedTo dest tag) = [] := by
  have hdeeds := h.pairwise_deeds (i := i) dest tag
  rw [h.deeds_eq, accounted_eq_flatMap] at hdeeds
  refine (List.pairwise_flatMap.1 hdeeds).2.imp fun hcross => ?_
  rintro ⟨deed, hdeed, haborted⟩
  exact List.filterMap_eq_nil_iff.2 fun later hlater => hcross deed hdeed later hlater haborted

/-! ## Messages of reductions -/

/-- What a rank did in a call is the beginning of it. -/
theorem exists_path {c : Call α β × List (Deed β)} (hc : c ∈ s.calls i) :
    ∃ rest, Program.Path (c.1.toActions ⟨i, size⟩) c.2 rest := by
  rcases List.mem_append.1 hc with hreturned | hcurrent
  · obtain ⟨record, hrecord, rfl⟩ := List.mem_map.1 hreturned
    exact ⟨_, (h.legal i).1 record hrecord⟩
  · have hpath := (h.legal i).2
    cases hactivity : s.activity i with
    | idle =>
      rw [hactivity] at hcurrent
      cases hcurrent
    | within call trace cleared rest =>
      rw [hactivity] at hcurrent hpath
      obtain rfl := List.mem_singleton.1 hcurrent
      exact ⟨rest, hpath.1⟩

theorem made {record : Record α β} {o : Outcome α} (hi : i < size) (hrecord : record ∈ Event.records s.log i)
    (ho : record.outcome? = some o) : o.Made ⟨i, size⟩ record.trace := by
  refine Record.made ((h.legal i).1 record hrecord) ho (fun deed hdeed => h.credible (i := i) ?_) hi
  rw [h.deeds_eq]
  exact List.mem_append_left _ (List.mem_flatMap.2 ⟨record, hrecord, hdeed⟩)

/-- The messages of reductions that a rank has put into the mailbox of another one are its contributions, oldest first. -/
theorem enqueued_prefix (hreserves : s.Reserves size) (hq : q < size) (hi : i < size) (hne : i ≠ q) :
    Event.enqueued s.log q i reductionTag <+: (s.contributions q).map Contribution.message := by
  have hmessages : (s.contributions q).map (Contribution.message (β := β)) =
      (s.calls q).flatMap fun c => (c.1.contribution?.map Contribution.message).toList := by
    rw [contributions, List.map_filterMap, List.filterMap_eq_flatMap_toList]
  rw [Event.enqueued, h.deeds_eq, accounted_eq_flatMap, List.filterMap_flatMap, hmessages]
  refine flatMap_prefix fun front c back hcalls => ?_
  have hc : c ∈ s.calls q := hcalls ▸ List.mem_append_right _ List.mem_cons_self
  obtain ⟨rest, hpath⟩ := h.exists_path hc
  rcases Call.posted_of_path hpath (hreserves q hq c hc) with heq | hnil
  · exact .inl heq
  rcases mem_records_or_last hcalls with ⟨record, hrecord, rfl⟩ | rfl
  · -- The call has returned. So it was no reduction, or it was told of the end, and there was nothing put in later.
    cases ho : record.outcome? with
    | none =>
      refine .inl ?_
      rw [Record.contribution?_eq, ho]
      exact hnil
    | some o =>
      have hmade := h.made hq hrecord ho
      rcases hmade.posts i (mem_peers_iff.2 ⟨hi, hne⟩) with hposted | ⟨_, error, herror, haborted⟩
      · rw [hposted] at hnil
        cases hnil
      · refine .inr ⟨hnil, List.flatMap_eq_nil_iff.2 fun later hlater => ?_⟩
        have hpairwise := h.pairwise_calls (i := q) i reductionTag
        rw [hcalls] at hpairwise
        exact (List.pairwise_cons.1 (List.pairwise_append.1 hpairwise).2.1).1 later hlater
          (Record.exists_aborted ((h.legal q).1 record hrecord) ho herror haborted)
  · exact .inr ⟨hnil, rfl⟩

/-- What a rank has taken from a peer before some successful reduction, and what this one took. -/
theorem taken_split (hreserves : s.Reserves size) (hi : i < size) (hq : q < size) (hne : q ≠ i)
    {front back : List (Record α β)} {record : Record α β} (hrecords : Event.records s.log i = front ++ record :: back)
    {o : Outcome α} (ho : record.outcome? = some o) {result : Contribution α} (hresult : o.answer = .ok result) :
    ∃ before later, before.length = (front.filterMap Record.outcome?).countP (Outcome.takes q) ∧
      Event.taken s.log q i reductionTag =
        before ++ record.trace.filterMap (Deed.takenFrom q reductionTag) ++ later := by
  have hmem : record ∈ Event.records s.log i := hrecords ▸ List.mem_append_right _ List.mem_cons_self
  -- A rank that succeeds has not been told of the end before.
  have hposted : record.trace.filterMap (Deed.postedTo q reductionTag) ≠ [] := by
    rcases (h.made hi hmem ho).posts q (mem_peers_iff.2 ⟨hq, hne⟩) with hposted | ⟨_, _, herror, _⟩
    · simp [hposted]
    · rw [hresult] at herror
      cases herror
  have hnone : ∀ r ∈ front, ¬ ∃ deed ∈ r.trace, deed.Aborted := by
    intro r hr haborted
    have hpairwise := h.pairwise_calls (i := i) q reductionTag
    rw [calls, hrecords] at hpairwise
    have hrecordsPairwise := List.pairwise_map.1 (List.pairwise_append.1 hpairwise).1
    exact hposted ((List.pairwise_append.1 hrecordsPairwise).2.2 r hr record List.mem_cons_self haborted)
  have hcount : ∀ r ∈ front, (r.trace.filterMap (Deed.takenFrom q reductionTag)).length =
      (r.outcome?.map fun o => (o.takes q).toNat).getD 0 := by
    intro r hr
    have hrmem : r ∈ Event.records s.log i := hrecords ▸ List.mem_append_left _ hr
    have hpath := (h.legal i).1 r hrmem
    cases hro : r.outcome? with
    | none =>
      have hcall : (r.call, r.trace) ∈ s.calls i := List.mem_append_left _ (List.mem_map.2 ⟨r, hrmem, rfl⟩)
      rw [Call.taken_of_path hpath (hreserves i hi _ hcall) (by rw [Record.contribution?_eq, hro]; rfl)]
      rfl
    | some ro =>
      refine (h.made hi hrmem hro).takes q (mem_peers_iff.2 ⟨hq, hne⟩) fun error herror haborted => ?_
      exact hnone r hr (Record.exists_aborted hpath hro herror haborted)
  refine ⟨front.flatMap fun r => r.trace.filterMap (Deed.takenFrom q reductionTag),
    (back.flatMap fun r => r.trace.filterMap (Deed.takenFrom q reductionTag)) ++
      (s.activity i).trace.filterMap (Deed.takenFrom q reductionTag), length_flatMap_eq_countP hcount, ?_⟩
  rw [Event.taken, h.deeds_eq, accounted, hrecords]
  simp [List.filterMap_flatMap]

/-- A successful reduction combines the contributions that come next in the mailboxes. -/
theorem exists_partner (hreserves : s.Reserves size) (hi : i < size) {n : Nat} {c result : Contribution α}
    (hn : (s.reductions i)[n]? = some ⟨c, .ok result⟩) : ∃ partner : Nat → Contribution α,
    (∀ q < size, q ≠ i →
      (s.contributions q)[((s.reductions i).take n).countP (Outcome.takes q)]? = some (partner q) ∧
      ((partner q).message : Message β).length = (c.message : Message β).length) ∧
    Contribution.fold ((List.range size).map fun q =>
      if q = i then c else c.reread ((partner q).message : Message β)) = some result := by
  obtain ⟨front, record, back, hrecords, ho, hfront⟩ := exists_split_of_filterMap hn
  have hmem : record ∈ Event.records s.log i := hrecords ▸ List.mem_append_right _ List.mem_cons_self
  obtain ⟨data, hdata, hfold⟩ := (h.made hi hmem ho).result result rfl
  have hpartner : ∀ q, q < size → q ≠ i → ∃ partner,
      (s.contributions q)[((s.reductions i).take n).countP (Outcome.takes q)]? = some partner ∧
        partner.message = data q := by
    intro q hq hne
    obtain ⟨before, later, hlength, htaken⟩ := h.taken_split hreserves hi hq hne hrecords ho rfl
    obtain ⟨rest, hrest⟩ := h.enqueued_prefix hreserves hq hi (Ne.symm hne)
    rw [h.enqueued_eq, htaken, (hdata q (mem_peers_iff.2 ⟨hq, hne⟩)).1] at hrest
    have hget : ((s.contributions q).map Contribution.message)[before.length]? = some (data q) := by
      rw [← hrest]
      simp
    rw [List.getElem?_map, Option.map_eq_some_iff, hlength, hfront] at hget
    exact hget
  have : Nonempty (Contribution α) := ⟨c⟩
  choose! partner hpartner using hpartner
  refine ⟨partner, fun q hq hne => ⟨(hpartner q hq hne).1, ?_⟩, hfold ▸ congrArg Contribution.fold ?_⟩
  · rw [(hpartner q hq hne).2, (hdata q (mem_peers_iff.2 ⟨hq, hne⟩)).2]
  · refine List.map_congr_left fun q hq => ite_congr rfl (fun _ => rfl) fun hne => ?_
    rw [(hpartner q (List.mem_range.1 hq) hne).2]

end Reachable

end Session

end CurvePartition
