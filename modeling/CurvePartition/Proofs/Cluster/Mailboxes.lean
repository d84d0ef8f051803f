-- SUMMARY: Mailboxes lose nothing: in every session the messages taken are the first ones put in, in order, a rank misses a message only while there is none, and all reports of the end name one call.
import CurvePartition.Proofs.Cluster.Logs
import CurvePartition.Proofs.Cluster.Traces

/-!
# Mailboxes

What was put into a mailbox is what was taken from it and what is still in it (`Session.Reachable.enqueued_eq`), since each
action keeps this balance. An action in the log was done when the log ended before it (`Session.Reachable.exists_does`), so
what an action needs held at that moment: a rank that found no message was in front of an empty mailbox. The end of a run is
noted once, and every report of it names the first call that ended it (`Session.Reachable.firstAbort_eq`).

The actions of a rank are those of its calls, one call after the other, and each call has one of its traces
(`Session.Reachable.deeds_eq`, `Session.Reachable.legal`). So this holds of calls as well (`Session.Safe`).
-/

namespace CurvePartition

open Program

variable {α β : Type}

/-! ## All sessions -/

/-- What a rank did in the call that it is busy with. -/
def Activity.trace : Activity α β → List (Deed β)
  | .idle => []
  | .within _ trace _ _ => trace

namespace Session

variable {s s' : Session α β} {i j : Nat} {call : Call α β} {trace : List (Deed β)}
  {rest : Program (Action.Answer : Action β → Type) call.Answer}

theorem activity_busy_of_ne (h : j ≠ i) (s : Session α β) (activity : Activity α β) :
    (s.busy i activity).activity j = s.activity j :=
  Function.update_of_ne h _ _

theorem activity_busy_self (s : Session α β) (activity : Activity α β) : (s.busy i activity).activity i = activity :=
  Function.update_self ..

theorem activity_goOn_of_ne (h : j ≠ i) (s : Session α β) : (s.goOn i call trace rest).activity j = s.activity j :=
  Function.update_of_ne h _ _

theorem activity_goOn_self (s : Session α β) : (s.goOn i call trace rest).activity i = .after call trace rest :=
  Function.update_self ..

theorem records_note (s : Session α β) (deed : Deed β) (mail : Mail β) :
    Event.records (s.note i deed mail).log j = Event.records s.log j :=
  Event.records_acted

theorem deeds_goOn : Event.deeds (s.goOn i call trace rest).log j = Event.deeds s.log j := Event.deeds_notes

/-- What a rank did in its calls. -/
def accounted (s : Session α β) (i : Nat) : List (Deed β) :=
  (Event.records s.log i).flatMap Record.trace ++ (s.activity i).trace

theorem accounted_goOn_of_ne (h : j ≠ i) (s : Session α β) : (s.goOn i call trace rest).accounted j = s.accounted j := by
  rw [accounted, accounted, goOn, Event.records_notes_of_ne h]
  exact congrArg (_ ++ Activity.trace ·) (activity_goOn_of_ne h s)

theorem accounted_goOn_self (s : Session α β) :
    (s.goOn i call trace rest).accounted i = (Event.records s.log i).flatMap Record.trace ++ trace := by
  rw [accounted, activity_goOn_self, goOn]
  cases rest with
  | done => rw [Event.records_notes_done]; simp [Activity.after, Activity.trace]
  | call => rw [Event.records_notes_call]; rfl

variable [Scalar α] [Wire α β] {size : Nat}

/-- Whether a rank did in each call what the call is, and has something left to do in the one that it is busy with. -/
def Legal (s : Session α β) (size : Nat) : Prop := ∀ i,
  (∀ record ∈ Event.records s.log i, Path (record.call.toActions ⟨i, size⟩) record.trace (.done record.answer)) ∧
    match s.activity i with
    | .idle => True
    | .within call trace _ rest => Path (call.toActions ⟨i, size⟩) trace rest ∧ ∃ a next, rest = .call a next

theorem Legal.goOn (h : s.Legal size) (hpath : Path (call.toActions ⟨i, size⟩) trace rest) :
    (s.goOn i call trace rest).Legal size := by
  intro j
  by_cases hj : j = i
  · subst hj
    rw [activity_goOn_self, Session.goOn]
    cases rest with
    | done answer =>
      rw [Event.records_notes_done]
      exact ⟨List.forall_mem_append.2 ⟨(h j).1, List.forall_mem_singleton.2 hpath⟩, trivial⟩
    | call a next =>
      rw [Event.records_notes_call]
      exact ⟨(h j).1, hpath, a, next, rfl⟩
  · rw [activity_goOn_of_ne hj, Session.goOn, Event.records_notes_of_ne hj]
    exact h j

namespace Reachable

variable (h : Reachable size s)
include h

theorem size_eq : s.mail.size = size := by
  induction h with
  | start => rfl
  | move _ move ih =>
    cases move with
    | begin | clear => exact ih
    | act _ does => exact does.size_eq.trans ih

/-- The messages put in are those taken and those that wait. -/
theorem enqueued_eq (source dest : Nat) (tag : Int) : Event.enqueued s.log source dest tag =
    Event.taken s.log source dest tag ++ s.mail.channels.queue source dest tag := by
  induction h with
  | start => rfl
  | move _ move ih =>
    cases move with
    | begin => rwa [goOn, Event.enqueued_notes, Event.taken_notes]
    | clear => exact ih
    | act _ does =>
      rw [goOn, Event.enqueued_notes, Event.taken_notes, note, Event.enqueued_acted, Event.taken_acted, ih,
        List.append_assoc, does.balance, List.append_assoc]
      rfl

/-- The end of the run is the first abort. -/
theorem ended_eq : s.mail.ended = Event.firstAbort s.log := by
  induction h with
  | start => rfl
  | move _ move ih =>
    cases move with
    | begin => rwa [goOn, Event.firstAbort_notes]
    | clear => exact ih
    | act _ does =>
      rw [goOn, Event.firstAbort_notes, note, Event.firstAbort_acted, ← ih]
      exact does.ended_eq

/-! ### Actions and calls -/

/-- A rank does nothing but its calls, one after the other. -/
theorem deeds_eq (j : Nat) : Event.deeds s.log j = s.accounted j := by
  induction h with
  | start => rfl
  | move _ move ih =>
    cases move with
    | @begin i _ _ idle =>
      refine deeds_goOn.trans (ih.trans ?_)
      by_cases hj : j = i
      · subst hj
        exact (congrArg (_ ++ Activity.trace ·) idle).trans (accounted_goOn_self _).symm
      · exact (accounted_goOn_of_ne hj _).symm
    | @clear i _ _ _ _ _ _ posts =>
      refine ih.trans (congrArg (_ ++ ·) ?_)
      by_cases hj : j = i
      · subst hj
        rw [activity_busy_self, posts]
        rfl
      · rw [activity_busy_of_ne hj]
    | @act i call trace cleared a next answer mail acts does =>
      refine deeds_goOn.trans (Event.deeds_acted.trans ?_)
      rw [ih]
      by_cases hj : j = i
      · subst hj
        rw [if_pos rfl, accounted_goOn_self, records_note, accounted, acts, Activity.trace, List.append_assoc]
      · rw [if_neg (Ne.symm hj), List.append_nil, accounted_goOn_of_ne hj, accounted, accounted, records_note]
        rfl

/-- Each call has one of its traces. -/
theorem legal : s.Legal size := by
  induction h with
  | start => exact fun i => ⟨fun record hrecord => (nomatch hrecord), trivial⟩
  | move before move ih =>
    cases move with
    | begin => exact ih.goOn (before.size_eq ▸ .refl _)
    | @clear i call trace dest tag data next posts =>
      intro j
      refine ⟨(ih j).1, ?_⟩
      by_cases hj : j = i
      · subst hj
        rw [activity_busy_self]
        have hpath := (ih j).2
        rw [posts] at hpath
        exact ⟨hpath.1, _, _, rfl⟩
      · rw [activity_busy_of_ne hj]
        exact (ih j).2
    | @act i call trace cleared a next answer mail acts does =>
      refine Legal.goOn (fun j => ⟨?_, (ih j).2⟩) ?_
      · rw [records_note]
        exact (ih j).1
      · have hpath := (ih i).2
        rw [acts] at hpath
        exact hpath.1.concat answer

/-! ### Moments -/

/-- An action in the log was done when the log ended before it. -/
theorem exists_does {before : List (Event α β)} {deed : Deed β} (hlog : before ++ [.acted i deed] <+: s.log) :
    ∃ s', Reachable size s' ∧ s'.log = before ∧ ∃ cleared mail, s'.mail.Does i cleared deed mail := by
  induction h with
  | start => simp [Session.start] at hlog
  | move reachable move ih =>
    cases move with
    | begin =>
      rcases Event.prefix_notes hlog with hbefore | ⟨_, _, heq⟩
      · exact ih hbefore
      · cases heq
    | clear => exact ih hlog
    | act acts does =>
      rcases Event.prefix_notes hlog with hbefore | ⟨_, _, heq⟩
      · rcases List.prefix_concat_iff.1 hbefore with heq | hbefore
        · obtain ⟨rfl, hevent⟩ := List.append_inj' heq rfl
          cases hevent
          exact ⟨_, reachable, rfl, _, _, does⟩
        · exact ih hbefore
      · cases heq

/-- A call returns at once, or with its last action. -/
theorem returned_cases {before : List (Event α β)} {record : Record α β} (hlog : before ++ [.returned i record] <+: s.log) :
    record.trace = [] ∨ ∃ before' deed trace, before = before' ++ [.acted i deed] ∧ record.trace = trace ++ [deed] := by
  induction h with
  | start => simp [Session.start] at hlog
  | move reachable move ih =>
    cases move with
    | begin =>
      rcases Event.prefix_notes hlog with hbefore | ⟨_, _, heq⟩
      · exact ih hbefore
      · cases heq
        exact .inl rfl
    | clear => exact ih hlog
    | act acts does =>
      rcases Event.prefix_notes hlog with hbefore | ⟨rfl, _, heq⟩
      · refine ih ((List.prefix_concat_iff.1 hbefore).resolve_left fun heq => ?_)
        cases (List.append_inj' heq rfl).2
      · cases heq
        exact .inr ⟨_, _, _, rfl, rfl⟩

/-- A take that fails finds that all messages put in were taken. -/
theorem enqueued_eq_taken {before : List (Event α β)} {source : Nat} {tag : Int} {error : CommError}
    (hlog : before ++ [.acted i ⟨.take source tag, (.error error : Except CommError (Message β))⟩] <+: s.log) :
    Event.enqueued before source i tag = Event.taken before source i tag := by
  obtain ⟨s', hreachable, rfl, _, _, does⟩ := h.exists_does hlog
  rw [hreachable.enqueued_eq, does.queue_eq_nil, List.append_nil]

/-- An action in the log was done at some moment. -/
theorem exists_moment {deed : Deed β} (hdeed : deed ∈ Event.deeds s.log i) :
    ∃ s' cleared mail, Reachable size s' ∧ s'.log <+: s.log ∧ s'.mail.Does i cleared deed mail := by
  obtain ⟨before, after, hlog⟩ := List.append_of_mem (Event.mem_deeds_iff.1 hdeed)
  have hprefix : before ++ [.acted i deed] <+: s.log := ⟨after, by rw [hlog, List.append_assoc]; rfl⟩
  obtain ⟨s', hreachable, rfl, cleared, mail, does⟩ := h.exists_does hprefix
  exact ⟨s', cleared, mail, hreachable, (List.prefix_append _ _).trans hprefix, does⟩

/-- A reported end is the first abort. -/
theorem firstAbort_eq {deed : Deed β} {rank : Nat} {code : Int} (hdeed : deed ∈ Event.deeds s.log i)
    (herror : deed.error = some (.aborted rank code)) : Event.firstAbort s.log = some (rank, code) := by
  obtain ⟨s', _, _, hreachable, hprefix, does⟩ := h.exists_moment hdeed
  refine Event.firstAbort_of_prefix hprefix ?_
  rcases does.error_cases herror with ⟨_, _, _, _, _, heq⟩ | hend | ⟨_, _, _, heq⟩
  · cases heq
  · rw [← hreachable.ended_eq]
    obtain ⟨⟨rank', code'⟩, hended, heq⟩ := Option.map_eq_some_iff.1 hend
    cases heq
    exact hended
  · cases heq

/-- The end of the run is a call that has returned. -/
theorem exists_abort {rank : Nat} {code : Int} (hfirst : Event.firstAbort s.log = some (rank, code)) :
    ∃ trace, .returned rank ⟨.abort code, trace, ()⟩ ∈ s.log := by
  have hdeed := Event.mem_deeds_of_firstAbort hfirst
  rw [h.deeds_eq] at hdeed
  rcases List.mem_append.1 hdeed with hreturned | hwithin
  · obtain ⟨record, hrecord, hmem⟩ := List.mem_flatMap.1 hreturned
    have hinvolves := Call.involves_of_path ((h.legal rank).1 record hrecord) _ hmem
    obtain ⟨call, trace, answer⟩ := record
    obtain rfl : call = .abort code := Call.eq_abort_of_involves hinvolves
    exact ⟨trace, Event.mem_records_iff.1 hrecord⟩
  · -- After this action nothing of the call is left, so no rank is busy with it.
    have hlegal := (h.legal rank).2
    cases hactivity : s.activity rank with
    | idle =>
      rw [hactivity] at hwithin
      cases hwithin
    | within call trace cleared rest =>
      rw [hactivity] at hwithin hlegal
      obtain ⟨hpath, a, next, rfl⟩ := hlegal
      obtain rfl : call = .abort code := Call.eq_abort_of_involves (Call.involves_of_path hpath _ hwithin)
      rcases path_call_iff.1 hpath with ⟨rfl, _⟩ | ⟨_, _, _, hrest⟩
      · cases hwithin
      · cases (path_done_iff.1 hrest).2

end Reachable

end Session

/-! ## Calls -/

/-- The failure that a call returned. The end of the run is none for the rank that calls for it. -/
def Record.error : Record α β → Option CommError
  | ⟨.abort _, _, _⟩ => none
  | ⟨call, _, answer⟩ => call.failure answer

namespace Delivery

variable {τ : Type} {place : Place} {message : Message β} {read : Message β → τ} {combine : τ → τ → τ} {values : List τ}
  {trace : List (Deed β)} {rank : Nat} {code : Int}

theorem eq_error_of_sized {source length : Nat} {tag : Int} {answer : Except CommError (Message β)}
    (h : sized source tag length answer = .error (.aborted rank code)) : answer = .error (.aborted rank code) := by
  rcases sized_eq_error h with hanswer | ⟨_, _, _, heq⟩
  · exact hanswer
  · cases heq

/-- A reduction that reports the end of the run learned of it in an action. -/
theorem Reduced.exists_error (h : Reduced place message read combine values trace (.error (.aborted rank code))) :
    ∃ deed ∈ trace, deed.error = some (.aborted rank code) := by
  cases h with
  | refused => exact ⟨_, List.mem_append_right _ (List.mem_singleton_self _), rfl⟩
  | stopped _ _ bad =>
    refine ⟨_, List.mem_append_right _ (List.mem_append_right _ (List.mem_singleton_self _)), ?_⟩
    rw [eq_error_of_sized bad]
    rfl

end Delivery

/-- So does every call. -/
theorem Record.exists_error [Scalar α] [Wire α β] {call : Call α β} {trace : List (Deed β)} {answer : call.Answer}
    {place : Place} {rank : Nat} {code : Int} (h : Path (call.toActions place) trace (.done answer))
    (herror : Record.error ⟨call, trace, answer⟩ = some (.aborted rank code)) :
    ∃ deed ∈ trace, deed.error = some (.aborted rank code) := by
  cases call with
  | reduceWords | reduceScalars =>
    match answer, herror with
    | .error _, rfl => exact (Delivery.reduced_of_path h).exists_error
  | send =>
    match answer, herror with
    | .error _, rfl =>
      rw [Delivery.trace_of_send h]
      exact ⟨_, List.mem_singleton_self _, rfl⟩
  | receive =>
    match answer, herror with
    | .error _, rfl =>
      obtain ⟨taken, rfl, heq⟩ := Delivery.trace_of_receive h
      obtain rfl := Delivery.eq_error_of_sized heq.symm
      exact ⟨_, List.mem_singleton_self _, rfl⟩
  | expect source =>
    match answer, herror with
    | .error _, rfl =>
      -- It can only have failed because of a rank that does not exist.
      have hanswer : (if place.size ≤ source then .error (.invalidRank source place.size) else .ok () : Except CommError Unit) =
          .error (.aborted rank code) := (Program.done.inj (path_done_iff.1 h).2).symm
      split at hanswer <;> cases hanswer
  | finishSend =>
    obtain ⟨_, hanswer⟩ := path_done_iff.1 h
    cases hanswer
    cases herror
  | abort => cases herror

namespace Session

variable [Scalar α] [Wire α β] {s : Session α β} {size : Nat}

/-- What holds of all mailboxes and of the end of the run. -/
structure Safe (s : Session α β) : Prop where
  /-- The messages of a rank to another one with a tag are taken in the order in which they were put in, each once, and all
  others are still there. -/
  taken : ∀ source dest tag, Event.enqueued s.log source dest tag =
    Event.taken s.log source dest tag ++ s.mail.channels.queue source dest tag
  /-- What ranks do with the mail they do in their calls, one call after the other. -/
  deeds : ∀ i, Event.deeds s.log i = s.accounted i
  /-- In each call they do what the call is. -/
  calls : s.Legal s.mail.size
  /-- A send puts in its message, or fails. -/
  sends : ∀ i dest tag data trace answer, .returned i ⟨.send dest tag data, trace, answer⟩ ∈ s.log →
    trace = [⟨.post dest tag data, answer⟩]
  /-- A receive takes one message, or fails. A message of another length is taken as well, and reported. -/
  receives : ∀ i source tag length trace answer, .returned i ⟨.receive source tag length, trace, answer⟩ ∈ s.log →
    ∃ taken, trace = [⟨.take source tag, taken⟩] ∧ answer = Delivery.sized source tag length taken
  /-- No message was there when a receive reported the end of the run or lost patience. -/
  missing : ∀ before i source tag length trace error,
    before ++ [.returned i ⟨.receive source tag length, trace, .error error⟩] <+: s.log →
    (∃ rank code, error = .aborted rank code) ∨ (∃ peer tag', error = .timeout peer tag') →
    Event.enqueued before source i tag = Event.taken before source i tag
  /-- The same holds of the messages that a reduction waits for. -/
  untaken : ∀ before i source tag error,
    before ++ [.acted i ⟨.take source tag, (.error error : Except CommError (Message β))⟩] <+: s.log →
    Event.enqueued before source i tag = Event.taken before source i tag
  /-- All calls that report the end of the run name the first call for it. -/
  aborted : ∀ i record rank code, .returned i record ∈ s.log → record.error = some (.aborted rank code) →
    Event.firstAbort s.log = some (rank, code) ∧ ∃ trace, .returned rank ⟨.abort code, trace, ()⟩ ∈ s.log

namespace Reachable

variable (h : Reachable size s)
include h

/-- A receive that fails to find a message does so in front of an empty mailbox, which is empty as well when it returns. -/
theorem enqueued_eq_taken_of_returned {before : List (Event α β)} {i source length : Nat} {tag : Int} {trace : List (Deed β)}
    {error : CommError} (hlog : before ++ [.returned i ⟨.receive source tag length, trace, .error error⟩] <+: s.log)
    (herror : (∃ rank code, error = .aborted rank code) ∨ ∃ peer tag', error = .timeout peer tag') :
    Event.enqueued before source i tag = Event.taken before source i tag := by
  have hpath := (h.legal i).1 _ (Event.mem_records_iff.2 (hlog.mem (List.mem_append_right _ (List.mem_singleton_self _))))
  obtain ⟨taken, htrace, hanswer⟩ := Delivery.trace_of_receive hpath
  obtain rfl : taken = .error error := by
    rcases Delivery.sized_eq_error hanswer.symm with htaken | ⟨_, _, _, rfl⟩
    · exact htaken
    · rcases herror with ⟨_, _, heq⟩ | ⟨_, _, heq⟩ <;> cases heq
  rcases h.returned_cases hlog with hnil | ⟨before', deed, trace', rfl, hlast⟩
  · rw [hnil] at htrace
    cases htrace
  · rw [htrace] at hlast
    obtain rfl : deed = ⟨.take source tag, (.error error : Except CommError (Message β))⟩ := by
      simpa using (congrArg List.getLast? hlast).symm
    have htaken := h.enqueued_eq_taken ((List.prefix_append _ _).trans hlog)
    simp [Event.enqueued_acted, Event.taken_acted, Deed.postedTo, Deed.takenFrom, htaken]

/-- Mailboxes are safe in all sessions. -/
theorem mailboxes_safe : s.Safe where
  taken := h.enqueued_eq
  deeds := h.deeds_eq
  calls := h.size_eq ▸ h.legal
  sends i _ _ _ _ _ hmem := Delivery.trace_of_send ((h.legal i).1 _ (Event.mem_records_iff.2 hmem))
  receives i _ _ _ _ _ hmem := Delivery.trace_of_receive ((h.legal i).1 _ (Event.mem_records_iff.2 hmem))
  missing _ _ _ _ _ _ _ := h.enqueued_eq_taken_of_returned
  untaken _ _ _ _ _ := h.enqueued_eq_taken
  aborted i record rank code hmem herror := by
    have hrecord := Event.mem_records_iff.2 hmem
    obtain ⟨deed, hdeed, heq⟩ := Record.exists_error ((h.legal i).1 record hrecord) herror
    have hdeeds : deed ∈ Event.deeds s.log i := by
      rw [h.deeds_eq]
      exact List.mem_append_left _ (List.mem_flatMap.2 ⟨record, hrecord, hdeed⟩)
    have hfirst := h.firstAbort_eq hdeeds heq
    exact ⟨hfirst, h.exists_abort hfirst⟩

end Reachable

/-- Rank 1 finds a message of the wrong length, runs out of patience and ends the run. Rank 0 has sent one message to itself
and was cleared to post another one before. -/
def twoRanks : List (Choice Float UInt8) :=
  [.begin 0 (.send 1 3 [1, 2]), .act 0, .act 0, .begin 0 (.send 0 3 [9]), .act 0, .act 0, .begin 1 (.receive 0 3 1), .act 1,
    .begin 1 (.receive 0 3 2), .expire 1, .begin 0 (.send 1 3 [5]), .act 0, .begin 1 (.abort 7), .act 1, .act 0,
    .begin 0 (.receive 0 3 1), .act 0, .begin 0 (.receive 1 3 1), .act 0, .begin 0 (.abort 8), .act 0]

theorem mailboxes_safe_twoRanks : ∃ s, (start 2).play twoRanks = some s ∧ s.Safe ∧
    Event.enqueued s.log 0 1 3 = [[1, 2], [5]] ∧ Event.taken s.log 0 1 3 = [[1, 2]] ∧
    Event.taken s.log 0 0 3 = [[9]] ∧ Event.firstAbort s.log = some (1, 7) ∧
    (Event.records s.log 0).map Record.error = [none, none, none, none, some (.aborted 1 7), none] ∧
    (Event.records s.log 1).map Record.error = [some (.sizeMismatch 0 3 1 2), some (.timeout 0 3), none] := by
  have hplay : ((start 2).play twoRanks).isSome = true := rfl
  have hsome := (Option.some_get hplay).symm
  exact ⟨_, hsome, Reachable.mailboxes_safe (reachable_of_play .start hsome), rfl, rfl, rfl, rfl, rfl, rfl⟩

end Session

end CurvePartition
