-- SUMMARY: What the log of a session tells: actions, calls that returned, messages put in and taken, the first abort; and what each single action does to the mail.
import CurvePartition.Proofs.Cluster.Channels
import CurvePartition.Proofs.Cluster.Sessions

/-!
# Logs

The log of a session is a list of events, and what happened to a rank, a mailbox or the run is read off it: what a rank did
(`Event.deeds`), its calls that returned (`Event.records`), the messages put into a mailbox and those taken from it
(`Event.enqueued`, `Event.taken`), and who ended the run first (`Event.firstAbort`). One more event changes each of them in the
obvious way.

An action keeps the balance of all mailboxes (`Mail.Does.balance`), it notes the end of the run once (`Mail.Does.ended_eq`),
and it fails only for known reasons (`Mail.Does.error_cases`).
-/

namespace CurvePartition

variable {α β : Type}

/-! ## What a log tells -/

namespace Deed

/-- The message that was put into the mailbox of a rank with a tag. -/
def postedTo (dest : Nat) (tag : Int) : Deed β → Option (Message β)
  | ⟨.post d t data, .ok _⟩ => if d = dest ∧ t = tag then some data else none
  | _ => none

/-- The message from a rank with a tag that was taken. -/
def takenFrom (source : Nat) (tag : Int) : Deed β → Option (Message β)
  | ⟨.take s t, .ok data⟩ => if s = source ∧ t = tag then some data else none
  | _ => none

/-- The failure in the answer. -/
def error : Deed β → Option CommError
  | ⟨.post .., .error e⟩ => some e
  | ⟨.take .., .error e⟩ => some e
  | _ => none

/-- The code of an abort. -/
def abortCode : Deed β → Option Int
  | ⟨.abort code, _⟩ => some code
  | _ => none

theorem eq_abort_of_abortCode {deed : Deed β} {code : Int} (h : deed.abortCode = some code) : deed = ⟨.abort code, ()⟩ := by
  obtain ⟨a, answer⟩ := deed
  cases a with
  | post | take => cases h
  | abort =>
    cases h
    rfl

end Deed

namespace Event

variable {log : List (Event α β)} {i j source dest : Nat} {tag : Int} {deed : Deed β} {call : Call α β}
  {trace : List (Deed β)} {rest : Program (Action.Answer : Action β → Type) call.Answer}

/-- What a rank did. -/
def deeds (log : List (Event α β)) (i : Nat) : List (Deed β) :=
  log.filterMap fun
    | .acted j deed => if j = i then some deed else none
    | .returned .. => none

/-- The calls of a rank that have returned. -/
def records (log : List (Event α β)) (i : Nat) : List (Record α β) :=
  log.filterMap fun
    | .acted .. => none
    | .returned j record => if j = i then some record else none

/-- The messages that a rank has put into the mailbox of another one, with a tag. -/
def enqueued (log : List (Event α β)) (source dest : Nat) (tag : Int) : List (Message β) :=
  (deeds log source).filterMap (Deed.postedTo dest tag)

/-- The messages from a rank that another one has taken, with a tag. -/
def taken (log : List (Event α β)) (source dest : Nat) (tag : Int) : List (Message β) :=
  (deeds log dest).filterMap (Deed.takenFrom source tag)

/-- Rank and code of the first abort. -/
def firstAbort (log : List (Event α β)) : Option (Nat × Int) :=
  log.findSome? fun
    | .acted i deed => deed.abortCode.map fun code => (i, code)
    | .returned .. => none

theorem deeds_acted : deeds (log ++ [.acted j deed]) i = deeds log i ++ if j = i then [deed] else [] := by
  rw [deeds, List.filterMap_append]
  by_cases h : j = i <;> simp [h, deeds]

theorem records_acted : records (log ++ [.acted j deed]) i = records log i := by
  rw [records, List.filterMap_append]
  simp [records]

theorem deeds_notes : deeds (log ++ Record.notes call trace j rest) i = deeds log i := by
  rw [deeds, List.filterMap_append]
  cases rest <;> simp [Record.notes, deeds]

theorem records_notes_of_ne (h : i ≠ j) : records (log ++ Record.notes call trace j rest) i = records log i := by
  rw [records, List.filterMap_append]
  cases rest <;> simp [Record.notes, records, Ne.symm h]

theorem records_notes_done {answer : call.Answer} :
    records (log ++ Record.notes call trace j (.done answer)) j = records log j ++ [⟨call, trace, answer⟩] := by
  rw [records, List.filterMap_append]
  simp [Record.notes, records]

theorem records_notes_call {a : Action β} {next : a.Answer → Program (Action.Answer : Action β → Type) call.Answer} :
    records (log ++ Record.notes call trace j (.call a next)) i = records log i :=
  congrArg (records · i) (List.append_nil log)

theorem enqueued_acted : enqueued (log ++ [.acted j deed]) source dest tag =
    enqueued log source dest tag ++ if j = source then (deed.postedTo dest tag).toList else [] := by
  rw [enqueued, deeds_acted, List.filterMap_append]
  by_cases h : j = source
  · cases hposted : deed.postedTo dest tag <;> simp [h, enqueued, hposted]
  · simp [h, enqueued]

theorem taken_acted : taken (log ++ [.acted j deed]) source dest tag =
    taken log source dest tag ++ if j = dest then (deed.takenFrom source tag).toList else [] := by
  rw [taken, deeds_acted, List.filterMap_append]
  by_cases h : j = dest
  · cases htaken : deed.takenFrom source tag <;> simp [h, taken, htaken]
  · simp [h, taken]

theorem enqueued_notes : enqueued (log ++ Record.notes call trace j rest) source dest tag = enqueued log source dest tag := by
  rw [enqueued, deeds_notes, enqueued]

theorem taken_notes : taken (log ++ Record.notes call trace j rest) source dest tag = taken log source dest tag := by
  rw [taken, deeds_notes, taken]

theorem firstAbort_acted : firstAbort (log ++ [.acted i deed]) =
    (firstAbort log).or (deed.abortCode.map fun code => (i, code)) := by
  rw [firstAbort, List.findSome?_append]
  simp [firstAbort]

theorem firstAbort_notes : firstAbort (log ++ Record.notes call trace j rest) = firstAbort log := by
  rw [firstAbort, List.findSome?_append]
  cases rest <;> simp [Record.notes, firstAbort]

theorem mem_deeds_iff : deed ∈ deeds log i ↔ .acted i deed ∈ log := by
  rw [deeds, List.mem_filterMap]
  constructor
  · rintro ⟨event, hevent, heq⟩
    cases event with
    | acted j deed' =>
      simp only [Option.ite_none_right_eq_some, Option.some.injEq] at heq
      obtain ⟨rfl, rfl⟩ := heq
      exact hevent
    | returned => cases heq
  · exact fun h => ⟨_, h, if_pos rfl⟩

/-- The first abort is what its rank did. -/
theorem mem_deeds_of_firstAbort {rank : Nat} {code : Int} (h : firstAbort log = some (rank, code)) :
    (⟨.abort code, ()⟩ : Deed β) ∈ deeds log rank := by
  obtain ⟨event, hevent, hcode⟩ := List.exists_of_findSome?_eq_some h
  rw [mem_deeds_iff]
  cases event with
  | returned => cases hcode
  | acted i deed =>
    obtain ⟨code', hdeed, heq⟩ := Option.map_eq_some_iff.1 hcode
    cases heq
    rwa [Deed.eq_abort_of_abortCode hdeed] at hevent

/-- Later aborts do not count. -/
theorem firstAbort_of_prefix {log' : List (Event α β)} {rank : Nat} {code : Int} (hlog : log <+: log')
    (h : firstAbort log = some (rank, code)) : firstAbort log' = some (rank, code) := by
  obtain ⟨later, rfl⟩ := hlog
  rw [firstAbort, List.findSome?_append, Option.or_eq_some_iff]
  exact .inl h

theorem mem_records_iff {record : Record α β} : record ∈ records log i ↔ .returned i record ∈ log := by
  rw [records, List.mem_filterMap]
  constructor
  · rintro ⟨event, hevent, heq⟩
    cases event with
    | acted => cases heq
    | returned j record' =>
      simp only [Option.ite_none_right_eq_some, Option.some.injEq] at heq
      obtain ⟨rfl, rfl⟩ := heq
      exact hevent
  · exact fun h => ⟨_, h, if_pos rfl⟩

/-- A longer log has no new beginnings but its own. -/
theorem prefix_notes {before : List (Event α β)} {event : Event α β}
    (h : before ++ [event] <+: log ++ Record.notes call trace j rest) :
    before ++ [event] <+: log ∨ before = log ∧ ∃ answer, event = .returned j ⟨call, trace, answer⟩ := by
  cases rest with
  | done answer =>
    rcases List.prefix_concat_iff.1 h with heq | hbefore
    · obtain ⟨rfl, hevent⟩ := List.append_inj' heq rfl
      exact .inr ⟨rfl, answer, List.singleton_inj.1 hevent⟩
    · exact .inl hbefore
  | call =>
    rw [Record.notes, List.append_nil] at h
    exact .inl h

end Event

/-! ## Single actions -/

/-- A message is refused because its receiver does not exist or the run has ended, or it is put into the mailbox. -/
theorem Mail.post_cases (m : Mail β) (e : Envelope β) :
    (m.size ≤ e.dest ∧ m.post e = (.error (.invalidRank e.dest m.size), m)) ∨
    (∃ error, m.endError = some error ∧ m.post e = (.error error, m)) ∨ m.ended = none ∧ m.post e = (.ok (), m.enqueue e) := by
  rw [post]
  split
  case isTrue invalid => exact .inl ⟨invalid, rfl⟩
  case isFalse =>
    cases hend : m.endError with
    | some error => exact .inr (.inl ⟨error, rfl, rfl⟩)
    | none => exact .inr (.inr ⟨Option.map_eq_none_iff.1 hend, rfl⟩)

namespace Mail.Does

variable {m m' : Mail β} {i : Nat} {cleared : Bool} {deed : Deed β}

/-- What a take does: it removes the oldest message, or fails in front of an empty mailbox. -/
theorem take_cases {source : Nat} {tag : Int} {answer : Except CommError (Message β)}
    (acted : m.act i (.take source tag) = some (answer, m')) :
    (∃ data rest, answer = .ok data ∧ m.channels.queue source i tag = data :: rest ∧
      m' = { m with envelopes := m.envelopes.eraseP (isFor source i tag) }) ∨
    ∃ error, answer = .error error ∧ m.channels.queue source i tag = [] ∧ m.endError = some error ∧ m' = m := by
  rw [act, pick_eq] at acted
  cases hqueue : m.channels.queue source i tag with
  | nil =>
    rw [hqueue] at acted
    obtain ⟨error, hend, heq⟩ := Option.map_eq_some_iff.1 acted
    cases heq
    exact .inr ⟨error, rfl, rfl, hend, rfl⟩
  | cons data rest =>
    rw [hqueue] at acted
    cases acted
    exact .inl ⟨data, rest, rfl, rfl, rfl⟩

theorem size_eq (h : m.Does i cleared deed m') : m'.size = m.size := by
  cases h with
  | refuse | enqueue | expire | abort => rfl
  | take acted =>
    rcases take_cases acted with ⟨_, _, _, _, rfl⟩ | ⟨_, _, _, _, rfl⟩
    · rfl
    · rfl

/-- What was waiting and is put in is what is taken and waits then. -/
theorem balance (h : m.Does i cleared deed m') (source dest : Nat) (tag : Int) :
    m.channels.queue source dest tag ++ (if i = source then (deed.postedTo dest tag).toList else []) =
      (if i = dest then (deed.takenFrom source tag).toList else []) ++ m'.channels.queue source dest tag := by
  cases h with
  | refuse | expire | abort => simp [Deed.postedTo, Deed.takenFrom, Mail.abort, channels]
  | @enqueue d t data =>
    rw [Mail.enqueue, channels_post]
    by_cases hchannel : source = i ∧ dest = d ∧ tag = t
    · obtain ⟨rfl, rfl, rfl⟩ := hchannel
      simp [Deed.postedTo, Deed.takenFrom]
    · rw [Channels.queue_set_of_ne _ _ hchannel]
      have hnone : (if i = source then (Deed.postedTo dest tag
          (⟨.post d t data, (.ok () : Except CommError Unit)⟩ : Deed β)).toList else []) = [] := by
        by_cases hsource : i = source
        · have hother : ¬ (d = dest ∧ t = tag) := fun hd => hchannel ⟨hsource.symm, hd.1.symm, hd.2.symm⟩
          simp [Deed.postedTo, hother]
        · rw [if_neg hsource]
      rw [hnone, List.append_nil]
      simp [Deed.takenFrom]
  | @take src t answer _ acted =>
    rcases take_cases acted with ⟨data, rest, rfl, hqueue, rfl⟩ | ⟨error, rfl, _, _, rfl⟩
    · rw [channels_erase, hqueue, List.tail_cons]
      by_cases hchannel : source = src ∧ dest = i ∧ tag = t
      · obtain ⟨rfl, rfl, rfl⟩ := hchannel
        simp [Deed.postedTo, Deed.takenFrom, hqueue]
      · rw [Channels.queue_set_of_ne _ _ hchannel]
        have hnone : (if i = dest then (Deed.takenFrom source tag
            (⟨.take src t, (.ok data : Except CommError (Message β))⟩ : Deed β)).toList else []) = [] := by
          by_cases hdest : i = dest
          · have hother : ¬ (src = source ∧ t = tag) := fun hs => hchannel ⟨hs.1.symm, hdest.symm, hs.2.symm⟩
            simp [Deed.takenFrom, hother]
          · rw [if_neg hdest]
        rw [hnone, List.nil_append]
        simp [Deed.postedTo]
    · simp [Deed.postedTo, Deed.takenFrom]

/-- The end of a run is noted once. -/
theorem ended_eq (h : m.Does i cleared deed m') :
    m'.ended = m.ended.or (deed.abortCode.map fun code => (i, code)) := by
  cases h with
  | refuse | enqueue | expire => simp [Deed.abortCode, Mail.enqueue]
  | take acted =>
    rcases take_cases acted with ⟨_, _, _, _, rfl⟩ | ⟨_, _, _, _, rfl⟩
    · simp [Deed.abortCode]
    · simp [Deed.abortCode]
  | abort =>
    rw [Mail.abort]
    cases m.ended <;> rfl

/-- A failed take stood in front of an empty mailbox. -/
theorem queue_eq_nil {source : Nat} {tag : Int} {error : CommError}
    (h : m.Does i cleared ⟨.take source tag, (.error error : Except CommError (Message β))⟩ m') :
    m.channels.queue source i tag = [] := by
  cases h with
  | take acted =>
    rcases take_cases acted with ⟨_, _, hok, _⟩ | ⟨_, _, hqueue, _⟩
    · cases hok
    · exact hqueue
  | expire waiting =>
    rw [pick_eq, Option.map_eq_none_iff, List.head?_eq_none_iff] at waiting
    exact waiting

/-- How an action can fail: the rank does not exist, the run has ended, or a message did not come. -/
theorem error_cases {error : CommError} (h : m.Does i cleared deed m') (herror : deed.error = some error) :
    (∃ dest tag data, deed.1 = .post dest tag data ∧ m.size ≤ dest ∧ error = .invalidRank dest m.size) ∨
    m.endError = some error ∨ ∃ source tag, deed.1 = .take source tag ∧ error = .timeout source tag := by
  cases h with
  | @refuse dest tag data error' refused =>
    obtain rfl : error' = error := Option.some.inj herror
    rcases m.post_cases ⟨i, dest, tag, data⟩ with ⟨invalid, heq⟩ | ⟨error'', hend, heq⟩ | ⟨_, heq⟩
    all_goals
      rw [heq] at refused
      cases refused
    · exact .inl ⟨dest, tag, data, rfl, invalid, rfl⟩
    · exact .inr (.inl hend)
  | enqueue | abort => cases herror
  | @take source tag answer _ acted =>
    rcases take_cases acted with ⟨_, _, rfl, _⟩ | ⟨error', rfl, _, hend, _⟩
    · cases herror
    · obtain rfl : error' = error := Option.some.inj herror
      exact .inr (.inl hend)
  | @expire source tag =>
    obtain rfl : CommError.timeout source tag = error := Option.some.inj herror
    exact .inr (.inr ⟨source, tag, rfl, rfl⟩)

end Mail.Does

end CurvePartition
