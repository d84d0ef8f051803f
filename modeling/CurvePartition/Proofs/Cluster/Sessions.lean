-- SUMMARY: Sessions: ranks that call whatever they like, one call after the other, with every order of their steps, and a log of all actions and of all calls that returned.
import Mathlib.Logic.Function.Basic
import CurvePartition.Cluster.Mail

/-!
# Sessions

A cluster runs programs that are given at the start, and posts a message in one step. In a *session* a rank that has returned
from a call may make any other one, and the mail is used in steps as small as those of mailboxes with locks of their own. To
post, a rank first finds that nobody has ended the run and is cleared then; only later it puts the message into the mailbox,
whatever happened in between. A rank that waits may lose patience also after the end of the run, if it has not noticed that.

Whatever a cluster does whose ranks run programs of calls happens in a session as well (`Session.exists_covers`).

The log tells what happened, oldest first: each action with its answer (`Event.acted`), and each call that returned, with its
trace, the actions that made it up (`Event.returned`). Nobody reads it. A session can be played by choosing what happens next
(`Session.play`), and only what may happen is played (`Session.reachable_of_play`).
-/

namespace CurvePartition

/-- An action with its answer. -/
abbrev Deed (β : Type) := Σ a : Action β, a.Answer

/-- A call that has returned. -/
structure Record (α β : Type) where
  call : Call α β
  /-- What the rank did in the call. -/
  trace : List (Deed β)
  answer : call.Answer

/-- What happens in a session. -/
inductive Event (α β : Type) where
  | acted (rank : Nat) (deed : Deed β)
  | returned (rank : Nat) (record : Record α β)

/-- What a rank is busy with. -/
inductive Activity (α β : Type) where
  | idle
  /-- A call, what the rank did in it so far, and what is left of it. A rank that posts is cleared once it has found that
  nobody ended the run. -/
  | within (call : Call α β) (trace : List (Deed β)) (cleared : Bool)
    (rest : Program (Action.Answer : Action β → Type) call.Answer)

/-- Ranks that use the mail. -/
structure Session (α β : Type) where
  mail : Mail β
  activity : Nat → Activity α β
  /-- What happened, oldest first. -/
  log : List (Event α β)

/-! ## Steps -/

namespace Mail

variable {β : Type}

/-- Put a message into the mailbox of its receiver. -/
def enqueue (m : Mail β) (e : Envelope β) : Mail β := { m with envelopes := m.envelopes ++ [e] }

/-- What a rank may do, and the mail after that. -/
inductive Does (m : Mail β) (i : Nat) : (cleared : Bool) → Deed β → Mail β → Prop where
  /-- A message is not accepted. -/
  | refuse {dest : Nat} {tag : Int} {data : Message β} {error : CommError}
    (refused : (m.post ⟨i, dest, tag, data⟩).1 = .error error) :
    Does m i false ⟨.post dest tag data, (.error error : Except CommError Unit)⟩ m
  /-- A rank that is cleared puts its message into the mailbox. -/
  | enqueue {dest : Nat} {tag : Int} {data : Message β} :
    Does m i true ⟨.post dest tag data, (.ok () : Except CommError Unit)⟩ (m.enqueue ⟨i, dest, tag, data⟩)
  | take {source : Nat} {tag : Int} {answer : Except CommError (Message β)} {m' : Mail β}
    (acted : m.act i (.take source tag) = some (answer, m')) : Does m i false ⟨.take source tag, answer⟩ m'
  /-- A rank stops waiting for a message that is not there. -/
  | expire {source : Nat} {tag : Int} (waiting : m.pick source i tag = none) :
    Does m i false ⟨.take source tag, (.error (.timeout source tag) : Except CommError (Message β))⟩ m
  | abort {code : Int} : Does m i false ⟨.abort code, ()⟩ (m.abort i code)

end Mail

/-- What a rank is busy with when some program of a call is left. -/
def Activity.after {α β : Type} (call : Call α β) (trace : List (Deed β)) :
    Program (Action.Answer : Action β → Type) call.Answer → Activity α β
  | .done _ => .idle
  | .call a next => .within call trace false (.call a next)

/-- A note if nothing of a call is left. -/
def Record.notes {α β : Type} (call : Call α β) (trace : List (Deed β)) (i : Nat) :
    Program (Action.Answer : Action β → Type) call.Answer → List (Event α β)
  | .done answer => [.returned i ⟨call, trace, answer⟩]
  | .call .. => []

namespace Session

variable {α β : Type} (s : Session α β)

/-- Nobody has called yet. -/
def start (size : Nat) : Session α β := ⟨.empty size, fun _ => .idle, []⟩

/-- A rank does something else. -/
def busy (i : Nat) (activity : Activity α β) : Session α β :=
  { s with activity := Function.update s.activity i activity }

/-- A rank has done something. -/
def note (i : Nat) (deed : Deed β) (mail : Mail β) : Session α β := { s with mail, log := s.log ++ [.acted i deed] }

/-- A rank goes on with what is left of a call. If nothing is left, it returns. -/
def goOn (i : Nat) (call : Call α β) (trace : List (Deed β)) (rest : Program (Action.Answer : Action β → Type) call.Answer) :
    Session α β :=
  { s.busy i (.after call trace rest) with log := s.log ++ Record.notes call trace i rest }

variable [Scalar α] [Wire α β]

/-- What may happen next. -/
inductive Move : Session α β → Session α β → Prop where
  /-- An idle rank calls. -/
  | begin {s : Session α β} {i : Nat} (call : Call α β) (rank : i < s.mail.size) (idle : s.activity i = .idle) :
    Move s (s.goOn i call [] (call.toActions ⟨i, s.mail.size⟩))
  /-- A rank that posts finds that it may. -/
  | clear {s : Session α β} {i : Nat} {call : Call α β} {trace : List (Deed β)} {dest : Nat} {tag : Int} {data : Message β}
    {next : Except CommError Unit → Program Action.Answer call.Answer}
    (posts : s.activity i = .within call trace false (.call (.post dest tag data) next))
    (allowed : (s.mail.post ⟨i, dest, tag, data⟩).1 = .ok ()) :
    Move s (s.busy i (.within call trace true (.call (.post dest tag data) next)))
  /-- A rank acts. -/
  | act {s : Session α β} {i : Nat} {call : Call α β} {trace : List (Deed β)} {cleared : Bool} {a : Action β}
    {next : a.Answer → Program Action.Answer call.Answer} {answer : a.Answer} {mail : Mail β}
    (acts : s.activity i = .within call trace cleared (.call a next)) (does : s.mail.Does i cleared ⟨a, answer⟩ mail) :
    Move s ((s.note i ⟨a, answer⟩ mail).goOn i call (trace ++ [⟨a, answer⟩]) (next answer))

/-- The sessions of some number of ranks. -/
inductive Reachable (size : Nat) : Session α β → Prop where
  | start : Reachable size (start size)
  | move {s s' : Session α β} (before : Reachable size s) (move : Move s s') : Reachable size s'

/-! ## Chosen steps -/

/-- Who goes on, and how. -/
inductive Choice (α β : Type) where
  | begin (rank : Nat) (call : Call α β)
  | act (rank : Nat)
  | expire (rank : Nat)

/-- The session after a chosen step, if that may happen. -/
def step? (s : Session α β) : Choice α β → Option (Session α β)
  | .begin i call =>
    match s.activity i with
    | .idle => if i < s.mail.size then some (s.goOn i call [] (call.toActions ⟨i, s.mail.size⟩)) else none
    | .within .. => none
  | .act i =>
    match s.activity i with
    | .within call trace true (.call (.post dest tag data) next) =>
      let deed : Deed β := ⟨.post dest tag data, (.ok () : Except CommError Unit)⟩
      some ((s.note i deed (s.mail.enqueue ⟨i, dest, tag, data⟩)).goOn i call (trace ++ [deed]) (next (.ok ())))
    | .within call trace false (.call (.post dest tag data) next) =>
      match (s.mail.post ⟨i, dest, tag, data⟩).1 with
      | .ok () => some (s.busy i (.within call trace true (.call (.post dest tag data) next)))
      | .error error =>
        let deed : Deed β := ⟨.post dest tag data, (.error error : Except CommError Unit)⟩
        some ((s.note i deed s.mail).goOn i call (trace ++ [deed]) (next (.error error)))
    | .within call trace false (.call (.take source tag) next) =>
      (s.mail.act i (.take source tag)).map fun (answer, mail) =>
        (s.note i ⟨.take source tag, answer⟩ mail).goOn i call (trace ++ [⟨.take source tag, answer⟩]) (next answer)
    | .within call trace false (.call (.abort code) next) =>
      some ((s.note i ⟨.abort code, ()⟩ (s.mail.abort i code)).goOn i call (trace ++ [⟨.abort code, ()⟩]) (next ()))
    | _ => none
  | .expire i =>
    match s.activity i with
    | .within call trace false (.call (.take source tag) next) =>
      match s.mail.pick source i tag with
      | none =>
        let deed : Deed β := ⟨.take source tag, (.error (.timeout source tag) : Except CommError (Message β))⟩
        some ((s.note i deed s.mail).goOn i call (trace ++ [deed]) (next (.error (.timeout source tag))))
      | some _ => none
    | _ => none

/-- The session after chosen steps, one after the other. -/
def play (s : Session α β) : List (Choice α β) → Option (Session α β)
  | [] => some s
  | choice :: rest => (s.step? choice).bind fun s' => s'.play rest

variable {s : Session α β} {s' : Session α β} {size : Nat}

theorem move_of_step? {choice : Choice α β} (h : s.step? choice = some s') : Move s s' := by
  cases choice with
  | begin i call =>
    simp only [step?] at h
    split at h
    case h_1 idle =>
      split at h
      · cases h
        exact .begin call ‹_› idle
      · cases h
    case h_2 => cases h
  | act i =>
    simp only [step?] at h
    split at h
    case h_1 posts =>
      cases h
      exact .act posts .enqueue
    case h_2 posts =>
      split at h
      case h_1 allowed =>
        cases h
        exact .clear posts allowed
      case h_2 refused =>
        cases h
        exact .act posts (.refuse refused)
    case h_3 takes =>
      obtain ⟨⟨answer, mail⟩, acted, rfl⟩ := Option.map_eq_some_iff.1 h
      exact .act takes (.take acted)
    case h_4 aborts =>
      cases h
      exact .act aborts .abort
    case h_5 => cases h
  | expire i =>
    simp only [step?] at h
    split at h
    case h_1 takes =>
      split at h
      case h_1 waiting =>
        cases h
        exact .act takes (.expire waiting)
      case h_2 => cases h
    case h_2 => cases h

/-- Only what may happen is played. -/
theorem reachable_of_play {choices : List (Choice α β)} (before : Reachable size s) (h : s.play choices = some s') :
    Reachable size s' := by
  induction choices generalizing s with
  | nil =>
    cases h
    exact before
  | cons choice rest ih =>
    obtain ⟨s'', hstep, hrest⟩ := Option.bind_eq_some_iff.1 h
    exact ih (before.move (move_of_step? hstep)) hrest

end Session

end CurvePartition
