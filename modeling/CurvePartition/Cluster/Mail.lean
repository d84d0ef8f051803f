-- SUMMARY: Mail between ranks: messages under way, the end of a run, and how each call of a rank becomes posting and taking of messages.
import CurvePartition.Cluster.Call

/-!
# Mail

The ranks of a cluster share the messages under way, in the order in which they were posted, and a note of who ended
the run. A rank posts a message at once and takes the oldest message for it from a given rank with a
given tag. When there is none, it has to wait until one is posted, the run ends, or its patience does.

`Call.toActions` builds the calls of a rank from these actions. A reduction posts the values to all
other ranks, takes theirs, and combines all contributions in the order of the ranks, so that every rank computes
the same result.
-/

namespace CurvePartition

/-- A message under way. -/
structure Envelope (β : Type) where
  source : Nat
  dest : Nat
  tag : Int
  data : Message β
  deriving Repr

/-- The mail of a cluster. -/
structure Mail (β : Type) where
  /-- Number of ranks. -/
  size : Nat
  /-- Messages under way, oldest first. -/
  envelopes : List (Envelope β)
  /-- Who ended the run, with what code. -/
  ended : Option (Nat × Int)
  deriving Repr

/-- What a rank does with the mail. -/
inductive Action (β : Type) where
  | post (dest : Nat) (tag : Int) (data : Message β)
  | take (source : Nat) (tag : Int)
  | abort (code : Int)

namespace Action

variable {β : Type}

/-- What an action answers. -/
def Answer : Action β → Type
  | post .. => Except CommError Unit
  | take .. => Except CommError (Message β)
  | abort _ => Unit

end Action

namespace Mail

variable {β : Type}

/-- No mail between `size` ranks. -/
def empty (size : Nat) : Mail β := ⟨size, [], none⟩

/-- Failure of a rank when the run has ended. -/
def endError (m : Mail β) : Option CommError := m.ended.map fun (rank, code) => .aborted rank code

/-- Post a message. -/
def post (m : Mail β) (e : Envelope β) : Except CommError Unit × Mail β :=
  if m.size ≤ e.dest then (.error (.invalidRank e.dest m.size), m)
  else match m.endError with
    | some error => (.error error, m)
    | none => (.ok (), { m with envelopes := m.envelopes ++ [e] })

/-- Whether an envelope goes from one rank to another with a tag. -/
def isFor (source dest : Nat) (tag : Int) (e : Envelope β) : Bool :=
  e.source = source && e.dest = dest && e.tag = tag

/-- The oldest message from `source` to `dest` with a tag, and the mail without it. -/
def pick (m : Mail β) (source dest : Nat) (tag : Int) : Option (Message β × Mail β) :=
  (m.envelopes.find? (isFor source dest tag)).map fun e =>
    (e.data, { m with envelopes := m.envelopes.eraseP (isFor source dest tag) })

/-- End the run, unless it has ended. -/
def abort (m : Mail β) (rank : Nat) (code : Int) : Mail β :=
  { m with ended := m.ended.orElse fun _ => some (rank, code) }

/-- Answer of an action of a rank, none if it has to wait. -/
def act (m : Mail β) (rank : Nat) : (a : Action β) → Option (a.Answer × Mail β)
  | .post dest tag data => some (m.post ⟨rank, dest, tag, data⟩)
  | .take source tag =>
    match m.pick source rank tag with
    | some (data, m') => some (.ok data, m')
    | none => m.endError.map fun error => (.error error, m)
  | .abort code => some ((), m.abort rank code)

end Mail

/-! ## Calls in terms of mail -/

/-- A program over mail that may fail. -/
abbrev Delivery (β : Type) := ExceptT CommError (Program (Action.Answer : Action β → Type))

namespace Delivery

variable {α β τ : Type}

/-- Tag of the messages of reductions. -/
def reductionTag : Int := -1

def post (dest : Nat) (tag : Int) (data : Message β) : Delivery β Unit :=
  ExceptT.mk (Program.perform (Action.post dest tag data))

def take (source : Nat) (tag : Int) : Delivery β (Message β) :=
  ExceptT.mk (Program.perform (Action.take source tag))

/-- Take a message of known length. A message of another length is taken and is a failure. -/
def takeSized (source : Nat) (tag : Int) (length : Nat) : Delivery β (Message β) := do
  let data ← take source tag
  if data.length = length then return data
  else throw (.sizeMismatch source tag length data.length)

/-- Combination of the contributions of all ranks, in their order. -/
def combineAll (combine : τ → τ → τ) : List (List τ) → List τ
  | [] => []
  | first :: rest => rest.foldl (List.zipWith combine) first

/-- Combine the values of all ranks, spelled with `Wire.wordWidth` symbols each. -/
def reduce (place : Place) (spell : τ → Message β) (read : Message β → τ) (combine : τ → τ → τ)
    (values : List τ) : Delivery β (List τ) := do
  if place.size = 1 then return values
  let message := values.flatMap spell
  place.peers.forM fun peer => post peer reductionTag message
  let contributions ← (List.range place.size).mapM fun source =>
    if source = place.rank then return values
    else do
      let data ← takeSized source reductionTag message.length
      return (Wire.chunks Wire.wordWidth values.length data).map read
  return combineAll combine contributions

end Delivery

/-- Actions that make up a call. -/
def Call.toActions {α β : Type} [Scalar α] [Wire α β] (place : Place) :
    (c : Call α β) → Program (Action.Answer : Action β → Type) c.Answer
  | .reduceWords op values =>
    (Delivery.reduce place (Wire.spellWord α Wire.wordWidth) (Wire.readWord α) op.words values).run
  | .reduceScalars op values =>
    (Delivery.reduce place (Wire.spellScalar (α := α)) Wire.readScalar op.scalars values).run
  | .expect source _ _ =>
    .done (if place.size ≤ source then .error (.invalidRank source place.size) else .ok ())
  | .send dest tag data => (Delivery.post dest tag data).run
  | .receive source tag length => (Delivery.takeSized source tag length).run
  | .finishSend .. => .done (.ok ())
  | .abort code => Program.perform (Action.abort code)

end CurvePartition
