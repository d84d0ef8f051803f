-- SUMMARY: What a rank may ask of the ranks it works with: reductions over all ranks, messages to and from single ranks, and the end of the run.
import CurvePartition.Cluster.Program
import CurvePartition.Error.Basic
import CurvePartition.Wire

/-!
# Calls on a communicator

The decomposition needs few operations of a message passing system: element-wise reductions over all ranks,
point-to-point messages in three parts (prepare a receive, send, wait) and a way to end the run on all
ranks. Each may fail, except the last.

A rank knows its `Place`: its own number and how many ranks there are.
-/

namespace CurvePartition

/-- The place of a rank in a cluster. -/
structure Place where
  rank : Nat
  size : Nat
  deriving DecidableEq, Repr

/-- The other ranks in order. -/
def Place.peers (place : Place) : List Nat := (List.range place.size).filter (· ≠ place.rank)

/-- What a message is for. -/
inductive Purpose where
  | counts
  | redistribute
  | halos
  deriving DecidableEq, Repr

/-- Tag of the messages of a purpose. -/
def Purpose.tag : Purpose → Int
  | counts => 100
  | redistribute => 101
  | halos => 102

/-- An operator that combines the values of all ranks. -/
inductive Reduction where
  | sum
  | min
  | max
  deriving DecidableEq, Repr

namespace Reduction

/-- Combine two 64 bit words. A sum that does not fit is the largest word. -/
def words : Reduction → Nat → Nat → Nat
  | sum, a, b => Nat.min (a + b) (2 ^ 64 - 1)
  | min, a, b => Nat.min a b
  | max, a, b => Nat.max a b

/-- Combine two scalars. -/
def scalars {α : Type} [Scalar α] : Reduction → α → α → α
  | sum, a, b => a + b
  | min, a, b => Scalar.min a b
  | max, a, b => Scalar.max a b

end Reduction

/-- A call of a rank. -/
inductive Call (α β : Type) where
  /-- Combine words over all ranks, element by element. -/
  | reduceWords (op : Reduction) (values : List Nat)
  /-- Combine scalars over all ranks, element by element. -/
  | reduceScalars (op : Reduction) (values : List α)
  /-- Prepare to receive a message of known length. -/
  | expect (source : Nat) (tag : Int) (length : Nat)
  | send (dest : Nat) (tag : Int) (data : Message β)
  /-- Wait for a message that was expected. -/
  | receive (source : Nat) (tag : Int) (length : Nat)
  /-- Wait until a message is sent. -/
  | finishSend (dest : Nat) (tag : Int)
  /-- End the run on all ranks. -/
  | abort (code : Int)

namespace Call

/-- What a call answers. -/
def Answer {α β : Type} : Call α β → Type
  | reduceWords .. => Except CommError (List Nat)
  | reduceScalars .. => Except CommError (List α)
  | receive .. => Except CommError (Message β)
  | expect .. | send .. | finishSend .. => Except CommError Unit
  | abort _ => Unit

end Call

/-- A program of a rank that may fail to communicate. -/
abbrev Exchange (α β : Type) := ExceptT CommError (Program (Call.Answer : Call α β → Type))

namespace Exchange

variable {α β : Type}

/-- Combine words over all ranks. -/
def reduceWords (op : Reduction) (values : List Nat) : Exchange α β (List Nat) :=
  ExceptT.mk (Program.perform (Call.reduceWords op values))

/-- Combine scalars over all ranks. -/
def reduceScalars (op : Reduction) (values : List α) : Exchange α β (List α) :=
  ExceptT.mk (Program.perform (Call.reduceScalars op values))

/-- Combine one word over all ranks. -/
def reduceWord (op : Reduction) (value : Nat) : Exchange α β Nat := do
  return (← reduceWords op [value]).headD value

def expect (source : Nat) (tag : Int) (length : Nat) : Exchange α β Unit :=
  ExceptT.mk (Program.perform (Call.expect source tag length))

def send (dest : Nat) (tag : Int) (data : Message β) : Exchange α β Unit :=
  ExceptT.mk (Program.perform (Call.send dest tag data))

def receive (source : Nat) (tag : Int) (length : Nat) : Exchange α β (Message β) :=
  ExceptT.mk (Program.perform (Call.receive source tag length))

def finishSend (dest : Nat) (tag : Int) : Exchange α β Unit :=
  ExceptT.mk (Program.perform (Call.finishSend dest tag))

/-! ## Exchanges with several ranks -/

/-- Send some messages and receive others, which are the result, in the order of `incoming`. Every receive is
prepared before anything is sent. Empty messages are neither sent nor received. -/
def messages (tag : Int) (outgoing : List (Nat × Message β)) (incoming : List (Nat × Nat)) :
    Exchange α β (List (Message β)) := do
  let incomingFull := incoming.filter (0 < ·.2)
  let outgoingFull := outgoing.filter (!·.2.isEmpty)
  incomingFull.forM fun (source, length) => expect source tag length
  outgoingFull.forM fun (dest, data) => send dest tag data
  let received ← incoming.mapM fun (source, length) =>
    if 0 < length then receive source tag length else return []
  outgoingFull.forM fun (dest, _) => finishSend dest tag
  return received

/-- Send one word to each rank and receive one from each. The own word is kept. -/
def counts [Wire α β] (place : Place) (values : List Nat) : Exchange α β (List Nat) := do
  let outgoing := place.peers.map fun peer => (peer, Wire.spellWord α Wire.wordWidth (values.getD peer 0))
  let incoming := place.peers.map fun peer => (peer, Wire.wordWidth)
  let received ← messages Purpose.counts.tag outgoing incoming
  let words := received.map (Wire.readWord α)
  return words.take place.rank ++ [values.getD place.rank 0] ++ words.drop place.rank

end Exchange

end CurvePartition
