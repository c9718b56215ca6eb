import Mpz.Core.Block
import Mpz.Lib.Method

/-!
# Correlated oblivious transfer

The sender queues keys, the receiver queues choices, and after both are flushed the receiver has of
each pair `k`, `k + Δ` the one of its choice. The two interfaces are what the rest of the library
uses, and the ideal functionality implements them.

## Main definitions

* `COTSender`, `COTReceiver` — the interfaces
* `IdealCOTSender`, `IdealCOTReceiver` — the ideal functionality
-/

namespace Mpz

/-- Correlated oblivious transfer sender. -/
class COTSender (C : Type) (E : outParam Type) where
  /-- Allocates COTs for preprocessing. -/
  alloc : ℕ → Method C E Unit
  /-- Queues sending of COTs, by the keys for the choice bit 0. -/
  queueSendCot : List Block → Method C E Unit

/-- Correlated oblivious transfer receiver, and its futures. -/
class COTReceiver (C : Type) (E F : outParam Type) where
  /-- Allocates COTs for preprocessing. -/
  alloc : ℕ → Method C E Unit
  /-- Queues receiving of COTs. -/
  queueRecvCot : List Bool → Method C E F
  /-- The messages of a future, once they are there. -/
  tryRecv : F → C → Outcome E (Option (List Block))

/-- Ideal COT error. -/
inductive IdealCOTError where
  /-- batch count mismatch -/
  | batchCount (sender receiver : ℕ)
  /-- count mismatch -/
  | count (sender receiver : ℕ)
  deriving DecidableEq, Repr

/-- Ideal COT sender. -/
structure IdealCOTSender where
  /-- Global correlation key. -/
  delta : Block
  /-- Queued key batches. -/
  batches : List (List Block)
  deriving DecidableEq, Repr

/-- Message sent from sender to receiver during flush. -/
structure FlushMsg where
  /-- Global correlation key. -/
  delta : Block
  /-- Queued key batches. -/
  batches : List (List Block)
  deriving DecidableEq, Repr

namespace IdealCOTSender

/-- Creates a new sender with the given delta. -/
def new (delta : Block) : IdealCOTSender := ⟨delta, []⟩

/-- Flushes pending operations, returning the message to send to the receiver. -/
def flush (self : IdealCOTSender) : Option FlushMsg × IdealCOTSender :=
  if self.batches = [] then (none, self)
  else (some ⟨self.delta, self.batches⟩, { self with batches := [] })

instance : COTSender IdealCOTSender IdealCOTError where
  alloc _ := pure ()
  queueSendCot keys := Method.modify fun self => { self with batches := self.batches ++ [keys] }

end IdealCOTSender

/-- Ideal COT receiver. A future is the number of its batch. -/
structure IdealCOTReceiver where
  /-- The number of the next batch. -/
  next : ℕ
  /-- Queued choice batches. -/
  batches : List (ℕ × List Bool)
  /-- The messages that were sent to futures. -/
  outputs : List (ℕ × List Block)
  deriving DecidableEq, Repr

namespace IdealCOTReceiver

/-- Creates a new receiver. -/
def new : IdealCOTReceiver := ⟨0, [], []⟩

/-- The loop over the batches of the sender and of the receiver. -/
def flushBatches (delta : Block) :
    List (List Block × ℕ × List Bool) → Method IdealCOTReceiver IdealCOTError Unit
  | [] => pure ()
  | (keys, future, choices) :: batches =>
    if keys.length ≠ choices.length then
      Method.throw (.count keys.length choices.length)
    else do
      let msgs := List.zipWith (fun key choice => if choice then key ^^^ delta else key)
        keys choices
      Method.modify fun self => { self with outputs := self.outputs ++ [(future, msgs)] }
      flushBatches delta batches

/-- Flushes pending operations using the message from the sender. -/
def flush (flushMsg : FlushMsg) : Method IdealCOTReceiver IdealCOTError Unit := do
  let self ← Method.get
  if flushMsg.batches.length ≠ self.batches.length then
    Method.throw (.batchCount flushMsg.batches.length self.batches.length)
  else do
    Method.modify fun self => { self with batches := [] }
    flushBatches flushMsg.delta (flushMsg.batches.zip self.batches)

instance : COTReceiver IdealCOTReceiver IdealCOTError ℕ where
  alloc _ := pure ()
  queueRecvCot choices := do
    let self ← Method.get
    Method.modify fun self =>
      { self with next := self.next + 1, batches := self.batches ++ [(self.next, choices)] }
    return self.next
  tryRecv future self :=
    .ok ((self.outputs.find? fun output => output.1 == future).map Prod.snd)

end IdealCOTReceiver

end Mpz
