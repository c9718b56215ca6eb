import Mpz.Core.Block
import Mpz.Lib.Requests
import Mpz.Lib.Method

/-!
# Random correlated oblivious transfer

The sender has random keys, and the receiver has random choices and of each pair `k`, `k + Δ` the
one of its choice. Both sides take as many as they ask for from what is available.

One side can be ahead of the other: it has taken outputs that the other side has yet to take. A
correct pair is one with a relation that says so, `CorrectRCOT.Rel ahead s r`, where the receiver is
ahead by the outputs `ahead`. The ideal functionality is one.

## Main definitions

* `RCOTSender`, `RCOTReceiver` — the interfaces
* `Correlated`, `CorrectRCOT` — what is expected of an implementation
* `Logged` — a receiver that remembers what was taken from it
* `IdealRCOTSender`, `IdealRCOTReceiver` — the ideal functionality

## Main results

* `IdealRCOT.correct` — the ideal functionality is correct
-/

namespace Mpz

/-- Output the sender receives from the random COT functionality. -/
structure RCOTSenderOutput where
  /-- Transfer id. -/
  id : ℕ
  /-- Random keys corresponding to the choice bit value 0. -/
  keys : List Block
  deriving DecidableEq, Repr

/-- Output the receiver receives from the random COT functionality. -/
structure RCOTReceiverOutput where
  /-- Transfer id. -/
  id : ℕ
  /-- Choice bits. -/
  choices : List Bool
  /-- Chosen messages. -/
  msgs : List Block
  deriving DecidableEq, Repr

/-- Random correlated oblivious transfer sender. -/
class RCOTSender (S : Type) (E : outParam Type) where
  /-- Allocates RCOTs for preprocessing. -/
  alloc : ℕ → Method S E Unit
  /-- The number of available RCOTs. -/
  available : S → ℕ
  /-- The global correlation key. -/
  delta : S → Block
  /-- Returns preprocessed RCOTs, if available. -/
  trySendRcot : ℕ → Method S E RCOTSenderOutput

/-- Random correlated oblivious transfer receiver. -/
class RCOTReceiver (R : Type) (E : outParam Type) where
  /-- Allocates RCOTs for preprocessing. -/
  alloc : ℕ → Method R E Unit
  /-- The number of available RCOTs. -/
  available : R → ℕ
  /-- Returns preprocessed RCOTs, if available. -/
  tryRecvRcot : ℕ → Method R E RCOTReceiverOutput

/-! ### Correctness -/

/-- The message of a choice. -/
def corrMsg (delta key : Block) (choice : Bool) : Block := if choice then key ^^^ delta else key

/-- `msg = key xor choice * Δ`, element by element. -/
structure Correlated (delta : Block) (keys : List Block) (choices : List Bool) (msgs : List Block) :
    Prop where
  length_eq : choices.length = keys.length
  msgs_eq : msgs = List.zipWith (corrMsg delta) keys choices

namespace Correlated

variable {delta : Block} {keys keys' msgs msgs' : List Block} {choices choices' : List Bool}

theorem nil : Correlated delta [] [] [] := ⟨rfl, rfl⟩

theorem length_msgs (h : Correlated delta keys choices msgs) : msgs.length = keys.length := by
  rw [h.msgs_eq, List.length_zipWith, h.length_eq, min_self]

theorem append (h : Correlated delta keys choices msgs)
    (h' : Correlated delta keys' choices' msgs') :
    Correlated delta (keys ++ keys') (choices ++ choices') (msgs ++ msgs') := by
  refine ⟨?_, ?_⟩
  · rw [List.length_append, List.length_append, h.length_eq, h'.length_eq]
  · rw [h.msgs_eq, h'.msgs_eq, List.zipWith_append h.length_eq.symm]

theorem take (h : Correlated delta keys choices msgs) (n : ℕ) :
    Correlated delta (keys.take n) (choices.take n) (msgs.take n) := by
  refine ⟨?_, ?_⟩
  · rw [List.length_take, List.length_take, h.length_eq]
  · rw [h.msgs_eq, List.take_zipWith]

theorem drop (h : Correlated delta keys choices msgs) (n : ℕ) :
    Correlated delta (keys.drop n) (choices.drop n) (msgs.drop n) := by
  refine ⟨?_, ?_⟩
  · rw [List.length_drop, List.length_drop, h.length_eq]
  · rw [h.msgs_eq, List.drop_zipWith]

end Correlated

/-- A sender and a receiver that work together. The receiver may be ahead by some outputs, and
`Refill` is what else can happen to the two where it is not. -/
structure CorrectRCOT (S R : Type) {E E' : Type} [RCOTSender S E] [RCOTReceiver R E']
    (delta : Block) (Refill : S × R → S × R → Prop) where
  /-- The receiver is ahead of the sender by these outputs. -/
  Rel : List RCOTReceiverOutput → S → R → Prop
  delta_eq : ∀ {ahead s r}, Rel ahead s r → RCOTSender.delta s = delta
  recv : ∀ {ahead s r n}, Rel ahead s r → n ≤ RCOTReceiver.available r →
    ∃ o r', RCOTReceiver.tryRecvRcot n r = (.ok o, r') ∧ o.choices.length = n ∧
      o.msgs.length = n ∧ RCOTReceiver.available r' = RCOTReceiver.available r - n ∧
      Rel (ahead ++ [o]) s r'
  send : ∀ {o ahead s r}, Rel (o :: ahead) s r →
    ∃ k s', RCOTSender.trySendRcot o.choices.length s = (.ok k, s') ∧ k.id = o.id ∧
      Correlated delta k.keys o.choices o.msgs ∧ Rel ahead s' r
  refill : ∀ {s r s' r'}, Rel [] s r → Refill (s, r) (s', r') → Rel [] s' r'

/-- A sender and a receiver that work together, with a flush that makes what was allocated. The
receiver may be ahead by some outputs, and `a` and `b` are allocated on the two sides but not
there. -/
structure AdditiveRCOT (S R : Type) {E E' : Type} [RCOTSender S E] [RCOTReceiver R E']
    (delta : Block) (flush : S × R → Option (S × R)) where
  /-- The receiver is ahead of the sender by these outputs, and this many are allocated. -/
  Rel : List RCOTReceiverOutput → ℕ → ℕ → S → R → Prop
  allocSender : ∀ {a b s r} (n : ℕ), Rel [] a b s r →
    ∃ s', RCOTSender.alloc n s = (.ok (), s') ∧ Rel [] (a + n) b s' r
  allocReceiver : ∀ {a b s r} (n : ℕ), Rel [] a b s r →
    ∃ r', RCOTReceiver.alloc n r = (.ok (), r') ∧ Rel [] a (b + n) s r'
  flush : ∀ {a s r}, Rel [] a a s r →
    ∃ s' r', flush (s, r) = some (s', r') ∧ a ≤ RCOTReceiver.available r' ∧ Rel [] 0 0 s' r'
  recv : ∀ {ahead s r n}, Rel ahead 0 0 s r → n ≤ RCOTReceiver.available r →
    ∃ o r', RCOTReceiver.tryRecvRcot n r = (.ok o, r') ∧ o.choices.length = n ∧
      o.msgs.length = n ∧ RCOTReceiver.available r' = RCOTReceiver.available r - n ∧
      Rel (ahead ++ [o]) 0 0 s r'
  send : ∀ {o ahead s r}, Rel (o :: ahead) 0 0 s r →
    ∃ k s', RCOTSender.trySendRcot o.choices.length s = (.ok k, s') ∧
      Correlated delta k.keys o.choices o.msgs ∧ Rel ahead 0 0 s' r

/-- A receiver, and what was taken from it. -/
structure Logged (R : Type) where
  /-- The receiver. -/
  rcot : R
  /-- What was taken, in order. -/
  drawn : List RCOTReceiverOutput

instance {R E : Type} [RCOTReceiver R E] : RCOTReceiver (Logged R) E where
  alloc count := Method.zoom Logged.rcot (fun s rcot => { s with rcot }) id
    (RCOTReceiver.alloc count)
  available s := RCOTReceiver.available s.rcot
  tryRecvRcot count := do
    let output ← Method.zoom Logged.rcot (fun s rcot => { s with rcot }) id
      (RCOTReceiver.tryRecvRcot count)
    Method.modify fun s => { s with drawn := s.drawn ++ [output] }
    return output

/-- What is taken from a correct receiver is logged. -/
theorem CorrectRCOT.recv_logged {S R E E' : Type} [RCOTSender S E] [RCOTReceiver R E']
    {delta : Block} {Refill : S × R → S × R → Prop} (c : CorrectRCOT S R delta Refill)
    {ahead : List RCOTReceiverOutput} {s : S} {r : Logged R} {n : ℕ} (h : c.Rel ahead s r.rcot)
    (hn : n ≤ RCOTReceiver.available r) :
    ∃ o r', RCOTReceiver.tryRecvRcot n r = (.ok o, r') ∧ o.choices.length = n ∧
      o.msgs.length = n ∧ RCOTReceiver.available r' = RCOTReceiver.available r - n ∧
      r'.drawn = r.drawn ++ [o] ∧ c.Rel (ahead ++ [o]) s r'.rcot := by
  obtain ⟨o, r', hrun, hchoices, hmsgs, havail, hrel⟩ := c.recv h hn
  refine ⟨o, ⟨r', r.drawn ++ [o]⟩, ?_, hchoices, hmsgs, havail, rfl, hrel⟩
  show (Method.zoom Logged.rcot (fun s rcot => { s with rcot }) id (RCOTReceiver.tryRecvRcot n) >>=
    _) r = _
  rw [Method.bind_apply_of_ok (Method.zoom_eq_ok.mpr ⟨r', hrun, rfl⟩)]
  rfl

/-! ### The ideal functionality -/

/-- Ideal RCOT error: not enough OTs, or a flush of another count. -/
inductive IdealRCOTError where
  /-- not enough OTs -/
  | notEnough (available requested : ℕ)
  /-- count mismatch -/
  | countMismatch (expected received : ℕ)
  deriving DecidableEq, Repr

namespace IdealRCOT

/-- Message sent from sender to receiver during flush. -/
structure FlushMsg where
  /-- Base seed for key generation. -/
  seed : Block
  /-- Offset into the key sequence. -/
  offset : ℕ
  /-- Number of OTs to generate. -/
  count : ℕ
  /-- Global correlation delta. -/
  delta : Block
  deriving DecidableEq, Repr

/-- Generate keys via simple counter addition. -/
def generateKeys (seed : Block) (offset count : ℕ) : List Block :=
  (List.range count).map fun i => seed + BitVec.ofNat 128 offset + BitVec.ofNat 128 i

end IdealRCOT

/-- Ideal RCOT sender. -/
structure IdealRCOTSender where
  /-- Global correlation delta. -/
  delta : Block
  /-- Base seed for key generation. -/
  seed : Block
  /-- Current offset into key sequence. -/
  offset : ℕ
  /-- Pending allocation count. -/
  pending : ℕ
  /-- Generated keys. -/
  keys : List Block
  /-- Queue for deferred output. -/
  queue : List Queued
  /-- The futures. -/
  futures : Futures RCOTSenderOutput
  /-- Transfer ID counter. -/
  transferId : ℕ
  deriving DecidableEq, Repr

namespace IdealRCOTSender

/-- Creates a new sender with the given seed and delta. -/
def new (seed delta : Block) : IdealRCOTSender := ⟨delta, seed, 0, 0, [], [], Futures.new, 0⟩

/-- Splits the keys of a transfer off. There have to be that many. -/
def splitOff (count : ℕ) : Method IdealRCOTSender IdealRCOTError RCOTSenderOutput := do
  let self ← Method.get
  if self.keys.length < count then Method.panic
  else do
    Method.modify fun self => { self with
      keys := self.keys.take (self.keys.length - count)
      transferId := self.transferId + 1 }
    return ⟨self.transferId, self.keys.drop (self.keys.length - count)⟩

/-- Returns preprocessed RCOTs, if available. -/
def trySendRcot (count : ℕ) : Method IdealRCOTSender IdealRCOTError RCOTSenderOutput := do
  let self ← Method.get
  if self.keys.length < count then Method.throw (.notEnough self.keys.length count)
  else splitOff count

/-- Queues RCOTs for sending. If enough keys are available, they are sent immediately. -/
def queueSendRcot (count : ℕ) : Method IdealRCOTSender IdealRCOTError ℕ := do
  let self ← Method.get
  Method.modify fun self => { self with futures := self.futures.newOutput }
  if count ≤ self.keys.length then do
    let output ← splitOff count
    Method.modify fun s => { s with futures := s.futures.send self.futures.next output }
    return self.futures.next
  else do
    Method.modify fun s => { s with queue := s.queue ++ [⟨count, self.futures.next⟩] }
    return self.futures.next

/-- Fulfill queued requests. -/
def fulfill : Method IdealRCOTSender IdealRCOTError Unit := do
  let self ← Method.get
  Method.modify fun s => { s with queue := [] }
  Method.forEach (fun q => do
    let output ← splitOff q.count
    Method.modify fun s => { s with futures := s.futures.send q.sender output }) self.queue

/-- Flushes pending operations, returning the message to send to the receiver. -/
def flush : Method IdealRCOTSender IdealRCOTError (Option IdealRCOT.FlushMsg) := do
  let self ← Method.get
  if self.pending = 0 ∧ self.queue = [] then return none
  else if 0 < self.pending then do
    Method.modify fun s => { s with
      keys := s.keys ++ IdealRCOT.generateKeys s.seed s.offset s.pending
      offset := s.offset + s.pending
      pending := 0 }
    fulfill
    return some ⟨self.seed, self.offset, self.pending, self.delta⟩
  else do
    fulfill
    return none

instance : RCOTSender IdealRCOTSender IdealRCOTError where
  alloc count := Method.modify fun self => { self with pending := self.pending + count }
  available self := self.keys.length
  delta self := self.delta
  trySendRcot := trySendRcot

end IdealRCOTSender

/-- Ideal RCOT receiver. -/
structure IdealRCOTReceiver where
  /-- The choices that are drawn from the generator. -/
  rng : ℕ → Bool
  /-- How many were drawn. -/
  drawn : ℕ
  /-- Pending allocation count. -/
  pending : ℕ
  /-- Received choice bits. -/
  choices : List Bool
  /-- Received messages. -/
  msgs : List Block
  /-- Queue for deferred output. -/
  queue : List Queued
  /-- The futures. -/
  futures : Futures RCOTReceiverOutput
  /-- Transfer ID counter. -/
  transferId : ℕ

namespace IdealRCOTReceiver

/-- Creates a new receiver. -/
def new (rng : ℕ → Bool) : IdealRCOTReceiver := ⟨rng, 0, 0, [], [], [], Futures.new, 0⟩

/-- Splits the OTs of a transfer off. There have to be that many. -/
def splitOff (count : ℕ) : Method IdealRCOTReceiver IdealRCOTError RCOTReceiverOutput := do
  let self ← Method.get
  if self.choices.length < count then Method.panic
  else if self.msgs.length < self.choices.length - count then Method.panic
  else do
    let len := self.choices.length
    Method.modify fun self => { self with
      choices := self.choices.take (len - count)
      msgs := self.msgs.take (len - count)
      transferId := self.transferId + 1 }
    return ⟨self.transferId, self.choices.drop (len - count), self.msgs.drop (len - count)⟩

/-- Returns preprocessed RCOTs, if available. -/
def tryRecvRcot (count : ℕ) : Method IdealRCOTReceiver IdealRCOTError RCOTReceiverOutput := do
  let self ← Method.get
  if self.choices.length < count then Method.throw (.notEnough self.choices.length count)
  else splitOff count

/-- Queues RCOTs for receiving. If enough are available, they are sent immediately. -/
def queueRecvRcot (count : ℕ) : Method IdealRCOTReceiver IdealRCOTError ℕ := do
  let self ← Method.get
  Method.modify fun self => { self with futures := self.futures.newOutput }
  if count ≤ self.choices.length then do
    let output ← splitOff count
    Method.modify fun s => { s with futures := s.futures.send self.futures.next output }
    return self.futures.next
  else do
    Method.modify fun s => { s with queue := s.queue ++ [⟨count, self.futures.next⟩] }
    return self.futures.next

/-- Fulfill queued requests. -/
def fulfill : Method IdealRCOTReceiver IdealRCOTError Unit := do
  let self ← Method.get
  Method.modify fun s => { s with queue := [] }
  Method.forEach (fun q => do
    let output ← splitOff q.count
    Method.modify fun s => { s with futures := s.futures.send q.sender output }) self.queue

/-- Flushes pending operations using the message from the sender. -/
def flush (flushMsg : IdealRCOT.FlushMsg) : Method IdealRCOTReceiver IdealRCOTError Unit := do
  let self ← Method.get
  if flushMsg.count ≠ self.pending then
    Method.throw (.countMismatch self.pending flushMsg.count)
  else do
    let keys := IdealRCOT.generateKeys flushMsg.seed flushMsg.offset flushMsg.count
    let choices := (List.range flushMsg.count).map fun i => self.rng (self.drawn + i)
    Method.modify fun s => { s with
      drawn := s.drawn + flushMsg.count
      choices := s.choices ++ choices
      msgs := s.msgs ++ keys.zipWith (corrMsg flushMsg.delta) choices
      pending := 0 }
    fulfill

instance : RCOTReceiver IdealRCOTReceiver IdealRCOTError where
  alloc count := Method.modify fun self => { self with pending := self.pending + count }
  available self := self.choices.length
  tryRecvRcot := tryRecvRcot

end IdealRCOTReceiver

namespace IdealRCOT

/-- Allocates for both sides, and passes the flush message of the sender to the receiver. -/
def Refill (count : ℕ) (p q : IdealRCOTSender × IdealRCOTReceiver) : Prop :=
  ∃ s r msg, RCOTSender.alloc count p.1 = (.ok (), s) ∧ RCOTReceiver.alloc count p.2 = (.ok (), r) ∧
    IdealRCOTSender.flush s = (.ok (some msg), q.1) ∧ IdealRCOTReceiver.flush msg r = (.ok (), q.2)

/-- The receiver is ahead of the sender: it has split off the last OTs of the sender already. -/
def Rel (delta : Block) : List RCOTReceiverOutput → IdealRCOTSender → IdealRCOTReceiver → Prop
  | [], s, r => s.delta = delta ∧ s.transferId = r.transferId ∧ s.queue = [] ∧ r.queue = [] ∧
      Correlated delta s.keys r.choices r.msgs
  | o :: ahead, s, r => o.id = s.transferId ∧ ∃ rest keys, s.keys = rest ++ keys ∧
      Correlated delta keys o.choices o.msgs ∧
      Rel delta ahead { s with keys := rest, transferId := s.transferId + 1 } r

variable {delta : Block} {r : IdealRCOTReceiver}

theorem Rel.delta_eq : ∀ {ahead : List RCOTReceiverOutput} {s : IdealRCOTSender},
    Rel delta ahead s r → s.delta = delta
  | [], _, h => h.1
  | _ :: _, _, ⟨_, _, _, _, _, h⟩ => by
    have := Rel.delta_eq h
    exact this

/-- What the receiver has is what the sender has below what it will take. -/
theorem Rel.correlated : ∀ {ahead : List RCOTReceiverOutput} {s : IdealRCOTSender},
    Rel delta ahead s r → ∃ keys, Correlated delta keys r.choices r.msgs
  | [], s, h => ⟨s.keys, h.2.2.2.2⟩
  | _ :: _, _, ⟨_, _, _, _, _, h⟩ => Rel.correlated h

/-- The last OTs that the receiver has. -/
def tailOutput (r : IdealRCOTReceiver) (n : ℕ) : RCOTReceiverOutput :=
  ⟨r.transferId, r.choices.drop (r.choices.length - n), r.msgs.drop (r.choices.length - n)⟩

/-- The receiver without its last OTs. -/
def withoutTail (r : IdealRCOTReceiver) (n : ℕ) : IdealRCOTReceiver :=
  { r with
    choices := r.choices.take (r.choices.length - n)
    msgs := r.msgs.take (r.choices.length - n)
    transferId := r.transferId + 1 }

theorem tryRecvRcot_eq {n : ℕ} (hn : n ≤ r.choices.length)
    (hlen : r.msgs.length = r.choices.length) :
    IdealRCOTReceiver.tryRecvRcot n r = (.ok (tailOutput r n), withoutTail r n) := by
  rw [IdealRCOTReceiver.tryRecvRcot, Method.get_bind, if_neg (not_lt.mpr hn),
    IdealRCOTReceiver.splitOff, Method.get_bind, if_neg (not_lt.mpr hn), if_neg]
  · rfl
  · rw [hlen]
    omega

/-- The receiver gets ahead by its last OTs. -/
theorem Rel.ahead_tail (n : ℕ) : ∀ {ahead : List RCOTReceiverOutput} {s : IdealRCOTSender},
    Rel delta ahead s r → Rel delta (ahead ++ [tailOutput r n]) s (withoutTail r n)
  | [], s, ⟨hdelta, hid, hs, hr, hcorr⟩ => by
    refine ⟨hid.symm, s.keys.take (r.choices.length - n), s.keys.drop (r.choices.length - n),
      (List.take_append_drop _ _).symm, hcorr.drop _, hdelta, ?_, hs, hr, hcorr.take _⟩
    show s.transferId + 1 = r.transferId + 1
    rw [hid]
  | _ :: _, _, ⟨hid, rest, keys, hkeys, hcorr, h⟩ =>
    ⟨hid, rest, keys, hkeys, hcorr, Rel.ahead_tail n h⟩

theorem Rel.recv {ahead : List RCOTReceiverOutput} {s : IdealRCOTSender} (h : Rel delta ahead s r)
    {n : ℕ} (hn : n ≤ r.choices.length) :
    ∃ o r', IdealRCOTReceiver.tryRecvRcot n r = (.ok o, r') ∧ o.choices.length = n ∧
      o.msgs.length = n ∧ r'.choices.length = r.choices.length - n ∧
      Rel delta (ahead ++ [o]) s r' := by
  obtain ⟨keys, hcorr⟩ := h.correlated
  have hlen : r.msgs.length = r.choices.length := by rw [hcorr.length_msgs, hcorr.length_eq]
  refine ⟨_, _, tryRecvRcot_eq hn hlen, ?_, ?_, ?_, h.ahead_tail n⟩
  · rw [tailOutput, List.length_drop, Nat.sub_sub_self hn]
  · rw [tailOutput, List.length_drop, hlen, Nat.sub_sub_self hn]
  · rw [withoutTail, List.length_take, min_eq_left (Nat.sub_le _ _)]

/-- The sender takes the OTs that the receiver is ahead by. -/
theorem Rel.send {o : RCOTReceiverOutput} {ahead : List RCOTReceiverOutput} {s : IdealRCOTSender}
    (h : Rel delta (o :: ahead) s r) :
    ∃ k s', IdealRCOTSender.trySendRcot o.choices.length s = (.ok k, s') ∧ k.id = o.id ∧
      Correlated delta k.keys o.choices o.msgs ∧ Rel delta ahead s' r := by
  obtain ⟨hid, rest, keys, hkeys, hcorr, h⟩ := h
  have hn : ¬ s.keys.length < o.choices.length := by
    rw [hkeys, List.length_append, hcorr.length_eq]
    omega
  have hsub : s.keys.length - o.choices.length = rest.length := by
    rw [hkeys, List.length_append, hcorr.length_eq, Nat.add_sub_cancel]
  refine ⟨⟨s.transferId, keys⟩, { s with keys := rest, transferId := s.transferId + 1 }, ?_,
    hid.symm, hcorr, h⟩
  rw [IdealRCOTSender.trySendRcot, Method.get_bind, if_neg hn, IdealRCOTSender.splitOff,
    Method.get_bind, if_neg hn, Method.modify_bind]
  show (Outcome.ok (⟨s.transferId, s.keys.drop (s.keys.length - o.choices.length)⟩ :
    RCOTSenderOutput), { s with
      keys := s.keys.take (s.keys.length - o.choices.length), transferId := s.transferId + 1 }) = _
  rw [hsub, hkeys, List.drop_left, List.take_left]

theorem length_generateKeys (seed : Block) (offset count : ℕ) :
    (generateKeys seed offset count).length = count := by
  rw [generateKeys, List.length_map, List.length_range]

theorem fulfill_sender {s : IdealRCOTSender} (hs : s.queue = []) :
    IdealRCOTSender.fulfill s = (.ok (), s) := by
  rw [IdealRCOTSender.fulfill, Method.get_bind, Method.modify_bind, hs]
  show (Outcome.ok (), { s with queue := [] }) = _
  rw [← hs]

theorem fulfill_receiver (hr : r.queue = []) :
    IdealRCOTReceiver.fulfill r = (.ok (), r) := by
  rw [IdealRCOTReceiver.fulfill, Method.get_bind, Method.modify_bind, hr]
  show (Outcome.ok (), { r with queue := [] }) = _
  rw [← hr]

theorem flush_sender {s : IdealRCOTSender} (hs : s.queue = []) : IdealRCOTSender.flush s =
    if s.pending = 0 then (.ok none, s)
    else (.ok (some ⟨s.seed, s.offset, s.pending, s.delta⟩), { s with
      keys := s.keys ++ generateKeys s.seed s.offset s.pending
      offset := s.offset + s.pending
      pending := 0 }) := by
  rw [IdealRCOTSender.flush, Method.get_bind]
  by_cases hp : s.pending = 0
  · rw [if_pos ⟨hp, hs⟩, if_pos hp]
    rfl
  · rw [if_neg fun h => hp h.1, if_pos (Nat.pos_of_ne_zero hp), Method.modify_bind,
      Method.bind_apply_of_ok, if_neg hp]
    · rfl
    · exact fulfill_sender hs

theorem flush_receiver (hr : r.queue = []) {msg : FlushMsg} (hmsg : msg.count = r.pending) :
    IdealRCOTReceiver.flush msg r = (.ok (), { r with
      drawn := r.drawn + msg.count
      choices := r.choices ++ (List.range msg.count).map fun i => r.rng (r.drawn + i)
      msgs := r.msgs ++ (generateKeys msg.seed msg.offset msg.count).zipWith (corrMsg msg.delta)
        ((List.range msg.count).map fun i => r.rng (r.drawn + i))
      pending := 0 }) := by
  rw [IdealRCOTReceiver.flush, Method.get_bind, if_neg (not_not.mpr hmsg), Method.modify_bind]
  exact fulfill_receiver hr

/-- A flush adds as many to both sides. -/
theorem Rel.refill {s s' : IdealRCOTSender} {r' : IdealRCOTReceiver} (h : Rel delta [] s r)
    {count : ℕ} (hr : Refill count (s, r) (s', r')) : Rel delta [] s' r' := by
  obtain ⟨s₁, r₁, msg, hs, hr, hsf, hrf⟩ := hr
  obtain ⟨hdelta, hid, hsq, hrq, hcorr⟩ := h
  cases hs
  cases hr
  rw [flush_sender (by exact hsq)] at hsf
  split at hsf
  next => cases hsf
  next =>
    cases hsf
    by_cases hcount : s.pending + count = r.pending + count
    · rw [flush_receiver (by exact hrq) (by exact hcount)] at hrf
      cases hrf
      refine ⟨hdelta, hid, hsq, hrq, hcorr.append ⟨?_, ?_⟩⟩
      · rw [List.length_map, List.length_range, length_generateKeys]
      · rw [← hdelta]
    · rw [IdealRCOTReceiver.flush, Method.get_bind, if_pos hcount] at hrf
      cases hrf

/-- The ideal functionality is correct. -/
def correct (delta : Block) : CorrectRCOT IdealRCOTSender IdealRCOTReceiver delta
    fun p q => ∃ count, Refill count p q where
  Rel := Rel delta
  delta_eq h := h.delta_eq
  recv h hn := h.recv hn
  send h := h.send
  refill h := fun ⟨_, hr⟩ => h.refill hr

/-- A flush of both sides: the message of the sender is passed to the receiver. -/
def flush (p : IdealRCOTSender × IdealRCOTReceiver) :
    Option (IdealRCOTSender × IdealRCOTReceiver) :=
  match IdealRCOTSender.flush p.1 with
  | (.ok none, s) => some (s, p.2)
  | (.ok (some msg), s) => match IdealRCOTReceiver.flush msg p.2 with
    | (.ok (), r) => some (s, r)
    | _ => none
  | _ => none

/-- Two sides that have allocated as many are flushed. -/
theorem Rel.flush {s : IdealRCOTSender} (h : Rel delta [] s r) (hpending : s.pending = r.pending) :
    ∃ s' r', IdealRCOT.flush (s, r) = some (s', r') ∧ s.pending ≤ r'.choices.length ∧
      Rel delta [] s' r' ∧ s'.pending = 0 ∧ r'.pending = 0 := by
  obtain ⟨hdelta, hid, hsq, hrq, hcorr⟩ := h
  by_cases hp : s.pending = 0
  · refine ⟨s, r, ?_, ?_, ⟨hdelta, hid, hsq, hrq, hcorr⟩, hp, hpending ▸ hp⟩
    · rw [IdealRCOT.flush, flush_sender hsq, if_pos hp]
    · rw [hp]
      exact Nat.zero_le _
  · have hs := flush_sender hsq
    have hr := @flush_receiver r hrq ⟨s.seed, s.offset, s.pending, s.delta⟩ hpending
    rw [if_neg hp] at hs
    refine ⟨{ s with
        keys := s.keys ++ generateKeys s.seed s.offset s.pending
        offset := s.offset + s.pending
        pending := 0 }, { r with
        drawn := r.drawn + s.pending
        choices := r.choices ++ (List.range s.pending).map fun i => r.rng (r.drawn + i)
        msgs := r.msgs ++ (generateKeys s.seed s.offset s.pending).zipWith (corrMsg s.delta)
          ((List.range s.pending).map fun i => r.rng (r.drawn + i))
        pending := 0 }, ?_, ?_, ⟨hdelta, hid, hsq, hrq, hcorr.append ⟨?_, ?_⟩⟩, rfl, rfl⟩
    · rw [IdealRCOT.flush, hs]
      show (match IdealRCOTReceiver.flush _ r with
        | (.ok (), r') => some (_, r')
        | _ => none) = _
      rw [hr]
    · rw [List.length_append, List.length_map, List.length_range]
      exact Nat.le_add_left _ _
    · rw [List.length_map, List.length_range, length_generateKeys]
    · rw [← hdelta]

/-- The ideal functionality is additive. -/
def additive (delta : Block) :
    AdditiveRCOT IdealRCOTSender IdealRCOTReceiver delta IdealRCOT.flush where
  Rel ahead a b s r := Rel delta ahead s r ∧ s.pending = a ∧ r.pending = b
  allocSender n h := ⟨_, rfl, h.1, congrArg (· + n) h.2.1, h.2.2⟩
  allocReceiver n h := ⟨_, rfl, h.1, h.2.1, congrArg (· + n) h.2.2⟩
  flush h := by
    obtain ⟨hrel, rfl, hb⟩ := h
    obtain ⟨s', r', hrun, hav, hrel', hs, hr⟩ := hrel.flush hb.symm
    exact ⟨s', r', hrun, hav, hrel', hs, hr⟩
  recv := by
    intro ahead s r n h hn
    obtain ⟨hrel, hs, hr⟩ := h
    obtain ⟨o, r', hrun, hchoices, hmsgs, hav, hrel'⟩ := hrel.recv hn
    refine ⟨o, r', hrun, hchoices, hmsgs, hav, hrel', hs, ?_⟩
    have hkeeps : Method.Keeps IdealRCOTReceiver.pending (IdealRCOTReceiver.tryRecvRcot n) :=
      .get_bind fun _ => .ite (.throw _) (.get_bind fun _ => .ite .panic (.ite .panic
        (.bind (fun _ => rfl) fun _ => .pure _)))
    exact (hkeeps.eq hrun).trans hr
  send := by
    intro o ahead s r h
    obtain ⟨hrel, hs, hr⟩ := h
    obtain ⟨k, s', hrun, -, hcorr, hrel'⟩ := hrel.send
    refine ⟨k, s', hrun, hcorr, hrel', ?_, hr⟩
    have hkeeps : Method.Keeps IdealRCOTSender.pending
        (IdealRCOTSender.trySendRcot o.choices.length) :=
      .get_bind fun _ => .ite (.throw _) (.get_bind fun _ => .ite .panic
        (.bind (fun _ => rfl) fun _ => .pure _))
    exact (hkeeps.eq hrun).trans hs

end IdealRCOT

end Mpz
