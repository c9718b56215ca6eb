import Mathlib.Algebra.Module.Basic
import Mpz.Core.Block
import Mpz.Lib.Method
import Mpz.Lib.Requests
import Mpz.Lib.Run

/-!
# The oblivious transfer of Chou and Orlandi

The sender has a public key `A = a • g`. For a choice the receiver sends `b • g`, or `A + b • g`,
and the sender derives one key for each of the two. The receiver knows the one of its choice,
`b • A`. The group is any commutative group that the scalars act on, and the hash of a point and a
tweak is any function.

The items of all requests lie one after the other, the messages at the sender and the choices at the
receiver, and the tweak of an item is its place. A round takes the choices that wait, then all
messages that wait, and then answers all requests that wait. So it is a good one where nothing was
queued in between, apart from requests about nothing, and `Act.Careful` says so.

## Main definitions

* `ChouOrlandi.Sender`, `ChouOrlandi.Receiver` — the two sides
* `ChouOrlandi.World`, `ChouOrlandi.Act` — the two sides and the messages between them
* `ChouOrlandi.Inv` — the invariant

## Main results

* `chou_orlandi_serves` — every request is answered by its own messages
* `short_output` — a request that is queued while a round is going on is answered by nothing
-/

namespace Mpz

namespace ChouOrlandi

/-- A message was sent for another number of OTs. -/
inductive Error where
  /-- count mismatch: expected, got -/
  | countMismatch (expected got : ℕ)
  deriving DecidableEq, Repr

/-- The message of a choice. -/
def select (msg : Block × Block) (choice : Bool) : Block := if choice then msg.2 else msg.1

/-- Output the receiver receives. -/
structure OTReceiverOutput where
  /-- Transfer id. -/
  id : ℕ
  /-- Chosen messages. -/
  msgs : List Block
  deriving DecidableEq, Repr

/-- The sender's state. -/
inductive SenderState (F G : Type) where
  /-- The sender's initial state: its private and its public key. -/
  | initialized (privateKey : F) (publicKey : G)
  /-- The sender's state after setup: besides, the next transfer id, and how many OTs have been
  performed. -/
  | setup (privateKey : F) (publicKey : G) (transferId counter : ℕ)
  deriving DecidableEq, Repr

/-- The sender. -/
structure Sender (F G : Type) where
  /-- The futures of the requests that wait. -/
  queue : List ℕ
  /-- The messages of the requests that wait. -/
  msgs : List (Block × Block)
  /-- The futures, which are sent transfer ids. -/
  futures : Futures ℕ
  /-- Current state. -/
  state : SenderState F G
  deriving DecidableEq, Repr

/-- The receiver's state. -/
inductive ReceiverState (F G : Type) where
  /-- The receiver's initial state. -/
  | initialized (rng : ℕ → F)
  /-- The receiver's state after setup: its generator and how many keys were drawn, the sender's
  public key, the next transfer id, how many decryption keys were computed, and the decryption key
  for each OT that is going on, with the choice bit. -/
  | setup (rng : ℕ → F) (drawn : ℕ) (base : G) (transferId counter : ℕ)
    (decryptionKeys : List (Bool × Block))

/-- The receiver. -/
structure Receiver (F G : Type) where
  /-- The requests that wait. -/
  queue : List Queued
  /-- The choices of the requests that wait. -/
  choices : List Bool
  /-- The futures. -/
  futures : Futures OTReceiverOutput
  /-- The current state of the protocol. -/
  state : ReceiverState F G

variable {F G : Type} [CommRing F] [AddCommGroup G] [Module F G] (g : G) (hash : G → ℕ → Block)

/-! ### The sender -/

namespace Sender

/-- Creates a new sender with a private key. -/
def new (privateKey : F) : Sender F G :=
  ⟨[], [], Futures.new, .initialized privateKey (privateKey • g)⟩

/-- Returns the setup message to be sent to the receiver. The method is there before setup only. -/
def setup : Method (Sender F G) Error G := do
  let self ← Method.get
  match self.state with
  | .initialized privateKey publicKey => do
    Method.modify fun s => { s with state := .setup privateKey publicKey 0 0 }
    return publicKey
  | .setup .. => Method.panic

/-- Queues messages. -/
def queueSendOt (msgs : List (Block × Block)) : Method (Sender F G) Error ℕ := do
  let self ← Method.get
  Method.modify fun s => { s with
    futures := s.futures.newOutput
    msgs := s.msgs ++ msgs
    queue := s.queue ++ [s.futures.next] }
  return self.futures.next

/-- Computes the encryption keys for the sender. -/
def computeEncryptionKeys (privateKey : F) (publicKey : G) (blindedChoices : List G)
    (offset : ℕ) : List (Block × Block) :=
  let ys := privateKey • publicKey
  (blindedChoices.zipIdx offset).map fun p =>
    let yr := privateKey • p.1
    (hash yr p.2, hash (yr - ys) p.2)

/-- Obliviously sends messages to the receiver. The method is there after setup only. -/
def send (blindedChoices : List G) : Method (Sender F G) Error (List (Block × Block)) := do
  let self ← Method.get
  match self.state with
  | .initialized .. => Method.panic
  | .setup privateKey publicKey transferId counter => do
    Method.modify fun s => { s with msgs := [] }
    if self.msgs.length ≠ blindedChoices.length then
      Method.throw (.countMismatch self.msgs.length blindedChoices.length)
    else do
      let keys := computeEncryptionKeys hash privateKey publicKey blindedChoices counter
      let payload := List.zipUpdate (fun key msg => (msg.1 ^^^ key.1, msg.2 ^^^ key.2)) keys
        self.msgs
      Method.modify fun s => { s with
        queue := []
        futures := { s.futures with sent := s.futures.sent ++ self.queue.zipIdx transferId }
        state := .setup privateKey publicKey (transferId + self.queue.length)
          (counter + self.msgs.length) }
      return payload

end Sender

/-! ### The receiver -/

namespace Receiver

/-- Creates a new receiver with a generator. -/
def new (rng : ℕ → F) : Receiver F G := ⟨[], [], Futures.new, .initialized rng⟩

/-- Sets up the receiver. The method is there before setup only. -/
def setup (publicKey : G) : Method (Receiver F G) Error Unit := do
  let self ← Method.get
  match self.state with
  | .initialized rng => Method.modify fun s => { s with state := .setup rng 0 publicKey 0 0 [] }
  | .setup .. => Method.panic

/-- Queues choices. -/
def queueRecvOt (choices : List Bool) : Method (Receiver F G) Error ℕ := do
  let self ← Method.get
  Method.modify fun s => { s with
    futures := s.futures.newOutput
    choices := s.choices ++ choices
    queue := s.queue ++ [⟨choices.length, s.futures.next⟩] }
  return self.futures.next

/-- Computes the blinded choices and the decryption keys for the receiver. -/
def computeDecryptionKeys (base : G) (privateKeys : List F) (choices : List Bool) (offset : ℕ) :
    List G × List (Bool × Block) :=
  let zero := (0 : F) • base
  let a := (1 : F) • base
  (((privateKeys.zip choices).zipIdx offset).map fun p =>
    (if p.1.2 then a + p.1.1 • g else zero + p.1.1 • g, p.1.2, hash (p.1.1 • base) p.2)).unzip

/-- The blinded choices to be sent to the sender. The method is there after setup only. -/
def choose : Method (Receiver F G) Error (List G) := do
  let self ← Method.get
  match self.state with
  | .initialized .. => Method.panic
  | .setup rng drawn base transferId counter decryptionKeys => do
    let privateKeys := (List.range self.choices.length).map fun i => rng (drawn + i)
    let (blindedChoices, newKeys) :=
      computeDecryptionKeys g hash base privateKeys self.choices counter
    Method.modify fun s => { s with
      choices := []
      state := .setup rng (drawn + self.choices.length) base transferId
        (counter + blindedChoices.length) (decryptionKeys ++ newKeys) }
    return blindedChoices

/-- The loop over the requests that wait: each one takes as many messages as it can. -/
def serve : List Queued → List Block → ℕ → Futures OTReceiverOutput → Futures OTReceiverOutput
  | [], _, _, futures => futures
  | q :: queue, msgs, id, futures =>
    serve queue (msgs.drop q.count) (id + 1) (futures.send q.sender ⟨id, msgs.take q.count⟩)

/-- Receives the encrypted payload from the sender. The method is there after setup only. -/
def receive (payload : List (Block × Block)) : Method (Receiver F G) Error Unit := do
  let self ← Method.get
  match self.state with
  | .initialized .. => Method.panic
  | .setup rng drawn base transferId counter decryptionKeys =>
    if payload.length ≠ decryptionKeys.length then
      Method.throw (.countMismatch decryptionKeys.length payload.length)
    else do
      let msgs := decryptionKeys.zipWith (fun key ct => key.2 ^^^ select ct key.1) payload
      Method.modify fun s => { s with
        queue := []
        futures := serve self.queue msgs transferId s.futures
        state := .setup rng drawn base (transferId + self.queue.length) counter [] }

/-- How many decryption keys were computed. -/
def counter (self : Receiver F G) : ℕ :=
  match self.state with
  | .initialized .. => 0
  | .setup _ _ _ _ counter _ => counter

end Receiver

/-- How many OTs have been performed. -/
def Sender.counter (self : Sender F G) : ℕ :=
  match self.state with
  | .initialized .. => 0
  | .setup _ _ _ counter => counter

/-! ### The two sides -/

/-- How far a round has come. -/
inductive Round (G : Type) where
  /-- There is none. -/
  | idle
  /-- The blinded choices were sent. -/
  | chosen (blindedChoices : List G)
  /-- The encrypted messages were sent. -/
  | sent (payload : List (Block × Block))

/-- The two sides, the messages between them, what was requested, and the tweaks that were used. -/
structure World (F G : Type) where
  /-- The sender. -/
  sender : Sender F G
  /-- The receiver. -/
  receiver : Receiver F G
  /-- The setup message, once it was sent. -/
  setup : Option G
  /-- The round. -/
  round : Round G
  /-- The messages of the requests of the sender. -/
  sends : List (List (Block × Block))
  /-- The choices of the requests of the receiver. -/
  recvs : List (List Bool)
  /-- The tweaks that the sender has used. -/
  sendTweaks : List ℕ
  /-- The tweaks that the receiver has used. -/
  recvTweaks : List ℕ

/-- At the start. -/
def World.new (privateKey : F) (rng : ℕ → F) : World F G :=
  ⟨.new g privateKey, .new rng, none, .idle, [], [], [], []⟩

/-- What can happen. -/
inductive Act where
  /-- The sender queues a request. -/
  | queueSend (msgs : List (Block × Block))
  /-- The receiver queues a request. -/
  | queueRecv (choices : List Bool)
  /-- The sender sends its public key. -/
  | offer
  /-- The receiver is given it. -/
  | accept
  /-- The receiver sends its blinded choices. -/
  | choose
  /-- The sender sends its encrypted messages. -/
  | send
  /-- The receiver is given them. -/
  | receive
  deriving DecidableEq, Repr

/-- The steps are delivered in the order of the protocol, and the requests of the two sides are the
same ones. -/
def Act.Enabled (w : World F G) : Act → Prop
  | queueSend msgs => ∀ choices ∈ w.recvs[w.sends.length]?, choices.length = msgs.length
  | queueRecv choices => ∀ msgs ∈ w.sends[w.recvs.length]?, choices.length = msgs.length
  | offer => w.setup = none
  | accept => w.setup ≠ none ∧ ∃ rng, w.receiver.state = .initialized rng
  | choose => w.round = .idle ∧ ∀ rng, w.receiver.state ≠ .initialized rng
  | send => ∃ blindedChoices, w.round = .chosen blindedChoices
  | receive => ∃ payload, w.round = .sent payload

/-- The messages that wait are those of the choices that were sent, and the requests that wait are
those that they are for. -/
def Act.Careful (w : World F G) : Act → Prop
  | send => ∀ blindedChoices, w.round = .chosen blindedChoices →
      w.sender.msgs.length = blindedChoices.length
  | receive => ∀ payload, w.round = .sent payload →
      (w.receiver.queue.map Queued.count).sum = payload.length
  | _ => True

/-- A call of the sender. -/
def onSender {α : Type} (m : Method (Sender F G) Error α) : Method (World F G) Error α :=
  Method.zoom World.sender (fun w sender => { w with sender }) id m

/-- A call of the receiver. -/
def onReceiver {α : Type} (m : Method (Receiver F G) Error α) : Method (World F G) Error α :=
  Method.zoom World.receiver (fun w receiver => { w with receiver }) id m

omit [CommRing F] [AddCommGroup G] [Module F G] in
theorem onSender_ok {α : Type} {m : Method (Sender F G) Error α} {w : World F G} {x : α}
    {s : Sender F G} (h : m w.sender = (.ok x, s)) : onSender m w =
      (.ok x, { w with sender := s }) :=
  Method.zoom_eq_ok.mpr ⟨s, h, rfl⟩

omit [CommRing F] [AddCommGroup G] [Module F G] in
theorem onReceiver_ok {α : Type} {m : Method (Receiver F G) Error α} {w : World F G} {x : α}
    {r : Receiver F G} (h : m w.receiver = (.ok x, r)) :
    onReceiver m w = (.ok x, { w with receiver := r }) := Method.zoom_eq_ok.mpr ⟨r, h, rfl⟩

/-- What it does. A round whose step fails is over. -/
def Act.run : Act → Method (World F G) Error Unit
  | queueSend msgs => do
    let _ ← onSender (Sender.queueSendOt msgs)
    Method.modify fun w => { w with sends := w.sends ++ [msgs] }
  | queueRecv choices => do
    let _ ← onReceiver (Receiver.queueRecvOt choices)
    Method.modify fun w => { w with recvs := w.recvs ++ [choices] }
  | offer => do
    let publicKey ← onSender Sender.setup
    Method.modify fun w => { w with setup := some publicKey }
  | accept => do
    let w ← Method.get
    match w.setup with
    | some publicKey => onReceiver (Receiver.setup publicKey)
    | none => return
  | choose => do
    let w ← Method.get
    let blindedChoices ← onReceiver (Receiver.choose g hash)
    Method.modify fun w' => { w' with
      round := .chosen blindedChoices
      recvTweaks := w'.recvTweaks ++ List.range' w.receiver.counter blindedChoices.length }
  | send => do
    let w ← Method.get
    Method.modify fun w => { w with round := .idle }
    match w.round with
    | .chosen blindedChoices => do
      let payload ← onSender (Sender.send hash blindedChoices)
      Method.modify fun w' => { w' with
        round := .sent payload
        sendTweaks := w'.sendTweaks ++ List.range' w.sender.counter blindedChoices.length }
    | _ => return
  | receive => do
    let w ← Method.get
    Method.modify fun w => { w with round := .idle }
    match w.round with
    | .sent payload => onReceiver (Receiver.receive payload)
    | _ => return

/-- A step. -/
def Step (w : World F G) (a : Act) (w' : World F G) : Prop :=
  a.Enabled w ∧ (a.run g hash).Returns w w'

/-- A careful step. -/
def CarefulStep (w : World F G) (a : Act) (w' : World F G) : Prop :=
  a.Careful w ∧ Step g hash w a w'

/-- Whether the receiver was set up. -/
def Receiver.isSetup (self : Receiver F G) : Bool :=
  match self.state with
  | .initialized _ => false
  | .setup .. => true

/-- Whether it can happen. -/
def Act.isEnabled (w : World F G) (a : Act) : Bool :=
  match a, w.round with
  | queueSend msgs, _ => w.recvs[w.sends.length]?.all fun choices => choices.length == msgs.length
  | queueRecv choices, _ => w.sends[w.recvs.length]?.all fun msgs => choices.length == msgs.length
  | offer, _ => w.setup.isNone
  | accept, _ => w.setup.isSome && !w.receiver.isSetup
  | choose, .idle => w.receiver.isSetup
  | send, .chosen _ => true
  | receive, .sent _ => true
  | _, _ => false

/-- Whether it is careful. -/
def Act.isCareful (w : World F G) (a : Act) : Bool :=
  match a, w.round with
  | send, .chosen blindedChoices => w.sender.msgs.length == blindedChoices.length
  | receive, .sent payload => (w.receiver.queue.map Queued.count).sum == payload.length
  | _, _ => true

section

omit [CommRing F] [AddCommGroup G] [Module F G]

theorem Receiver.isSetup_eq_true {self : Receiver F G} :
    self.isSetup = true ↔ ∀ rng, self.state ≠ .initialized rng := by
  rw [isSetup]
  cases hstate : self.state with
  | initialized rng => simp
  | setup => simp

theorem Receiver.isSetup_eq_false {self : Receiver F G} :
    self.isSetup = false ↔ ∃ rng, self.state = .initialized rng := by
  rw [isSetup]
  cases hstate : self.state with
  | initialized rng => simp
  | setup => simp

theorem Act.enabled_of_isEnabled {w : World F G} {a : Act} (h : a.isEnabled w) : a.Enabled w := by
  unfold isEnabled at h
  split at h
  next => simpa [Enabled, Option.all_eq_true] using h
  next => simpa [Enabled, Option.all_eq_true] using h
  next => exact Option.isNone_iff_eq_none.mp h
  next =>
    rw [Bool.and_eq_true, Bool.not_eq_true', Receiver.isSetup_eq_false] at h
    exact ⟨Option.isSome_iff_ne_none.mp h.1, h.2⟩
  next hround => exact ⟨hround, Receiver.isSetup_eq_true.mp h⟩
  next hround => exact ⟨_, hround⟩
  next hround => exact ⟨_, hround⟩
  next => cases h

theorem Act.careful_of_isCareful {w : World F G} {a : Act} (h : a.isCareful w) : a.Careful w := by
  cases a with
  | send =>
    intro blindedChoices hround
    unfold isCareful at h
    rw [hround] at h
    exact beq_iff_eq.mp h
  | receive =>
    intro payload hround
    unfold isCareful at h
    rw [hround] at h
    exact beq_iff_eq.mp h
  | _ => trivial

end

/-- The state behind a step. -/
def next (w : World F G) (a : Act) : Option (World F G) :=
  if a.isEnabled w then (a.run g hash).returned w else none

/-- The state behind a careful step. -/
def carefulNext (w : World F G) (a : Act) : Option (World F G) :=
  if a.isCareful w then next g hash w a else none

theorem step_of_next (w : World F G) (a : Act) (w' : World F G) (h : next g hash w a = some w') :
    Step g hash w a w' := by
  rw [next] at h
  split at h
  next hen => exact ⟨Act.enabled_of_isEnabled hen, .of_returned h⟩
  next => cases h

theorem carefulStep_of_next (w : World F G) (a : Act) (w' : World F G)
    (h : carefulNext g hash w a = some w') : CarefulStep g hash w a w' := by
  rw [carefulNext] at h
  split at h
  next hcare => exact ⟨Act.careful_of_isCareful hcare, step_of_next g hash w a w' h⟩
  next => cases h

/-! ### One OT -/

/-- The blinded choice of a private key. -/
def blind (A : G) (b : F) (c : Bool) : G :=
  if c then (1 : F) • A + b • g else (0 : F) • A + b • g

/-- The receiver knows the key of its choice. -/
theorem key_eq (a b : F) (c : Bool) (t : ℕ) : hash (b • a • g) t =
    select (hash (a • blind g (a • g) b c) t, hash (a • blind g (a • g) b c - a • a • g) t) c := by
  cases c
  · show _ = hash (a • ((0 : F) • a • g + b • g)) t
    rw [zero_smul, zero_add, smul_comm]
  · show _ = hash (a • ((1 : F) • a • g + b • g) - a • a • g) t
    rw [one_smul, smul_add, add_sub_cancel_left, smul_comm]

/-- So it can decrypt the message of its choice. -/
theorem decrypt_eq (a b : F) (c : Bool) (t : ℕ) (msg : Block × Block) :
    hash (b • a • g) t ^^^ select
      (msg.1 ^^^ hash (a • blind g (a • g) b c) t,
        msg.2 ^^^ hash (a • blind g (a • g) b c - a • a • g) t) c = select msg c := by
  have hxor : ∀ x y : Block, x ^^^ (y ^^^ x) = y := fun x y => by
    rw [BitVec.xor_comm y x, ← BitVec.xor_assoc, BitVec.xor_self, BitVec.zero_xor]
  rw [key_eq g hash a b c t]
  cases c
  · exact hxor _ _
  · exact hxor _ _

theorem length_encryptionKeys (a : F) (A : G) (blindedChoices : List G) (offset : ℕ) :
    (Sender.computeEncryptionKeys hash a A blindedChoices offset).length =
      blindedChoices.length := by
  rw [Sender.computeEncryptionKeys, List.length_map, List.length_zipIdx]

section

variable {g hash} {a : F} {bs : List F} {choices : List Bool} {msgs : List (Block × Block)}
  {offset : ℕ}

theorem length_blinded (hb : bs.length = choices.length) :
    (Receiver.computeDecryptionKeys g hash (a • g) bs choices offset).1.length =
      choices.length := by
  rw [Receiver.computeDecryptionKeys, List.unzip_fst, List.length_map, List.length_map,
    List.length_zipIdx, List.length_zip, hb, min_self]

theorem length_decryptionKeys (hb : bs.length = choices.length) :
    (Receiver.computeDecryptionKeys g hash (a • g) bs choices offset).2.length =
      choices.length := by
  rw [Receiver.computeDecryptionKeys, List.unzip_snd, List.length_map, List.length_map,
    List.length_zipIdx, List.length_zip, hb, min_self]

/-- **The messages of a round are those of the choices.** -/
theorem decrypted (hb : bs.length = choices.length) (hm : msgs.length = choices.length) :
    (Receiver.computeDecryptionKeys g hash (a • g) bs choices offset).2.zipWith
      (fun key ct => key.2 ^^^ select ct key.1)
      (List.zipUpdate (fun key msg => (msg.1 ^^^ key.1, msg.2 ^^^ key.2))
        (Sender.computeEncryptionKeys hash a (a • g)
          (Receiver.computeDecryptionKeys g hash (a • g) bs choices offset).1 offset) msgs) =
      msgs.zipWith select choices := by
  rw [List.zipUpdate_eq _ (by rw [length_encryptionKeys, length_blinded hb, hm])]
  refine List.ext_getElem ?_ fun i hi hi' => ?_
  · rw [List.length_zipWith, List.length_zipWith, List.length_zipWith, length_encryptionKeys,
      length_blinded hb, length_decryptionKeys hb, hm, min_self, min_self]
  · simp only [List.getElem_zipWith, Receiver.computeDecryptionKeys, List.unzip_fst, List.unzip_snd,
      List.getElem_map, Sender.computeEncryptionKeys, List.getElem_zipIdx, List.getElem_zip]
    exact decrypt_eq g hash _ _ _ _ _

end

theorem choose_eq (r : Receiver F G) {rng : ℕ → F} {drawn : ℕ} {base : G} {transferId counter : ℕ}
    {keys : List (Bool × Block)} (hr : r.state = .setup rng drawn base transferId counter keys) :
    ∃ (bs : List F) (p : List G × List (Bool × Block)), bs.length = r.choices.length ∧
      p = Receiver.computeDecryptionKeys g hash base bs r.choices counter ∧
      Receiver.choose g hash r = (.ok p.1, { r with
        choices := []
        state := .setup rng (drawn + r.choices.length) base transferId (counter + p.1.length)
          (keys ++ p.2) }) := by
  refine ⟨(List.range r.choices.length).map fun i => rng (drawn + i), _, ?_, rfl, ?_⟩
  · rw [List.length_map, List.length_range]
  · rw [Receiver.choose, Method.get_bind, hr]
    rfl

theorem send_eq (s : Sender F G) {a : F} {A : G} {transferId counter : ℕ} {blindedChoices : List G}
    (hs : s.state = .setup a A transferId counter) (hlen : s.msgs.length = blindedChoices.length) :
    ∃ payload, payload = List.zipUpdate (fun key msg => (msg.1 ^^^ key.1, msg.2 ^^^ key.2))
        (Sender.computeEncryptionKeys hash a A blindedChoices counter) s.msgs ∧
      Sender.send hash blindedChoices s = (.ok payload, { s with
        msgs := []
        queue := []
        futures := { s.futures with sent := s.futures.sent ++ s.queue.zipIdx transferId }
        state := .setup a A (transferId + s.queue.length) (counter + s.msgs.length) }) := by
  refine ⟨_, rfl, ?_⟩
  rw [Sender.send, Method.get_bind, hs]
  show (if s.msgs.length ≠ blindedChoices.length then _ else _ : Method (Sender F G) Error _) _ = _
  rw [if_neg (not_not.mpr hlen)]
  rfl

omit [CommRing F] [AddCommGroup G] [Module F G] in
theorem receive_eq (r : Receiver F G) {rng : ℕ → F} {drawn : ℕ} {base : G} {transferId counter : ℕ}
    {keys : List (Bool × Block)} (hr : r.state = .setup rng drawn base transferId counter keys)
    {payload : List (Block × Block)} (hlen : payload.length = keys.length) :
    Receiver.receive payload r = (.ok (), { r with
      queue := []
      futures := Receiver.serve r.queue
        (keys.zipWith (fun key ct => key.2 ^^^ select ct key.1) payload) transferId r.futures
      state := .setup rng drawn base (transferId + r.queue.length) counter [] }) := by
  rw [Receiver.receive, Method.get_bind, hr]
  show (if payload.length ≠ keys.length then _ else _ : Method (Receiver F G) Error _) _ = _
  rw [if_neg (not_not.mpr hlen)]
  rfl

/-! ### The requests -/

/-- The first messages that the receiver is to be given. -/
def delivered (sends : List (List (Block × Block))) (recvs : List (List Bool)) (n : ℕ) :
    List Block :=
  (sends.flatten.take n).zipWith select (recvs.flatten.take n)

/-- The answers of the first requests: their numbers, and their messages. -/
def answers (sends : List (List (Block × Block))) (recvs : List (List Bool)) (k : ℕ) :
    List OTReceiverOutput :=
  (List.range k).zipWith OTReceiverOutput.mk (((recvs.take k).map List.length).splitLengths
    (delivered sends recvs (recvs.take k).flatten.length))

theorem serve_eq (queue : List Queued) (msgs : List Block) (id : ℕ)
    (futures : Futures OTReceiverOutput) : Receiver.serve queue msgs id futures =
      futures.answer queue ((List.range' id queue.length).zipWith OTReceiverOutput.mk
        ((queue.map Queued.count).splitLengths msgs)) := by
  induction queue generalizing msgs id futures with
  | nil => rw [Futures.answer_nil]; rfl
  | cons q queue ih =>
    rw [Receiver.serve, ih, List.length_cons, List.range'_succ, List.map_cons,
      List.splitLengths_cons, List.zipWith_cons_cons, Futures.answer_cons]

/-- The messages of a request are where its choices are. A request that the sender has not made is
about nothing. -/
theorem splitLengths_of_mirrored {sends : List (List (Block × Block))} {recvs : List (List Bool)}
    (h : Mirrored sends recvs) (hle : recvs.flatten.length ≤ sends.flatten.length) :
    (recvs.map List.length).splitLengths (sends.flatten.take recvs.flatten.length) =
      (List.range recvs.length).map fun k => sends.getD k [] := by
  induction recvs generalizing sends with
  | nil => rfl
  | cons choices recvs ih =>
    have htail : Mirrored sends.tail recvs := by
      intro k msgs choices' hm hc
      rw [List.getElem?_tail] at hm
      exact h (k + 1) msgs choices' hm hc
    have hhead : sends.flatten.take choices.length = sends.getD 0 [] ∧
        sends.flatten.drop choices.length = sends.tail.flatten := by
      cases sends with
      | nil => exact ⟨List.take_nil, List.drop_nil⟩
      | cons msgs sends =>
        have hlen := h 0 msgs choices rfl rfl
        exact ⟨List.take_left' hlen, List.drop_left' hlen⟩
    rw [List.flatten_cons, List.length_append] at hle ⊢
    have hle' : recvs.flatten.length ≤ sends.tail.flatten.length := by
      rw [← hhead.2, List.length_drop]
      omega
    rw [List.map_cons, List.splitLengths_cons, List.take_take, min_eq_left (Nat.le_add_right _ _),
      List.drop_take, Nat.add_sub_cancel_left, hhead.1, hhead.2, ih htail hle', List.length_cons,
      List.range_succ_eq_map, List.map_cons, List.map_map]
    congr 2
    funext k
    cases sends <;> rfl

/-- A request of choices has as many messages. -/
theorem length_getD_of_mirrored {sends : List (List (Block × Block))} {recvs : List (List Bool)}
    (h : Mirrored sends recvs) (hle : recvs.flatten.length ≤ sends.flatten.length) {k : ℕ}
    {choices : List Bool} (hk : recvs[k]? = some choices) :
    (sends.getD k []).length = choices.length := by
  have hlens := congrArg (List.map List.length) (splitLengths_of_mirrored h hle)
  rw [List.map_splitLengths_length, List.map_map] at hlens
  · have hlt := (List.getElem?_eq_some_iff.mp hk).1
    have := congrArg (·[k]?) hlens
    simp only [List.getElem?_map, hk, List.getElem?_range hlt, Option.map_some, Option.some.injEq]
      at this
    exact this.symm
  · rw [List.length_take, min_eq_left hle, List.length_flatten]

/-- An answer has the messages of its choices. -/
theorem getElem?_answers {sends : List (List (Block × Block))} {recvs : List (List Bool)} {n : ℕ}
    (h : Mirrored sends recvs) (hle : (recvs.take n).flatten.length ≤ sends.flatten.length) {k : ℕ}
    {o : OTReceiverOutput} (hk : (answers sends recvs n)[k]? = some o) :
    ∃ choices, recvs[k]? = some choices ∧ o.id = k ∧ o.msgs.length = choices.length ∧
      o.msgs = (sends.getD k []).zipWith select choices := by
  rw [answers, delivered, List.take_flatten_take, List.splitLengths_zipWith,
    splitLengths_of_mirrored (h.take n) hle, List.splitLengths_flatten,
    List.getElem?_zipWith_eq_some] at hk
  obtain ⟨id, msgs, hid, hmsgs, rfl⟩ := hk
  rw [List.getElem?_zipWith_eq_some] at hmsgs
  obtain ⟨sent, choices, hsent, hchoices, rfl⟩ := hmsgs
  have hlt := (List.getElem?_eq_some_iff.mp hchoices).1
  have hlen := length_getD_of_mirrored (h.take n) hle hchoices
  rw [List.getElem?_map, List.getElem?_range hlt, Option.map_some, Option.some.injEq] at hsent
  rw [List.length_take, lt_min_iff] at hlt
  rw [List.getElem?_range hlt.1, Option.some.injEq] at hid
  rw [List.getElem?_take_of_lt hlt.1] at hchoices
  refine ⟨choices, hchoices, hid.symm, ?_, ?_⟩
  · rw [List.length_zipWith, ← hsent, hlen, min_self]
  · rw [← hsent]

theorem length_delivered {sends : List (List (Block × Block))} {recvs : List (List Bool)} {n : ℕ}
    (hs : n ≤ sends.flatten.length) (hr : n ≤ recvs.flatten.length) :
    (delivered sends recvs n).length = n := by
  rw [delivered, List.length_zipWith, List.length_take, List.length_take, min_eq_left hs,
    min_eq_left hr, min_self]

/-- The answers of the first requests, and those of the others. -/
theorem answers_append {sends : List (List (Block × Block))} {recvs : List (List Bool)}
    (hle : recvs.flatten.length ≤ sends.flatten.length) {b : ℕ} (hb : b ≤ recvs.length) :
    answers sends recvs b ++ (List.range' b (recvs.length - b)).zipWith OTReceiverOutput.mk
        (((recvs.drop b).map List.length).splitLengths
          ((delivered sends recvs recvs.flatten.length).drop (recvs.take b).flatten.length)) =
      answers sends recvs recvs.length := by
  have hn := List.length_flatten_take_le recvs b
  have htake : (delivered sends recvs recvs.flatten.length).take (recvs.take b).flatten.length =
      delivered sends recvs (recvs.take b).flatten.length := by
    rw [delivered, List.take_zipWith, List.take_take, List.take_take, min_eq_left hn, delivered]
  have hcounts : (recvs.take recvs.length).map List.length =
      (recvs.take b).map List.length ++ (recvs.drop b).map List.length := by
    rw [← List.map_append, List.take_append_drop, List.take_length]
  have hlen : (delivered sends recvs (recvs.take b).flatten.length).length =
      ((recvs.take b).map List.length).sum := by
    rw [length_delivered (hn.trans hle) hn, List.length_flatten]
  have hrange : List.range recvs.length = List.range b ++ List.range' b (recvs.length - b) := by
    rw [List.range_append_range', Nat.add_sub_cancel' hb]
  rw [answers, answers, hcounts, List.take_length, hrange]
  conv_rhs => rw [← List.take_append_drop (recvs.take b).flatten.length
    (delivered sends recvs recvs.flatten.length), htake, List.splitLengths_append _ _ hlen]
  rw [List.zipWith_append]
  rw [List.length_range, List.length_splitLengths, List.length_map, List.length_take,
    min_eq_left hb]

/-! ### The invariant -/

section Inv

variable (a : F)

/-- The sender before and after setup. It has answered `m` requests. -/
def SenderStage (w : World F G) (m : ℕ) : Prop :=
  (w.sender.state = .initialized a (a • g) ∧ w.setup = none ∧ m = 0 ∧ w.sendTweaks = []) ∨
    w.sender.state = .setup a (a • g) m (w.sends.take m).flatten.length ∧
      w.setup = some (a • g) ∧ w.sendTweaks = List.range (w.sends.take m).flatten.length

/-- What a round has done so far. The sender has sent `ns` messages, and the receiver has answered
with `nr` messages and has chosen `nc`. -/
def RoundStage (w : World F G) (ns nr nc : ℕ) (keys : List (Bool × Block)) : Round G → Prop
  | .idle => keys = [] ∧ ns = nr ∧ nc = nr
  | .chosen blindedChoices =>
    ns = nr ∧ ∃ bs : List F, bs.length = ((w.recvs.flatten.take nc).drop nr).length ∧
      (blindedChoices, keys) = Receiver.computeDecryptionKeys g hash (a • g) bs
        ((w.recvs.flatten.take nc).drop nr) nr
  | .sent payload => ns = nc ∧ payload.length = keys.length ∧ nr + payload.length = nc ∧
      keys.zipWith (fun key ct => key.2 ^^^ select ct key.1) payload =
        (delivered w.sends w.recvs nc).drop nr

/-- The receiver before and after setup. It has answered `b` requests. -/
def ReceiverStage (w : World F G) (m b : ℕ) : Prop :=
  (∃ rng, w.receiver.state = .initialized rng ∧ w.receiver.choices = w.recvs.flatten ∧
      w.recvTweaks = [] ∧ w.round = .idle ∧ m = 0 ∧ b = 0) ∨
    ∃ rng drawn nc keys, w.receiver.state = .setup rng drawn (a • g) b nc keys ∧
      w.setup = some (a • g) ∧ (w.recvs.take b).flatten.length ≤ nc ∧ nc ≤ w.recvs.flatten.length ∧
      w.receiver.choices = w.recvs.flatten.drop nc ∧ w.recvTweaks = List.range nc ∧
      RoundStage g hash a w (w.sends.take m).flatten.length (w.recvs.take b).flatten.length nc keys
        w.round

/-- The requests that were answered were answered by their own messages, and the others wait. -/
structure Inv (w : World F G) (q : List Queued) (m : ℕ) (routs : List OTReceiverOutput) : Prop where
  sends : Requests List.length w.sends q w.sender.futures (List.range m)
  queue : w.sender.queue = q.map Queued.sender
  msgs : w.sender.msgs = (w.sends.drop m).flatten
  recvs : Requests List.length w.recvs w.receiver.queue w.receiver.futures routs
  mirrored : Mirrored w.sends w.recvs
  routs_eq : routs = answers w.sends w.recvs routs.length
  le : (w.recvs.take routs.length).flatten.length ≤ (w.sends.take m).flatten.length
  sender : SenderStage g a w m
  receiver : ReceiverStage g hash a w m routs.length

end Inv

section

variable {sends : List (List (Block × Block))} {recvs : List (List Bool)} {n : ℕ}

theorem delivered_push_send (msgs : List (Block × Block)) (hn : n ≤ sends.flatten.length) :
    delivered (sends ++ [msgs]) recvs n = delivered sends recvs n := by
  rw [delivered, delivered, List.flatten_append, List.take_append_of_le_length hn]

theorem delivered_push_recv (choices : List Bool) (hn : n ≤ recvs.flatten.length) :
    delivered sends (recvs ++ [choices]) n = delivered sends recvs n := by
  rw [delivered, delivered, List.flatten_append, List.take_append_of_le_length hn]

end

/-- What a step leads to. -/
def Leads (a : F) (w : World F G) (act : Act) : Prop :=
  ∃ w', act.run g hash w = (.ok (), w') ∧ ∃ q m routs, Inv g hash a w' q m routs

namespace Inv

variable {g hash} {a : F} {w : World F G} {q : List Queued} {m : ℕ} {routs : List OTReceiverOutput}

theorem new (a : F) (rng : ℕ → F) : Inv g hash a (World.new g a rng) [] 0 [] where
  sends := .new _
  queue := rfl
  msgs := rfl
  recvs := .new _
  mirrored := nofun
  routs_eq := rfl
  le := le_rfl
  sender := .inl ⟨rfl, rfl, rfl, rfl⟩
  receiver := .inl ⟨rng, rfl, rfl, rfl, rfl, rfl, rfl⟩

variable (h : Inv g hash a w q m routs)
include h

theorem m_le : m ≤ w.sends.length := by
  have := h.sends.le
  rwa [List.length_range] at this

theorem queueSend {msgs : List (Block × Block)} (hen : (Act.queueSend msgs).Enabled w) :
    Leads g hash a w (.queueSend msgs) := by
  have htake : (w.sends ++ [msgs]).take m = w.sends.take m := List.take_append_of_le_length h.m_le
  have hns := List.length_flatten_take_le w.sends m
  refine ⟨_, rfl, q ++ [⟨msgs.length, w.sender.futures.next⟩], m, routs, h.sends.push msgs, ?_, ?_,
    h.recvs, h.mirrored.push fun b hb => (hen b hb).symm, ?_, ?_, ?_, ?_⟩
  · show w.sender.queue ++ [w.sender.futures.next] = _
    rw [h.queue, List.map_append]
    rfl
  · show w.sender.msgs ++ msgs = ((w.sends ++ [msgs]).drop m).flatten
    rw [h.msgs, List.drop_append_of_le_length h.m_le, List.flatten_append, List.flatten_singleton]
  · show routs = answers (w.sends ++ [msgs]) w.recvs routs.length
    rw [answers, delivered_push_send msgs (h.le.trans hns)]
    exact h.routs_eq
  · show _ ≤ ((w.sends ++ [msgs]).take m).flatten.length
    rw [htake]
    exact h.le
  · have hs := h.sender
    show SenderStage g a _ m
    rw [SenderStage] at hs ⊢
    show _ ∨ w.sender.state = .setup a (a • g) m ((w.sends ++ [msgs]).take m).flatten.length ∧
      w.setup = some (a • g) ∧
        w.sendTweaks = List.range ((w.sends ++ [msgs]).take m).flatten.length
    rwa [htake]
  · refine h.receiver.imp_right ?_
    rintro ⟨rng, drawn, nc, keys, hstate, hsetup, hnr, hnc, hchoices, htweaks, hround⟩
    refine ⟨rng, drawn, nc, keys, hstate, hsetup, hnr, hnc, hchoices, htweaks, ?_⟩
    show RoundStage g hash a _ ((w.sends ++ [msgs]).take m).flatten.length _ nc keys w.round
    rw [htake]
    cases hw : w.round with
    | idle => rwa [hw] at hround
    | chosen blindedChoices => rwa [hw] at hround
    | sent payload =>
      rw [hw] at hround
      obtain ⟨hnsc, hlen, hadd, heq⟩ := hround
      refine ⟨hnsc, hlen, hadd, ?_⟩
      rw [heq]
      show _ = (delivered (w.sends ++ [msgs]) w.recvs nc).drop _
      rw [delivered_push_send msgs (hnsc ▸ hns)]

theorem queueRecv {choices : List Bool} (hen : (Act.queueRecv choices).Enabled w) :
    Leads g hash a w (.queueRecv choices) := by
  have htake : (w.recvs ++ [choices]).take routs.length = w.recvs.take routs.length :=
    List.take_append_of_le_length h.recvs.le
  have hflat : (w.recvs ++ [choices]).flatten = w.recvs.flatten ++ choices := by
    rw [List.flatten_append, List.flatten_singleton]
  have hnr := List.length_flatten_take_le w.recvs routs.length
  refine ⟨_, rfl, q, m, routs, h.sends, h.queue, h.msgs, h.recvs.push choices,
    (h.mirrored.symm.push hen).symm, ?_, ?_, h.sender, ?_⟩
  · show routs = answers w.sends (w.recvs ++ [choices]) routs.length
    rw [answers, htake, delivered_push_recv choices hnr]
    exact h.routs_eq
  · show ((w.recvs ++ [choices]).take routs.length).flatten.length ≤ _
    rw [htake]
    exact h.le
  · refine h.receiver.imp ?_ ?_
    · rintro ⟨rng, hstate, hchoices, hrest⟩
      refine ⟨rng, hstate, ?_, hrest⟩
      show w.receiver.choices ++ choices = (w.recvs ++ [choices]).flatten
      rw [hchoices, hflat]
    · rintro ⟨rng, drawn, nc, keys, hstate, hsetup, hnrc, hnc, hchoices, htweaks, hround⟩
      refine ⟨rng, drawn, nc, keys, hstate, hsetup, ?_, ?_, ?_, htweaks, ?_⟩
      · show ((w.recvs ++ [choices]).take routs.length).flatten.length ≤ nc
        rwa [htake]
      · show nc ≤ (w.recvs ++ [choices]).flatten.length
        rw [hflat, List.length_append]
        exact hnc.trans (Nat.le_add_right _ _)
      · show w.receiver.choices ++ choices = (w.recvs ++ [choices]).flatten.drop nc
        rw [hchoices, hflat, List.drop_append_of_le_length hnc]
      · show RoundStage g hash a _ _ ((w.recvs ++ [choices]).take routs.length).flatten.length nc
          keys w.round
        rw [htake]
        cases hw : w.round with
        | idle => rwa [hw] at hround
        | chosen blindedChoices =>
          rw [hw] at hround
          show _ ∧ ∃ bs : List F, bs.length =
            (((w.recvs ++ [choices]).flatten.take nc).drop _).length ∧
            _ = Receiver.computeDecryptionKeys g hash (a • g) bs
              (((w.recvs ++ [choices]).flatten.take nc).drop _) _
          rw [hflat, List.take_append_of_le_length hnc]
          exact hround
        | sent payload =>
          rw [hw] at hround
          obtain ⟨hnsc, hlen, hadd, heq⟩ := hround
          refine ⟨hnsc, hlen, hadd, ?_⟩
          rw [heq]
          show _ = (delivered w.sends (w.recvs ++ [choices]) nc).drop _
          rw [delivered_push_recv choices hnc]

theorem offer (hen : Act.offer.Enabled w) : Leads g hash a w .offer := by
  have hs := h.sender
  rcases hs with ⟨hstate, -, rfl, htweaks⟩ | ⟨-, hsetup, -⟩
  · have hrun : (Sender.setup : Method (Sender F G) Error G) w.sender =
        (.ok (a • g), { w.sender with state := .setup a (a • g) 0 0 }) := by
      rw [Sender.setup, Method.get_bind, hstate]
      rfl
    refine ⟨{ w with
      sender := { w.sender with state := .setup a (a • g) 0 0 }
      setup := some (a • g) }, ?_, q, 0, routs, h.sends, h.queue, h.msgs, h.recvs, h.mirrored,
      h.routs_eq, h.le, .inr ⟨rfl, rfl, htweaks⟩, h.receiver.imp_right ?_⟩
    · rw [Act.run, Method.bind_apply_of_ok (onSender_ok hrun)]
      rfl
    · rintro ⟨rng, drawn, nc, keys, hstate', hsetup', hrest⟩
      cases hen.symm.trans hsetup'
  · cases hen.symm.trans hsetup

/-- Where the setup message was sent, it was the sender's key. -/
theorem setup_eq (hne : w.setup ≠ none) : w.setup = some (a • g) := by
  rcases h.sender with ⟨-, hnone, -⟩ | ⟨-, hsome, -⟩
  · exact absurd hnone hne
  · exact hsome

theorem accept (hen : Act.accept.Enabled w) : Leads g hash a w .accept := by
  obtain ⟨hne, rng', hstate'⟩ := hen
  have hsetup := h.setup_eq hne
  rcases h.receiver with ⟨rng, hstate, hchoices, htweaks, hround, rfl, hb⟩ | ⟨_, _, _, _, hstate, -⟩
  · have hrun : (Receiver.setup (a • g) : Method (Receiver F G) Error Unit) w.receiver =
        (.ok (), { w.receiver with state := .setup rng 0 (a • g) 0 0 [] }) := by
      rw [Receiver.setup, Method.get_bind, hstate]
      rfl
    refine ⟨{ w with receiver := { w.receiver with state := .setup rng 0 (a • g) 0 0 [] } },
      ?_, q, 0, routs, h.sends, h.queue, h.msgs, h.recvs, h.mirrored, h.routs_eq, h.le, h.sender,
      .inr ⟨rng, 0, 0, [], ?_, hsetup, ?_, Nat.zero_le _, hchoices, htweaks, ?_⟩⟩
    · rw [Act.run, Method.get_bind]
      conv_lhs => rw [hsetup]
      exact onReceiver_ok hrun
    · rw [hb]
    · rw [hb]
      exact le_rfl
    · show RoundStage g hash a _ _ _ 0 [] w.round
      rw [hround, hb]
      exact ⟨rfl, rfl, rfl⟩
  · cases hstate.symm.trans hstate'

/-- The receiver chooses for all requests that wait. -/
theorem choose (hen : Act.choose.Enabled w) : ∃ w', Act.choose.run g hash w = (.ok (), w') ∧
    Inv g hash a w' q m routs ∧ w'.sends = w.sends ∧ w'.recvs = w.recvs ∧ w'.sender = w.sender ∧
      ∃ blindedChoices, w'.round = .chosen blindedChoices ∧
        blindedChoices.length = w.receiver.choices.length := by
  obtain ⟨hidle, hstate'⟩ := hen
  rcases h.receiver with
    ⟨rng, hstate, -⟩ | ⟨rng, drawn, nc, keys, hstate, hsetup, hnr, hnc, hchoices, htweaks, hround⟩
  · exact absurd hstate (hstate' rng)
  · rw [hidle] at hround
    obtain ⟨rfl, hns, rfl⟩ := hround
    have hslice : (w.recvs.flatten.take w.recvs.flatten.length).drop
        (w.recvs.take routs.length).flatten.length = w.receiver.choices := by
      rw [List.take_length, hchoices]
    have hall : (w.recvs.take routs.length).flatten.length + w.receiver.choices.length =
        w.recvs.flatten.length := by
      rw [hchoices, List.length_drop, Nat.add_sub_cancel' hnc]
    have hcounter : w.receiver.counter = (w.recvs.take routs.length).flatten.length := by
      rw [Receiver.counter, hstate]
    obtain ⟨bs, p, hbs, hp, hrun⟩ := choose_eq g hash w.receiver hstate
    have hblinded : p.1.length = w.receiver.choices.length := by
      rw [hp]
      exact length_blinded hbs
    rw [hblinded, hall, List.nil_append] at hrun
    refine ⟨{ w with
      receiver := { w.receiver with
        choices := []
        state := .setup rng (drawn + w.receiver.choices.length) (a • g) routs.length
          w.recvs.flatten.length p.2 }
      round := .chosen p.1
      recvTweaks := w.recvTweaks ++ List.range' w.receiver.counter p.1.length }, ?_,
      ⟨h.sends, h.queue, h.msgs, h.recvs, h.mirrored, h.routs_eq, h.le, h.sender,
        .inr ⟨_, _, _, _, rfl, hsetup, hnc, le_rfl, ?_, ?_, hns, bs, ?_, ?_⟩⟩,
      rfl, rfl, rfl, p.1, rfl, hblinded⟩
    · rw [Act.run, Method.get_bind, Method.bind_apply_of_ok (onReceiver_ok hrun)]
      rfl
    · show [] = w.recvs.flatten.drop w.recvs.flatten.length
      rw [List.drop_length]
    · show w.recvTweaks ++ List.range' _ _ = _
      rw [htweaks, hcounter, hblinded, List.range_append_range', hall]
    · show bs.length = ((w.recvs.flatten.take w.recvs.flatten.length).drop _).length
      rw [hslice, hbs]
    · show (p.1, p.2) = Receiver.computeDecryptionKeys g hash (a • g) bs
        ((w.recvs.flatten.take w.recvs.flatten.length).drop _) _
      rw [hslice, ← hp]

/-- The sender answers all requests that wait. -/
theorem send (hen : Act.send.Enabled w) (hcare : Act.send.Careful w) :
    ∃ w', Act.send.run g hash w = (.ok (), w') ∧ Inv g hash a w' [] w.sends.length routs ∧
      w'.sends = w.sends ∧ w'.recvs = w.recvs ∧ w'.receiver = w.receiver ∧
        ∃ payload, w'.round = .sent payload ∧ payload.length = w.sender.msgs.length := by
  obtain ⟨blindedChoices, hround'⟩ := hen
  have hlen := hcare blindedChoices hround'
  rcases h.receiver with ⟨_, -, -, -, hidle, -⟩ | ⟨rng, drawn, nc, keys, hstate, hsetup, hnr, hnc,
    hchoices, htweaks, hround⟩
  · cases hidle.symm.trans hround'
  rw [hround'] at hround
  obtain ⟨hns, bs, hbs, hp⟩ := hround
  rcases h.sender with ⟨-, hnone, -⟩ | ⟨hsend, -, hsweaks⟩
  · cases hnone.symm.trans hsetup
  obtain ⟨payload, hpay, hrun⟩ := send_eq hash w.sender hsend hlen
  have hcounter : w.sender.counter = (w.sends.take m).flatten.length := by
    rw [Sender.counter, hsend]
  -- all messages that wait are sent
  have hall : (w.sends.take m).flatten.length + w.sender.msgs.length = w.sends.flatten.length := by
    rw [h.msgs, List.length_flatten_take_add]
  have hslice : ((w.recvs.flatten.take nc).drop (w.recvs.take routs.length).flatten.length).length =
      nc - (w.recvs.take routs.length).flatten.length := by
    rw [List.length_drop, List.length_take, min_eq_left hnc]
  have hblinded : blindedChoices.length = nc - (w.recvs.take routs.length).flatten.length := by
    have hfst := congrArg (fun p => p.1.length) hp
    rwa [length_blinded hbs, hslice] at hfst
  have hnsc : w.sends.flatten.length = nc := by
    rw [← hall, hlen, hblinded, hns, Nat.add_sub_cancel' hnr]
  have hq : q.length = w.sends.length - m := by
    have := h.sends.length_queue
    rw [List.length_range] at this
    omega
  have hserved := h.sends.serve (List.range' m q.length) List.length_range'
  have hrange : List.range m ++ List.range' m q.length = List.range w.sends.length := by
    rw [List.range_append_range', hq, Nat.add_sub_cancel' h.m_le]
  rw [hrange] at hserved
  have hfutures : { w.sender.futures with
      sent := w.sender.futures.sent ++ w.sender.queue.zipIdx m } =
      w.sender.futures.answer q (List.range' m q.length) := by
    rw [Futures.answer, h.queue, List.zipIdx_eq_zip_range', List.length_map, List.zip_eq_zipWith,
      List.zipWith_map_left]
  rw [hfutures] at hrun
  have hpayload : payload.length = blindedChoices.length := by
    rw [hpay, List.zipUpdate_eq _ (by rw [length_encryptionKeys, hlen]), List.length_zipWith,
      length_encryptionKeys, hlen, min_self]
  have hkeys : keys.length = nc - (w.recvs.take routs.length).flatten.length := by
    have hsnd := congrArg (fun p => p.2.length) hp
    rwa [length_decryptionKeys hbs, hslice] at hsnd
  have hmsgs : w.sender.msgs = (w.sends.flatten.take nc).drop
      (w.recvs.take routs.length).flatten.length := by
    rw [h.msgs, ← List.drop_flatten_take, hns, ← hnsc, List.take_length]
  refine ⟨{ w with
    sender := { w.sender with
      msgs := []
      queue := []
      futures := w.sender.futures.answer q (List.range' m q.length)
      state := .setup a (a • g) (m + w.sender.queue.length)
        ((w.sends.take m).flatten.length + w.sender.msgs.length) }
    round := .sent payload
    sendTweaks := w.sendTweaks ++ List.range' w.sender.counter blindedChoices.length }, ?_,
    ⟨hserved, rfl, ?_, h.recvs, h.mirrored, h.routs_eq, ?_, ?_, .inr ⟨rng, drawn, nc, keys, hstate,
      hsetup, hnr, hnc, hchoices, htweaks, ?_⟩⟩, rfl, rfl, rfl, payload, rfl,
      hpayload.trans hlen.symm⟩
  · rw [Act.run, Method.get_bind, Method.modify_bind]
    conv_lhs => rw [hround']
    exact Method.bind_apply_of_ok (onSender_ok (w := { w with round := .idle }) hrun)
  · show [] = (w.sends.drop w.sends.length).flatten
    rw [List.drop_length]
    rfl
  · show _ ≤ (w.sends.take w.sends.length).flatten.length
    rw [List.take_length, hnsc]
    exact hnr
  · refine .inr ⟨?_, hsetup, ?_⟩
    · show SenderState.setup a (a • g) (m + w.sender.queue.length) _ =
        .setup a (a • g) w.sends.length (w.sends.take w.sends.length).flatten.length
      rw [hall, List.take_length, h.queue, List.length_map, hq, Nat.add_sub_cancel' h.m_le]
    · show w.sendTweaks ++ List.range' _ _ = List.range (w.sends.take w.sends.length).flatten.length
      rw [hsweaks, hcounter, ← hlen, List.take_length, List.range_append_range', hall]
  · refine ⟨?_, ?_, ?_, ?_⟩
    · show (w.sends.take w.sends.length).flatten.length = nc
      rw [List.take_length, hnsc]
    · rw [hpayload, hblinded, hkeys]
    · rw [hpayload, hblinded, Nat.add_sub_cancel' hnr]
    · have hkeys' : keys = (Receiver.computeDecryptionKeys g hash (a • g) bs _ _).2 :=
        congrArg Prod.snd hp
      have hblinded' : blindedChoices =
        (Receiver.computeDecryptionKeys g hash (a • g) bs _ _).1 := congrArg Prod.fst hp
      rw [delivered, List.drop_zipWith, ← hmsgs]
      rw [hpay, hns, hkeys', hblinded']
      exact decrypted hbs (by rw [hslice, hlen, hblinded])

/-- The receiver answers all requests that wait. -/
theorem receive (hen : Act.receive.Enabled w) (hcare : Act.receive.Careful w) :
    ∃ w' routs', Act.receive.run g hash w = (.ok (), w') ∧ Inv g hash a w' q m routs' ∧
      w'.sends = w.sends ∧ w'.recvs = w.recvs ∧ routs'.length = w.recvs.length := by
  obtain ⟨payload, hround'⟩ := hen
  have hsum := hcare payload hround'
  rcases h.receiver with ⟨_, -, -, -, hidle, -⟩ | ⟨rng, drawn, nc, keys, hstate, hsetup, hnr, hnc,
    hchoices, htweaks, hround⟩
  · cases hidle.symm.trans hround'
  rw [hround'] at hround
  obtain ⟨hns, hlen, hadd, hmsgs⟩ := hround
  -- all choices were sent
  obtain rfl : nc = w.recvs.flatten.length := by
    rw [← hadd, ← hsum, h.recvs.map_count, ← List.length_flatten, List.length_flatten_take_add]
  have hle : w.recvs.flatten.length ≤ w.sends.flatten.length := by
    rw [← hns]
    exact List.length_flatten_take_le _ _
  have hq : w.receiver.queue.length = w.recvs.length - routs.length := by
    rw [← h.recvs.length_queue, Nat.add_sub_cancel_left]
  have hrun := receive_eq w.receiver hstate hlen
  rw [serve_eq, hmsgs, h.recvs.map_count, hq, Nat.add_sub_cancel' h.recvs.le] at hrun
  have hanswers := answers_append hle h.recvs.le
  rw [← h.routs_eq] at hanswers
  obtain ⟨outs, houts⟩ : ∃ outs, outs = (List.range' routs.length
    (w.recvs.length - routs.length)).zipWith OTReceiverOutput.mk
      (((w.recvs.drop routs.length).map List.length).splitLengths
        ((delivered w.sends w.recvs w.recvs.flatten.length).drop
          (w.recvs.take routs.length).flatten.length)) := ⟨_, rfl⟩
  rw [← houts] at hrun hanswers
  have hserved := h.recvs.serve outs (by
    rw [houts, List.length_zipWith, List.length_range', List.length_splitLengths, List.length_map,
      List.length_drop, min_self, hq])
  have hall := hserved.length_queue
  rw [List.length_nil, Nat.add_zero] at hall
  refine ⟨{ w with
    receiver := { w.receiver with
      queue := []
      futures := w.receiver.futures.answer w.receiver.queue outs
      state := .setup rng drawn (a • g) w.recvs.length w.recvs.flatten.length [] }
    round := .idle }, routs ++ outs, ?_, ⟨h.sends, h.queue, h.msgs, hserved, h.mirrored, ?_, ?_,
    h.sender, .inr ⟨rng, drawn, _, [], ?_, hsetup, ?_, hnc, hchoices, htweaks, rfl, ?_, ?_⟩⟩,
      rfl, rfl,
    hall⟩
  · rw [Act.run, Method.get_bind, Method.modify_bind]
    conv_lhs => rw [hround']
    exact onReceiver_ok (w := { w with round := .idle }) hrun
  · rw [hall]
    exact hanswers
  · rw [hall, List.take_length]
    exact hns.ge
  · rw [hall]
  · rw [hall, List.take_length]
  · rw [hall, List.take_length]
    exact hns
  · rw [hall, List.take_length]

/-- **A careful step can be taken, and keeps the invariant.** -/
theorem leads {act : Act} (hcare : act.Careful w) (hen : act.Enabled w) : Leads g hash a w act := by
  cases act with
  | queueSend msgs => exact h.queueSend hen
  | queueRecv choices => exact h.queueRecv hen
  | offer => exact h.offer hen
  | accept => exact h.accept hen
  | choose =>
    obtain ⟨w', hrun, hinv, -⟩ := h.choose hen
    exact ⟨w', hrun, q, m, routs, hinv⟩
  | send =>
    obtain ⟨w', hrun, hinv, -⟩ := h.send hen hcare
    exact ⟨w', hrun, [], w.sends.length, routs, hinv⟩
  | receive =>
    obtain ⟨w', routs', hrun, hinv, -⟩ := h.receive hen hcare
    exact ⟨w', hrun, q, m, routs', hinv⟩

end Inv

/-! ### What the invariant gives -/

/-- What is promised of a state. -/
structure Serves (w : World F G) : Prop where
  /-- An answer has one message for each choice, which is the sender's message of that choice. -/
  answered : ∀ k o, w.receiver.futures.tryRecv k = some o → ∃ choices, w.recvs[k]? = some choices ∧
    o.msgs.length = choices.length ∧ ∀ (i : ℕ) choice, choices[i]? = some choice → ∃ msgs msg,
      w.sends[k]? = some msgs ∧ msgs[i]? = some msg ∧ o.msgs[i]? = some (select msg choice)
  /-- The two sides number the requests alike. -/
  ids : (∀ k o, w.receiver.futures.tryRecv k = some o → o.id = k) ∧
    ∀ k id, w.sender.futures.tryRecv k = some id → id = k
  /-- No tweak is used twice. -/
  tweaks : w.sendTweaks = List.range w.sender.counter ∧
    w.recvTweaks = List.range w.receiver.counter ∧ w.sendTweaks.Nodup ∧ w.recvTweaks.Nodup
  /-- The two sides have used the same ones, but for the choices that the sender has not got. -/
  counters : match w.round with
    | .chosen blindedChoices => w.sender.counter + blindedChoices.length = w.receiver.counter
    | _ => w.sender.counter = w.receiver.counter
  /-- The requests that the sender has not answered wait with their messages. -/
  sending : ∃ m ≤ w.sends.length, (∀ k, (w.sender.futures.tryRecv k).isSome ↔ k < m) ∧
    w.sender.queue.length = w.sends.length - m ∧ w.sender.msgs = (w.sends.drop m).flatten
  /-- The requests that the receiver has not answered wait, and those choices that were not sent. -/
  receiving : ∃ n ≤ w.recvs.length, (∀ k, (w.receiver.futures.tryRecv k).isSome ↔ k < n) ∧
    w.receiver.queue.map Queued.count = (w.recvs.drop n).map List.length ∧
    w.receiver.choices = w.recvs.flatten.drop w.receiver.counter ∧
    (w.round = .idle → w.receiver.choices = (w.recvs.drop n).flatten)
  /-- No careful step fails. -/
  succeeds : ∀ a : Act, a.Careful w → a.Enabled w → ∃ w', a.run g hash w = (.ok (), w')
  /-- A round answers all requests. -/
  served : Act.choose.Enabled w → w.sender.msgs.length = w.receiver.choices.length → ∃ w',
    Run (CarefulStep g hash) w [.choose, .send, .receive] w' ∧ w'.sends = w.sends ∧
      w'.recvs = w.recvs ∧ (∀ k < w.sends.length, (w'.sender.futures.tryRecv k).isSome) ∧
      ∀ k < w.recvs.length, (w'.receiver.futures.tryRecv k).isSome
  /-- The receiver refuses a message of the wrong length, which changes nothing. -/
  refused : ∀ payload rng drawn base transferId counter keys,
    w.receiver.state = .setup rng drawn base transferId counter keys →
      payload.length ≠ keys.length → Receiver.receive payload w.receiver =
        (.err (.countMismatch keys.length payload.length), w.receiver)

namespace Inv

variable {g hash} {a : F} {w : World F G} {q : List Queued} {m : ℕ} {routs : List OTReceiverOutput}

variable (h : Inv g hash a w q m routs)
include h

theorem sender_counter : w.sender.counter = (w.sends.take m).flatten.length := by
  rcases h.sender with ⟨hstate, -, rfl, -⟩ | ⟨hstate, -⟩
  · rw [Sender.counter, hstate]
    rfl
  · rw [Sender.counter, hstate]

theorem answered {k : ℕ} {o : OTReceiverOutput} (hk : w.receiver.futures.tryRecv k = some o) :
    o.id = k ∧ ∃ choices, w.recvs[k]? = some choices ∧ o.msgs.length = choices.length ∧
      ∀ (i : ℕ) choice, choices[i]? = some choice → ∃ msgs msg,
        w.sends[k]? = some msgs ∧ msgs[i]? = some msg ∧ o.msgs[i]? = some (select msg choice) := by
  rw [h.recvs.tryRecv, h.routs_eq] at hk
  obtain ⟨choices, hchoices, hid, hlen, hmsgs⟩ :=
    getElem?_answers h.mirrored (h.le.trans (List.length_flatten_take_le _ _)) hk
  refine ⟨hid, choices, hchoices, hlen, fun i choice hi => ?_⟩
  have hlt := (List.getElem?_eq_some_iff.mp hi).1
  rw [← hlen] at hlt
  have hget := List.getElem?_eq_getElem hlt
  simp only [hmsgs] at hget
  rw [List.getElem?_zipWith_eq_some] at hget
  obtain ⟨msg, choice', hmsg, hchoice', hsel⟩ := hget
  cases hi.symm.trans hchoice'
  cases hsends : w.sends[k]? with
  | none =>
    rw [List.getD_eq_getElem?_getD, hsends] at hmsg
    cases hmsg
  | some msgs =>
    rw [List.getD_eq_getElem?_getD, hsends] at hmsg
    refine ⟨msgs, msg, rfl, hmsg, ?_⟩
    rw [hmsgs, List.getElem?_zipWith_eq_some, List.getD_eq_getElem?_getD, hsends]
    exact ⟨msg, choice, hmsg, hi, rfl⟩

theorem receiving : ∃ n ≤ w.recvs.length,
    (∀ k, (w.receiver.futures.tryRecv k).isSome ↔ k < n) ∧
      w.receiver.queue.map Queued.count = (w.recvs.drop n).map List.length ∧
      w.receiver.choices = w.recvs.flatten.drop w.receiver.counter ∧
      (w.round = .idle → w.receiver.choices = (w.recvs.drop n).flatten) := by
  refine ⟨routs.length, h.recvs.le, fun k => ?_, h.recvs.map_count, ?_⟩
  · rw [h.recvs.tryRecv, isSome_getElem?]
  · rcases h.receiver with ⟨rng, hstate, hchoices, -, -, -, hb⟩ | ⟨rng, drawn, nc, keys,
      hstate, -, -, -, hchoices, -, hround⟩
    · rw [Receiver.counter, hstate, hb]
      exact ⟨hchoices, fun _ => hchoices⟩
    · rw [Receiver.counter, hstate]
      refine ⟨hchoices, fun hidle => ?_⟩
      rw [hidle] at hround
      obtain ⟨-, -, rfl⟩ := hround
      rw [hchoices, List.drop_flatten_take]

theorem counters : w.recvTweaks = List.range w.receiver.counter ∧ match w.round with
    | .chosen blindedChoices => w.sender.counter + blindedChoices.length = w.receiver.counter
    | _ => w.sender.counter = w.receiver.counter := by
  rcases h.receiver with ⟨rng, hstate, -, htweaks, hidle, rfl, -⟩ | ⟨rng, drawn, nc, keys,
    hstate, -, hnr, hnc, -, htweaks, hround⟩
  · rw [hidle, h.sender_counter, Receiver.counter, hstate]
    exact ⟨htweaks, rfl⟩
  · rw [h.sender_counter, Receiver.counter, hstate]
    refine ⟨htweaks, ?_⟩
    cases hw : w.round with
    | idle =>
      rw [hw] at hround
      exact hround.2.1.trans hround.2.2.symm
    | chosen blindedChoices =>
      rw [hw] at hround
      obtain ⟨hns, bs, hbs, hp⟩ := hround
      have hfst := congrArg (fun p => p.1.length) hp
      rw [length_blinded hbs, List.length_drop, List.length_take, min_eq_left hnc] at hfst
      show _ + blindedChoices.length = nc
      rw [hfst, hns, Nat.add_sub_cancel' hnr]
    | sent payload =>
      rw [hw] at hround
      exact hround.1

theorem sending : ∃ m ≤ w.sends.length, (∀ k, (w.sender.futures.tryRecv k).isSome ↔ k < m) ∧
    w.sender.queue.length = w.sends.length - m ∧ w.sender.msgs = (w.sends.drop m).flatten := by
  refine ⟨m, h.m_le, fun k => ?_, ?_, h.msgs⟩
  · rw [h.sends.tryRecv, isSome_getElem?, List.length_range]
  · have hq := h.sends.length_queue
    rw [List.length_range] at hq
    rw [h.queue, List.length_map, ← hq, Nat.add_sub_cancel_left]

theorem tweaks : w.sendTweaks = List.range w.sender.counter := by
  rw [h.sender_counter]
  rcases h.sender with ⟨-, -, rfl, htweaks⟩ | ⟨-, -, htweaks⟩
  · exact htweaks
  · exact htweaks

theorem sent_id {k id : ℕ} (hk : w.sender.futures.tryRecv k = some id) : id = k := by
  rw [h.sends.tryRecv] at hk
  obtain ⟨hlt, hget⟩ := List.getElem?_eq_some_iff.mp hk
  rw [← hget, List.getElem_range]

theorem served (hen : Act.choose.Enabled w)
    (hlen : w.sender.msgs.length = w.receiver.choices.length) : ∃ w',
    Run (CarefulStep g hash) w [.choose, .send, .receive] w' ∧ w'.sends = w.sends ∧
      w'.recvs = w.recvs ∧ (∀ k < w.sends.length, (w'.sender.futures.tryRecv k).isSome) ∧
      ∀ k < w.recvs.length, (w'.receiver.futures.tryRecv k).isSome := by
  obtain ⟨w₁, hrun₁, h₁, hsends₁, hrecvs₁, hsender₁, cs, hround₁, hcs⟩ := h.choose hen
  have hcare₁ : Act.send.Careful w₁ := by
    intro cs' hround
    cases hround₁.symm.trans hround
    rw [hsender₁, hlen, hcs]
  obtain ⟨w₂, hrun₂, h₂, hsends₂, hrecvs₂, -, payload, hround₂, hpayload⟩ :=
    h₁.send ⟨cs, hround₁⟩ hcare₁
  have hcare₂ : Act.receive.Careful w₂ := by
    intro payload' hround
    cases hround₂.symm.trans hround
    have hwait : w.receiver.choices = (w.recvs.drop routs.length).flatten := by
      rcases h.receiver with ⟨rng, hstate, -⟩ | ⟨rng, drawn, nc, keys, -, -, -, -, hchoices,
        -, hround⟩
      · exact absurd hstate (hen.2 rng)
      · rw [hen.1] at hround
        rw [hchoices, hround.2.2, List.drop_flatten_take]
    rw [hpayload, hsender₁, hlen, hwait, h₂.recvs.map_count, hrecvs₂, hrecvs₁, List.length_flatten]
  obtain ⟨w₃, routs', hrun₃, h₃, hsends₃, hrecvs₃, hall⟩ := h₂.receive ⟨payload, hround₂⟩ hcare₂
  have hstep₁ : CarefulStep g hash w .choose w₁ := ⟨trivial, hen, .ok (), nofun, hrun₁⟩
  have hstep₂ : CarefulStep g hash w₁ .send w₂ := ⟨hcare₁, ⟨cs, hround₁⟩, .ok (), nofun, hrun₂⟩
  have hstep₃ : CarefulStep g hash w₂ .receive w₃ :=
    ⟨hcare₂, ⟨payload, hround₂⟩, .ok (), nofun, hrun₃⟩
  refine ⟨w₃, ((Run.single hstep₁).snoc hstep₂).snoc hstep₃, ?_, ?_, fun k hk => ?_, fun k hk => ?_⟩
  · rw [hsends₃, hsends₂, hsends₁]
  · rw [hrecvs₃, hrecvs₂, hrecvs₁]
  · rw [h₃.sends.tryRecv, isSome_getElem?, List.length_range, hsends₁]
    exact hk
  · rw [h₃.recvs.tryRecv, isSome_getElem?, hall, hrecvs₂, hrecvs₁]
    exact hk

theorem serves : Serves g hash w where
  answered _ _ hk := (h.answered hk).2
  ids := ⟨fun _ _ hk => (h.answered hk).1, fun _ _ => h.sent_id⟩
  tweaks := by
    refine ⟨h.tweaks, h.counters.1, ?_, ?_⟩
    · rw [h.tweaks]
      exact List.nodup_range
    · rw [h.counters.1]
      exact List.nodup_range
  counters := h.counters.2
  sending := h.sending
  receiving := h.receiving
  succeeds _ hcare hen := by
    obtain ⟨w', hrun, -⟩ := h.leads hcare hen
    exact ⟨w', hrun⟩
  served := h.served
  refused payload rng drawn base transferId counter keys hstate hlen := by
    rw [Receiver.receive, Method.get_bind, hstate]
    show (if payload.length ≠ keys.length then _ else _ : Method (Receiver F G) Error Unit) _ = _
    rw [if_pos hlen]
    rfl

end Inv

end ChouOrlandi

open ChouOrlandi

end Mpz
