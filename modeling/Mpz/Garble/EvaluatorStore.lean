import Mpz.Garble.GarblerStore
import Mpz.Garble.SharedView
import Mpz.Memory.MacStore

/-!
# The memory store of the evaluator

The store receives MACs, directly or by correlated oblivious transfer, and key bits with commitments
for what it is to learn, and decodes a bit where it has both. The receiver of the correlated
oblivious transfer is a parameter.

## Main definitions

* `EvaluatorStore`, with `sendFlush`, `receiveFlush` and `decodeMacs`
* `EvaluatorStore.Op`, `EvaluatorStore.Op.run` — the operations

## Main results

* `EvaluatorStore.Op.run_view` — the operation that the view performs
* `EvaluatorStore.receiveFlush_cases` — the two halves of a flush that is received
-/

namespace Mpz.Garble

/-- Error for an evaluator store. -/
inductive EvaluatorStoreError (E : Type) where
  /-- cot error -/
  | cot (e : E)
  /-- COT output is not ready -/
  | cotNotReady
  /-- An error of the MAC store. -/
  | macStore (e : MacStoreError)
  /-- An error of a store. -/
  | store (e : StoreError)
  /-- decode operation was dropped. -/
  | decode
  /-- An error of the view. -/
  | view (e : ViewError)
  /-- store was not expecting a flush -/
  | unexpectedFlush
  /-- generator sent incorrect number of MACs -/
  | incorrectMacCount (expected actual : ℕ)
  /-- generator sent incorrect number of MAC commitments -/
  | incorrectMacCommitmentCount (expected actual : ℕ)
  /-- generator sent incorrect number of decoding bits -/
  | incorrectDecodeCount (expected actual : ℕ)
  /-- invalid MAC commitment -/
  | macCommitment (e : MacCommitmentError)
  deriving DecidableEq, Repr

/-- The conversion of an error of a decode operation. -/
def EvaluatorStoreError.ofDecode {E : Type} : DecodeOpError → EvaluatorStoreError E
  | .store e => .store e
  | .decode => .decode

/-- A flush that was sent, and the COT that it has queued. -/
structure PendingFlush (F : Type) where
  /-- The future of the COT. -/
  cot : Option F
  deriving DecidableEq, Repr

/-- Evaluator memory store. -/
structure EvaluatorStore (C F : Type) where
  /-- The COT receiver. -/
  cot : C
  /-- The MACs. -/
  macStore : MacStore
  /-- The pointer bits of the keys. -/
  keyBitStore : BitStore
  /-- The commitments to the MACs. -/
  commitStore : Store MacCommitment
  /-- The data. -/
  dataStore : BitStore
  /-- The view. -/
  view : View
  /-- The requests that wait, `buffer_decode`. -/
  queue : DecodeQueue
  /-- The flush that was sent. -/
  pending : Option (PendingFlush F)

namespace EvaluatorStore

variable {C E F : Type}

/-- Creates a new evaluator store. -/
def new (cot : C) : EvaluatorStore C F where
  cot := cot
  macStore := .new
  keyBitStore := .new
  commitStore := .new
  dataStore := .new
  view := .newEvaluator
  queue := .new
  pending := none

/-- A call on the COT receiver. -/
def onCot {α : Type} (m : Method C E α) : Method (EvaluatorStore C F) (EvaluatorStoreError E) α :=
  Method.zoom cot (fun self cot => { self with cot }) .cot m

/-- A call on the MAC store. -/
def onMacs {α : Type} (m : Method MacStore MacStoreError α) :
    Method (EvaluatorStore C F) (EvaluatorStoreError E) α :=
  Method.zoom macStore (fun self macStore => { self with macStore }) .macStore m

/-- A call on the store of key bits. -/
def onKeyBits {α : Type} (m : Method BitStore StoreError α) :
    Method (EvaluatorStore C F) (EvaluatorStoreError E) α :=
  Method.zoom keyBitStore (fun self keyBitStore => { self with keyBitStore }) .store m

/-- A call on the store of commitments. -/
def onCommits {α : Type} (m : Method (Store MacCommitment) StoreError α) :
    Method (EvaluatorStore C F) (EvaluatorStoreError E) α :=
  Method.zoom commitStore (fun self commitStore => { self with commitStore }) .store m

/-- A call on the data store. -/
def onData {α : Type} (m : Method BitStore StoreError α) :
    Method (EvaluatorStore C F) (EvaluatorStoreError E) α :=
  Method.zoom dataStore (fun self dataStore => { self with dataStore }) .store m

/-- A call on the view. -/
def onView {α : Type} (m : Method View ViewError α) :
    Method (EvaluatorStore C F) (EvaluatorStoreError E) α :=
  Method.zoom view (fun self view => { self with view }) .view m

/-- A call on the requests that wait. -/
def onQueue {α : Type} (m : Method DecodeQueue DecodeOpError α) :
    Method (EvaluatorStore C F) (EvaluatorStoreError E) α :=
  Method.zoom queue (fun self queue => { self with queue }) .ofDecode m

/-- Allocates memory in every store. -/
def allocStores (size : ℕ) : Method (EvaluatorStore C F) (EvaluatorStoreError E) Slice := do
  let _ ← onMacs (MacStore.alloc size)
  let _ ← onKeyBits (Store.alloc size)
  let _ ← onCommits (Store.alloc size)
  onData (Store.alloc size)

/-- Allocates memory for input values. -/
def allocRaw (size : ℕ) : Method (EvaluatorStore C F) (EvaluatorStoreError E) Slice := do
  onView (View.allocInput size)
  allocStores size

/-- Allocates an output slice. -/
def allocOutput (size : ℕ) : Method (EvaluatorStore C F) (EvaluatorStoreError E) Slice := do
  onView (View.allocOutput size)
  allocStores size

/-- Returns whether the MACs are set for a slice. -/
def isSetMacs (self : EvaluatorStore C F) (slice : Slice) : Bool := self.macStore.isSet slice

/-- Returns the MACs for a slice. -/
def tryGetMacs (self : EvaluatorStore C F) (slice : Slice) :
    Outcome (EvaluatorStoreError E) (List Mac) :=
  (self.macStore.tryGet slice).mapErr .macStore

/-- Sets the MACs for a slice corresponding to output. -/
def setOutput (slice : Slice) (macs : List Mac) :
    Method (EvaluatorStore C F) (EvaluatorStoreError E) Unit := do
  onView (View.setOutput slice.toRange)
  onMacs (MacStore.trySet slice macs)

/-- Marks an output as preprocessed. -/
def markOutputPreprocessed (slice : Slice) :
    Method (EvaluatorStore C F) (EvaluatorStoreError E) Unit :=
  onView (View.setPreprocessed slice.toRange)

/-- Returns `true` if the store wants to flush. -/
def wantsFlush (self : EvaluatorStore C F) : Bool := self.view.wantsFlush

/-- Checks MACs and bits against commitments, with ids in sequence. -/
def checkCommitments (blake3 : Blake3) :
    ℕ → List ((Mac × Bool) × MacCommitment) → Outcome MacCommitmentError Unit
  | _, [] => .ok ()
  | id, ((mac, bit), commitment) :: l => do
    commitment.check blake3 id bit mac
    checkCommitments blake3 (id + 1) l

/-- Decodes a range of which we have the MACs and the key bits. -/
def decodeRange (blake3 : Blake3) (range : Range) :
    Method (EvaluatorStore C F) (EvaluatorStoreError E) Unit := do
  let self ← Method.get
  let slice := Slice.fromRange range
  let macBits ← Method.call ((self.macStore.tryGetBits slice).mapErr .macStore)
  let keyBits ← Method.call ((self.keyBitStore.tryGet slice).mapErr .store)
  let data := List.zipWith (fun bit macBit => bit ^^ macBit) keyBits macBits
  let macs ← Method.call ((self.macStore.tryGet slice).mapErr .macStore)
  let commitments ← Method.call ((self.commitStore.tryGet slice).mapErr .store)
  Method.call
    ((checkCommitments blake3 slice.ptr ((macs.zip data).zip commitments)).mapErr .macCommitment)
  onData (Store.trySet slice data)

/-- The indices that are not set but whose MACs and key bits we have. -/
def decodable (self : EvaluatorStore C F) : RangeSet :=
  (self.macStore.setRanges ∩ self.keyBitStore.set) \ self.dataStore.set

/-- Decodes all data which are not set but we have the MACs and key bits. -/
def decodeMacs (blake3 : Blake3) : Method (EvaluatorStore C F) (EvaluatorStoreError E) Unit := do
  let self ← Method.get
  Method.forEach (decodeRange blake3) self.decodable.iter

/-- Flushes decode operations. -/
def flushDecode (blake3 : Blake3) : Method (EvaluatorStore C F) (EvaluatorStoreError E) Unit := do
  decodeMacs blake3
  let self ← Method.get
  onQueue (DecodeQueue.flush self.dataStore)

/-- Queues the choices for oblivious transfer. -/
def sendChoices [COTReceiver C E F] (ot : RangeSet) :
    Method (EvaluatorStore C F) (EvaluatorStoreError E) (Option F) :=
  if ot = ∅ then
    return none
  else do
    let choices ← Method.collect (fun range => do
      let self ← Method.get
      Method.call ((self.dataStore.tryGet (Slice.fromRange range)).mapErr .store)) ot.iter
    let output ← onCot (COTReceiver.queueRecvCot choices)
    return some output

/-- Proves decoded MACs to the garbler. -/
def sendProof (blake3 : Blake3) (decode : RangeSet) :
    Method (EvaluatorStore C F) (EvaluatorStoreError E) (Option MacProof) :=
  if decode = ∅ then
    return none
  else do
    let self ← Method.get
    let (bits, proof) ← Method.call ((self.macStore.prove blake3 decode).mapErr .macStore)
    return some ⟨bits, proof⟩

/-- Sends a flush to the garbler. This queues any necessary COTs. -/
def sendFlush [COTReceiver C E F] (blake3 : Blake3) :
    Method (EvaluatorStore C F) (EvaluatorStoreError E) EvaluatorFlush := do
  let self ← Method.get
  if self.pending.isSome then
    Method.throw .unexpectedFlush
  else do
    let view := self.view.flush
    let cot ← sendChoices view.ot
    let macProof ← sendProof blake3 view.decode
    Method.modify fun self => { self with pending := some ⟨cot⟩ }
    return ⟨macProof⟩

/-- Receives the MACs. -/
def receiveMacs (macs : List Mac) : Method (EvaluatorStore C F) (EvaluatorStoreError E) Unit := do
  let self ← Method.get
  let expected := self.view.flush.macs
  if macs.length ≠ expected.card then
    Method.throw (.incorrectMacCount expected.card macs.length)
  else
    onMacs (MacStore.onMacs (Store.trySetRanges expected.iter macs))

/-- Receives the MACs via COT. -/
def receiveCot [COTReceiver C E F] :
    Option F → Method (EvaluatorStore C F) (EvaluatorStoreError E) Unit
  | none => return ()
  | some cot => do
    let self ← Method.get
    let msgs ← Method.call ((COTReceiver.tryRecv cot self.cot).mapErr .cot)
    match msgs with
    | none => Method.throw .cotNotReady
    | some msgs =>
      onMacs (MacStore.onMacs (Store.trySetRanges self.view.flush.ot.iter (msgs.map Mac.mk)))

/-- The loop over the ranges of the decode info. -/
def setDecodeInfo : List Range → List Bool → List MacCommitment →
    Method (EvaluatorStore C F) (EvaluatorStoreError E) Unit
  | [], _, _ => return ()
  | range :: ranges, keyBits, macCommitments => do
    let slice := Slice.fromRange range
    let bits ← Method.call (.ofOption (Mpz.slice keyBits ⟨0, slice.size⟩))
    onKeyBits (Store.trySet slice bits)
    let commitments ← Method.call (.ofOption (Mpz.slice macCommitments ⟨0, slice.size⟩))
    onCommits (Store.trySet slice commitments)
    setDecodeInfo ranges (keyBits.drop slice.size) (macCommitments.drop slice.size)

/-- Receives the decode info. -/
def receiveDecodeInfo (keyBits : List Bool) (macCommitments : List MacCommitment) :
    Method (EvaluatorStore C F) (EvaluatorStoreError E) Unit := do
  let self ← Method.get
  let expected := self.view.flush.decodeInfo
  if keyBits.length ≠ expected.card then
    Method.throw (.incorrectDecodeCount expected.card keyBits.length)
  else if macCommitments.length ≠ expected.card then
    Method.throw (.incorrectMacCommitmentCount expected.card macCommitments.length)
  else
    setDecodeInfo expected.iter keyBits macCommitments

/-- What a flush brings: MACs, directly and by COT, and decode info. -/
def receiveMessage [COTReceiver C E F] (cot : Option F) (flush : GarblerFlush) :
    Method (EvaluatorStore C F) (EvaluatorStoreError E) Unit := do
  receiveMacs flush.macs
  receiveCot cot
  receiveDecodeInfo flush.keyBits flush.macCommitments

/-- What is left to do behind a flush. -/
def finishFlush (blake3 : Blake3) : Method (EvaluatorStore C F) (EvaluatorStoreError E) Unit := do
  onView View.completeFlush
  flushDecode blake3

/-- Receives a flush from the garbler. This expects that the COT receiver has been flushed. -/
def receiveFlush [COTReceiver C E F] (blake3 : Blake3) (flush : GarblerFlush) :
    Method (EvaluatorStore C F) (EvaluatorStoreError E) Unit := do
  let self ← Method.get
  -- The flush that was sent is taken whatever comes of the one that is received.
  Method.modify fun self => { self with pending := none }
  match self.pending with
  | none => Method.throw .unexpectedFlush
  | some pending => do
    receiveMessage pending.cot flush
    finishFlush blake3

/-- Assigns data to input memory. -/
def assignRaw (slice : Slice) (data : List Bool) :
    Method (EvaluatorStore C F) (EvaluatorStoreError E) Unit := do
  onView (View.assign slice.toRange)
  onData (Store.trySet slice data)

/-- Commits input memory. -/
def commitRaw (slice : Slice) : Method (EvaluatorStore C F) (EvaluatorStoreError E) Unit :=
  onView (View.commit slice.toRange)

/-- Requests memory to be decoded, returning the number of the future. -/
def decodeRaw (slice : Slice) : Method (EvaluatorStore C F) (EvaluatorStoreError E) ℕ := do
  onView (View.requestDecode slice.toRange)
  let self ← Method.get
  onQueue (DecodeQueue.request self.dataStore slice)

/-- `mark_public_raw`, `mark_private_raw` and `mark_blind_raw`. -/
def markRaw [COTReceiver C E F] (visibility : Visibility) (slice : Slice) :
    Method (EvaluatorStore C F) (EvaluatorStoreError E) Unit :=
  match visibility with
  | .pub => onView (View.markPublic slice.toRange)
  | .priv => do
    -- Allocate COTs for private data.
    onCot (COTReceiver.alloc slice.size)
    onView (View.markPrivate slice.toRange)
  | .blind => onView (View.markBlind slice.toRange)

/-- The operations of an evaluator store. -/
inductive Op (C : Type) where
  /-- `alloc_raw` -/
  | allocRaw (size : ℕ)
  /-- `alloc_output` -/
  | allocOutput (size : ℕ)
  /-- `set_output` -/
  | setOutput (slice : Slice) (macs : List Mac)
  /-- `mark_output_preprocessed` -/
  | markOutputPreprocessed (slice : Slice)
  /-- `mark_public_raw`, `mark_private_raw` or `mark_blind_raw` -/
  | markRaw (visibility : Visibility) (slice : Slice)
  /-- `assign_raw` -/
  | assignRaw (slice : Slice) (data : List Bool)
  /-- `commit_raw` -/
  | commitRaw (slice : Slice)
  /-- `decode_raw` -/
  | decodeRaw (slice : Slice)
  /-- `flush_decode` -/
  | flushDecode
  /-- `send_flush` -/
  | sendFlush
  /-- `receive_flush` -/
  | receiveFlush (flush : GarblerFlush)
  /-- `acquire_cot`, and what the holder of the lock leaves. -/
  | acquireCot (cot : C)

/-- The operation, as a call. -/
def Op.run [COTReceiver C E F] (blake3 : Blake3) :
    Op C → Method (EvaluatorStore C F) (EvaluatorStoreError E) Unit
  | allocRaw size => do
    let _ ← EvaluatorStore.allocRaw size
  | allocOutput size => do
    let _ ← EvaluatorStore.allocOutput size
  | setOutput slice macs => EvaluatorStore.setOutput slice macs
  | markOutputPreprocessed slice => EvaluatorStore.markOutputPreprocessed slice
  | markRaw visibility slice => EvaluatorStore.markRaw visibility slice
  | assignRaw slice data => EvaluatorStore.assignRaw slice data
  | commitRaw slice => EvaluatorStore.commitRaw slice
  | decodeRaw slice => do
    let _ ← EvaluatorStore.decodeRaw slice
  | flushDecode => EvaluatorStore.flushDecode blake3
  | sendFlush => do
    let _ ← EvaluatorStore.sendFlush blake3
  | receiveFlush flush => EvaluatorStore.receiveFlush blake3 flush
  | acquireCot cot => Method.modify fun self => { self with cot }

/-- What an operation has the view perform, if it comes to that. -/
def Op.view : Op C → Option View.Op
  | allocRaw size => some (.allocInput size)
  | allocOutput size => some (.allocOutput size)
  | setOutput slice _ => some (.setOutput slice.toRange)
  | markOutputPreprocessed slice => some (.setPreprocessed slice.toRange)
  | markRaw visibility slice => some (.mark visibility slice.toRange)
  | assignRaw slice _ => some (.assign slice.toRange)
  | commitRaw slice => some (.commit slice.toRange)
  | decodeRaw slice => some (.decode slice.toRange)
  | flushDecode => none
  | sendFlush => none
  | receiveFlush _ => some .completeFlush
  | acquireCot _ => none

/-! ### The parts of the store that a call leaves alone -/

section Frames

variable {α τ : Type} {proj : EvaluatorStore C F → τ}

theorem keeps_onCot {m : Method C E α} (h : ∀ s cot, proj { s with cot } = proj s) :
    (onCot m).Keeps proj := Method.Keeps.zoom h

theorem keeps_onMacs {m : Method MacStore MacStoreError α}
    (h : ∀ s macStore, proj { s with macStore } = proj s) :
    (onMacs m : Method _ (EvaluatorStoreError E) _).Keeps proj := Method.Keeps.zoom h

theorem keeps_onKeyBits {m : Method BitStore StoreError α}
    (h : ∀ s keyBitStore, proj { s with keyBitStore } = proj s) :
    (onKeyBits m : Method _ (EvaluatorStoreError E) _).Keeps proj := Method.Keeps.zoom h

theorem keeps_onCommits {m : Method (Store MacCommitment) StoreError α}
    (h : ∀ s commitStore, proj { s with commitStore } = proj s) :
    (onCommits m : Method _ (EvaluatorStoreError E) _).Keeps proj := Method.Keeps.zoom h

theorem keeps_onData {m : Method BitStore StoreError α}
    (h : ∀ s dataStore, proj { s with dataStore } = proj s) :
    (onData m : Method _ (EvaluatorStoreError E) _).Keeps proj := Method.Keeps.zoom h

theorem keeps_onView {m : Method View ViewError α} (h : ∀ s view, proj { s with view } = proj s) :
    (onView m : Method _ (EvaluatorStoreError E) _).Keeps proj := Method.Keeps.zoom h

theorem keeps_onQueue {m : Method DecodeQueue DecodeOpError α}
    (h : ∀ s queue, proj { s with queue } = proj s) :
    (onQueue m : Method _ (EvaluatorStoreError E) _).Keeps proj := Method.Keeps.zoom h

/-- Allocation in the stores leaves the rest alone. -/
theorem allocStores_keeps (size : ℕ) :
    (allocStores size : Method (EvaluatorStore C F) (EvaluatorStoreError E) _).Keeps
      fun s => (s.view, s.queue, s.pending) :=
  .bind (keeps_onMacs fun _ _ => rfl) fun _ => .bind (keeps_onKeyBits fun _ _ => rfl) fun _ =>
    .bind (keeps_onCommits fun _ _ => rfl) fun _ => keeps_onData fun _ _ => rfl

/-- Sending a flush changes nothing that is stored. -/
theorem sendFlush_keeps [COTReceiver C E F] (blake3 : Blake3) :
    (sendFlush blake3 : Method (EvaluatorStore C F) (EvaluatorStoreError E) _).Keeps
      fun s => (s.view, s.macStore, s.keyBitStore, s.commitStore, s.dataStore, s.queue) := by
  refine .get_bind fun s => .ite (.throw _) (.bind ?_ fun _ => .bind ?_ fun _ =>
    .bind (fun _ => rfl) fun _ => .pure _)
  · exact .ite (.pure _) (.bind (.collect (fun _ => .get_bind fun _ => .call _) _) fun _ =>
      .bind (keeps_onCot fun _ _ => rfl) fun _ => .pure _)
  · exact .ite (.pure _) (.get_bind fun _ => .bind (.call _) fun _ => .pure _)

theorem receiveMacs_keeps (macs : List Mac) :
    (receiveMacs macs : Method (EvaluatorStore C F) (EvaluatorStoreError E) _).Keeps
      fun s => (s.view, s.cot, s.keyBitStore, s.commitStore, s.dataStore, s.queue, s.pending) :=
  .get_bind fun _ => .ite (.throw _) (keeps_onMacs fun _ _ => rfl)

theorem receiveCot_keeps [COTReceiver C E F] (cot : Option F) :
    (receiveCot cot : Method (EvaluatorStore C F) (EvaluatorStoreError E) _).Keeps
      fun s => (s.view, s.cot, s.keyBitStore, s.commitStore, s.dataStore, s.queue, s.pending) := by
  cases cot with
  | none => exact .pure _
  | some cot =>
    refine .get_bind fun s => .bind (.call _) fun msgs => ?_
    cases msgs with
    | none => exact .throw _
    | some msgs => exact keeps_onMacs fun _ _ => rfl

theorem setDecodeInfo_keeps (ranges : List Range) (keyBits : List Bool)
    (macCommitments : List MacCommitment) :
    (setDecodeInfo ranges keyBits macCommitments :
      Method (EvaluatorStore C F) (EvaluatorStoreError E) _).Keeps
      fun s => (s.view, s.cot, s.macStore, s.dataStore, s.queue, s.pending) := by
  induction ranges generalizing keyBits macCommitments with
  | nil => exact .pure _
  | cons range ranges ih =>
    exact .bind (.call _) fun _ => .bind (keeps_onKeyBits fun _ _ => rfl) fun _ =>
      .bind (.call _) fun _ => .bind (keeps_onCommits fun _ _ => rfl) fun _ => ih _ _

theorem receiveDecodeInfo_keeps (keyBits : List Bool) (macCommitments : List MacCommitment) :
    (receiveDecodeInfo keyBits macCommitments :
      Method (EvaluatorStore C F) (EvaluatorStoreError E) _).Keeps
      fun s => (s.view, s.cot, s.macStore, s.dataStore, s.queue, s.pending) :=
  .get_bind fun _ => .ite (.throw _) (.ite (.throw _) (setDecodeInfo_keeps _ _ _))

/-- What arrives is stored, and nothing else changes. -/
theorem receiveMessage_keeps [COTReceiver C E F] (cot : Option F) (flush : GarblerFlush) :
    (receiveMessage cot flush : Method (EvaluatorStore C F) (EvaluatorStoreError E) _).Keeps
      fun s => (s.view, s.cot, s.dataStore, s.queue, s.pending) :=
  .bind ((receiveMacs_keeps _).map fun p => (p.1, p.2.1, p.2.2.2.2)) fun _ =>
    .bind ((receiveCot_keeps _).map fun p => (p.1, p.2.1, p.2.2.2.2)) fun _ =>
      (receiveDecodeInfo_keeps _ _).map fun p => (p.1, p.2.1, p.2.2.2)

theorem decodeMacs_keeps (blake3 : Blake3) :
    (decodeMacs blake3 : Method (EvaluatorStore C F) (EvaluatorStoreError E) _).Keeps
      fun s => (s.view, s.cot, s.macStore, s.keyBitStore, s.commitStore, s.queue, s.pending) :=
  .get_bind fun _ => .forEach (fun _ => .get_bind fun _ => .bind (.call _) fun _ =>
    .bind (.call _) fun _ => .bind (.call _) fun _ => .bind (.call _) fun _ =>
      .bind (.call _) fun _ => keeps_onData fun _ _ => rfl) _

theorem flushDecode_keeps (blake3 : Blake3) :
    (flushDecode blake3 : Method (EvaluatorStore C F) (EvaluatorStoreError E) _).Keeps
      fun s => (s.view, s.cot, s.macStore, s.keyBitStore, s.commitStore, s.pending) :=
  .bind ((decodeMacs_keeps blake3).map fun p =>
      (p.1, p.2.1, p.2.2.1, p.2.2.2.1, p.2.2.2.2.1, p.2.2.2.2.2.2)) fun _ =>
    .get_bind fun _ => keeps_onQueue fun _ _ => rfl

end Frames

/-! ### The operation that the view performs -/

variable {blake3 : Blake3} {s t : EvaluatorStore C F} {o : Outcome (EvaluatorStoreError E) Unit}

/-- A flush that is expected has its message received, and if that goes well the view completes. -/
theorem receiveFlush_cases [COTReceiver C E F] {flush : GarblerFlush}
    (h : receiveFlush blake3 flush s = (o, t)) :
    s.pending = none ∧ o = .err .unexpectedFlush ∧ t = s ∨
    ∃ pending, s.pending = some pending ∧
      (o ≠ .ok () ∧ receiveMessage pending.cot flush { s with pending := none } = (o, t) ∨
        ∃ s', receiveMessage (E := E) pending.cot flush { s with pending := none } = (.ok (), s') ∧
          s'.view = s.view ∧ s'.dataStore = s.dataStore ∧ s'.queue = s.queue ∧
          finishFlush blake3 s' = (o, t)) := by
  rw [receiveFlush, Method.get_bind, Method.modify_bind] at h
  rcases hpending : s.pending with _ | pending
  · rw [hpending] at h
    obtain ⟨rfl, rfl⟩ := Prod.mk.inj h
    refine .inl ⟨rfl, rfl, ?_⟩
    rw [← hpending]
  · rw [hpending] at h
    refine .inr ⟨pending, rfl, ?_⟩
    rcases Method.bind_cases h with ⟨_, s', hmessage, h⟩ | ⟨e, hmessage, rfl⟩ | ⟨hmessage, rfl⟩
    · have hkeeps := (receiveMessage_keeps (E := E) pending.cot flush).eq hmessage
      simp only [Prod.mk.injEq] at hkeeps
      obtain ⟨hview, -, hdata, hqueue, -⟩ := hkeeps
      exact .inr ⟨s', hmessage, hview, hdata, hqueue, h⟩
    · exact .inl ⟨nofun, hmessage⟩
    · exact .inl ⟨nofun, hmessage⟩

theorem onView_moves (op : View.Op) :
    (onView op.run : Method (EvaluatorStore C F) (EvaluatorStoreError E) _).Moves
      EvaluatorStore.view (View.Performs (some op)) := fun s => op.run_performs s.view

/-- **The view performs the operation of the store, or none.** -/
theorem Op.run_view [COTReceiver C E F] (blake3 : Blake3) (op : Op C) :
    (op.run blake3 : Method (EvaluatorStore C F) _ _).Moves EvaluatorStore.view
      (View.Performs op.view) := by
  have hrefl : ∀ {op : Op C} (v : View), View.Performs op.view v v := View.Performs.refl _
  cases op with
  | allocRaw size =>
    exact .bind_keeps ((onView_moves (.allocInput size)).bind_keeps fun _ =>
      (allocStores_keeps size).map Prod.fst) fun _ => .pure _
  | allocOutput size =>
    exact .bind_keeps ((onView_moves (.allocOutput size)).bind_keeps fun _ =>
      (allocStores_keeps size).map Prod.fst) fun _ => .pure _
  | setOutput slice macs =>
    exact (onView_moves (.setOutput slice.toRange)).bind_keeps fun _ => keeps_onMacs fun _ _ => rfl
  | markOutputPreprocessed slice => exact onView_moves _
  | markRaw visibility slice =>
    cases visibility with
    | pub => exact onView_moves _
    | priv => exact Method.Keeps.bind_moves hrefl (keeps_onCot fun _ _ => rfl) fun _ =>
        onView_moves _
    | blind => exact onView_moves _
  | assignRaw slice data =>
    exact (onView_moves _).bind_keeps fun _ => keeps_onData fun _ _ => rfl
  | commitRaw slice => exact onView_moves _
  | decodeRaw slice =>
    refine Method.Moves.bind_keeps ?_ fun _ => .pure _
    exact (onView_moves _).bind_keeps fun _ => .get_bind fun _ => keeps_onQueue fun _ _ => rfl
  | flushDecode => exact ((flushDecode_keeps blake3).map Prod.fst).moves hrefl
  | sendFlush =>
    exact Method.Keeps.moves hrefl (.bind ((sendFlush_keeps blake3).map Prod.fst) fun _ => .pure _)
  | receiveFlush flush =>
    intro s
    rcases h : EvaluatorStore.receiveFlush blake3 flush s with ⟨o, t⟩
    show View.Performs _ s.view (EvaluatorStore.receiveFlush blake3 flush s).2.view
    rw [h]
    rcases receiveFlush_cases h with
      ⟨-, -, rfl⟩ | ⟨pending, -, ⟨-, hmessage⟩ | ⟨s', -, hview, -, -, hfinish⟩⟩
    · exact hrefl _
    · have hkeeps := ((receiveMessage_keeps (E := E) pending.cot flush).map Prod.fst).eq hmessage
      exact .inl hkeeps
    · have hmoves := ((onView_moves (E := E) .completeFlush).bind_keeps fun _ =>
        (flushDecode_keeps blake3).map Prod.fst) s'
      have hrun := congrArg (fun p => p.2.view) hfinish
      exact hview ▸ hrun ▸ hmoves
  | acquireCot cot => exact fun _ => hrefl _

/-- **What waits was requested.** What holds of every request whose data is not there holds of all
that waits. -/
theorem Op.run_queue [COTReceiver C E F] {p : DecodeOp → Prop}
    (hnew : ∀ (d : BitStore) slice e chan, d.tryGet slice = .err e → p ⟨slice, some chan⟩)
    (blake3 : Blake3) (op : Op C) :
    (op.run blake3).Preserves fun s : EvaluatorStore C F => s.queue.All p := by
  have hqueue : ∀ {α} {m : Method DecodeQueue DecodeOpError α}, m.Preserves (DecodeQueue.All p) →
      (onQueue m : Method (EvaluatorStore C F) (EvaluatorStoreError E) _).Preserves
        fun s => s.queue.All p := fun h => .zoom h (fun _ hs => hs) fun _ _ _ hq => hq
  have hkeeps : (op.run blake3).Keeps EvaluatorStore.queue →
      (op.run blake3).Preserves fun s : EvaluatorStore C F => s.queue.All p := fun h =>
    h.preserves _
  have hview : ∀ {α} {m : Method View ViewError α}, (onView m :
      Method (EvaluatorStore C F) (EvaluatorStoreError E) _).Keeps EvaluatorStore.queue :=
    keeps_onView fun _ _ => rfl
  have hflush : (EvaluatorStore.flushDecode blake3 :
      Method (EvaluatorStore C F) (EvaluatorStoreError E) _).Preserves fun s => s.queue.All p :=
    .bind (((decodeMacs_keeps blake3).map fun q => q.2.2.2.2.2.1).preserves _) fun _ =>
      .read fun s => hqueue (DecodeQueue.All.flush _)
  cases op with
  | allocRaw size =>
    exact hkeeps (.bind (.bind hview fun _ => (allocStores_keeps size).map fun q => q.2.1) fun _ =>
      .pure _)
  | allocOutput size =>
    exact hkeeps (.bind (.bind hview fun _ => (allocStores_keeps size).map fun q => q.2.1) fun _ =>
      .pure _)
  | setOutput slice macs => exact hkeeps (.bind hview fun _ => keeps_onMacs fun _ _ => rfl)
  | markOutputPreprocessed slice => exact hkeeps hview
  | markRaw visibility slice =>
    refine hkeeps ?_
    cases visibility with
    | priv => exact .bind (keeps_onCot fun _ _ => rfl) fun _ => hview
    | _ => exact hview
  | assignRaw slice data => exact hkeeps (.bind hview fun _ => keeps_onData fun _ _ => rfl)
  | commitRaw slice => exact hkeeps hview
  | decodeRaw slice =>
    exact .bind (.bind (hview.preserves _) fun _ => .read fun s =>
      hqueue (DecodeQueue.All.request fun _ _ => hnew _ _ _ _)) fun _ => .pure _
  | flushDecode => exact hflush
  | sendFlush =>
    exact hkeeps (.bind ((sendFlush_keeps blake3).map fun q => q.2.2.2.2.2) fun _ => .pure _)
  | receiveFlush flush =>
    refine .read fun s => .bind (fun _ h => h) fun _ => ?_
    cases s.pending with
    | none => exact .throw _
    | some pending =>
      refine .bind (((receiveMessage_keeps pending.cot flush).map fun q => q.2.2.2.1).preserves _)
        fun _ => .bind (hview.preserves _) fun _ => hflush
  | acquireCot cot => exact fun _ h => h

/-- An operation, and the store that it leaves, whatever it returns. -/
def Step [COTReceiver C E F] (blake3 : Blake3) (s : EvaluatorStore C F) (op : Op C)
    (t : EvaluatorStore C F) : Prop := (op.run (E := E) blake3 s).2 = t

theorem Step.view [COTReceiver C E F] {op : Op C} (h : Step blake3 s op t) :
    View.Performs op.view s.view t.view := h ▸ op.run_view blake3 s

/-- The view of a reachable store is a reachable view. -/
theorem inv_of_run [COTReceiver C E F] {cot : C} {ops : List (Op C)}
    (h : Run (Step blake3) (new cot) ops s) : s.view.Inv :=
  h.invariant (P := fun s : EvaluatorStore C F => s.view.Inv) (View.inv_new .evaluator)
    fun _ _ _ hs hstep => hstep.view.inv hs

end EvaluatorStore

end Mpz.Garble
