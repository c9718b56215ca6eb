import Mpz.Garble.SharedView
import Mpz.Memory.Decode
import Mpz.Memory.KeyStore
import Mpz.Memory.WriteOnce
import Mpz.Ot.Cot

/-!
# The memory store of the garbler

The store draws a key for every input, hands the keys over when inputs are committed, and stores
what the evaluator proves to it. The sender of the correlated oblivious transfer and the generator
of the keys are parameters: what is sent is accepted or refused, and the blocks are an arbitrary
sequence.

## Main definitions

* `GarblerFlush`, `EvaluatorFlush`, `GarblerStore`
* `GarblerStore.sendFlush`, `GarblerStore.receiveFlush`
* `GarblerStore.Op`, `GarblerStore.Op.run` — the operations
* `GarblerStore.verified` — the bits that a flush proves

## Main results

* `GarblerStore.Op.run_view` — the operation that the view performs
* `GarblerStore.Op.run_data` — where the data comes from
* `GarblerStore.Op.run_handedOnce` — no key is handed over twice
-/

namespace Mpz.Garble

/-- Flush message sent by the garbler. -/
structure GarblerFlush where
  /-- MACs sent directly to the evaluator. -/
  macs : List Mac
  /-- Key bits for decoding. -/
  keyBits : List Bool
  /-- MAC commitments sent for decoding. -/
  macCommitments : List MacCommitment
  deriving DecidableEq, Repr

/-- MAC proof sent from the evaluator to the garbler to prove the output of a circuit. -/
structure MacProof where
  /-- The pointer bits of the MACs. -/
  bits : List Bool
  /-- The hash of the MACs. -/
  proof : Hash
  deriving DecidableEq, Repr

/-- Flush message sent by the evaluator. -/
structure EvaluatorFlush where
  /-- Proof of MACs for decoding. -/
  macProof : Option MacProof
  deriving DecidableEq, Repr

/-- Error for a garbler store. -/
inductive GarblerStoreError (E : Type) where
  /-- cot error -/
  | cot (e : E)
  /-- An error of the key store. -/
  | keyStore (e : KeyStoreError)
  /-- An error of a store. -/
  | store (e : StoreError)
  /-- decode operation was dropped. -/
  | decode
  /-- An error of the view. -/
  | view (e : ViewError)
  /-- evaluator sent incorrect number of MAC bits -/
  | incorrectMacCount (expected actual : ℕ)
  /-- store was not expecting a flush -/
  | unexpectedFlush
  deriving DecidableEq, Repr

/-- The conversion of an error of a decode operation. -/
def GarblerStoreError.ofDecode {E : Type} : DecodeOpError → GarblerStoreError E
  | .store e => .store e
  | .decode => .decode

/-- Garbler memory store. -/
structure GarblerStore (C : Type) where
  /-- The COT sender. -/
  cot : C
  /-- The blocks that are drawn next. -/
  prg : ℕ → Block
  /-- The keys. -/
  keyStore : KeyStore
  /-- The data. -/
  dataStore : BitStore
  /-- The view. -/
  view : View
  /-- The requests that wait, `buffer_decode`. -/
  queue : DecodeQueue
  /-- Whether the store is waiting for a flush. -/
  pending : Bool

namespace GarblerStore

variable {C E : Type}

/-- Creates a new garbler store. -/
def new (prg : ℕ → Block) (delta : Delta) (cot : C) : GarblerStore C where
  cot := cot
  prg := prg
  keyStore := .new delta
  dataStore := .new
  view := .newGarbler
  queue := .new
  pending := false

/-- A call on the COT sender. -/
def onCot {α : Type} (m : Method C E α) : Method (GarblerStore C) (GarblerStoreError E) α :=
  Method.zoom cot (fun self cot => { self with cot }) .cot m

/-- A call on the key store. -/
def onKeys {α : Type} (m : Method KeyStore KeyStoreError α) :
    Method (GarblerStore C) (GarblerStoreError E) α :=
  Method.zoom keyStore (fun self keyStore => { self with keyStore }) .keyStore m

/-- A call on the data store. -/
def onData {α : Type} (m : Method BitStore StoreError α) :
    Method (GarblerStore C) (GarblerStoreError E) α :=
  Method.zoom dataStore (fun self dataStore => { self with dataStore }) .store m

/-- A call on the view. -/
def onView {α : Type} (m : Method View ViewError α) :
    Method (GarblerStore C) (GarblerStoreError E) α :=
  Method.zoom view (fun self view => { self with view }) .view m

/-- A call on the requests that wait. -/
def onQueue {α : Type} (m : Method DecodeQueue DecodeOpError α) :
    Method (GarblerStore C) (GarblerStoreError E) α :=
  Method.zoom queue (fun self queue => { self with queue }) .ofDecode m

/-- Returns whether all the keys are set. -/
def isSetKeys (self : GarblerStore C) (slice : Slice) : Bool := self.keyStore.isSet slice

/-- Returns whether the slice is committed. -/
def isCommitted (self : GarblerStore C) (slice : Slice) : Bool :=
  self.view.isCommitted slice.toRange

/-- Returns keys if they are set. -/
def tryGetKeys (self : GarblerStore C) (slice : Slice) :
    Outcome (GarblerStoreError E) (List Key) :=
  (self.keyStore.tryGet slice).mapErr .keyStore

/-- Allocates memory for input values, with new keys. -/
def allocRaw (size : ℕ) : Method (GarblerStore C) (GarblerStoreError E) Slice := do
  let self ← Method.get
  let keys := List.ofFn fun i : Fin size => (⟨self.prg i⟩ : Key)
  Method.modify fun self => { self with prg := fun i => self.prg (size + i) }
  onView (View.allocInput size)
  let _ ← onKeys (KeyStore.allocWith keys)
  onData (Store.alloc size)

/-- Allocates uninitialized memory for output values. -/
def allocOutput (len : ℕ) : Method (GarblerStore C) (GarblerStoreError E) Slice := do
  onView (View.allocOutput len)
  let _ ← onKeys (KeyStore.alloc len)
  onData (Store.alloc len)

/-- Sets the keys for output data. -/
def setOutput (slice : Slice) (keys : List Key) :
    Method (GarblerStore C) (GarblerStoreError E) Unit := do
  onKeys (KeyStore.trySet slice keys)
  onView (View.setPreprocessed slice.toRange)

/-- Marks an output as executed. -/
def markOutputComplete (slice : Slice) : Method (GarblerStore C) (GarblerStoreError E) Unit :=
  onView (View.setOutput slice.toRange)

/-- Returns `true` if the store wants to flush. -/
def wantsFlush (self : GarblerStore C) : Bool := self.view.wantsFlush

/-- Flushes decode operations. -/
def flushDecode : Method (GarblerStore C) (GarblerStoreError E) Unit := do
  let self ← Method.get
  onQueue (DecodeQueue.flush self.dataStore)

/-- Collects the MACs of committed data. -/
def sendMacs (macs : RangeSet) : Method (GarblerStore C) (GarblerStoreError E) (List Mac) :=
  Method.collect (fun range => do
    let self ← Method.get
    let slice := Slice.fromRange range
    let data ← Method.call ((self.dataStore.tryGet slice).mapErr .store)
    onKeys (KeyStore.authenticate slice data)) macs.iter

/-- Sends keys for OT. -/
def sendKeys [COTSender C E] (ot : RangeSet) : Method (GarblerStore C) (GarblerStoreError E) Unit :=
  if ot = ∅ then
    return ()
  else do
    let keys ← Method.collect (fun range =>
      onKeys (KeyStore.obliviousTransfer (Slice.fromRange range))) ot.iter
    onCot (COTSender.queueSendCot (keys.map Key.block))

/-- Collects what is read from the key store, range by range. -/
def collectKeys {α : Type} (f : KeyStore → Slice → Outcome KeyStoreError (List α))
    (ranges : RangeSet) : Method (GarblerStore C) (GarblerStoreError E) (List α) :=
  Method.collect (fun range => do
    let self ← Method.get
    Method.call ((f self.keyStore (Slice.fromRange range)).mapErr .keyStore)) ranges.iter

/-- Sends a flush to the evaluator. This queues any necessary COTs. -/
def sendFlush [COTSender C E] (blake3 : Blake3) :
    Method (GarblerStore C) (GarblerStoreError E) GarblerFlush := do
  let self ← Method.get
  if self.pending then
    Method.throw .unexpectedFlush
  else do
    let view := self.view.flush
    let macs ← sendMacs view.macs
    sendKeys view.ot
    let keyBits ← collectKeys KeyStore.tryGetBits view.decodeInfo
    let macCommitments ← collectKeys (KeyStore.commit blake3) view.decodeInfo
    Method.modify fun self => { self with pending := true }
    return { macs, keyBits, macCommitments }

/-- Verifies MACs and stores the data. -/
def receiveProof (blake3 : Blake3) : Option MacProof →
    Method (GarblerStore C) (GarblerStoreError E) Unit
  | none => return ()
  | some ⟨bits, proof⟩ => do
    let self ← Method.get
    let decode := self.view.flush.decode
    if bits.length ≠ decode.card then
      Method.throw (.incorrectMacCount decode.card bits.length)
    else do
      let bits ← Method.call ((self.keyStore.verify blake3 decode bits proof).mapErr .keyStore)
      onData (Store.trySetRanges decode.iter bits)

/-- Receives a flush from the evaluator. -/
def receiveFlush (blake3 : Blake3) (flush : EvaluatorFlush) :
    Method (GarblerStore C) (GarblerStoreError E) Unit := do
  let self ← Method.get
  if ¬ self.pending then
    Method.throw .unexpectedFlush
  else do
    receiveProof blake3 flush.macProof
    onView View.completeFlush
    flushDecode
    Method.modify fun self => { self with pending := false }

/-- Assigns data to input memory. -/
def assignRaw (slice : Slice) (data : List Bool) :
    Method (GarblerStore C) (GarblerStoreError E) Unit := do
  onView (View.assign slice.toRange)
  onData (Store.trySet slice data)

/-- Commits input memory. -/
def commitRaw (slice : Slice) : Method (GarblerStore C) (GarblerStoreError E) Unit :=
  onView (View.commit slice.toRange)

/-- Requests memory to be decoded, returning the number of the future. -/
def decodeRaw (slice : Slice) : Method (GarblerStore C) (GarblerStoreError E) ℕ := do
  onView (View.requestDecode slice.toRange)
  let self ← Method.get
  onQueue (DecodeQueue.request self.dataStore slice)

/-- `mark_public_raw`, `mark_private_raw` and `mark_blind_raw`. -/
def markRaw [COTSender C E] (visibility : Visibility) (slice : Slice) :
    Method (GarblerStore C) (GarblerStoreError E) Unit :=
  match visibility with
  | .pub => onView (View.markPublic slice.toRange)
  | .priv => onView (View.markPrivate slice.toRange)
  | .blind => do
    -- Allocate COTs for blind data.
    onCot (COTSender.alloc slice.size)
    onView (View.markBlind slice.toRange)

/-- The operations of a garbler store. -/
inductive Op (C : Type) where
  /-- `alloc_raw` -/
  | allocRaw (size : ℕ)
  /-- `alloc_output` -/
  | allocOutput (len : ℕ)
  /-- `set_output` -/
  | setOutput (slice : Slice) (keys : List Key)
  /-- `mark_output_complete` -/
  | markOutputComplete (slice : Slice)
  /-- `mark_public_raw`, `mark_private_raw` or `mark_blind_raw` -/
  | markRaw (visibility : Visibility) (slice : Slice)
  /-- `assign_raw` -/
  | assignRaw (slice : Slice) (data : List Bool)
  /-- `commit_raw` -/
  | commitRaw (slice : Slice)
  /-- `decode_raw` -/
  | decodeRaw (slice : Slice)
  /-- `send_flush` -/
  | sendFlush
  /-- `receive_flush` -/
  | receiveFlush (flush : EvaluatorFlush)
  /-- `acquire_cot`, and what the holder of the lock leaves. -/
  | acquireCot (cot : C)

/-- The operation, as a call. -/
def Op.run [COTSender C E] (blake3 : Blake3) :
    Op C → Method (GarblerStore C) (GarblerStoreError E) Unit
  | allocRaw size => do
    let _ ← GarblerStore.allocRaw size
  | allocOutput len => do
    let _ ← GarblerStore.allocOutput len
  | setOutput slice keys => GarblerStore.setOutput slice keys
  | markOutputComplete slice => GarblerStore.markOutputComplete slice
  | markRaw visibility slice => GarblerStore.markRaw visibility slice
  | assignRaw slice data => GarblerStore.assignRaw slice data
  | commitRaw slice => GarblerStore.commitRaw slice
  | decodeRaw slice => do
    let _ ← GarblerStore.decodeRaw slice
  | sendFlush => do
    let _ ← GarblerStore.sendFlush blake3
  | receiveFlush flush => GarblerStore.receiveFlush blake3 flush
  | acquireCot cot => Method.modify fun self => { self with cot }

/-- What an operation has the view perform, if it comes to that. -/
def Op.view : Op C → Option View.Op
  | allocRaw size => some (.allocInput size)
  | allocOutput len => some (.allocOutput len)
  | setOutput slice _ => some (.setPreprocessed slice.toRange)
  | markOutputComplete slice => some (.setOutput slice.toRange)
  | markRaw visibility slice => some (.mark visibility slice.toRange)
  | assignRaw slice _ => some (.assign slice.toRange)
  | commitRaw slice => some (.commit slice.toRange)
  | decodeRaw slice => some (.decode slice.toRange)
  | sendFlush => none
  | receiveFlush _ => some .completeFlush
  | acquireCot _ => none

/-- The bits that a flush proves, with their indices. -/
def verified (blake3 : Blake3) (self : GarblerStore C) (flush : EvaluatorFlush) :
    List (ℕ × Bool) :=
  match flush.macProof with
  | none => []
  | some ⟨bits, proof⟩ =>
    let decode := self.view.flush.decode
    if self.pending ∧ bits.length = decode.card then
      match self.keyStore.verify blake3 decode bits proof with
      | .ok data => decode.indices.zip data
      | _ => []
    else []

/-- The bits that are proven by an operation. -/
def Op.verified (blake3 : Blake3) (self : GarblerStore C) : Op C → List (ℕ × Bool)
  | receiveFlush flush => self.verified blake3 flush
  | _ => []

/-! ### The parts of the store that a call leaves alone -/

section Frames

variable {α τ : Type} {proj : GarblerStore C → τ}

theorem keeps_onCot {m : Method C E α} (h : ∀ s cot, proj { s with cot } = proj s) :
    (onCot m).Keeps proj := Method.Keeps.zoom h

theorem keeps_onKeys {m : Method KeyStore KeyStoreError α}
    (h : ∀ s keyStore, proj { s with keyStore } = proj s) :
    (onKeys m : Method _ (GarblerStoreError E) _).Keeps proj := Method.Keeps.zoom h

theorem keeps_onData {m : Method BitStore StoreError α}
    (h : ∀ s dataStore, proj { s with dataStore } = proj s) :
    (onData m : Method _ (GarblerStoreError E) _).Keeps proj := Method.Keeps.zoom h

theorem keeps_onView {m : Method View ViewError α} (h : ∀ s view, proj { s with view } = proj s) :
    (onView m : Method _ (GarblerStoreError E) _).Keeps proj := Method.Keeps.zoom h

theorem keeps_onQueue {m : Method DecodeQueue DecodeOpError α}
    (h : ∀ s queue, proj { s with queue } = proj s) :
    (onQueue m : Method _ (GarblerStoreError E) _).Keeps proj := Method.Keeps.zoom h

/-- Sending a flush changes neither the view nor the data. -/
theorem sendFlush_keeps [COTSender C E] (blake3 : Blake3) :
    (sendFlush blake3 : Method (GarblerStore C) (GarblerStoreError E) _).Keeps
      fun s => (s.view, s.dataStore, s.queue) := by
  have hcollect : ∀ {α} (f : KeyStore → Slice → Outcome KeyStoreError (List α)) ranges,
      (collectKeys f ranges : Method (GarblerStore C) (GarblerStoreError E) _).Keeps
        fun s => (s.view, s.dataStore, s.queue) := fun f ranges =>
    Method.Keeps.collect (fun _ => .get_bind fun _ => .call _) _
  refine .get_bind fun s => .ite (.throw _) (.bind ?_ fun _ => .bind ?_ fun _ => ?_)
  · exact .collect (fun _ => .get_bind fun _ => .bind (.call _) fun _ =>
      keeps_onKeys fun _ _ => rfl) _
  · exact .ite (.pure _) (.bind (.collect (fun _ => keeps_onKeys fun _ _ => rfl) _) fun _ =>
      keeps_onCot fun _ _ => rfl)
  · exact .bind (hcollect _ _) fun _ => .bind (hcollect _ _) fun _ => .bind (fun _ => rfl) fun _ =>
      .pure _

theorem flushDecode_keeps :
    (flushDecode : Method (GarblerStore C) (GarblerStoreError E) _).Keeps
      fun s => (s.view, s.dataStore, s.keyStore) :=
  .get_bind fun _ => keeps_onQueue fun _ _ => rfl

theorem receiveProof_keeps (blake3 : Blake3) (proof : Option MacProof) :
    (receiveProof blake3 proof : Method (GarblerStore C) (GarblerStoreError E) _).Keeps
      fun s => (s.view, s.keyStore, s.queue) := by
  cases proof with
  | none => exact .pure _
  | some proof =>
    exact .get_bind fun _ => .ite (.throw _) (.bind (.call _) fun _ => keeps_onData fun _ _ => rfl)

end Frames

/-! ### The operation that the view performs -/

theorem onView_moves (op : View.Op) :
    (onView op.run : Method (GarblerStore C) (GarblerStoreError E) _).Moves GarblerStore.view
      (View.Performs (some op)) := fun s => op.run_performs s.view

/-- **The view performs the operation of the store, or none.** -/
theorem Op.run_view [COTSender C E] (blake3 : Blake3) (op : Op C) :
    (op.run blake3).Moves GarblerStore.view (View.Performs op.view) := by
  have hrefl : ∀ {op : Op C} (v : View), View.Performs op.view v v := View.Performs.refl _
  cases op with
  | allocRaw size =>
    refine Method.Moves.bind_keeps (.get_bind fun s => ?_) fun _ => .pure _
    have hview : (Method.modify fun self : GarblerStore C =>
        { self with prg := fun i => self.prg (size + i) } :
        Method _ (GarblerStoreError E) _).Keeps GarblerStore.view := fun _ => rfl
    refine hview.bind_moves hrefl (fun _ => ?_) s
    exact (onView_moves (.allocInput size)).bind_keeps fun _ =>
      .bind (keeps_onKeys fun _ _ => rfl) fun _ => keeps_onData fun _ _ => rfl
  | allocOutput len =>
    refine Method.Moves.bind_keeps ?_ fun _ => .pure _
    exact (onView_moves (.allocOutput len)).bind_keeps fun _ =>
      .bind (keeps_onKeys fun _ _ => rfl) fun _ => keeps_onData fun _ _ => rfl
  | setOutput slice keys =>
    exact Method.Keeps.bind_moves hrefl (keeps_onKeys fun _ _ => rfl) fun _ => onView_moves _
  | markOutputComplete slice => exact onView_moves _
  | markRaw visibility slice =>
    cases visibility with
    | pub => exact onView_moves _
    | priv => exact onView_moves _
    | blind => exact Method.Keeps.bind_moves hrefl (keeps_onCot fun _ _ => rfl) fun _ =>
        onView_moves _
  | assignRaw slice data =>
    exact (onView_moves _).bind_keeps fun _ => keeps_onData fun _ _ => rfl
  | commitRaw slice => exact onView_moves _
  | decodeRaw slice =>
    refine Method.Moves.bind_keeps ?_ fun _ => .pure _
    exact (onView_moves _).bind_keeps fun _ => .get_bind fun _ => keeps_onQueue fun _ _ => rfl
  | sendFlush =>
    exact Method.Keeps.moves hrefl (.bind ((sendFlush_keeps blake3).map Prod.fst) fun _ => .pure _)
  | receiveFlush flush =>
    refine .get_bind fun s => ?_
    rw [Method.ite_apply]
    split
    · exact hrefl _
    refine Method.Keeps.bind_moves hrefl ((receiveProof_keeps blake3 _).map Prod.fst)
      (fun _ => ?_) s
    exact (onView_moves .completeFlush).bind_keeps fun _ =>
      .bind (flushDecode_keeps.map Prod.fst) fun _ _ => rfl
  | acquireCot cot => exact fun _ => hrefl _

/-! ### What a flush stores -/

variable {blake3 : Blake3} {s t : GarblerStore C} {o : Outcome (GarblerStoreError E) Unit}

/-- A proof stores what it verifies to, or nothing. -/
theorem receiveProof_cases {proof : Option MacProof} (h : receiveProof blake3 proof s = (o, t)) :
    t = s ∧ (o = .ok () → proof = none) ∨
    ∃ bits hash data p d, proof = some ⟨bits, hash⟩ ∧ bits.length = s.view.flush.decode.card ∧
      s.keyStore.verify blake3 s.view.flush.decode bits hash = .ok data ∧
      Store.trySetRanges s.view.flush.decode.iter data s.dataStore = (p, d) ∧
      o = p.mapErr .store ∧ t = { s with dataStore := d } := by
  rcases proof with _ | ⟨bits, hash⟩
  · exact .inl ⟨(Prod.mk.inj h).2.symm, fun _ => rfl⟩
  rw [receiveProof, Method.get_bind, Method.ite_apply] at h
  split at h
  case isTrue => exact .inl ⟨(Prod.mk.inj h).2.symm, fun ho => nomatch ho ▸ (Prod.mk.inj h).1⟩
  case isFalse hlen =>
    rw [Method.bind_apply, Method.call_apply] at h
    cases hverify : s.keyStore.verify blake3 s.view.flush.decode bits hash with
    | ok data =>
      rw [hverify] at h
      obtain ⟨rfl, rfl⟩ := Prod.mk.inj h
      exact .inr ⟨bits, hash, data, _, _, rfl, not_not.mp hlen, hverify, rfl, rfl, rfl⟩
    | err e =>
      rw [hverify] at h
      exact .inl ⟨(Prod.mk.inj h).2.symm, fun ho => nomatch ho ▸ (Prod.mk.inj h).1⟩
    | panic =>
      rw [hverify] at h
      exact .inl ⟨(Prod.mk.inj h).2.symm, fun ho => nomatch ho ▸ (Prod.mk.inj h).1⟩

/-- A flush that is expected has its proof received, and if that goes well the view completes. -/
theorem receiveFlush_cases {flush : EvaluatorFlush} (h : receiveFlush blake3 flush s = (o, t)) :
    s.pending = false ∧ o = .err .unexpectedFlush ∧ t = s ∨
    s.pending = true ∧ (o ≠ .ok () ∧ receiveProof blake3 flush.macProof s = (o, t) ∨
      ∃ s', receiveProof (E := E) blake3 flush.macProof s = (.ok (), s') ∧
        t.dataStore = s'.dataStore ∧ t.view = (View.completeFlush s'.view).2 ∧
        ∀ e, o = .err e → ∃ e', (DecodeQueue.flush s'.dataStore s'.queue).1 = .err e') := by
  rw [receiveFlush, Method.get_bind, Method.ite_apply] at h
  split at h
  case isTrue hpending =>
    obtain ⟨rfl, rfl⟩ := Prod.mk.inj h
    exact .inl ⟨by simpa using hpending, rfl, rfl⟩
  case isFalse hpending =>
    refine .inr ⟨by simpa using hpending, ?_⟩
    rcases Method.bind_cases h with ⟨_, s', hproof, h⟩ | ⟨e, hproof, rfl⟩ | ⟨hproof, rfl⟩
    · refine .inr ⟨s', hproof, ?_⟩
      have hview : (onView View.completeFlush s' : Outcome (GarblerStoreError E) Unit × _) =
        (.ok (), { s' with view := (View.completeFlush s'.view).2 }) := rfl
      rw [Method.bind_apply_of_ok hview] at h
      have hkeeps : (do
          flushDecode
          Method.modify fun self => { self with pending := false } :
          Method (GarblerStore C) (GarblerStoreError E) Unit).Keeps
            fun s => (s.view, s.dataStore) :=
        .bind (flushDecode_keeps.map fun p => (p.1, p.2.1)) fun _ _ => rfl
      obtain ⟨hview, hdata⟩ := Prod.mk.inj (hkeeps.eq h)
      refine ⟨hdata, hview, ?_⟩
      rintro e rfl
      rcases Method.bind_cases h with ⟨_, _, -, h⟩ | ⟨e', hflush, -⟩ | ⟨-, h⟩
      · cases h
      · have herr := congrArg Prod.fst hflush
        change (Outcome.mapErr _ (DecodeQueue.flush s'.dataStore s'.queue).1) = _ at herr
        cases hq : (DecodeQueue.flush s'.dataStore s'.queue).1 with
        | err e => exact ⟨e, rfl⟩
        | _ => cases hq ▸ herr
      · cases h
    · exact .inl ⟨nofun, hproof⟩
    · exact .inl ⟨nofun, hproof⟩

/-- A bit that a flush proves is of an index that the view expects it for. -/
theorem mem_decode_of_mem_verified {flush : EvaluatorFlush} {i : ℕ} {b : Bool}
    (h : (i, b) ∈ s.verified blake3 flush) : i ∈ s.view.flush.decode := by
  unfold verified at h
  split at h
  case h_1 => exact absurd h List.not_mem_nil
  case h_2 =>
    dsimp only at h
    split at h
    case isFalse => exact absurd h List.not_mem_nil
    case isTrue =>
      split at h
      · exact RangeSet.mem_indices.mp (List.of_mem_zip h).1
      · exact absurd h List.not_mem_nil

theorem verified_eq {flush : EvaluatorFlush} {bits data : List Bool} {hash : Hash}
    (hpending : s.pending = true) (hproof : flush.macProof = some ⟨bits, hash⟩)
    (hlen : bits.length = s.view.flush.decode.card)
    (hverify : s.keyStore.verify blake3 s.view.flush.decode bits hash = .ok data) :
    s.verified blake3 flush = s.view.flush.decode.indices.zip data := by
  simp only [verified, hproof, hpending, hlen, hverify, and_self, if_true]

/-- **Where the data comes from.** A call leaves what is stored, and adds assigned bits where the
view is visible and proven bits where a flush is received. -/
theorem Op.run_data [COTSender C E] {op : Op C} (ho : o ≠ .panic)
    (h : op.run blake3 s = (o, t)) :
    s.dataStore.Fills
      (fun i b => i ∈ s.view.vis.visibleRanges ∨ (i, b) ∈ op.verified blake3 s) t.dataStore := by
  have hkeeps : (op.run blake3 : Method _ (GarblerStoreError E) _).Keeps GarblerStore.dataStore →
      s.dataStore.Fills (fun i b => i ∈ s.view.vis.visibleRanges ∨
        (i, b) ∈ op.verified blake3 s) t.dataStore := fun hkeeps => by
    rw [hkeeps.eq h]
    exact .refl _ _
  cases op with
  | allocRaw size =>
    obtain rfl := (Prod.mk.inj h).2
    exact .extend _ _ _
  | allocOutput len =>
    obtain rfl := (Prod.mk.inj h).2
    exact .extend _ _ _
  | setOutput slice keys =>
    exact hkeeps (.bind (keeps_onKeys fun _ _ => rfl) fun _ => keeps_onView fun _ _ => rfl)
  | markOutputComplete slice => exact hkeeps (keeps_onView fun _ _ => rfl)
  | markRaw visibility slice =>
    refine hkeeps ?_
    cases visibility with
    | blind => exact .bind (keeps_onCot fun _ _ => rfl) fun _ => keeps_onView fun _ _ => rfl
    | _ => exact keeps_onView fun _ _ => rfl
  | assignRaw slice data =>
    rcases Method.bind_cases h with ⟨_, s', hview, hdata⟩ | ⟨e, hview, rfl⟩ | ⟨-, rfl⟩
    · obtain ⟨w, hassign, rfl⟩ := Method.zoom_eq_ok.mp hview
      rcases hset : Store.trySet slice data s.dataStore with ⟨p, d⟩
      have hdata' : (p.mapErr GarblerStoreError.store, { s with view := w, dataStore := d }) =
          (o, t) := by
        rw [← hdata, onData, Method.zoom_apply]
        simp only [hset]
      obtain ⟨rfl, rfl⟩ := Prod.mk.inj hdata'
      refine (Store.Fills.trySet (fun hp => ho (by rw [hp]; rfl)) hset).mono fun i b hi => ?_
      exact .inl ((View.assign_eq_ok hassign).1 hi)
    · rw [(keeps_onView fun _ _ => rfl : (onView _ : Method _ (GarblerStoreError E) _).Keeps
        GarblerStore.dataStore).eq hview]
      exact .refl _ _
    · exact absurd rfl ho
  | commitRaw slice => exact hkeeps (keeps_onView fun _ _ => rfl)
  | decodeRaw slice =>
    exact hkeeps (.bind (.bind (keeps_onView fun _ _ => rfl) fun _ => .get_bind fun _ =>
      keeps_onQueue fun _ _ => rfl) fun _ => .pure _)
  | sendFlush => exact hkeeps (.bind ((sendFlush_keeps blake3).map fun p => p.2.1) fun _ => .pure _)
  | receiveFlush flush =>
    have hproof : ∀ {p : Outcome (GarblerStoreError E) Unit} {s'}, p ≠ .panic →
        s.pending = true → receiveProof blake3 flush.macProof s = (p, s') →
        s.dataStore.Fills (fun i b => i ∈ s.view.vis.visibleRanges ∨
          (i, b) ∈ s.verified blake3 flush) s'.dataStore := by
      intro p s' hp hpending hproof
      rcases receiveProof_cases hproof with
        ⟨rfl, -⟩ | ⟨bits, hash, data, q, d, hsome, hlen, hverify, hset, rfl, rfl⟩
      · exact .refl _ _
      · rw [verified_eq hpending hsome hlen hverify]
        exact (Store.Fills.trySetRanges (fun hq => hp (by rw [hq]; rfl)) hset).mono
          fun _ _ => .inr
    rcases receiveFlush_cases h with ⟨-, -, rfl⟩ | ⟨hpending, ⟨-, hfail⟩ | ⟨s', hok, hdata, -⟩⟩
    · exact .refl _ _
    · exact hproof ho hpending hfail
    · rw [hdata]
      exact hproof (p := .ok ()) nofun hpending hok
  | acquireCot cot => exact hkeeps fun _ => rfl

/-- **What waits was requested.** What holds of every request whose data is not there holds of all
that waits. -/
theorem Op.run_queue [COTSender C E] {p : DecodeOp → Prop}
    (hnew : ∀ (d : BitStore) slice e chan, d.tryGet slice = .err e → p ⟨slice, some chan⟩)
    (blake3 : Blake3) (op : Op C) :
    (op.run blake3).Preserves fun s : GarblerStore C => s.queue.All p := by
  have hqueue : ∀ {α} {m : Method DecodeQueue DecodeOpError α}, m.Preserves (DecodeQueue.All p) →
      (onQueue m : Method (GarblerStore C) (GarblerStoreError E) _).Preserves
        fun s => s.queue.All p := fun h => .zoom h (fun _ hs => hs) fun _ _ _ hq => hq
  have hkeeps : (op.run blake3).Keeps GarblerStore.queue →
      (op.run blake3).Preserves fun s : GarblerStore C => s.queue.All p := fun h => h.preserves _
  have hview : ∀ {α} {m : Method View ViewError α}, (onView m :
      Method (GarblerStore C) (GarblerStoreError E) _).Keeps GarblerStore.queue :=
    keeps_onView fun _ _ => rfl
  cases op with
  | allocRaw size => exact fun s hs => hs
  | allocOutput len => exact fun s hs => hs
  | setOutput slice keys => exact hkeeps (.bind (keeps_onKeys fun _ _ => rfl) fun _ => hview)
  | markOutputComplete slice => exact hkeeps hview
  | markRaw visibility slice =>
    refine hkeeps ?_
    cases visibility with
    | blind => exact .bind (keeps_onCot fun _ _ => rfl) fun _ => hview
    | _ => exact hview
  | assignRaw slice data => exact hkeeps (.bind hview fun _ => keeps_onData fun _ _ => rfl)
  | commitRaw slice => exact hkeeps hview
  | decodeRaw slice =>
    exact .bind (.bind (hview.preserves _) fun _ => .read fun s =>
      hqueue (DecodeQueue.All.request fun _ _ => hnew _ _ _ _)) fun _ => .pure _
  | sendFlush =>
    exact hkeeps (.bind ((sendFlush_keeps blake3).map fun p => p.2.2) fun _ => .pure _)
  | receiveFlush flush =>
    refine .read fun s => .ite (.throw _) (.bind ?_ fun _ => .bind (hview.preserves _) fun _ =>
      .bind (.read fun s => hqueue (DecodeQueue.All.flush _)) fun _ _ h => h)
    exact ((receiveProof_keeps blake3 _).map fun p => p.2.2).preserves _
  | acquireCot cot => exact fun _ h => h

/-! ### No key is handed over twice -/

theorem handedOnce_onKeys {α : Type} {m : Method KeyStore KeyStoreError α}
    (h : m.Preserves KeyStore.HandedOnce) :
    (onKeys m : Method (GarblerStore C) (GarblerStoreError E) α).Preserves
      fun s => s.keyStore.HandedOnce :=
  Method.Preserves.zoom h (fun _ hs => hs) fun _ _ _ hk => hk

theorem handedOnce_of_keeps {α : Type} {m : Method (GarblerStore C) (GarblerStoreError E) α}
    (h : m.Keeps GarblerStore.keyStore) : m.Preserves fun s => s.keyStore.HandedOnce :=
  h.preserves _

/-- Where a flush fails half way, what was handed over so far stays used. -/
theorem sendFlush_handedOnce [COTSender C E] (blake3 : Blake3) :
    (sendFlush blake3 : Method (GarblerStore C) (GarblerStoreError E) _).Preserves
      fun s => s.keyStore.HandedOnce := by
  have hcollect : ∀ {α} (f : KeyStore → Slice → Outcome KeyStoreError (List α)) ranges,
      (collectKeys f ranges : Method (GarblerStore C) (GarblerStoreError E) _).Preserves
        fun s => s.keyStore.HandedOnce := fun f ranges =>
    handedOnce_of_keeps (.collect (fun _ => .get_bind fun _ => .call _) _)
  refine .read fun s => .ite (.throw _) (.bind ?macs fun _ => .bind ?keys fun _ => ?info)
  case macs =>
    exact .collect (fun range => .read fun s => .bind (.call _) fun _ =>
      handedOnce_onKeys (KeyStore.HandedOnce.authenticate _ _)) _
  case keys =>
    refine .ite (.pure _) (.bind (.collect (fun range => ?_) _) fun _ => ?_)
    · exact handedOnce_onKeys (KeyStore.HandedOnce.obliviousTransfer _)
    · exact handedOnce_of_keeps (keeps_onCot fun _ _ => rfl)
  case info =>
    exact .bind (hcollect _ _) fun _ => .bind (hcollect _ _) fun _ => .bind (fun _ h => h) fun _ =>
      .pure _

/-- **No operation hands a key over twice.** -/
theorem Op.run_handedOnce [COTSender C E] (blake3 : Blake3) (op : Op C) :
    (op.run blake3).Preserves fun s : GarblerStore C => s.keyStore.HandedOnce := by
  have hview : ∀ {α} {m : Method View ViewError α}, (onView m :
      Method (GarblerStore C) (GarblerStoreError E) _).Preserves fun s => s.keyStore.HandedOnce :=
    handedOnce_of_keeps (keeps_onView fun _ _ => rfl)
  have hdata : ∀ {α} {m : Method BitStore StoreError α}, (onData m :
      Method (GarblerStore C) (GarblerStoreError E) _).Preserves fun s => s.keyStore.HandedOnce :=
    handedOnce_of_keeps (keeps_onData fun _ _ => rfl)
  cases op with
  | allocRaw size =>
    exact .bind (.read fun s => .bind (fun _ h => h) fun _ => .bind hview fun _ =>
      .bind (handedOnce_onKeys (KeyStore.HandedOnce.onKeys _)) fun _ => hdata) fun _ => .pure _
  | allocOutput len =>
    exact .bind (.bind hview fun _ => .bind (handedOnce_onKeys (KeyStore.HandedOnce.onKeys _))
      fun _ => hdata) fun _ => .pure _
  | setOutput slice keys =>
    exact .bind (handedOnce_onKeys (KeyStore.HandedOnce.onKeys _)) fun _ => hview
  | markOutputComplete slice => exact hview
  | markRaw visibility slice =>
    cases visibility with
    | blind => exact .bind (handedOnce_of_keeps (keeps_onCot fun _ _ => rfl)) fun _ => hview
    | _ => exact hview
  | assignRaw slice data => exact .bind hview fun _ => hdata
  | commitRaw slice => exact hview
  | decodeRaw slice =>
    exact .bind (.bind hview fun _ => .read fun s =>
      handedOnce_of_keeps (keeps_onQueue fun _ _ => rfl)) fun _ => .pure _
  | sendFlush => exact .bind (sendFlush_handedOnce blake3) fun _ => .pure _
  | receiveFlush flush =>
    refine .read fun s => .ite (.throw _) (.bind ?_ fun _ => ?_)
    · exact handedOnce_of_keeps ((receiveProof_keeps blake3 _).map fun p => p.2.1)
    · exact .bind hview fun _ => .bind
        (handedOnce_of_keeps (flushDecode_keeps.map fun p => p.2.2)) fun _ _ h => h
  | acquireCot cot => exact fun _ h => h

/-- An operation, and the store that it leaves, whatever it returns. -/
def Step [COTSender C E] (blake3 : Blake3) (s : GarblerStore C) (op : Op C) (t : GarblerStore C) :
    Prop := (op.run blake3 s).2 = t

/-- **Each index is handed over at most once**, in every run of the operations, whatever they
return: it has at most one MAC sent, and if it has, its keys were not transferred. -/
theorem handed_once [COTSender C E] (blake3 : Blake3) {prg : ℕ → Block} {delta : Delta} {cot : C}
    {ops : List (Op C)} {s : GarblerStore C}
    (h : Run (Step blake3) (new prg delta cot) ops s) :
    s.keyStore.handedIndices.Nodup ∧ ∀ i mac, (i, mac) ∈ s.keyStore.sent →
      (∀ mac', (i, mac') ∈ s.keyStore.sent → mac' = mac) ∧ i ∉ s.keyStore.transferred := by
  have hinv : s.keyStore.HandedOnce := h.invariant (P := fun s => s.keyStore.HandedOnce)
    (KeyStore.HandedOnce.new delta) fun s op t hs hstep => hstep ▸ op.run_handedOnce blake3 s hs
  exact ⟨hinv.nodup, fun i mac hi => hinv.sent_unique hi⟩

/-- An input of the garbler and one of the evaluator. -/
theorem handed_once_inputs : ∃ s : GarblerStore IdealCOTSender,
    Run (Step fun _ => 0) (new (fun i => i) (.new 5) (.new 5))
      [.allocRaw 2, .markRaw .priv ⟨0, 1⟩, .markRaw .blind ⟨1, 1⟩, .assignRaw ⟨0, 1⟩ [true],
        .commitRaw ⟨0, 2⟩, .sendFlush] s ∧
    s.keyStore.handedIndices = [0, 1] ∧
    s.keyStore.handedIndices.Nodup ∧ ∀ i mac, (i, mac) ∈ s.keyStore.sent →
      (∀ mac', (i, mac') ∈ s.keyStore.sent → mac' = mac) ∧ i ∉ s.keyStore.transferred :=
  have run : Run (Step fun _ => 0) (new (fun i => i) (.new 5) (IdealCOTSender.new 5))
      [.allocRaw 2, .markRaw .priv ⟨0, 1⟩, .markRaw .blind ⟨1, 1⟩, .assignRaw ⟨0, 1⟩ [true],
        .commitRaw ⟨0, 2⟩, .sendFlush] _ := Run.of_exec (fun _ _ _ h => Option.some.inj h) rfl
  ⟨_, run, rfl, handed_once _ run⟩

end GarblerStore

end Mpz.Garble
