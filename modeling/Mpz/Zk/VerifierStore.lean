import Mpz.Zk.ProverStore

/-!
# The memory store of the verifier

The verifier holds the keys. A flush of the prover adjusts the keys of the inputs that it commits,
and gives the data of the MACs that it proves. It is accepted only if the two parties agree on what
it is about.

## Main definitions

* `VerifierStore`, with `setKeys`, `setOutputKeys` and `receiveFlush`
* `VerifierStore.Op`, `VerifierStore.Op.run` — the operations

## Main results

* `VerifierStore.Op.run_view` — the operation that the view performs
-/

namespace Mpz.Zk

/-- Error for a verifier store. -/
inductive VerifierStoreError where
  /-- An error of the key store. -/
  | keyStore (e : KeyStoreError)
  /-- An error of a store. -/
  | store (e : StoreError)
  /-- decode operation was dropped. -/
  | decode
  /-- An error of the view. -/
  | view (e : ViewError)
  /-- wrong key count -/
  | wrongKeyCount (expected actual : ℕ)
  /-- store was not expecting a flush -/
  | unexpectedFlush
  /-- prover flush view mismatch -/
  | flush (expected actual : FlushView)
  deriving DecidableEq

/-- The conversion of an error of a decode operation. -/
def VerifierStoreError.ofDecode : DecodeOpError → VerifierStoreError
  | .store e => .store e
  | .decode => .decode

/-- Verifier memory store. -/
structure VerifierStore where
  /-- The keys. -/
  keyStore : KeyStore
  /-- The data. -/
  dataStore : BitStore
  /-- The view. -/
  view : View
  /-- Whether a flush is expected. -/
  pending : Bool
  /-- The requests that wait, `buffer_decode`. -/
  queue : DecodeQueue
  /-- What the transcript has absorbed. -/
  transcript : Transcript

namespace VerifierStore

/-- Creates a new verifier store. -/
def new (delta : Delta) : VerifierStore where
  keyStore := .new delta
  dataStore := .new
  view := .newVerifier
  pending := false
  queue := .new
  transcript := []

/-- A call on the key store. -/
def onKeys {α : Type} (m : Method KeyStore KeyStoreError α) :
    Method VerifierStore VerifierStoreError α :=
  Method.zoom keyStore (fun self keyStore => { self with keyStore }) .keyStore m

/-- A call on the data store. -/
def onData {α : Type} (m : Method BitStore StoreError α) :
    Method VerifierStore VerifierStoreError α :=
  Method.zoom dataStore (fun self dataStore => { self with dataStore }) .store m

/-- A call on the view. -/
def onView {α : Type} (m : Method View ViewError α) : Method VerifierStore VerifierStoreError α :=
  Method.zoom view (fun self view => { self with view }) .view m

/-- A call on the requests that wait. -/
def onQueue {α : Type} (m : Method DecodeQueue DecodeOpError α) :
    Method VerifierStore VerifierStoreError α :=
  Method.zoom queue (fun self queue => { self with queue }) .ofDecode m

/-- Allocates memory in every store. -/
def allocStores (size : ℕ) : Method VerifierStore VerifierStoreError Slice := do
  let _ ← onKeys (KeyStore.alloc size)
  onData (Store.alloc size)

/-- Allocates memory for input values. -/
def allocRaw (size : ℕ) : Method VerifierStore VerifierStoreError Slice := do
  onView (View.allocInput size)
  allocStores size

/-- Allocates an output slice. -/
def allocOutput (size : ℕ) : Method VerifierStore VerifierStoreError Slice := do
  onView (View.allocOutput size)
  allocStores size

/-- Returns `true` if the store wants keys. -/
def wantsKeys (self : VerifierStore) : Bool := !decide (self.view.flush.commit = ∅)

/-- Returns the number of keys the store wants. -/
def keyCount (self : VerifierStore) : ℕ := self.view.flush.commit.card

/-- Returns `true` if the store wants a flush. -/
def wantsFlush (self : VerifierStore) : Bool := self.view.wantsFlush

/-- Returns the keys for a slice. -/
def tryGetKeys (self : VerifierStore) (slice : Slice) : Outcome VerifierStoreError (List Key) :=
  (self.keyStore.tryGet slice).mapErr .keyStore

/-- Sets input keys. -/
def setKeys (keys : List Key) : Method VerifierStore VerifierStoreError Unit := do
  let self ← Method.get
  if keys.length ≠ self.keyCount then
    Method.throw (.wrongKeyCount self.keyCount keys.length)
  else
    forRanges (fun slice keys => onKeys (KeyStore.trySet slice keys))
      self.view.flush.commit.iter keys

/-- Sets the output keys for a circuit. -/
def setOutputKeys (slice : Slice) (keys : List Key) :
    Method VerifierStore VerifierStoreError Unit := do
  onView (View.setOutput slice.toRange)
  onKeys (KeyStore.trySet slice keys)

/-- A flush of the prover is expected. -/
def markFlushPending : Method VerifierStore VerifierStoreError Unit := do
  let self ← Method.get
  if self.pending then
    Method.throw .unexpectedFlush
  else
    Method.modify fun self => { self with pending := true }

/-- Flushes decode operations. -/
def flushDecode : Method VerifierStore VerifierStoreError Unit := do
  let self ← Method.get
  onQueue (DecodeQueue.flush self.dataStore)

/-- Verifies the MAC proofs of a flush. -/
def receiveProof (blake3 : Blake3) (prove : RangeSet) :
    Option (List Bool × Hash) → Method VerifierStore VerifierStoreError Unit
  | none => return ()
  | some (bits, proof) => do
    let self ← Method.get
    let data ← Method.call ((self.keyStore.verify blake3 prove bits proof).mapErr .keyStore)
    onData (Store.trySetRanges prove.iter data)

/-- What a flush brings: the adjustment of the keys, and the proven data. -/
def receiveMessage (env : CheckEnv) (blake3 : Blake3) (flush : ProverFlush) :
    Method VerifierStore VerifierStoreError Unit := do
  -- Adjust keys.
  onKeys (forRanges KeyStore.adjust flush.view.commit.iter flush.adjust)
  Method.modify fun self =>
    { self with transcript := self.transcript ++ ProverStore.adjustBytes env flush.adjust }
  receiveProof blake3 flush.view.prove flush.macProof

/-- What is left to do behind a flush. -/
def finishFlush (view : FlushView) : Method VerifierStore VerifierStoreError Unit := do
  onView (View.completeFlush view)
  flushDecode
  Method.modify fun self => { self with pending := false }

/-- Receives a flush from the prover. -/
def receiveFlush (env : CheckEnv) (blake3 : Blake3) (flush : ProverFlush) :
    Method VerifierStore VerifierStoreError Unit := do
  let self ← Method.get
  if ¬ self.pending then
    Method.throw .unexpectedFlush
  else if flush.view ≠ self.view.flush then
    Method.throw (.flush self.view.flush flush.view)
  else do
    receiveMessage env blake3 flush
    finishFlush flush.view

/-- Sets the keys of public data. -/
def setPublic (range : Range) : Method VerifierStore VerifierStoreError Unit := do
  let self ← Method.get
  let slice := Slice.fromRange range
  let data ← Method.call ((self.dataStore.tryGet slice).mapErr .store)
  onKeys (KeyStore.trySetPublic slice data)

/-- Assigns data to input memory. -/
def assignRaw (slice : Slice) (data : List Bool) :
    Method VerifierStore VerifierStoreError Unit := do
  onView (View.assign slice.toRange)
  onData (Store.trySet slice data)
  -- For public data, set keys.
  let self ← Method.get
  Method.forEach setPublic (RangeSet.iter (slice.toRange.toSet ∩ self.view.vis.publicRanges))

/-- Commits input memory. -/
def commitRaw (slice : Slice) : Method VerifierStore VerifierStoreError Unit :=
  onView (View.commit slice.toRange)

/-- Requests memory to be decoded, returning the number of the future. -/
def decodeRaw (slice : Slice) : Method VerifierStore VerifierStoreError ℕ := do
  let self ← Method.get
  -- If data is already decoded, it is sent immediately.
  let fut ← onQueue (DecodeQueue.request self.dataStore slice)
  onView (View.requestDecode slice.toRange)
  return fut

/-- `mark_public_raw`, `mark_private_raw` and `mark_blind_raw`. -/
def markRaw (visibility : Visibility) (slice : Slice) :
    Method VerifierStore VerifierStoreError Unit :=
  onView (View.mark visibility slice.toRange)

/-- The operations of a verifier store. -/
inductive Op where
  /-- `alloc_raw` -/
  | allocRaw (size : ℕ)
  /-- `alloc_output` -/
  | allocOutput (size : ℕ)
  /-- `set_keys` -/
  | setKeys (keys : List Key)
  /-- `set_output_keys` -/
  | setOutputKeys (slice : Slice) (keys : List Key)
  /-- `mark_public_raw`, `mark_private_raw` or `mark_blind_raw` -/
  | markRaw (visibility : Visibility) (slice : Slice)
  /-- `assign_raw` -/
  | assignRaw (slice : Slice) (data : List Bool)
  /-- `commit_raw` -/
  | commitRaw (slice : Slice)
  /-- `decode_raw` -/
  | decodeRaw (slice : Slice)
  /-- `mark_flush_pending` -/
  | markFlushPending
  /-- `receive_flush` -/
  | receiveFlush (flush : ProverFlush)
  deriving DecidableEq

/-- The operation, as a call. -/
def Op.run (env : CheckEnv) (blake3 : Blake3) : Op → Method VerifierStore VerifierStoreError Unit
  | allocRaw size => do
    let _ ← VerifierStore.allocRaw size
  | allocOutput size => do
    let _ ← VerifierStore.allocOutput size
  | setKeys keys => VerifierStore.setKeys keys
  | setOutputKeys slice keys => VerifierStore.setOutputKeys slice keys
  | markRaw visibility slice => VerifierStore.markRaw visibility slice
  | assignRaw slice data => VerifierStore.assignRaw slice data
  | commitRaw slice => VerifierStore.commitRaw slice
  | decodeRaw slice => do
    let _ ← VerifierStore.decodeRaw slice
  | markFlushPending => VerifierStore.markFlushPending
  | receiveFlush flush => VerifierStore.receiveFlush env blake3 flush

/-- What an operation has the view perform, if it comes to that. -/
def Op.view : Op → Option View.Op
  | allocRaw size => some (.allocInput size)
  | allocOutput size => some (.allocOutput size)
  | setKeys _ => none
  | setOutputKeys slice _ => some (.setOutput slice.toRange)
  | markRaw visibility slice => some (.mark visibility slice.toRange)
  | assignRaw slice _ => some (.assign slice.toRange)
  | commitRaw slice => some (.commit slice.toRange)
  | decodeRaw slice => some (.decode slice.toRange)
  | markFlushPending => none
  | receiveFlush _ => some .completeFlush

/-! ### The operation that the view performs -/

section Frames

variable {α τ : Type} {proj : VerifierStore → τ}

theorem keeps_onKeys {m : Method KeyStore KeyStoreError α}
    (h : ∀ s keyStore, proj { s with keyStore } = proj s) : (onKeys m).Keeps proj :=
  Method.Keeps.zoom h

theorem keeps_onData {m : Method BitStore StoreError α}
    (h : ∀ s dataStore, proj { s with dataStore } = proj s) : (onData m).Keeps proj :=
  Method.Keeps.zoom h

theorem keeps_onView {m : Method View ViewError α} (h : ∀ s view, proj { s with view } = proj s) :
    (onView m).Keeps proj := Method.Keeps.zoom h

theorem keeps_onQueue {m : Method DecodeQueue DecodeOpError α}
    (h : ∀ s queue, proj { s with queue } = proj s) : (onQueue m).Keeps proj := Method.Keeps.zoom h

/-- Allocation in the stores leaves the rest alone. -/
theorem allocStores_keeps (size : ℕ) :
    (allocStores size).Keeps fun s => (s.view, s.pending, s.queue, s.transcript) :=
  .bind (keeps_onKeys fun _ _ => rfl) fun _ => keeps_onData fun _ _ => rfl

theorem setKeys_keeps (keys : List Key) : (setKeys keys).Keeps
    fun s => (s.view, s.dataStore, s.pending, s.queue, s.transcript) := by
  have hloop : ∀ ranges keys, (forRanges (fun slice keys => onKeys (KeyStore.trySet slice keys))
      ranges keys).Keeps fun s => (s.view, s.dataStore, s.pending, s.queue, s.transcript) := by
    intro ranges
    induction ranges with
    | nil => exact fun _ => .pure _
    | cons range ranges ih =>
      exact fun keys => .bind (.call _) fun part => .bind (keeps_onKeys fun _ _ => rfl) fun _ =>
        ih _
  exact .get_bind fun s => .ite (.throw _) (hloop _ _)

theorem setPublic_keeps (range : Range) : (setPublic range).Keeps
    fun s => (s.view, s.dataStore, s.pending, s.queue, s.transcript) :=
  .get_bind fun _ => .bind (.call _) fun _ => keeps_onKeys fun _ _ => rfl

theorem receiveProof_keeps (blake3 : Blake3) (prove : RangeSet)
    (proof : Option (List Bool × Hash)) :
    (receiveProof blake3 prove proof).Keeps
      fun s => (s.view, s.keyStore, s.pending, s.queue, s.transcript) := by
  cases proof with
  | none => exact .pure _
  | some proof => exact .get_bind fun _ => .bind (.call _) fun _ => keeps_onData fun _ _ => rfl

theorem flushDecode_keeps : flushDecode.Keeps
    fun s => (s.view, s.keyStore, s.dataStore, s.pending, s.transcript) :=
  .get_bind fun _ => keeps_onQueue fun _ _ => rfl

theorem receiveMessage_keeps (env : CheckEnv) (blake3 : Blake3) (flush : ProverFlush) :
    (receiveMessage env blake3 flush).Keeps fun s => (s.view, s.pending, s.queue) :=
  .bind (keeps_onKeys fun _ _ => rfl) fun _ => .bind (fun _ => rfl) fun _ =>
    (receiveProof_keeps blake3 _ _).map fun p => (p.1, p.2.2.1, p.2.2.2.1)

/-- A flush that is expected has its message received, and if that goes well the view completes. -/
theorem receiveFlush_cases {env : CheckEnv} {blake3 : Blake3} {flush : ProverFlush}
    {s t : VerifierStore} {o : Outcome VerifierStoreError Unit}
    (h : receiveFlush env blake3 flush s = (o, t)) :
    t = s ∧ (∃ e, o = .err e) ∧ (s.pending = false ∨ flush.view ≠ s.view.flush) ∨
    s.pending = true ∧ flush.view = s.view.flush ∧
      (o ≠ .ok () ∧ receiveMessage env blake3 flush s = (o, t) ∨
        ∃ s', receiveMessage env blake3 flush s = (.ok (), s') ∧ s'.view = s.view ∧
          s'.queue = s.queue ∧ finishFlush s.view.flush s' = (o, t)) := by
  rw [receiveFlush, Method.get_bind, Method.ite_apply] at h
  split at h
  case isTrue hpending =>
    obtain ⟨rfl, rfl⟩ := Prod.mk.inj h
    exact .inl ⟨rfl, ⟨_, rfl⟩, .inl (by simpa using hpending)⟩
  case isFalse hpending =>
    rw [Method.ite_apply] at h
    split at h
    case isTrue hview =>
      obtain ⟨rfl, rfl⟩ := Prod.mk.inj h
      exact .inl ⟨rfl, ⟨_, rfl⟩, .inr hview⟩
    case isFalse hview =>
      have hview : flush.view = s.view.flush := not_not.mp hview
      refine .inr ⟨by simpa using hpending, hview, ?_⟩
      rcases Method.bind_cases h with ⟨_, s', hmessage, h⟩ | ⟨e, hmessage, rfl⟩ | ⟨hmessage, rfl⟩
      · have hkeeps := (receiveMessage_keeps env blake3 flush).eq hmessage
        obtain ⟨hkeeps, hkeeps'⟩ := Prod.mk.inj hkeeps
        exact .inr ⟨s', hmessage, hkeeps, (Prod.mk.inj hkeeps').2, hview ▸ h⟩
      · exact .inl ⟨nofun, hmessage⟩
      · exact .inl ⟨nofun, hmessage⟩

theorem onView_moves (op : View.Op) :
    (onView op.run).Moves VerifierStore.view (View.Performs (some op)) :=
  fun s => op.run_performs s.view

/-- **The view performs the operation of the store, or none.** -/
theorem Op.run_view (env : CheckEnv) (blake3 : Blake3) (op : Op) :
    (op.run env blake3).Moves VerifierStore.view (View.Performs op.view) := by
  have hrefl : ∀ {op : Op} (v : View), View.Performs op.view v v := View.Performs.refl _
  cases op with
  | allocRaw size =>
    exact .bind_keeps ((onView_moves (.allocInput size)).bind_keeps fun _ =>
      (allocStores_keeps size).map Prod.fst) fun _ => .pure _
  | allocOutput size =>
    exact .bind_keeps ((onView_moves (.allocOutput size)).bind_keeps fun _ =>
      (allocStores_keeps size).map Prod.fst) fun _ => .pure _
  | setKeys keys => exact ((setKeys_keeps keys).map Prod.fst).moves hrefl
  | setOutputKeys slice keys =>
    exact (onView_moves (.setOutput slice.toRange)).bind_keeps fun _ => keeps_onKeys fun _ _ => rfl
  | markRaw visibility slice => exact onView_moves (.mark visibility slice.toRange)
  | assignRaw slice data =>
    exact (onView_moves (.assign slice.toRange)).bind_keeps fun _ =>
      .bind (keeps_onData fun _ _ => rfl) fun _ => .get_bind fun _ =>
        .forEach (fun range => (setPublic_keeps range).map Prod.fst) _
  | commitRaw slice => exact onView_moves (.commit slice.toRange)
  | decodeRaw slice =>
    refine .bind_keeps (.get_bind fun s => ?_) fun _ => .pure _
    refine Method.Keeps.bind_moves hrefl (keeps_onQueue fun _ _ => rfl) (fun _ => ?_) s
    exact (onView_moves (.decode slice.toRange)).bind_keeps fun _ => .pure _
  | markFlushPending =>
    exact (Method.Keeps.get_bind fun _ => .ite (.throw _) fun _ => rfl).moves hrefl
  | receiveFlush flush =>
    intro s
    rcases h : VerifierStore.receiveFlush env blake3 flush s with ⟨o, t⟩
    show View.Performs _ s.view (VerifierStore.receiveFlush env blake3 flush s).2.view
    rw [h]
    rcases receiveFlush_cases h with ⟨rfl, -⟩ | ⟨-, -, ⟨-, hmessage⟩ | ⟨s', -, hview, -, hfinish⟩⟩
    · exact hrefl _
    · have hkeeps := ((receiveMessage_keeps env blake3 flush).map Prod.fst).eq hmessage
      exact .inl hkeeps
    · have hmoves := ((onView_moves .completeFlush).bind_keeps fun _ =>
        .bind (flushDecode_keeps.map Prod.fst) fun _ =>
          (fun _ => rfl : (Method.modify fun self : VerifierStore =>
            { self with pending := false } : Method _ VerifierStoreError _).Keeps
              VerifierStore.view)) s'
      rw [← hview] at hfinish
      have hrun := congrArg (fun p => p.2.view) hfinish
      exact hview ▸ hrun ▸ hmoves

/-- **What waits was requested.** What holds of every request whose data is not there holds of all
that waits. -/
theorem Op.run_queue {p : DecodeOp → Prop}
    (hnew : ∀ (d : BitStore) slice e chan, d.tryGet slice = .err e → p ⟨slice, some chan⟩)
    (env : CheckEnv) (blake3 : Blake3) (op : Op) :
    (op.run env blake3).Preserves fun s => s.queue.All p := by
  have hqueue : ∀ {α} {m : Method DecodeQueue DecodeOpError α}, m.Preserves (DecodeQueue.All p) →
      (onQueue m).Preserves fun s => s.queue.All p := fun h =>
    .zoom h (fun _ hs => hs) fun _ _ _ hq => hq
  have hkeeps : (op.run env blake3).Keeps VerifierStore.queue →
      (op.run env blake3).Preserves fun s => s.queue.All p := fun h => h.preserves _
  have hview : ∀ {α} {m : Method View ViewError α}, (onView m).Keeps VerifierStore.queue :=
    keeps_onView fun _ _ => rfl
  cases op with
  | allocRaw size =>
    exact hkeeps (.bind (.bind hview fun _ => (allocStores_keeps size).map fun q => q.2.2.1)
      fun _ =>
      .pure _)
  | allocOutput size =>
    exact hkeeps (.bind (.bind hview fun _ => (allocStores_keeps size).map fun q => q.2.2.1)
      fun _ =>
      .pure _)
  | setKeys keys => exact hkeeps ((setKeys_keeps keys).map fun q => q.2.2.2.1)
  | setOutputKeys slice keys => exact hkeeps (.bind hview fun _ => keeps_onKeys fun _ _ => rfl)
  | markRaw visibility slice => exact hkeeps hview
  | assignRaw slice data =>
    exact hkeeps (.bind hview fun _ => .bind (keeps_onData fun _ _ => rfl) fun _ =>
      .get_bind fun _ => .forEach (fun range => (setPublic_keeps range).map fun q => q.2.2.2.1) _)
  | commitRaw slice => exact hkeeps hview
  | decodeRaw slice =>
    exact .bind (.read fun s => .bind (hqueue (DecodeQueue.All.request fun _ _ => hnew _ _ _ _))
      fun _ => .bind (hview.preserves _) fun _ => .pure _) fun _ => .pure _
  | markFlushPending => exact hkeeps (.get_bind fun _ => .ite (.throw _) fun _ => rfl)
  | receiveFlush flush =>
    refine .read fun s => .ite (.throw _) (.ite (.throw _) (.bind ?_ fun _ => ?_))
    · exact ((receiveMessage_keeps env blake3 flush).map fun q => q.2.2).preserves _
    · exact .bind (hview.preserves _) fun _ =>
        .bind (.read fun s => hqueue (DecodeQueue.All.flush _)) fun _ _ h => h

end Frames

/-- An operation, and the store that it leaves, whatever it returns. -/
def Step (env : CheckEnv) (blake3 : Blake3) (s : VerifierStore) (op : Op) (t : VerifierStore) :
    Prop := (op.run env blake3 s).2 = t

theorem Step.view {env : CheckEnv} {blake3 : Blake3} {s t : VerifierStore} {op : Op}
    (h : Step env blake3 s op t) : View.Performs op.view s.view t.view :=
  h ▸ op.run_view env blake3 s

/-- The view of a reachable store is a reachable view. -/
theorem inv_of_run {env : CheckEnv} {blake3 : Blake3} {delta : Delta} {ops : List Op}
    {s : VerifierStore} (h : Run (Step env blake3) (new delta) ops s) : s.view.Inv :=
  h.invariant (P := fun s => s.view.Inv) (View.inv_new .verifier) fun _ _ _ hs hstep =>
    hstep.view.inv hs

end VerifierStore

end Mpz.Zk
