import Mpz.Memory.Adjust
import Mpz.Memory.Decode
import Mpz.Zk.Check
import Mpz.Zk.View

/-!
# The memory store of the prover

The prover holds the data, random masks for its inputs, and the MACs. An input is committed by
sending the data masked, and a value is decoded by proving its MACs.

The transcript that a flush absorbs into is an argument of the calls in the code. Here it is a part
of the store, as bytes.

## Main definitions

* `ProverFlush`, `ProverFlush.tryFrom` — what is sent, and its validation on the wire
* `ProverStore`, with `setMacs`, `setOutputMacs`, `sendFlush` and `completeFlush`
* `ProverStore.Op`, `ProverStore.Op.run` — the operations

## Main results

* `ProverStore.Op.run_view` — the operation that the view performs
-/

namespace Mpz.Zk

/-- What the prover sends in a flush. -/
structure ProverFlush where
  /-- The flush view of the prover. -/
  view : FlushView
  /-- The committed data, masked. -/
  adjust : List Bool
  /-- The pointer bits and the hash of the proven MACs. -/
  macProof : Option (List Bool × Hash)
  deriving DecidableEq

namespace ProverFlush

/-- The number of bits that are proven. -/
def proofBits (self : ProverFlush) : ℕ :=
  match self.macProof with
  | some proof => proof.1.length
  | none => 0

/-- The validation of a flush that is received. -/
def tryFrom (value : ProverFlush) : Outcome String ProverFlush :=
  if value.view.commit.card ≠ value.adjust.length then
    .err "prover sent flush with invalid number of adjustment bits"
  else if value.view.prove.card ≠ value.proofBits then
    .err "prover sent flush with invalid number of mac proof bits"
  else
    .ok value

/-- What passes the validation. -/
theorem tryFrom_eq_ok {value flush : ProverFlush} (h : value.tryFrom = .ok flush) :
    value = flush ∧ flush.adjust.length = flush.view.commit.card ∧
      flush.proofBits = flush.view.prove.card := by
  unfold tryFrom at h
  split at h
  · cases h
  case isFalse hadjust =>
    split at h
    · cases h
    case isFalse hproof =>
      cases h
      exact ⟨rfl, (not_not.mp hadjust).symm, (not_not.mp hproof).symm⟩

end ProverFlush

/-- Error for a prover store. -/
inductive ProverStoreError where
  /-- An error of the MAC store. -/
  | macStore (e : MacStoreError)
  /-- An error of a store. -/
  | store (e : StoreError)
  /-- decode operation was dropped. -/
  | decode
  /-- An error of the view. -/
  | view (e : ViewError)
  /-- incorrect MAC count -/
  | wrongMacCount (expected actual : ℕ)
  /-- store was not expecting a flush -/
  | unexpectedFlush
  deriving DecidableEq, Repr

/-- The conversion of an error of a decode operation. -/
def ProverStoreError.ofDecode : DecodeOpError → ProverStoreError
  | .store e => .store e
  | .decode => .decode

/-- Prover memory store. -/
structure ProverStore where
  /-- The MACs. -/
  macStore : MacStore
  /-- The masks. -/
  maskStore : BitStore
  /-- The data. -/
  dataStore : BitStore
  /-- The view. -/
  view : View
  /-- Whether a flush was sent and is not complete. -/
  pending : Bool
  /-- The requests that wait, `buffer_decode`. -/
  queue : DecodeQueue
  /-- What the transcript has absorbed. -/
  transcript : Transcript

namespace ProverStore

/-- Creates a new prover store. -/
def new : ProverStore where
  macStore := .new
  maskStore := .new
  dataStore := .new
  view := .newProver
  pending := false
  queue := .new
  transcript := []

/-- A call on the MAC store. -/
def onMacs {α : Type} (m : Method MacStore MacStoreError α) :
    Method ProverStore ProverStoreError α :=
  Method.zoom macStore (fun self macStore => { self with macStore }) .macStore m

/-- A call on the store of masks. -/
def onMasks {α : Type} (m : Method BitStore StoreError α) : Method ProverStore ProverStoreError α :=
  Method.zoom maskStore (fun self maskStore => { self with maskStore }) .store m

/-- A call on the data store. -/
def onData {α : Type} (m : Method BitStore StoreError α) : Method ProverStore ProverStoreError α :=
  Method.zoom dataStore (fun self dataStore => { self with dataStore }) .store m

/-- A call on the view. -/
def onView {α : Type} (m : Method View ViewError α) : Method ProverStore ProverStoreError α :=
  Method.zoom view (fun self view => { self with view }) .view m

/-- A call on the requests that wait. -/
def onQueue {α : Type} (m : Method DecodeQueue DecodeOpError α) :
    Method ProverStore ProverStoreError α :=
  Method.zoom queue (fun self queue => { self with queue }) .ofDecode m

/-- Allocates memory in every store. -/
def allocStores (size : ℕ) : Method ProverStore ProverStoreError Slice := do
  let _ ← onMacs (MacStore.alloc size)
  let _ ← onMasks (Store.alloc size)
  onData (Store.alloc size)

/-- Allocates memory for input values. -/
def allocRaw (size : ℕ) : Method ProverStore ProverStoreError Slice := do
  onView (View.allocInput size)
  allocStores size

/-- Allocates an output slice. -/
def allocOutput (size : ℕ) : Method ProverStore ProverStoreError Slice := do
  onView (View.allocOutput size)
  allocStores size

/-- Returns `true` if the store wants MACs. -/
def wantsMacs (self : ProverStore) : Bool := !decide (self.view.flush.commit = ∅)

/-- Returns the number of MACs the store wants. -/
def macCount (self : ProverStore) : ℕ := self.view.flush.commit.card

/-- Returns `true` if the store wants a flush. -/
def wantsFlush (self : ProverStore) : Bool := self.view.wantsFlush

/-- Returns the MACs for a slice. -/
def tryGetMacs (self : ProverStore) (slice : Slice) : Outcome ProverStoreError (List Mac) :=
  (self.macStore.tryGet slice).mapErr .macStore

/-- The MACs of one range of the inputs, which are set and adjusted to the data. -/
def setMacsRange (slice : Slice) (correlations : List (Bool × Mac)) :
    Method ProverStore ProverStoreError Unit := do
  onMasks (Store.trySet slice (correlations.map Prod.fst))
  onMacs (MacStore.trySet slice (correlations.map Prod.snd))
  let self ← Method.get
  let data ← Method.call ((self.dataStore.tryGet slice).mapErr .store)
  -- Adjust so that the LSB of a MAC contains the value of the authenticated bit.
  onMacs (MacStore.adjust slice data)

/-- Sets input MACs. -/
def setMacs (masks : List Bool) (macs : List Mac) : Method ProverStore ProverStoreError Unit := do
  let self ← Method.get
  if masks.length ≠ macs.length then
    Method.throw (.wrongMacCount masks.length macs.length)
  else if masks.length ≠ self.view.flush.commit.card then
    Method.throw (.wrongMacCount self.view.flush.commit.card masks.length)
  else
    forRanges setMacsRange self.view.flush.commit.iter (masks.zip macs)

/-- Sets the MACs for a slice corresponding to output. -/
def setOutputMacs (slice : Slice) (macs : List Mac) : Method ProverStore ProverStoreError Unit := do
  onView (View.setOutput slice.toRange)
  onMacs (MacStore.trySet slice macs)
  -- (Note: LSBs of MACs contain the value of the authenticated bit).
  onData (Store.trySet slice (macs.map Mac.pointer))

/-- The data of a range, masked. -/
def maskedData (self : ProverStore) (range : Range) : Outcome ProverStoreError (List Bool) := do
  let slice := Slice.fromRange range
  let data ← (self.dataStore.tryGet slice).mapErr .store
  let masks ← (self.maskStore.tryGet slice).mapErr .store
  return List.zipWith (fun bit mask => bit ^^ mask) data masks

/-- The loop of `send_flush` over the ranges to commit. -/
def adjustRanges (self : ProverStore) : List Range → Outcome ProverStoreError (List Bool)
  | [] => .ok []
  | range :: ranges => do
    let bits ← self.maskedData range
    let rest ← self.adjustRanges ranges
    return bits ++ rest

/-- The bytes of the bits that the transcript absorbs. -/
def adjustBytes (env : CheckEnv) (adjust : List Bool) : Transcript :=
  (env.rawBytes adjust).take ((adjust.length + 7) / 8)

/-- The proof of the MACs that are to be proven. -/
def macProof (blake3 : Blake3) (self : ProverStore) :
    Outcome ProverStoreError (Option (List Bool × Hash)) :=
  if self.view.flush.prove ≠ ∅ then do
    let proof ← (self.macStore.prove blake3 self.view.flush.prove).mapErr .macStore
    return some proof
  else
    .ok none

/-- Sends a flush to the verifier. -/
def sendFlush (env : CheckEnv) (blake3 : Blake3) :
    Method ProverStore ProverStoreError ProverFlush := do
  let self ← Method.get
  if self.pending then
    Method.throw .unexpectedFlush
  else do
    Method.modify fun self => { self with pending := true }
    -- Commit MACs.
    let adjust ← Method.call (self.adjustRanges self.view.flush.commit.iter)
    Method.modify fun self => { self with transcript := self.transcript ++ adjustBytes env adjust }
    let macProof ← Method.call (self.macProof blake3)
    return ⟨self.view.flush, adjust, macProof⟩

/-- Flushes decode operations. -/
def flushDecode : Method ProverStore ProverStoreError Unit := do
  let self ← Method.get
  onQueue (DecodeQueue.flush self.dataStore)

/-- Completes the flush. -/
def completeFlush : Method ProverStore ProverStoreError Unit := do
  let self ← Method.get
  if ¬ self.pending then
    Method.throw .unexpectedFlush
  else do
    onView (View.completeFlush self.view.flush)
    flushDecode
    Method.modify fun self => { self with pending := false }

/-- Sets the MACs of public data. -/
def setPublic (range : Range) : Method ProverStore ProverStoreError Unit := do
  let self ← Method.get
  let slice := Slice.fromRange range
  let data ← Method.call ((self.dataStore.tryGet slice).mapErr .store)
  onMacs (MacStore.trySetPublic slice data)

/-- Assigns data to input memory. -/
def assignRaw (slice : Slice) (data : List Bool) : Method ProverStore ProverStoreError Unit := do
  onView (View.assign slice.toRange)
  onData (Store.trySet slice data)
  -- For public data, set MACs.
  let self ← Method.get
  Method.forEach setPublic (RangeSet.iter (slice.toRange.toSet ∩ self.view.vis.publicRanges))

/-- Commits input memory. -/
def commitRaw (slice : Slice) : Method ProverStore ProverStoreError Unit :=
  onView (View.commit slice.toRange)

/-- Requests memory to be decoded, returning the number of the future. -/
def decodeRaw (slice : Slice) : Method ProverStore ProverStoreError ℕ := do
  let self ← Method.get
  -- If data is already decoded, it is sent immediately.
  let fut ← onQueue (DecodeQueue.request self.dataStore slice)
  onView (View.requestDecode slice.toRange)
  return fut

/-- `mark_public_raw`, `mark_private_raw` and `mark_blind_raw`. -/
def markRaw (visibility : Visibility) (slice : Slice) : Method ProverStore ProverStoreError Unit :=
  onView (View.mark visibility slice.toRange)

/-- The operations of a prover store. -/
inductive Op where
  /-- `alloc_raw` -/
  | allocRaw (size : ℕ)
  /-- `alloc_output` -/
  | allocOutput (size : ℕ)
  /-- `set_macs` -/
  | setMacs (masks : List Bool) (macs : List Mac)
  /-- `set_output_macs` -/
  | setOutputMacs (slice : Slice) (macs : List Mac)
  /-- `mark_public_raw`, `mark_private_raw` or `mark_blind_raw` -/
  | markRaw (visibility : Visibility) (slice : Slice)
  /-- `assign_raw` -/
  | assignRaw (slice : Slice) (data : List Bool)
  /-- `commit_raw` -/
  | commitRaw (slice : Slice)
  /-- `decode_raw` -/
  | decodeRaw (slice : Slice)
  /-- `send_flush` -/
  | sendFlush
  /-- `complete_flush` -/
  | completeFlush
  deriving DecidableEq, Repr

/-- The operation, as a call. -/
def Op.run (env : CheckEnv) (blake3 : Blake3) : Op → Method ProverStore ProverStoreError Unit
  | allocRaw size => do
    let _ ← ProverStore.allocRaw size
  | allocOutput size => do
    let _ ← ProverStore.allocOutput size
  | setMacs masks macs => ProverStore.setMacs masks macs
  | setOutputMacs slice macs => ProverStore.setOutputMacs slice macs
  | markRaw visibility slice => ProverStore.markRaw visibility slice
  | assignRaw slice data => ProverStore.assignRaw slice data
  | commitRaw slice => ProverStore.commitRaw slice
  | decodeRaw slice => do
    let _ ← ProverStore.decodeRaw slice
  | sendFlush => do
    let _ ← ProverStore.sendFlush env blake3
  | completeFlush => ProverStore.completeFlush

/-- What an operation has the view perform, if it comes to that. -/
def Op.view : Op → Option View.Op
  | allocRaw size => some (.allocInput size)
  | allocOutput size => some (.allocOutput size)
  | setMacs _ _ => none
  | setOutputMacs slice _ => some (.setOutput slice.toRange)
  | markRaw visibility slice => some (.mark visibility slice.toRange)
  | assignRaw slice _ => some (.assign slice.toRange)
  | commitRaw slice => some (.commit slice.toRange)
  | decodeRaw slice => some (.decode slice.toRange)
  | sendFlush => none
  | completeFlush => some .completeFlush

/-! ### The operation that the view performs -/

section Frames

variable {α τ : Type} {proj : ProverStore → τ}

theorem keeps_onMacs {m : Method MacStore MacStoreError α}
    (h : ∀ s macStore, proj { s with macStore } = proj s) : (onMacs m).Keeps proj :=
  Method.Keeps.zoom h

theorem keeps_onMasks {m : Method BitStore StoreError α}
    (h : ∀ s maskStore, proj { s with maskStore } = proj s) : (onMasks m).Keeps proj :=
  Method.Keeps.zoom h

theorem keeps_onData {m : Method BitStore StoreError α}
    (h : ∀ s dataStore, proj { s with dataStore } = proj s) : (onData m).Keeps proj :=
  Method.Keeps.zoom h

theorem keeps_onView {m : Method View ViewError α} (h : ∀ s view, proj { s with view } = proj s) :
    (onView m).Keeps proj := Method.Keeps.zoom h

theorem keeps_onQueue {m : Method DecodeQueue DecodeOpError α}
    (h : ∀ s queue, proj { s with queue } = proj s) : (onQueue m).Keeps proj := Method.Keeps.zoom h

/-- Allocation in the stores leaves the rest alone. -/
theorem allocStores_keeps (size : ℕ) :
    (allocStores size).Keeps fun s => (s.view, s.pending, s.queue, s.transcript) :=
  .bind (keeps_onMacs fun _ _ => rfl) fun _ => .bind (keeps_onMasks fun _ _ => rfl) fun _ =>
    keeps_onData fun _ _ => rfl

theorem setMacs_keeps (masks : List Bool) (macs : List Mac) :
    (setMacs masks macs).Keeps fun s =>
      (s.view, s.dataStore, s.pending, s.queue, s.transcript) := by
  have hloop : ∀ ranges correlations, (forRanges setMacsRange ranges correlations).Keeps
      fun s => (s.view, s.dataStore, s.pending, s.queue, s.transcript) := by
    intro ranges
    induction ranges with
    | nil => exact fun _ => .pure _
    | cons range ranges ih =>
      refine fun correlations => .bind (.call _) fun part => .bind ?_ fun _ => ih _
      exact .bind (keeps_onMasks fun _ _ => rfl) fun _ => .bind (keeps_onMacs fun _ _ => rfl)
        fun _ =>
        .get_bind fun s => .bind (.call _) fun _ => keeps_onMacs fun _ _ => rfl
  exact .get_bind fun s => .ite (.throw _) (.ite (.throw _) (hloop _ _))

theorem setPublic_keeps (range : Range) : (setPublic range).Keeps
    fun s => (s.view, s.dataStore, s.pending, s.queue, s.transcript) :=
  .get_bind fun _ => .bind (.call _) fun _ => keeps_onMacs fun _ _ => rfl

theorem sendFlush_keeps (env : CheckEnv) (blake3 : Blake3) : (sendFlush env blake3).Keeps
    fun s => (s.view, s.macStore, s.maskStore, s.dataStore, s.queue) :=
  .get_bind fun _ => .ite (.throw _) (.bind (fun _ => rfl) fun _ => .bind (.call _) fun _ =>
    .bind (fun _ => rfl) fun _ => .bind (.call _) fun _ => .pure _)

theorem flushDecode_keeps : flushDecode.Keeps
    fun s => (s.view, s.macStore, s.maskStore, s.dataStore, s.pending, s.transcript) :=
  .get_bind fun _ => keeps_onQueue fun _ _ => rfl

theorem onView_moves (op : View.Op) :
    (onView op.run).Moves ProverStore.view (View.Performs (some op)) :=
  fun s => op.run_performs s.view

/-- **The view performs the operation of the store, or none.** -/
theorem Op.run_view (env : CheckEnv) (blake3 : Blake3) (op : Op) :
    (op.run env blake3).Moves ProverStore.view (View.Performs op.view) := by
  have hrefl : ∀ {op : Op} (v : View), View.Performs op.view v v := View.Performs.refl _
  cases op with
  | allocRaw size =>
    exact .bind_keeps ((onView_moves (.allocInput size)).bind_keeps fun _ =>
      (allocStores_keeps size).map Prod.fst) fun _ => .pure _
  | allocOutput size =>
    exact .bind_keeps ((onView_moves (.allocOutput size)).bind_keeps fun _ =>
      (allocStores_keeps size).map Prod.fst) fun _ => .pure _
  | setMacs masks macs => exact ((setMacs_keeps masks macs).map Prod.fst).moves hrefl
  | setOutputMacs slice macs =>
    exact (onView_moves (.setOutput slice.toRange)).bind_keeps fun _ =>
      .bind (keeps_onMacs fun _ _ => rfl) fun _ => keeps_onData fun _ _ => rfl
  | markRaw visibility slice => exact onView_moves (.mark visibility slice.toRange)
  | assignRaw slice data =>
    exact (onView_moves (.assign slice.toRange)).bind_keeps fun _ =>
      .bind (keeps_onData fun _ _ => rfl) fun _ => .get_bind fun _ =>
        .forEach (fun range => (setPublic_keeps range).map Prod.fst) _
  | commitRaw slice => exact onView_moves (.commit slice.toRange)
  | decodeRaw slice =>
    refine .bind_keeps (.get_bind fun s => ?_) fun _ => .pure _
    refine Method.Keeps.bind_moves hrefl (keeps_onQueue fun _ _ => rfl) (fun _ => ?_) s
    exact (onView_moves (.decode slice.toRange)).bind_keeps fun _ => .pure _
  | sendFlush =>
    exact (Method.Keeps.bind ((sendFlush_keeps env blake3).map Prod.fst) fun _ =>
      .pure _).moves hrefl
  | completeFlush =>
    refine .get_bind fun s => ?_
    rw [Method.ite_apply]
    split
    · exact hrefl _
    · exact ((onView_moves .completeFlush).bind_keeps fun _ =>
        .bind (flushDecode_keeps.map Prod.fst) fun _ _ => rfl) s

/-- **What waits was requested.** What holds of every request whose data is not there holds of all
that waits. -/
theorem Op.run_queue {p : DecodeOp → Prop}
    (hnew : ∀ (d : BitStore) slice e chan, d.tryGet slice = .err e → p ⟨slice, some chan⟩)
    (env : CheckEnv) (blake3 : Blake3) (op : Op) :
    (op.run env blake3).Preserves fun s => s.queue.All p := by
  have hqueue : ∀ {α} {m : Method DecodeQueue DecodeOpError α}, m.Preserves (DecodeQueue.All p) →
      (onQueue m).Preserves fun s => s.queue.All p := fun h =>
    .zoom h (fun _ hs => hs) fun _ _ _ hq => hq
  have hkeeps : (op.run env blake3).Keeps ProverStore.queue →
      (op.run env blake3).Preserves fun s => s.queue.All p := fun h => h.preserves _
  have hview : ∀ {α} {m : Method View ViewError α}, (onView m).Keeps ProverStore.queue :=
    keeps_onView fun _ _ => rfl
  cases op with
  | allocRaw size =>
    exact hkeeps (.bind (.bind hview fun _ => (allocStores_keeps size).map fun q => q.2.2.1)
      fun _ =>
      .pure _)
  | allocOutput size =>
    exact hkeeps (.bind (.bind hview fun _ => (allocStores_keeps size).map fun q => q.2.2.1)
      fun _ =>
      .pure _)
  | setMacs masks macs => exact hkeeps ((setMacs_keeps masks macs).map fun q => q.2.2.2.1)
  | setOutputMacs slice macs =>
    exact hkeeps (.bind hview fun _ => .bind (keeps_onMacs fun _ _ => rfl) fun _ =>
      keeps_onData fun _ _ => rfl)
  | markRaw visibility slice => exact hkeeps hview
  | assignRaw slice data =>
    exact hkeeps (.bind hview fun _ => .bind (keeps_onData fun _ _ => rfl) fun _ =>
      .get_bind fun _ => .forEach (fun range => (setPublic_keeps range).map fun q => q.2.2.2.1) _)
  | commitRaw slice => exact hkeeps hview
  | decodeRaw slice =>
    exact .bind (.read fun s => .bind (hqueue (DecodeQueue.All.request fun _ _ => hnew _ _ _ _))
      fun _ => .bind (hview.preserves _) fun _ => .pure _) fun _ => .pure _
  | sendFlush =>
    exact hkeeps (.bind ((sendFlush_keeps env blake3).map fun q => q.2.2.2.2) fun _ => .pure _)
  | completeFlush =>
    exact .read fun s => .ite (.throw _) (.bind (hview.preserves _) fun _ =>
      .bind (.read fun s => hqueue (DecodeQueue.All.flush _)) fun _ _ h => h)

end Frames

/-- An operation, and the store that it leaves, whatever it returns. -/
def Step (env : CheckEnv) (blake3 : Blake3) (s : ProverStore) (op : Op) (t : ProverStore) : Prop :=
  (op.run env blake3 s).2 = t

theorem Step.view {env : CheckEnv} {blake3 : Blake3} {s t : ProverStore} {op : Op}
    (h : Step env blake3 s op t) : View.Performs op.view s.view t.view :=
  h ▸ op.run_view env blake3 s

/-- The view of a reachable store is a reachable view. -/
theorem inv_of_run {env : CheckEnv} {blake3 : Blake3} {ops : List Op} {s : ProverStore}
    (h : Run (Step env blake3) new ops s) : s.view.Inv :=
  h.invariant (P := fun s => s.view.Inv) (View.inv_new .prover) fun _ _ _ hs hstep =>
    hstep.view.inv hs

end ProverStore

end Mpz.Zk
