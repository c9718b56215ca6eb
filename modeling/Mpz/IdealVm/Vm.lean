import Mpz.Circuits.Wires
import Mpz.Memory.Decode
import Mpz.Memory.Visibility

/-!
# The ideal virtual machine

Two ideal machines exchange their private inputs in the clear, and each evaluates all calls by
itself. A machine has a store of bits, a view that says which of them are assigned and committed,
the requests to decode that wait, and the calls that were not executed.

## Main definitions

* `View`, `View.mark`, `View.assign`, `View.commit`
* `VmStore`, `VmStore.sendFlush`, `VmStore.receiveFlush`
* `Call`, `Vm`, `Vm.callRaw`, `Vm.execute`
-/

namespace Mpz.IdealVm

/-! ### The view -/

/-- The inputs. -/
structure InputView where
  /-- Ranges which have been assigned. -/
  assigned : RangeSet := ∅
  /-- Ranges which are fully committed in both parties' views. -/
  complete : RangeSet := ∅
  /-- All input ranges. -/
  all : RangeSet := ∅
  deriving DecidableEq

/-- The outputs. -/
structure OutputView where
  /-- Output ranges which are executed. -/
  complete : RangeSet := ∅
  /-- All output ranges. -/
  all : RangeSet := ∅
  deriving DecidableEq

/-- Information on the content of the expected flushes. -/
structure FlushView where
  /-- Ranges for which the peer is to send their inputs. -/
  peerInput : RangeSet := ∅
  /-- Ranges for which this party is to send their inputs. -/
  input : RangeSet := ∅
  deriving DecidableEq

/-- Returns `true` if the flush state is empty. -/
def FlushView.isEmpty (self : FlushView) : Bool :=
  decide (self.peerInput = ∅) && decide (self.input = ∅)

/-- Error of a view. -/
inductive ViewError where
  /-- visibility not set -/
  | visibilityNotSet (range : Range)
  /-- visibility already set -/
  | visibilityAlreadySet (range : Range)
  /-- assigning blind data is not allowed -/
  | visibilityAssign (range : Range)
  /-- setting visibility of output is not allowed -/
  | visibilityOutput (range : Range)
  /-- must assign visible data -/
  | notAssigned (range : Range)
  /-- already committed -/
  | alreadyCommitted (range : Range)
  /-- assigning to output is not allowed -/
  | outputAssign (range : Range)
  /-- committing output is not allowed -/
  | outputCommit (range : Range)
  /-- attempted to treat input as output -/
  | notOutput (range : Range)
  deriving DecidableEq, Repr

/-- A party's view. -/
structure View where
  /-- The number of allocated indices. -/
  len : ℕ
  /-- The inputs. -/
  input : InputView
  /-- The outputs. -/
  output : OutputView
  /-- The visibilities. -/
  vis : VisibilityView
  /-- The next flush. -/
  flush : FlushView
  len_vis : vis.len = len

namespace View

/-- A view of nothing. -/
def new : View := ⟨0, {}, {}, .new, {}, VisibilityView.len_new⟩

/-- `View::alloc` -/
def alloc (self : View) (size : ℕ) : View :=
  { self with
    len := self.len + size
    vis := self.vis.alloc size
    len_vis := congrArg (· + size) self.len_vis }

/-- The range that the next allocation returns. -/
def nextRange (self : View) (size : ℕ) : Range := ⟨self.len, self.len + size⟩

/-- Allocates input memory. -/
def allocInput (size : ℕ) : Method View ViewError Unit :=
  Method.modify fun self =>
    { self.alloc size with
      input := { self.input with all := self.input.all ∪ (self.nextRange size).toSet } }

/-- Allocates output memory. -/
def allocOutput (size : ℕ) : Method View ViewError Unit :=
  Method.modify fun self =>
    { self.alloc size with
      output := { self.output with all := self.output.all ∪ (self.nextRange size).toSet } }

/-- `mark_public`, `mark_private` and `mark_blind`. -/
def mark (visibility : Visibility) (range : Range) : Method View ViewError Unit := do
  let self ← Method.get
  if self.vis.isSetAny range then
    Method.throw (.visibilityAlreadySet range)
  else if ¬ Disjoint range.toSet self.output.all then
    Method.throw (.visibilityOutput range)
  -- The setter asserts that the range is allocated.
  else if h : range.stop ≤ self.vis.len then
    Method.modify fun _ =>
      { self with vis := self.vis.set visibility range h, len_vis := self.len_vis }
  else
    Method.panic

/-- Records that a range is assigned. -/
def assign (range : Range) : Method View ViewError Unit := do
  let self ← Method.get
  if ¬ self.vis.isVisible range then
    Method.throw (.visibilityAssign range)
  else if ¬ Disjoint range.toSet self.output.all then
    Method.throw (.outputAssign range)
  else
    Method.modify fun self =>
      { self with input := { self.input with assigned := self.input.assigned ∪ range.toSet } }

/-- Marks an output range as complete. -/
def setOutput (range : Range) : Method View ViewError Unit := do
  let self ← Method.get
  -- Assert is output.
  if ¬ range.toSet ⊆ self.output.all then
    Method.throw (.notOutput range)
  else
    Method.modify fun self =>
      { self with output := { self.output with complete := self.output.complete ∪ range.toSet } }

/-- Whether the range is committed, as input or as output. -/
def isCommitted (self : View) (range : Range) : Bool :=
  decide (range.toSet ⊆ self.input.complete) || decide (range.toSet ⊆ self.output.complete)

/-- Commits an input range. -/
def commit (range : Range) : Method View ViewError Unit := do
  let self ← Method.get
  -- Assert visibility is set.
  if ¬ self.vis.isSet range then
    Method.throw (.visibilityNotSet range)
  -- Assert not output data.
  else if ¬ Disjoint range.toSet self.output.all then
    Method.throw (.outputCommit range)
  -- Assert not committed.
  else if ¬ Disjoint range.toSet self.input.complete then
    Method.throw (.alreadyCommitted range)
  else
    let blind := range.toSet ∩ self.vis.blindRanges
    let priv := range.toSet ∩ self.vis.privateRanges
    let pub := range.toSet ∩ self.vis.publicRanges
    -- Assert visible data is assigned.
    if ¬ pub ⊆ self.input.assigned ∨ ¬ priv ⊆ self.input.assigned then
      Method.throw (.notAssigned range)
    else
      Method.modify fun self =>
        { self with
          -- Public data is complete immediately.
          input := { self.input with complete := self.input.complete ∪ pub }
          flush := { peerInput := self.flush.peerInput ∪ blind, input := self.flush.input ∪ priv } }

/-- What was flushed is complete. -/
def completeFlush (self : View) : View :=
  { self with
    input := { self.input with
      complete := self.input.complete ∪ self.flush.peerInput ∪ self.flush.input }
    flush := {} }

end View

/-! ### The store -/

/-- Error of a store. -/
inductive VmStoreError where
  | store (e : StoreError)
  | decode (e : DecodeOpError)
  | view (e : ViewError)
  /-- store was not expecting a flush -/
  | unexpectedFlush
  deriving DecidableEq, Repr

/-- VM memory store. -/
structure VmStore where
  /-- The bits. -/
  dataStore : BitStore
  /-- The view. -/
  view : View
  /-- The requests to decode. -/
  decode : DecodeQueue
  /-- Whether the store is waiting for a flush. -/
  pending : Bool
  /-- The slices of all requests, by their channels. -/
  requests : List Slice

namespace VmStore

/-- Creates a new store. -/
def new : VmStore := ⟨.new, .new, .new, false, []⟩

/-- A call on the bits. -/
def onData {α : Type} (m : Method BitStore StoreError α) : Method VmStore VmStoreError α :=
  .zoom VmStore.dataStore (fun self dataStore => { self with dataStore }) .store m

/-- A call on the view. -/
def onView {α : Type} (m : Method View ViewError α) : Method VmStore VmStoreError α :=
  .zoom VmStore.view (fun self view => { self with view }) .view m

/-- A call on the requests. -/
def onDecode {α : Type} (m : Method DecodeQueue DecodeOpError α) : Method VmStore VmStoreError α :=
  .zoom VmStore.decode (fun self decode => { self with decode }) .decode m

/-- Allocates uninitialized memory for output values. -/
def allocOutput (size : ℕ) : Method VmStore VmStoreError Slice := do
  onView (View.allocOutput size)
  onData (Store.alloc size)

/-- Allocates memory for inputs. -/
def allocRaw (size : ℕ) : Method VmStore VmStoreError Slice := do
  onView (View.allocInput size)
  onData (Store.alloc size)

/-- Sets the output data. -/
def setOutput (slice : Slice) (data : List Bool) : Method VmStore VmStoreError Unit :=
  onData (Store.trySet slice data)

/-- Marks an output as executed. -/
def markOutputComplete (slice : Slice) : Method VmStore VmStoreError Unit :=
  onView (View.setOutput slice.toRange)

/-- Whether the store wants to flush. -/
def wantsFlush (self : VmStore) : Bool := !self.view.flush.isEmpty

/-- Flushes decode operations. -/
def flushDecode : Method VmStore VmStoreError Unit := do
  let self ← Method.get
  onDecode (DecodeQueue.flush self.dataStore)

/-- `self.data_store.try_get(slice).expect("slice set")`, range by range. -/
def readRanges (dataStore : BitStore) : List Range → Option (List Bool)
  | [] => some []
  | range :: ranges =>
    match dataStore.tryGet (Slice.fromRange range) with
    | .ok data => do
      let rest ← readRanges dataStore ranges
      return data ++ rest
    | _ => none

/-- Sends a flush to the peer. -/
def sendFlush : Method VmStore VmStoreError (List Bool) := do
  let self ← Method.get
  if self.pending then
    Method.throw .unexpectedFlush
  else do
    let input ← Method.call (.ofOption (readRanges self.dataStore self.view.flush.input.iter))
    Method.modify fun self => { self with pending := true }
    return input

/-- `m.expect(..)` -/
def expect (m : Method VmStore VmStoreError Unit) : Method VmStore VmStoreError Unit := fun self =>
  match m self with
  | (.ok _, self) => (.ok (), self)
  | (_, self) => (.panic, self)

/-- Receives a flush from the peer. -/
def receiveFlush (peerInput : List Bool) : Method VmStore VmStoreError Unit := do
  let self ← Method.get
  if !self.pending then
    Method.throw .unexpectedFlush
  else if self.view.flush.peerInput.card ≠ peerInput.length then
    Method.panic
  else do
    expect (onData (Store.trySetRanges self.view.flush.peerInput.iter peerInput))
    Method.modify fun self => { self with view := self.view.completeFlush }
    flushDecode
    Method.modify fun self => { self with pending := false }

/-- Marks a range. -/
def markRaw (visibility : Visibility) (slice : Slice) : Method VmStore VmStoreError Unit :=
  onView (View.mark visibility slice.toRange)

/-- Assigns data to a slice. -/
def assignRaw (slice : Slice) (data : List Bool) : Method VmStore VmStoreError Unit := do
  onView (View.assign slice.toRange)
  onData (Store.trySet slice data)

/-- Commits a slice. -/
def commitRaw (slice : Slice) : Method VmStore VmStoreError Unit :=
  onView (View.commit slice.toRange)

/-- Requests a slice to be decoded. -/
def decodeRaw (slice : Slice) : Method VmStore VmStoreError ℕ := do
  let self ← Method.get
  Method.modify fun self => { self with requests := self.requests ++ [slice] }
  -- If data is already available, it is sent immediately.
  onDecode (DecodeQueue.request self.dataStore slice)

end VmStore

/-! ### The machine -/

/-- A call of a circuit on slices of the memory. -/
structure Call where
  /-- The circuit. -/
  circ : Circuit
  /-- The inputs. -/
  inputs : List Slice
  wellFormed : circ.WellFormed
  length : (inputs.map Slice.size).sum = circ.inputs.len

/-- Ideal VM. Its calls are numbered in the order in which they are made. -/
structure Vm where
  /-- The store. -/
  store : VmStore
  /-- The calls that are not executed, with their numbers and outputs. -/
  callStack : List (ℕ × Call × Slice)
  /-- All calls and their outputs. -/
  calls : List (Call × Slice)
  /-- The numbers of the calls that were evaluated. -/
  executed : List ℕ

namespace Vm

/-- Creates a new VM. -/
def new : Vm := ⟨.new, [], [], []⟩

/-- A call on the store. -/
def onStore {α : Type} (m : Method VmStore VmStoreError α) : Method Vm VmStoreError α :=
  .zoom Vm.store (fun self store => { self with store }) (fun e => e) m

/-- `Callable::call_raw` -/
def callRaw (call : Call) : Method Vm VmStoreError Slice := do
  let slice ← onStore (VmStore.allocOutput call.circ.outputs.len)
  Method.modify fun self =>
    { self with
      callStack := self.callStack ++ [(self.calls.length, call, slice)]
      calls := self.calls ++ [(call, slice)] }
  return slice

/-- All inputs of the call are committed. -/
def isReady (self : Vm) (call : Call) : Bool :=
  call.inputs.all fun slice => self.store.view.isCommitted slice.toRange

/-- The input bits, which are expected to be there. -/
def readInputs (dataStore : BitStore) : List Slice → Option (List Bool)
  | [] => some []
  | slice :: slices =>
    match dataStore.tryGet slice with
    | .ok data => do
      let rest ← readInputs dataStore slices
      return data ++ rest
    | _ => none

/-- `call.circ().evaluate(bits).expect("input count is correct")` -/
def evaluate (circ : Circuit) (bits : List Bool) : Option (List Bool) :=
  match circ.evaluate bits with
  | .ok out => some out
  | _ => none

/-- A call is executed. -/
def executeCall (entry : ℕ × Call × Slice) : Method Vm VmStoreError Unit := do
  let self ← Method.get
  let bits ← Method.call (.ofOption (readInputs self.store.dataStore entry.2.1.inputs))
  let out ← Method.call (.ofOption (evaluate entry.2.1.circ bits))
  Method.modify fun self => { self with executed := self.executed ++ [entry.1] }
  onStore (VmStore.setOutput entry.2.2 out)
  onStore (VmStore.markOutputComplete entry.2.2)
  onStore VmStore.flushDecode

/-- The rounds of `execute`, at most so many of them: the calls that can be executed are taken from
the stack, and executed. -/
def executeRounds : ℕ → Method Vm VmStoreError Unit
  | 0 => pure ()
  | fuel + 1 => do
    let self ← Method.get
    let calls := self.callStack.filter fun entry => self.isReady entry.2.1
    if calls = [] then
      pure ()
    else do
      Method.modify fun self =>
        { self with callStack := self.callStack.filter fun entry => !self.isReady entry.2.1 }
      Method.forEach executeCall calls
      executeRounds fuel

/-- `Execute::execute`: each round takes a call from the stack. -/
def execute : Method Vm VmStoreError Unit := do
  let self ← Method.get
  executeRounds self.callStack.length

end Vm

end Mpz.IdealVm
