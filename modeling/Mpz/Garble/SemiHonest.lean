import Mpz.Circuits.Circuit
import Mpz.Garble.Agreement
import Mpz.Memory.Store

/-!
# The semi-honest garbler and evaluator

Calls of circuits are submitted to both parties. To preprocess, the garbler garbles them before the
inputs are known, in batches, and the evaluator receives the garbled circuits. To execute, calls
whose inputs are committed are evaluated with the circuits that were received, and those that were
not preprocessed are garbled, sent and evaluated at once.

Of the stores, this is about the views, and about which keys and MACs are set: their values do not
decide when a call is taken. A garbled circuit is known by the number of the call that it is for.
The calls of a batch are processed concurrently, so all of them read what there is before the batch.

## Main definitions

* `Call`, `SemiHonest.Submitted` — a call, and one that was submitted
* `SemiHonest.takePreprocessCalls` — the calls that are preprocessed next
* `SemiHonest.Garbler`, `SemiHonest.Evaluator` — the two parties
* `SemiHonest.World`, `SemiHonest.Act` — both of them, and what they do

## Main results

* `SemiHonest.takePreprocessCalls_ne_nil` — of calls that wait, some are taken
-/

namespace Mpz.Garble

/-- A call of a circuit. -/
structure Call where
  /-- The circuit. -/
  circ : Circuit
  /-- The inputs. -/
  inputs : List Slice
  deriving DecidableEq, Repr

namespace SemiHonest

/-- A call that was submitted, with its number and its output. -/
structure Submitted where
  /-- Its number. -/
  id : ℕ
  /-- The call. -/
  call : Call
  /-- The output. -/
  output : Slice
  deriving DecidableEq, Repr

/-- Whether the inputs are none of these indices. -/
def isDisjoint (inputs : List Slice) (idx : RangeSet) : Bool :=
  inputs.all fun input => decide (Disjoint input.toRange.toSet idx)

/-- Whether the keys, or the MACs, of the inputs are set. -/
def isSet (inputs : List Slice) (set : RangeSet) : Bool :=
  inputs.all fun input => decide (input.toRange.toSet ⊆ set)

/-- Whether all inputs are committed. -/
def isCommitted (view : View) (inputs : List Slice) : Bool :=
  inputs.all fun input => view.isCommitted input.toRange

/-- Calls which have no dependencies on other prior calls, and the others. -/
def takeReady : RangeSet → List Submitted → List Submitted × List Submitted
  | _, [] => ([], [])
  | idxOutputs, s :: callStack =>
    let (calls, rest) := takeReady (idxOutputs ∪ s.output.toRange.toSet) callStack
    if isDisjoint s.call.inputs idxOutputs then (s :: calls, rest) else (calls, s :: rest)

/-- Takes those calls from the call stack which are ready for preprocessing. -/
def takePreprocessCalls (callStack : List Submitted) : List Submitted × List Submitted :=
  takeReady ∅ callStack

/-- Takes those calls from the call stack whose inputs are committed. -/
def takeExecuteCalls (view : View) (callStack : List Submitted) : List Submitted × List Submitted :=
  (callStack.filter fun s => isCommitted view s.call.inputs,
    callStack.filter fun s => !isCommitted view s.call.inputs)

/-- An execution: of which call, with which garbled circuit, and whether its inputs were
committed. -/
structure Done where
  /-- The number of the call. -/
  id : ℕ
  /-- The garbled circuit. -/
  circuit : ℕ
  /-- Whether the inputs were committed when the execution began. -/
  ready : Bool
  deriving DecidableEq, Repr

/-- Whether a call is garbled for preprocessing or to be executed. -/
inductive Mode where
  /-- It is preprocessed. -/
  | preprocess
  /-- It is executed. -/
  | execute
  deriving DecidableEq, Repr

/-! ### The garbler -/

/-- A preprocessed call of the garbler. -/
structure Prepared where
  /-- The number of the call. -/
  id : ℕ
  /-- The inputs. -/
  inputs : List Slice
  /-- The output. -/
  output : Slice
  deriving DecidableEq, Repr

/-- Semi-honest garbler. The last two fields remember the calls whose circuits it has sent, batch by
batch, and the calls it has executed. -/
structure Garbler where
  /-- The view of its store. -/
  view : View
  /-- The indices whose keys are set. -/
  keys : RangeSet
  /-- The calls that wait. -/
  callStack : List Submitted
  /-- The calls that are preprocessed. -/
  preprocessed : List Prepared
  /-- The batches that were sent. -/
  sent : List (List Submitted)
  /-- The executions. -/
  done : List Done

namespace Garbler

/-- A new garbler. -/
def new : Garbler := ⟨.newGarbler, ∅, [], [], [], []⟩

/-- Sets the keys for output data. -/
def setOutput (slice : Slice) (self : Garbler) : Option Garbler := do
  if slice.toRange.toSet ⊆ self.keys then none
  else do
    let view ← perform self.view (some (.setPreprocessed slice.toRange))
    some { self with keys := self.keys ∪ slice.toRange.toSet, view }

/-- Marks an output as executed. -/
def markOutputComplete (slice : Slice) (self : Garbler) : Option Garbler := do
  let view ← perform self.view (some (.setOutput slice.toRange))
  some { self with view }

/-- Garbles a call. -/
def generate (mode : Mode) (self : Garbler) (s : Submitted) : Option Garbler := do
  let self ← self.setOutput s.output
  match mode with
  | .preprocess => some self
  | .execute => self.markOutputComplete s.output

/-- Garbles the calls of a batch, and sends the circuits. -/
def generateAll (mode : Mode) (calls : List Submitted) (self : Garbler) : Option Garbler :=
  if calls.all fun s => isSet s.call.inputs self.keys then
    calls.foldlM (generate mode) { self with
      sent := self.sent ++ [calls]
      done := match mode with
        | .preprocess => self.done
        | .execute => self.done ++
          calls.map fun s => ⟨s.id, s.id, isCommitted self.view s.call.inputs⟩ }
  else none

/-- Marks the outputs of preprocessed calls as executed. -/
def markExecuted (fuel : ℕ) (self : Garbler) : Option Garbler :=
  match self.preprocessed.filter fun p => isCommitted self.view p.inputs, fuel with
  | [], _ => some self
  | _ :: _, 0 => none
  | p :: ps, fuel + 1 => do
    let self ← (p :: ps).foldlM (fun self p => self.markOutputComplete p.output) { self with
      preprocessed := self.preprocessed.filter fun p => !isCommitted self.view p.inputs
      done := self.done ++ (p :: ps).map fun p => ⟨p.id, p.id, isCommitted self.view p.inputs⟩ }
    markExecuted fuel self

/-- Whether there is a call that can be preprocessed. -/
def wantsPreprocess (self : Garbler) : Bool :=
  self.callStack.any fun s => isSet s.call.inputs self.keys

/-- The loop of `preprocess`. -/
def preprocessLoop : ℕ → List Submitted → Garbler → Option Garbler
  | _, [], self => some self
  | 0, _ :: _, _ => none
  | fuel + 1, callStack, self => do
    let (calls, rest) := takePreprocessCalls callStack
    let self ← self.generateAll .preprocess calls
    preprocessLoop fuel rest self

/-- Preprocesses all calls that wait. -/
def preprocess (self : Garbler) : Option Garbler := do
  let preprocessed := self.callStack.map fun s => ⟨s.id, s.call.inputs, s.output⟩
  let self ← preprocessLoop self.callStack.length self.callStack { self with callStack := [] }
  some { self with preprocessed := self.preprocessed ++ preprocessed }

/-- Whether there is a call that can be executed. -/
def wantsExecute (self : Garbler) : Bool :=
  (self.preprocessed.any fun p => isCommitted self.view p.inputs) ||
    self.callStack.any fun s => isCommitted self.view s.call.inputs

/-- The loop of `execute`. -/
def executeLoop (fuel : ℕ) (self : Garbler) : Option Garbler :=
  match takeExecuteCalls self.view self.callStack, fuel with
  | ([], _), _ => some self
  | (_ :: _, _), 0 => none
  | (s :: calls, rest), fuel + 1 => do
    let self ← { self with callStack := rest }.generateAll .execute (s :: calls)
    executeLoop fuel self

/-- Executes all calls whose inputs are committed. -/
def execute (self : Garbler) : Option Garbler := do
  let self ← self.markExecuted self.preprocessed.length
  let self ← self.executeLoop self.callStack.length
  self.markExecuted self.preprocessed.length

/-- A call is submitted. -/
def callRaw (id : ℕ) (call : Call) (self : Garbler) : Option Garbler := do
  let output : Slice := ⟨self.view.len, call.circ.outputs.len⟩
  let view ← perform self.view (some (.allocOutput call.circ.outputs.len))
  some { self with view, callStack := self.callStack ++ [⟨id, call, output⟩] }

end Garbler

/-! ### The evaluator -/

/-- A preprocessed call of the evaluator, and its garbled circuit. -/
structure Held where
  /-- The output. -/
  output : Slice
  /-- The number of the call. -/
  id : ℕ
  /-- The call. -/
  call : Call
  /-- The garbled circuit. -/
  circuit : ℕ
  deriving DecidableEq, Repr

/-- A call with its garbled circuit. -/
def Submitted.hold (s : Submitted) (circuit : ℕ) : Held := ⟨s.output, s.id, s.call, circuit⟩

/-- `HashMap::insert`: what was there for the same output is replaced. -/
def insert (preprocessed : List Held) (h : Held) : List Held :=
  (preprocessed.filter fun p => p.output != h.output) ++ [h]

/-- Semi-honest evaluator. The last two fields remember the calls for which it has received
circuits, batch by batch, and the calls it has executed. -/
structure Evaluator where
  /-- The view of its store. -/
  view : View
  /-- The indices whose MACs are set. -/
  macs : RangeSet
  /-- The calls that wait. -/
  callStack : List Submitted
  /-- The calls that are preprocessed, by output. -/
  preprocessed : List Held
  /-- The batches that were received. -/
  received : List (List Submitted)
  /-- The executions. -/
  done : List Done

/-- The garbled circuits that are received for the calls of a batch. -/
def receiveGarbledCircuits (calls : List Submitted) (circuits : List ℕ) : Option (List Held) :=
  if circuits.length = calls.length then some (List.zipWith Submitted.hold calls circuits) else none

namespace Evaluator

/-- A new evaluator. -/
def new : Evaluator := ⟨.newEvaluator, ∅, [], [], [], []⟩

/-- Sets the MACs for output data. -/
def setOutput (self : Evaluator) (slice : Slice) : Option Evaluator := do
  let view ← perform self.view (some (.setOutput slice.toRange))
  if slice.toRange.toSet ⊆ self.macs then none
  else some { self with macs := self.macs ∪ slice.toRange.toSet, view }

/-- Evaluates calls. -/
def evaluateAll (calls : List Held) (self : Evaluator) : Option Evaluator :=
  if calls.all fun h => isSet h.call.inputs self.macs then
    calls.foldlM (fun self h => self.setOutput h.output) { self with
      done := self.done ++
        calls.map fun h => ⟨h.id, h.circuit, isCommitted self.view h.call.inputs⟩ }
  else none

/-- Evaluates the calls that are preprocessed. -/
def executePreprocessed (fuel : ℕ) (self : Evaluator) : Option Evaluator :=
  match self.preprocessed.filter fun h => isCommitted self.view h.call.inputs, fuel with
  | [], _ => some self
  | _ :: _, 0 => none
  | h :: hs, fuel + 1 => do
    let self ← { self with
      preprocessed := self.preprocessed.filter fun h =>
        !isCommitted self.view h.call.inputs }.evaluateAll (h :: hs)
    executePreprocessed fuel self

/-- Whether there is a call that can be preprocessed. The first one always is. -/
def wantsPreprocess (self : Evaluator) : Bool := !self.callStack.isEmpty

/-- The loop of `preprocess`: the batches, and the calls with their circuits. -/
def preprocessLoop : ℕ → List Submitted → List (List ℕ) → Option (List (List Submitted) × List Held)
  | _, [], [] => some ([], [])
  | _, [], _ :: _ => none
  | 0, _ :: _, _ => none
  | _ + 1, _ :: _, [] => none
  | fuel + 1, callStack, circuits :: messages => do
    let (calls, rest) := takePreprocessCalls callStack
    let held ← receiveGarbledCircuits calls circuits
    let (batches, outputs) ← preprocessLoop fuel rest messages
    some (calls :: batches, held ++ outputs)

/-- The end of `preprocess`. -/
def insertOutput (self : Evaluator) (h : Held) : Option Evaluator := do
  let view ← perform self.view (some (.setPreprocessed h.output.toRange))
  some { self with view, preprocessed := insert self.preprocessed h }

/-- Preprocesses all calls that wait, with the circuits that the garbler sends. -/
def preprocess (messages : List (List ℕ)) (self : Evaluator) : Option Evaluator := do
  let (batches, outputs) ← preprocessLoop self.callStack.length self.callStack messages
  outputs.foldlM insertOutput { self with
    callStack := []
    received := self.received ++ batches }

/-- Whether there is a call that can be executed. -/
def wantsExecute (self : Evaluator) : Bool :=
  (self.preprocessed.any fun h => isCommitted self.view h.call.inputs) ||
    self.callStack.any fun s => isCommitted self.view s.call.inputs

/-- The loop of `execute`. -/
def executeLoop (fuel : ℕ) (messages : List (List ℕ)) (self : Evaluator) : Option Evaluator :=
  match takeExecuteCalls self.view self.callStack, messages, fuel with
  | ([], _), [], _ => some self
  | ([], _), _ :: _, _ => none
  | (_ :: _, _), [], _ => none
  | (_ :: _, _), _ :: _, 0 => none
  | (s :: calls, rest), circuits :: messages, fuel + 1 => do
    let held ← receiveGarbledCircuits (s :: calls) circuits
    let self ← { self with
      callStack := rest
      received := self.received ++ [s :: calls] }.evaluateAll held
    executeLoop fuel messages self

/-- Executes all calls whose inputs are committed, with the circuits that the garbler sends. -/
def execute (messages : List (List ℕ)) (self : Evaluator) : Option Evaluator := do
  let self ← self.executePreprocessed self.preprocessed.length
  self.executeLoop self.callStack.length messages

/-- A call is submitted. -/
def callRaw (id : ℕ) (call : Call) (self : Evaluator) : Option Evaluator := do
  let output : Slice := ⟨self.view.len, call.circ.outputs.len⟩
  let view ← perform self.view (some (.allocOutput call.circ.outputs.len))
  some { self with view, callStack := self.callStack ++ [⟨id, call, output⟩] }

end Evaluator

/-! ### Both parties -/

/-- The two parties, and how many calls were submitted. -/
structure World where
  /-- The garbler. -/
  garbler : Garbler
  /-- The evaluator. -/
  evaluator : Evaluator
  /-- How many calls were submitted. -/
  calls : ℕ

/-- What both parties do. -/
inductive Act where
  /-- They allocate, mark, assign, commit or decode inputs. -/
  | memory (op : Mirrored)
  /-- They submit a call. -/
  | call (call : Call)
  /-- They do a round of a flush. -/
  | flush
  /-- They preprocess. -/
  | preprocess
  /-- They execute. -/
  | execute
  deriving DecidableEq, Repr

/-- The operations on the memory of a party. -/
def isMemory : Mirrored → Bool
  | .allocInput _ | .markPublic _ | .markPrivate _ _ | .assign _ _ | .commit _ | .decode _ => true
  | _ => false

/-- The indices that an operation allocates, for inputs. -/
def newInputs (view : View) : Mirrored → RangeSet
  | .allocInput size => (view.nextRange size).toSet
  | _ => ∅

namespace World

/-- At the start. -/
def new : World := ⟨.new, .new, 0⟩

/-- An operation on the memory, where both parties accept it. -/
def memory (op : Mirrored) (w : World) : Option World :=
  if isMemory op then do
    let (gb, ev) ← mirror (w.garbler.view, w.evaluator.view) op
    some { w with
      garbler := { w.garbler with
        view := gb
        keys := w.garbler.keys ∪ newInputs w.garbler.view op }
      evaluator := { w.evaluator with view := ev } }
  else none

/-- A call whose inputs are allocated. -/
def call (call : Call) (w : World) : Option World :=
  if call.inputs.all fun input => w.garbler.view.isAlloc input.toRange then do
    let garbler ← w.garbler.callRaw w.calls call
    let evaluator ← w.evaluator.callRaw w.calls call
    some ⟨garbler, evaluator, w.calls + 1⟩
  else none

/-- A round of a flush. The evaluator gets the MACs of what is committed. -/
def flush (w : World) : Option World := do
  let gb ← perform w.garbler.view (some .completeFlush)
  let ev ← perform w.evaluator.view (some .completeFlush)
  some { w with
    garbler := { w.garbler with view := gb }
    evaluator := { w.evaluator with
      view := ev
      macs := w.evaluator.macs ∪ w.evaluator.view.flush.macs ∪ w.evaluator.view.flush.ot } }

/-- The circuits that the garbler has sent since. -/
def messages (before after : Garbler) : List (List ℕ) :=
  (after.sent.drop before.sent.length).map fun calls => calls.map Submitted.id

/-- Both parties preprocess. -/
def preprocess (w : World) : Option World := do
  let garbler ← w.garbler.preprocess
  let evaluator ← w.evaluator.preprocess (messages w.garbler garbler)
  some { w with garbler, evaluator }

/-- Both parties execute. -/
def execute (w : World) : Option World := do
  let garbler ← w.garbler.execute
  let evaluator ← w.evaluator.execute (messages w.garbler garbler)
  some { w with garbler, evaluator }

/-- What is behind a step. -/
def next (w : World) : Act → Option World
  | .memory op => w.memory op
  | .call call => w.call call
  | .flush => w.flush
  | .preprocess => w.preprocess
  | .execute => w.execute

end World

/-- A step. -/
def Step (w : World) (a : Act) (w' : World) : Prop := w.next a = some w'

/-- A call has an output. -/
def Act.Careful : Act → Prop
  | .call c => 0 < c.circ.outputs.len
  | _ => True

instance : DecidablePred Act.Careful
  | .call c => inferInstanceAs (Decidable (0 < c.circ.outputs.len))
  | .memory _ | .flush | .preprocess | .execute => .isTrue trivial

/-- A careful step. -/
def CarefulStep (w : World) (a : Act) (w' : World) : Prop := a.Careful ∧ Step w a w'

/-! ### What is taken -/

/-- None of the calls reads an output of one of them. -/
def Independent (calls : List Submitted) : Prop :=
  ∀ s ∈ calls, ∀ t ∈ calls, ∀ input ∈ s.call.inputs,
    Disjoint input.toRange.toSet t.output.toRange.toSet

theorem isDisjoint_iff {inputs : List Slice} {idx : RangeSet} :
    isDisjoint inputs idx = true ↔ ∀ input ∈ inputs, Disjoint input.toRange.toSet idx := by
  rw [isDisjoint, List.all_eq_true]
  exact forall₂_congr fun _ _ => decide_eq_true_iff

theorem isSet_iff {inputs : List Slice} {set : RangeSet} :
    isSet inputs set = true ↔ ∀ input ∈ inputs, input.toRange.toSet ⊆ set := by
  rw [isSet, List.all_eq_true]
  exact forall₂_congr fun _ _ => decide_eq_true_iff

theorem takeReady_cons (idx : RangeSet) (s : Submitted) (callStack : List Submitted) :
    takeReady idx (s :: callStack) = if isDisjoint s.call.inputs idx then
      (s :: (takeReady (idx ∪ s.output.toRange.toSet) callStack).1,
        (takeReady (idx ∪ s.output.toRange.toSet) callStack).2)
    else ((takeReady (idx ∪ s.output.toRange.toSet) callStack).1,
      s :: (takeReady (idx ∪ s.output.toRange.toSet) callStack).2) := rfl

theorem takeReady_perm (idx : RangeSet) (callStack : List Submitted) :
    ((takeReady idx callStack).1 ++ (takeReady idx callStack).2).Perm callStack := by
  induction callStack generalizing idx with
  | nil => exact List.Perm.refl _
  | cons s callStack ih =>
    rw [takeReady_cons]
    split
    next => exact (ih _).cons s
    next => exact List.perm_middle.trans ((ih _).cons s)

theorem takeReady_sublist (idx : RangeSet) (callStack : List Submitted) :
    (takeReady idx callStack).1.Sublist callStack ∧
      (takeReady idx callStack).2.Sublist callStack := by
  induction callStack generalizing idx with
  | nil => exact ⟨List.Sublist.refl _, List.Sublist.refl _⟩
  | cons s callStack ih =>
    obtain ⟨htaken, hrest⟩ := ih (idx ∪ s.output.toRange.toSet)
    rw [takeReady_cons]
    split
    next => exact ⟨htaken.cons_cons s, hrest.cons s⟩
    next => exact ⟨htaken.cons s, hrest.cons_cons s⟩

/-- A call that is taken reads no output of the calls before it. -/
theorem takeReady_disjoint {idx : RangeSet} {callStack : List Submitted} {s : Submitted}
    (hs : s ∈ (takeReady idx callStack).1) : ∃ l r, callStack = l ++ s :: r ∧
      ∀ input ∈ s.call.inputs, Disjoint input.toRange.toSet idx ∧
        ∀ t ∈ l, Disjoint input.toRange.toSet t.output.toRange.toSet := by
  induction callStack generalizing idx with
  | nil => cases hs
  | cons u callStack ih =>
    have hrest (hs : s ∈ (takeReady (idx ∪ u.output.toRange.toSet) callStack).1) :
        ∃ l r, u :: callStack = l ++ s :: r ∧ ∀ input ∈ s.call.inputs,
          Disjoint input.toRange.toSet idx ∧
            ∀ t ∈ l, Disjoint input.toRange.toSet t.output.toRange.toSet := by
      obtain ⟨l, r, rfl, hdisj⟩ := ih hs
      refine ⟨u :: l, r, rfl, fun input hinput => ?_⟩
      obtain ⟨hidx, hl⟩ := hdisj input hinput
      rw [Finset.disjoint_union_right] at hidx
      refine ⟨hidx.1, fun t ht => ?_⟩
      rcases List.mem_cons.mp ht with rfl | ht
      · exact hidx.2
      · exact hl t ht
    rw [takeReady_cons] at hs
    split at hs
    next hdisj =>
      rcases List.mem_cons.mp hs with rfl | hs
      · exact ⟨[], callStack, rfl, fun input hinput =>
          ⟨isDisjoint_iff.mp hdisj input hinput, nofun⟩⟩
      · exact hrest hs
    next => exact hrest hs

/-- **Of calls that wait, some are taken**: the first one is. -/
theorem takePreprocessCalls_ne_nil {s : Submitted} (callStack : List Submitted) :
    (takePreprocessCalls (s :: callStack)).1 ≠ [] := by
  have hs : isDisjoint s.call.inputs ∅ = true :=
    isDisjoint_iff.mpr fun input _ => Finset.disjoint_empty_right _
  rw [takePreprocessCalls, takeReady_cons, if_pos hs]
  exact List.cons_ne_nil _ _

theorem length_takePreprocessCalls {s : Submitted} (callStack : List Submitted) :
    (takePreprocessCalls (s :: callStack)).2.length ≤ callStack.length := by
  have hlen := (takeReady_perm ∅ (s :: callStack)).length_eq
  have hpos := List.length_pos_iff.mpr (takePreprocessCalls_ne_nil callStack (s := s))
  rw [List.length_append, List.length_cons] at hlen
  rw [takePreprocessCalls] at hpos ⊢
  omega

end SemiHonest

end Mpz.Garble
