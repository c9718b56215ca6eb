import Mpz.Circuits.Wires
import Mpz.Garble.HalfGate

/-!
# The evaluator

The consumer of the encrypted gates of a circuit. A call to `next` runs free gates up to the next
AND gate and evaluates it; after the last AND gate the same loop runs to the end of the circuit.

## Main definitions

* `EncryptedGateConsumer`, with `next`, `nextBatch` and `finish`
* `Evaluator.evaluate`, `Evaluator.evaluateBatched`
-/

namespace Mpz

/-- Errors that can occur during garbled circuit evaluation. -/
inductive EvaluatorError where
  /-- input length mismatch: expected {expected}, got {actual} -/
  | inputLength (expected actual : ℕ)
  /-- evaluator not finished -/
  | notFinished
  deriving DecidableEq, Repr

/-- Output of the evaluator. -/
structure EvaluatorOutput where
  /-- Output MACs of the circuit. -/
  outputs : List Mac
  deriving DecidableEq, Repr

/-- Garbled circuit evaluator. -/
structure Evaluator where
  /-- Buffer for the active labels. -/
  buffer : List Block

/-- Consumer over the encrypted gates of a circuit. -/
structure EncryptedGateConsumer where
  /-- Buffer for the active labels. -/
  labels : List Block
  /-- The gates that remain. -/
  gates : List Gate
  /-- Current gate id. -/
  gid : ℕ
  /-- Number of AND gates evaluated. -/
  counter : ℕ
  /-- Total number of AND gates in the circuit. -/
  andCount : ℕ
  /-- Range of the outputs in the buffer. -/
  outputs : Range
  /-- Whether the entire circuit has been garbled. -/
  complete : Bool

/-- The evaluator's free gates: labels are added, and an inverter copies the active label. -/
def evaluatorOps : FreeOps Block where
  xor x y := x ^^^ y
  inv x := x

namespace EncryptedGateConsumer

/-- `EncryptedGateConsumer::new` -/
def new (gates : List Gate) (labels : List Block) (andCount : ℕ) (outputs : Range) :
    EncryptedGateConsumer :=
  { gates, labels, gid := 1, counter := 0, andCount, outputs, complete := false }

/-- Returns `true` if the evaluator wants more encrypted gates. -/
def wantsGates (self : EncryptedGateConsumer) : Bool := self.counter != self.andCount

variable (tccr : Tccr)

/-- `next`, on the gates that remain. -/
def nextGates (encryptedGate : EncryptedGate) :
    List Gate → EncryptedGateConsumer → Option EncryptedGateConsumer
  | [], self => some { self with gates := [], complete := true }
  | .and x y z :: gates, self => do
    let lx ← self.labels[x]?
    let ly ← self.labels[y]?
    let labels ← writeAt self.labels z (Evaluator.andGate tccr lx ly encryptedGate self.gid)
    let self := { self with labels, gid := self.gid + 2, counter := self.counter + 1, gates }
    -- If we have more AND gates to evaluate, return.
    if self.wantsGates then some self else nextGates encryptedGate gates self
  | gate :: gates, self => do
    let labels ← evaluatorOps.apply self.labels gate
    nextGates encryptedGate gates { self with labels }

/-- Evaluates the next encrypted gate in the circuit. -/
def next (self : EncryptedGateConsumer) (encryptedGate : EncryptedGate) :
    Option EncryptedGateConsumer :=
  nextGates tccr encryptedGate self.gates self

/-- Returns the encoded outputs of the circuit. -/
def finish (self : EncryptedGateConsumer) : Outcome EvaluatorError EvaluatorOutput :=
  if self.wantsGates then
    .err .notFinished
  else do
    -- If there were 0 AND gates in the circuit, the "free" gates are evaluated now.
    let self ← if self.complete then .ok self else .ofOption (self.next tccr default)
    let outputs ← .ofOption (slice self.labels self.outputs)
    .ok ⟨outputs.map Mac.mk⟩

/-- `EncryptedGateBatchConsumer::next`: the gates of a batch, up to the padding. -/
def nextBatch : EncryptedGateBatch → EncryptedGateConsumer → Option EncryptedGateConsumer
  | [], self => some self
  | encryptedGate :: batch, self => do
    let self ← self.next tccr encryptedGate
    if self.wantsGates then nextBatch batch self else some self

end EncryptedGateConsumer

/-- Returns a consumer over the encrypted gates of a circuit. -/
def Evaluator.evaluate (self : Evaluator) (circ : Circuit) (inputs : List Mac) :
    Outcome EvaluatorError EncryptedGateConsumer :=
  if inputs.length ≠ circ.inputs.len then
    .err (.inputLength circ.inputs.len inputs.length)
  else do
    -- Expand the buffer to fit the circuit
    let buffer := expand self.buffer circ.feedCount Block.zero
    let buffer ← .ofOption (copyFrom buffer 0 (inputs.map Mac.block))
    .ok (.new circ.gates buffer circ.andCount circ.outputs)

/-- Returns a consumer over batched encrypted gates of a circuit. -/
def Evaluator.evaluateBatched (self : Evaluator) (circ : Circuit) (inputs : List Mac) :
    Outcome EvaluatorError EncryptedGateConsumer :=
  self.evaluate circ inputs

end Mpz
