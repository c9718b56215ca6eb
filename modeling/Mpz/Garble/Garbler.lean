import Mpz.Circuits.Wires
import Mpz.Garble.HalfGate

/-!
# The garbler

The iterator over the encrypted gates of a circuit. A call to `next` runs free gates up to the next
AND gate and yields that one; the call that garbles the last AND gate also runs the free gates
behind it, by calling itself once more.

An index out of bounds and a failed assertion are panics, and a panic is `none`.

## Main definitions

* `EncryptedGateIter`, with `next`, `nextBatch` and `finish`
* `Garbler.generate`, `Garbler.generateBatched`
-/

namespace Mpz

/-- Default amount of encrypted gates per batch: `MAX_BATCH_SIZE / BYTES_PER_GATE`. -/
def defaultBatchSize : ℕ := 4 * 1024 / 32

/-- Errors that can occur during garbled circuit generation. -/
inductive GarblerError where
  /-- input length mismatch: expected {expected}, got {actual} -/
  | inputLength (expected actual : ℕ)
  /-- garbler not finished -/
  | notFinished
  deriving DecidableEq, Repr

/-- Output of the garbler. -/
structure GarblerOutput where
  /-- Output keys of the circuit. -/
  outputs : List Key
  deriving DecidableEq, Repr

/-- Garbler. -/
structure Garbler where
  /-- Buffer for the 0-bit labels. -/
  buffer : List Block

/-- Iterator over encrypted gates of a garbled circuit. -/
structure EncryptedGateIter where
  /-- Global offset. -/
  delta : Delta
  /-- Buffer for the 0-bit labels. -/
  labels : List Block
  /-- The gates that remain. -/
  gates : List Gate
  /-- Current gate id. -/
  gid : ℕ
  /-- Number of AND gates generated. -/
  counter : ℕ
  /-- Number of AND gates in the circuit. -/
  andCount : ℕ
  /-- Range of the outputs in the buffer. -/
  outputs : Range
  /-- Whether the entire circuit has been garbled. -/
  complete : Bool

/-- The garbler's free gates: labels are added, and an inverter adds the offset. -/
def garblerOps (delta : Delta) : FreeOps Block where
  xor x₀ y₀ := x₀ ^^^ y₀
  inv x₀ := x₀ ^^^ delta.block

namespace EncryptedGateIter

/-- `EncryptedGateIter::new` -/
def new (delta : Delta) (gates : List Gate) (labels : List Block) (andCount : ℕ)
    (outputs : Range) : EncryptedGateIter :=
  { delta, gates, labels, gid := 1, counter := 0, andCount, outputs, complete := false }

/-- Returns `true` if the garbler has more encrypted gates to generate. -/
def hasGates (self : EncryptedGateIter) : Bool := self.counter != self.andCount

variable (tccr : Tccr)

/-- `next`, on the gates that remain. -/
def nextGates : List Gate → EncryptedGateIter → Option (Option EncryptedGate × EncryptedGateIter)
  | [], self => some (none, { self with gates := [] })
  | .and x y z :: gates, self => do
    let x₀ ← self.labels[x]?
    let y₀ ← self.labels[y]?
    let (z₀, encryptedGate) := Garbler.andGate tccr x₀ y₀ self.delta self.gid
    let labels ← writeAt self.labels z z₀
    let self := { self with labels, gid := self.gid + 2, counter := self.counter + 1, gates }
    if self.hasGates then
      some (some encryptedGate, self)
    else
      -- The rest of the gates are free: `assert!(self.next().is_none())`.
      let (row, self) ← nextGates gates self
      if row.isNone then some (some encryptedGate, { self with complete := true }) else none
  | gate :: gates, self => do
    let labels ← (garblerOps self.delta).apply self.labels gate
    nextGates gates { self with labels }

/-- The next encrypted gate. -/
def next (self : EncryptedGateIter) : Option (Option EncryptedGate × EncryptedGateIter) :=
  nextGates tccr self.gates self

/-- Returns the encoded outputs of the circuit. -/
def finish (self : EncryptedGateIter) : Outcome GarblerError GarblerOutput :=
  if self.hasGates then
    .err .notFinished
  else do
    -- Finish computing any "free" gates.
    let self ← if self.complete then .ok self else do
      let (row, self) ← .ofOption (self.next tccr)
      if row.isNone then .ok self else .panic
    let outputs ← .ofOption (slice self.labels self.outputs)
    .ok ⟨outputs.map Key.mk⟩

/-- The loop that fills a batch, with `n` places left. -/
def fill : ℕ → EncryptedGateIter → Option (List EncryptedGate × EncryptedGateIter)
  | 0, self => do
    let (row, self) ← self.next tccr
    if row.isNone then some ([], self) else none
  | n + 1, self => do
    let (row, self) ← self.next tccr
    match row with
    | none => some ([], self)
    | some gate =>
      if n = 0 then some ([gate], self) else do
        let (gates, self) ← fill n self
        some (gate :: gates, self)

/-- `EncryptedGateBatchIter::next`: the next batch of `N` gates, the last one padded. -/
def nextBatch (N : ℕ) (self : EncryptedGateIter) :
    Option (Option EncryptedGateBatch × EncryptedGateIter) :=
  if self.hasGates then do
    let (gates, self) ← fill tccr N self
    some (some (gates ++ List.replicate (N - gates.length) default), self)
  else
    some (none, self)

end EncryptedGateIter

/-- Returns an iterator over the encrypted gates of a circuit. -/
def Garbler.generate (self : Garbler) (circ : Circuit) (delta : Delta) (inputs : List Key) :
    Outcome GarblerError EncryptedGateIter :=
  if inputs.length ≠ circ.inputs.len then
    .err (.inputLength circ.inputs.len inputs.length)
  else do
    -- Expand the buffer to fit the circuit
    let buffer := expand self.buffer circ.feedCount Block.zero
    let buffer ← .ofOption (copyFrom buffer 0 (inputs.map Key.block))
    .ok (.new delta circ.gates buffer circ.andCount circ.outputs)

/-- Returns an iterator over batched encrypted gates of a circuit. -/
def Garbler.generateBatched (self : Garbler) (circ : Circuit) (delta : Delta)
    (inputs : List Key) : Outcome GarblerError EncryptedGateIter :=
  self.generate circ delta inputs

end Mpz
