import Mpz.Zk.Prover

/-!
# The verifier

The mirror of the prover: keys instead of MACs, and a consumer that is fed the adjustment bits. A
circuit without AND gates is processed as soon as its consumer is created.

## Main definitions

* `Zk.Verifier`, `Zk.VerifierExecute`, `Zk.VerifierConsumer`
* `Zk.Verifier.execute`, `Zk.VerifierConsumer.next`, `Zk.VerifierExecute.finish`,
  `Zk.Verifier.check`
-/

namespace Mpz.Zk

/-- An error of the verifier. -/
inductive VerifierError where
  /-- invalid input key count: expected {expected}, got {actual} -/
  | inputKeyCount (expected actual : ℕ)
  /-- invalid gate key count: expected {expected}, got {actual} -/
  | gateKeyCount (expected actual : ℕ)
  /-- execution is incomplete -/
  | incomplete
  /-- cannot run consistency check while execution is in progress -/
  | inprogress
  /-- An error of the check. -/
  | check (e : CheckError)
  deriving DecidableEq, Repr

/-- The verifier. -/
structure Verifier where
  /-- The global correlation. -/
  delta : Delta
  /-- The check. -/
  shared : Shared

/-- Verifier circuit execution. -/
structure VerifierExecute where
  /-- The circuit. -/
  circ : Circuit
  /-- The global correlation. -/
  delta : Delta
  /-- The keys of the feeds. -/
  keys : List Key
  /-- The keys of the AND gates. -/
  gateKeys : List Key
  /-- The triples of the AND gates processed. -/
  triples : List Triple
  /-- Their adjust bits. -/
  adjust : List Bool
  /-- The place reserved in the check. -/
  checkIdx : ℕ
  /-- Number of AND gates processed. -/
  counter : ℕ
  /-- Number of AND gates in the circuit. -/
  andCount : ℕ

/-- Consumer accepting adjustment bits from the prover for each AND gate. -/
structure VerifierConsumer where
  /-- The keys of the feeds. -/
  keys : List Key
  /-- The keys of the AND gates. -/
  gateKeys : List Key
  /-- The global correlation. -/
  delta : Delta
  /-- The gates that remain. -/
  gates : List Gate
  /-- The triples of the AND gates processed. -/
  triples : List Triple
  /-- Their adjust bits. -/
  adjust : List Bool
  /-- Number of AND gates processed. -/
  counter : ℕ
  /-- Number of AND gates in the circuit. -/
  andCount : ℕ

/-- The verifier's free gates: an inverter adjusts the key. -/
def verifierOps (delta : Delta) : FreeOps Key where
  xor x y := x.add y
  inv x := x.adjust true delta

namespace Verifier

/-- Creates a new verifier. -/
def new (delta : Delta) : Verifier := ⟨delta, .empty⟩

/-- Returns `true` if there are gates to check. -/
def wantsCheck (self : Verifier) : Bool := self.shared.check.wantsCheck

/-- Starts the execution of a circuit. -/
def execute (circ : Circuit) (inputKeys gateKeys : List Key) :
    Method Verifier VerifierError VerifierExecute :=
  if inputKeys.length ≠ circ.inputs.len then
    .throw (.inputKeyCount circ.inputs.len inputKeys.length)
  else if gateKeys.length ≠ circ.andCount then
    .throw (.gateKeyCount circ.andCount gateKeys.length)
  else do
    let self ← .get
    let (checkIdx, shared) := self.shared.reserve circ.andCount
    .modify fun self => { self with shared }
    return { circ, delta := self.delta, keys := inputKeys, gateKeys, triples := [], adjust := [],
             checkIdx, counter := 0, andCount := circ.andCount }

/-- Executes the consistency check. -/
def check (env : CheckEnv) (svoleKeys : List Block) (uv : UV) :
    Method (Verifier × Transcript) VerifierError Unit := do
  let s ← .get
  if s.1.shared.clones > 0 then
    .throw .inprogress
  else
    .zoom (fun s => (s.1.shared.check, s.2))
      (fun s ct => ({ s.1 with shared := { s.1.shared with check := ct.1 } }, ct.2))
      .check (Check.checkVerifier env s.1.delta.block svoleKeys uv)

/-- Returns the number of pending gates that need to be checked. -/
def pending (self : Verifier) : ℕ := self.shared.check.total

end Verifier

namespace VerifierConsumer

/-- Returns `true` if the verifier wants more adjustment bits. -/
def wantsAdjust (self : VerifierConsumer) : Bool := self.counter < self.andCount

/-- `next`, on the gates that remain. -/
def nextGates (adjust : Bool) : List Gate → VerifierConsumer → Option VerifierConsumer
  | [], self => some { self with gates := [] }
  | .and x y z :: gates, self => do
    let keyX ← self.keys[x]?
    let keyY ← self.keys[y]?
    let keyZ ← self.gateKeys[self.counter]?
    let keyZ := keyZ.adjust adjust self.delta
    let keys ← writeAt self.keys z keyZ
    let self :=
      { self with
        keys, gates
        triples := self.triples ++ [⟨keyX.block, keyY.block, keyZ.block⟩]
        adjust := self.adjust ++ [adjust]
        counter := self.counter + 1 }
    -- If we have more AND gates, return.
    if self.wantsAdjust then some self else nextGates adjust gates self
  | gate :: gates, self => do
    let keys ← (verifierOps self.delta).apply self.keys gate
    nextGates adjust gates { self with keys }

/-- Processes the next gate in the circuit. -/
def next (self : VerifierConsumer) (adjust : Bool) : Option VerifierConsumer :=
  nextGates adjust self.gates self

/-- Feeds a list of adjustment bits. -/
def feed : List Bool → VerifierConsumer → Option VerifierConsumer
  | [], self => some self
  | adjust :: bits, self => do
    let self ← self.next adjust
    feed bits self

end VerifierConsumer

namespace VerifierExecute

/-- The consumer over the buffers of the execution, with space for all the keys. -/
def start (self : VerifierExecute) : VerifierConsumer where
  keys := resize self.keys self.circ.feedCount default
  gateKeys := self.gateKeys
  delta := self.delta
  gates := self.circ.gates
  triples := self.triples
  adjust := self.adjust
  -- Reset counter in case this is called multiple times by mistake.
  counter := 0
  andCount := self.andCount

/-- Returns a consumer of adjustment bits. -/
def consumer (self : VerifierExecute) : Option VerifierConsumer :=
  -- If there are no AND gates, we can process the circuit immediately.
  if self.andCount = 0 then self.start.next false else some self.start

/-- What the consumer has written into the buffers it borrows. -/
def afterConsumer (self : VerifierExecute) (consumer : VerifierConsumer) : VerifierExecute :=
  { self with
    keys := consumer.keys, triples := consumer.triples, adjust := consumer.adjust,
    counter := consumer.counter }

/-- Writes the triples to the check, and drops the execution. -/
def finish (self : VerifierExecute) : Method Shared VerifierError (List Key) := do
  .modify fun shared => { shared with clones := shared.clones - 1 }
  if self.counter < self.andCount then
    .throw .incomplete
  else
    -- Flush check state.
    let shared ← .get
    let check ← .call (.ofOption (shared.check.write self.checkIdx self.triples self.adjust))
    .modify fun shared => { shared with check }
    .call (.ofOption (slice self.keys self.circ.outputs))

end VerifierExecute

end Mpz.Zk
