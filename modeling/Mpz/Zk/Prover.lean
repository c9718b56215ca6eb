import Mpz.Circuits.Wires
import Mpz.Zk.Check

/-!
# The prover

A prover shares its check buffers with the executions it starts. `Shared` is that shared cell: the
buffers, and the number of executions that still hold it. An execution reserves its place in the
buffers when it starts and writes it when it finishes, so executions may finish in any order.

## Main definitions

* `Zk.Shared`, `Zk.Prover`, `Zk.ProverExecute`, `Zk.ProverIter`
* `Zk.Prover.execute`, `Zk.ProverIter.next`, `Zk.ProverExecute.finish`, `Zk.Prover.check`
-/

namespace Mpz.Zk

/-- The check behind its shared pointer, and the number of clones besides the owner's. -/
structure Shared where
  /-- The buffers. -/
  check : Check
  /-- Executions that hold a clone. -/
  clones : ℕ
  deriving DecidableEq, Repr

/-- The cell of a new prover or verifier. -/
def Shared.empty : Shared := ⟨.empty, 0⟩

/-- Reserves a place for `n` gates and hands out a clone. -/
def Shared.reserve (self : Shared) (n : ℕ) : ℕ × Shared :=
  let (idx, check) := self.check.reserve n
  (idx, ⟨check, self.clones + 1⟩)

/-- An error of the prover. -/
inductive ProverError where
  /-- incorrect number of input MACs: expected {expected}, actual {actual} -/
  | inputMacCount (expected actual : ℕ)
  /-- incorrect number of gate masks: expected {expected}, actual {actual} -/
  | gateMaskCount (expected actual : ℕ)
  /-- incorrect number of gate MACs: expected {expected}, actual {actual} -/
  | gateMacCount (expected actual : ℕ)
  /-- execution is incomplete -/
  | incomplete
  /-- cannot run consistency check while execution is in progress -/
  | inprogress
  /-- An error of the check. -/
  | check (e : CheckError)
  deriving DecidableEq, Repr

/-- The prover. -/
structure Prover where
  /-- The check. -/
  shared : Shared
  deriving DecidableEq, Repr

/-- Prover circuit execution. -/
structure ProverExecute where
  /-- The circuit. -/
  circ : Circuit
  /-- The MACs of the feeds. -/
  macs : List Mac
  /-- The triples of the AND gates processed. -/
  triples : List Triple
  /-- Their adjust bits. -/
  adjust : List Bool
  /-- The masks of the AND gates. -/
  gateMasks : List Bool
  /-- The MACs of the masks. -/
  gateMacs : List Mac
  /-- The place reserved in the check. -/
  checkIdx : ℕ
  /-- Number of AND gates processed. -/
  counter : ℕ
  /-- Number of AND gates in the circuit. -/
  andCount : ℕ
  deriving DecidableEq, Repr

/-- Iterator yielding adjustment bits for each AND gate. -/
structure ProverIter where
  /-- The MACs of the feeds. -/
  macs : List Mac
  /-- The masks of the AND gates. -/
  gateMasks : List Bool
  /-- The MACs of the masks. -/
  gateMacs : List Mac
  /-- The gates that remain. -/
  gates : List Gate
  /-- The triples of the AND gates processed. -/
  triples : List Triple
  /-- Their adjust bits. -/
  adjust : List Bool
  /-- Number of AND gates processed. -/
  counter : ℕ
  /-- Number of AND gates in the circuit. -/
  andCount : ℕ
  deriving DecidableEq, Repr

/-- The prover's free gates: an inverter flips the pointer bit, which is the authenticated bit. -/
def proverOps : FreeOps Mac where
  xor x y := x.add y
  inv x := x.setPointer (!x.pointer)

namespace Prover

/-- Starts the execution of a circuit. -/
def execute (circ : Circuit) (inputMacs : List Mac) (gateMasks : List Bool) (gateMacs : List Mac) :
    Method Prover ProverError ProverExecute :=
  if inputMacs.length ≠ circ.inputs.len then
    .throw (.inputMacCount circ.inputs.len inputMacs.length)
  else if gateMasks.length ≠ circ.andCount then
    .throw (.gateMaskCount circ.andCount gateMasks.length)
  else if gateMacs.length ≠ circ.andCount then
    .throw (.gateMacCount circ.andCount gateMacs.length)
  else do
    let self ← .get
    let (checkIdx, shared) := self.shared.reserve circ.andCount
    .modify fun _ => ⟨shared⟩
    return { circ, macs := inputMacs, triples := [], adjust := [], gateMasks, gateMacs, checkIdx,
             counter := 0, andCount := circ.andCount }

/-- Returns `true` if there are gates to check. -/
def wantsCheck (self : Prover) : Bool := self.shared.check.wantsCheck

/-- Returns the number of pending gates that need to be checked. -/
def pending (self : Prover) : ℕ := self.shared.check.total

/-- Executes the consistency check. -/
def check (env : CheckEnv) (svoleChoices : List Bool) (svoleEv : List Block) :
    Method (Prover × Transcript) ProverError UV := do
  let s ← .get
  if s.1.shared.clones > 0 then
    .throw .inprogress
  else
    .zoom (fun s => (s.1.shared.check, s.2))
      (fun s ct => (⟨{ s.1.shared with check := ct.1 }⟩, ct.2))
      .check (Check.checkProver env svoleChoices svoleEv)

end Prover

namespace ProverIter

/-- `next`, on the gates that remain. -/
def nextGates : List Gate → ProverIter → Option (Option Bool × ProverIter)
  | [], self => some (none, { self with gates := [] })
  | .and x y z :: gates, self => do
    let macX ← self.macs[x]?
    let macY ← self.macs[y]?
    let macZ ← self.gateMacs[self.counter]?
    -- The LSB of a MAC contains the value of the authenticated bit.
    let wZ := macX.pointer && macY.pointer
    let macZ := macZ.setPointer wZ
    let mask ← self.gateMasks[self.counter]?
    let adjust := mask ^^ wZ
    let macs ← writeAt self.macs z macZ
    let self :=
      { self with
        macs, gates
        triples := self.triples ++ [⟨macX.block, macY.block, macZ.block⟩]
        adjust := self.adjust ++ [adjust]
        counter := self.counter + 1 }
    if self.counter ≥ self.andCount then
      -- The rest of the gates are free: `assert!(self.next().is_none())`.
      let (bit, self) ← nextGates gates self
      if bit.isNone then some (some adjust, self) else none
    else
      some (some adjust, self)
  | gate :: gates, self => do
    let macs ← proverOps.apply self.macs gate
    nextGates gates { self with macs }

/-- The next adjustment bit. -/
def next (self : ProverIter) : Option (Option Bool × ProverIter) := nextGates self.gates self

/-- All adjustment bits: `for adjust in iter { .. }`. -/
def drain : ℕ → ProverIter → Option (List Bool × ProverIter)
  | 0, _ => none
  | fuel + 1, self => do
    let (bit, self) ← self.next
    match bit with
    | none => some ([], self)
    | some bit => do
      let (bits, self) ← drain fuel self
      some (bit :: bits, self)

end ProverIter

namespace ProverExecute

/-- Returns an iterator which processes each gate in the circuit. -/
def iter (self : ProverExecute) : ProverIter where
  macs := resize self.macs self.circ.feedCount default
  gateMasks := self.gateMasks
  gateMacs := self.gateMacs
  gates := self.circ.gates
  triples := self.triples
  adjust := self.adjust
  -- Reset counter in case this is called multiple times by mistake.
  counter := 0
  andCount := self.andCount

/-- What the iterator has written into the buffers it borrows. -/
def afterIter (self : ProverExecute) (it : ProverIter) : ProverExecute :=
  { self with macs := it.macs, triples := it.triples, adjust := it.adjust, counter := it.counter }

/-- Writes the triples to the check, and drops the execution. -/
def finish (self : ProverExecute) : Method Shared ProverError (List Mac) := do
  .modify fun shared => { shared with clones := shared.clones - 1 }
  if self.counter ≠ self.andCount then
    .throw .incomplete
  else
    -- Flush check state.
    let shared ← .get
    let check ← .call (.ofOption (shared.check.write self.checkIdx self.triples self.adjust))
    .modify fun shared => { shared with check }
    .call (.ofOption (slice self.macs self.circ.outputs))

end ProverExecute

end Mpz.Zk
