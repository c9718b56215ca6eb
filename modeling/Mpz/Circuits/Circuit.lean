import Mathlib.Data.List.Perm.Basic
import Mpz.Lib.Buffer
import Mpz.Lib.Method

/-!
# Binary circuits

A circuit is a list of gates over numbered feeds. `Circuit.evaluate` runs it on bits; an index out
of the feeds is a panic.

A builder numbers the inputs from zero, appends every gate output after the feeds it reads, and
places the outputs last. `Circuit.WellFormed` is what every party that processes a circuit gate by
gate relies on.

## Main definitions

* `Gate`, `Circuit`, `Circuit.evaluate`
* `GatesRead`, `Circuit.WellFormed`

## Main results

* `Circuit.WellFormed.mem_known` — when the gates have run, every feed has been written
* `Circuit.evaluate_eq` — evaluation writes the inputs, runs the gates and reads the outputs
-/

namespace Mpz

/-- A binary logic gate: the ids of the feeds it reads, and last of the feed it writes. -/
inductive Gate where
  /-- XOR gate. -/
  | xor (x y z : ℕ)
  /-- AND gate. -/
  | and (x y z : ℕ)
  /-- Inverter gate. -/
  | inv (x z : ℕ)
  /-- Identity gate. -/
  | id (x z : ℕ)
  deriving DecidableEq, Repr

namespace Gate

/-- The feed that the gate writes. -/
def z : Gate → ℕ
  | xor _ _ z | and _ _ z | inv _ z | id _ z => z

/-- The feeds that the gate reads. -/
def reads : Gate → List ℕ
  | xor x y _ | and x y _ => [x, y]
  | inv x _ | id x _ => [x]

/-- Whether this is an AND gate. -/
def isAnd : Gate → Bool
  | and .. => true
  | _ => false

theorem exists_eq_and {g : Gate} (h : g.isAnd = true) : ∃ x y z, g = and x y z := by
  cases g with
  | and x y z => exact ⟨x, y, z, rfl⟩
  | xor | inv | id => simp [isAnd] at h

end Gate

/-- The number of AND gates in a list. -/
abbrev andGates (gates : List Gate) : ℕ := gates.countP Gate.isAnd

/-- An error that can occur when performing operations with a circuit. -/
inductive CircuitError where
  /-- Invalid number of wires: expected {0}, got {1} -/
  | invalidWireCount (expected actual : ℕ)
  /-- Invalid input length: expected {expected}, got {actual} -/
  | invalidInputLength (expected actual : ℕ)
  /-- Invalid output length: expected {expected}, got {actual} -/
  | invalidOutputLength (expected actual : ℕ)
  deriving DecidableEq, Repr

/-- A binary circuit. -/
structure Circuit where
  /-- The feeds of the inputs. -/
  inputs : Range
  /-- The feeds of the outputs. -/
  outputs : Range
  /-- The gates, in the order they run. -/
  gates : List Gate
  /-- The number of feeds. -/
  feedCount : ℕ
  /-- The number of AND gates. -/
  andCount : ℕ
  /-- The number of XOR gates. -/
  xorCount : ℕ
  deriving DecidableEq, Repr

/-- One gate on plain wires. -/
def evaluateGate (wires : List Bool) : Gate → Option (List Bool)
  | .xor x y z => do
    let a ← wires[x]?
    let b ← wires[y]?
    writeAt wires z (a ^^ b)
  | .and x y z => do
    let a ← wires[x]?
    let b ← wires[y]?
    writeAt wires z (a && b)
  | .inv x z => do
    let a ← wires[x]?
    writeAt wires z (!a)
  | .id x z => do
    let a ← wires[x]?
    writeAt wires z a

/-- The gates of a list, one after the other. -/
def evaluateGates (wires : List Bool) : List Gate → Option (List Bool)
  | [] => some wires
  | gate :: gates => do
    let wires ← evaluateGate wires gate
    evaluateGates wires gates

namespace Circuit

/-- Evaluate the circuit using the provided wires. -/
def evaluateRaw (self : Circuit) (wires : List Bool) : Outcome CircuitError (List Bool) :=
  if wires.length ≠ self.feedCount then
    .err (.invalidWireCount self.feedCount wires.length)
  else
    .ofOption (evaluateGates wires self.gates)

/-- `for i in inputs { feeds[i] = input.next()? }`, with the length that the error reports. -/
def fillInputs (expected : ℕ) : List ℕ → List Bool → List Bool → Outcome CircuitError (List Bool)
  | [], _, feeds => .ok feeds
  | i :: _, [], _ => .err (.invalidInputLength expected i)
  | i :: is, value :: input, feeds => do
    let feeds ← .ofOption (writeAt feeds i value)
    fillInputs expected is input feeds

/-- Evaluate the circuit with the given inputs. -/
def evaluate (self : Circuit) (input : List Bool) : Outcome CircuitError (List Bool) := do
  let feeds := List.replicate self.feedCount false
  let feeds ← fillInputs self.inputs.len self.inputs.indices input feeds
  let feeds ← self.evaluateRaw feeds
  .ofOption (slice feeds self.outputs)

end Circuit

/-! ### Well-formed circuits -/

/-- Every gate reads feeds that are known when it runs: those of `known`, and the outputs of the
gates before it. -/
def GatesRead : List ℕ → List Gate → Prop
  | _, [] => True
  | known, gate :: gates => (∀ i ∈ gate.reads, i ∈ known) ∧ GatesRead (gate.z :: known) gates

instance decidableGatesRead : ∀ known gates, Decidable (GatesRead known gates)
  | _, [] => .isTrue trivial
  | known, gate :: gates =>
    haveI := decidableGatesRead (gate.z :: known) gates
    inferInstanceAs (Decidable (_ ∧ _))

/-- The circuits a builder produces: inputs first, every gate over earlier feeds, every feed written
once, and the AND gates counted. -/
structure Circuit.WellFormed (c : Circuit) : Prop where
  inputs_start : c.inputs.start = 0
  outputs_le : c.outputs.start ≤ c.outputs.stop ∧ c.outputs.stop ≤ c.feedCount
  reads : GatesRead c.inputs.indices c.gates
  writes : (c.inputs.indices ++ c.gates.map Gate.z).Perm (List.range c.feedCount)
  and_count : andGates c.gates = c.andCount

namespace Circuit.WellFormed

variable {c : Circuit}

theorem z_lt (h : c.WellFormed) : ∀ g ∈ c.gates, g.z < c.feedCount := by
  intro g hg
  have hmem : g.z ∈ c.inputs.indices ++ c.gates.map Gate.z :=
    List.mem_append_right _ (List.mem_map_of_mem hg)
  exact List.mem_range.mp (h.writes.mem_iff.mp hmem)

/-- The feeds known at the end are all of them. -/
theorem mem_known (h : c.WellFormed) {i : ℕ} (hi : i < c.feedCount) :
    i ∈ c.inputs.indices ∨ ∃ g ∈ c.gates, g.z = i := by
  have hmem := h.writes.mem_iff.mpr (List.mem_range.mpr hi)
  rcases List.mem_append.mp hmem with hmem | hmem
  · exact .inl hmem
  · exact .inr (List.mem_map.mp hmem)

theorem inputs_le (h : c.WellFormed) : c.inputs.len ≤ c.feedCount := by
  have hlen := h.writes.length_eq
  rw [List.length_append, List.length_range, Range.length_indices] at hlen
  omega

theorem inputs_indices (h : c.WellFormed) : c.inputs.indices = List.range' 0 c.inputs.len := by
  rw [Range.indices, h.inputs_start, Range.len, h.inputs_start]

end Circuit.WellFormed

/-! ### Evaluation -/

theorem Circuit.fillInputs_eq (expected : ℕ) (input rest feeds : List Bool) (start : ℕ)
    (h : start + input.length ≤ feeds.length) :
    fillInputs expected (List.range' start input.length) (input ++ rest) feeds =
      .ofOption (copyFrom feeds start input) := by
  induction input generalizing start feeds with
  | nil => simp [fillInputs, copyFrom_of_le h]
  | cons value input ih =>
    rw [List.length_cons] at h
    have hset : start + 1 + input.length ≤ (feeds.set start value).length := by
      rw [List.length_set]; omega
    rw [List.length_cons, List.range'_succ, List.cons_append, fillInputs,
      writeAt_of_lt (by omega), Outcome.ofOption_some, Outcome.ok_bind, ih _ _ hset,
      copyFrom_of_le hset, copyFrom_of_le (by rw [List.length_cons]; omega)]
    congr 2
    refine List.ext_getElem? fun j => ?_
    have hl := getElem?_copyFrom (copyFrom_of_le hset) j
    have hcopy : copyFrom feeds start (value :: input) = some _ :=
      copyFrom_of_le (by rw [List.length_cons]; omega)
    have hr := getElem?_copyFrom hcopy j
    rw [hl, hr, List.length_cons]
    by_cases hj : j = start
    · subst hj
      rw [if_neg (by omega), if_pos (by omega), List.getElem?_set_self (by omega), Nat.sub_self,
        List.getElem?_cons_zero]
    · by_cases hin : start + 1 ≤ j ∧ j < start + 1 + input.length
      · rw [if_pos hin, if_pos (by omega), show j - start = (j - (start + 1)) + 1 by omega,
          List.getElem?_cons_succ]
      · rw [if_neg hin, if_neg (by omega), List.getElem?_set_ne (Ne.symm hj)]

/-- **Evaluation in three steps.** The inputs are copied to the front of the feeds, the gates run,
and the outputs are read. -/
theorem Circuit.evaluate_eq {c : Circuit} (h : c.WellFormed) {input feeds : List Bool}
    (hlen : input.length = c.inputs.len)
    (hfeeds : copyFrom (List.replicate c.feedCount false) 0 input = some feeds) :
    c.evaluate input =
      .ofOption (evaluateGates feeds c.gates >>= fun feeds => slice feeds c.outputs) := by
  have hle := h.inputs_le
  have hfill : fillInputs c.inputs.len c.inputs.indices input (List.replicate c.feedCount false) =
      .ok feeds := by
    have heq := fillInputs_eq c.inputs.len input [] (List.replicate c.feedCount false) 0
      (by rw [List.length_replicate]; omega)
    rwa [List.append_nil, hlen, ← h.inputs_indices, hfeeds] at heq
  have hcount : feeds.length = c.feedCount := by
    rw [length_of_copyFrom hfeeds, List.length_replicate]
  rw [evaluate, hfill, Outcome.ok_bind, evaluateRaw, if_neg (not_not.mpr hcount)]
  cases evaluateGates feeds c.gates <;> rfl

/-- A NAND gate: an AND gate, and an inverter behind it. -/
def nandCircuit : Circuit where
  inputs := ⟨0, 2⟩
  outputs := ⟨3, 4⟩
  gates := [.and 0 1 2, .inv 2 3]
  feedCount := 4
  andCount := 1
  xorCount := 0

theorem nandCircuit_wellFormed : nandCircuit.WellFormed where
  inputs_start := rfl
  outputs_le := by decide
  reads := by decide
  writes := by decide
  and_count := rfl

example : nandCircuit.evaluate [true, true] = .ok [false] := by decide

end Mpz
