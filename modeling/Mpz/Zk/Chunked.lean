import Mpz.Lib.Run
import Mpz.Memory.Store

/-!
# Calls in chunks

Calls are put on a stack, and correlated OTs for their gates and checks are allocated ahead. An
execution takes the ready calls off the stack up to a cap, predicts the OTs they need, tops the
allocation up, and runs them batch by batch with a check behind each. Three accounts are kept apart,
what was registered, what is predicted and what is consumed, and they agree in every run.

Two acts are refused by the store. A commitment of inputs that are not marked, or that a prover has
not assigned, is one. The other is an execution that takes a call without outputs: the store refuses
to set memory that is set, which the memory of no cells always is.

## Main definitions

* `Chunked.Config`, `Chunked.CallStack`, `Chunked.Party` — the source's
* `Chunked.Party.execute`, `Chunked.Party.callRaw` — the functions of both roles
* `Chunked.crossings` — how many batches a chunk has, and what is left in the last one

## Main results

* `Chunked.Party.executeCalls_eq` — the batches are taken call by call
* `Chunked.Party.Inv.step` — the accounts are kept, and no act fails
* `Chunked.accounts_of_run`, `Chunked.allocated_of_submitted` — the accounts behind every run
-/

namespace Mpz

namespace Zk

namespace Chunked

/-! ### The configuration -/

/-- An empirically chosen default value which provides the best performance. -/
def defaultBatchSize : ℕ := 200000

/-- Maximum number of AND-gate OTs materialized in one chunk. -/
def defaultChunkCap : ℕ := 15000000

/-- A configuration that its builder accepts. -/
structure Config where
  /-- Target number of AND gates per consistency-check batch. -/
  batchSize : ℕ
  /-- Maximum number of AND-gate OTs materialized in one chunk. -/
  chunkCap : ℕ
  pos : 0 < batchSize
  le : batchSize ≤ chunkCap

/-- The builder, which validates what it was given, the defaults in place of what it was not. -/
def Config.build (batchSize chunkCap : Option ℕ) : Except String Config :=
  if h₁ : batchSize = some 0 then .error "batch_size must be greater than zero"
  else if chunkCap = some 0 then .error "chunk_cap must be greater than zero"
  else if h : chunkCap.getD defaultChunkCap < batchSize.getD defaultBatchSize then
    .error "chunk_cap must be at least batch_size"
  else
    .ok ⟨batchSize.getD defaultBatchSize, chunkCap.getD defaultChunkCap, by
      cases batchSize with
      | none => decide
      | some n => exact Nat.pos_of_ne_zero fun hn => h₁ (congrArg some hn), Nat.le_of_not_lt h⟩

/-! ### The stack of calls -/

/-- A call with its output. -/
structure Call where
  /-- `circ().and_count()` -/
  andCount : ℕ
  inputs : List Slice
  output : Slice
  deriving DecidableEq

/-- The number of AND gates of some calls. -/
def gatesOf (calls : List Call) : ℕ := (calls.map Call.andCount).sum

structure CallStack where
  inner : List Call
  /-- The total number of AND gates currently in the callstack. -/
  andCount : ℕ
  deriving DecidableEq

def CallStack.push (self : CallStack) (call : Call) : CallStack :=
  { self with inner := self.inner ++ [call], andCount := self.andCount + call.andCount }

/-- The loop of `extract_if`: the calls that are taken, those that stay, and the count. -/
def CallStack.extractLoop (softLimit : ℕ) (f : Call → Bool) :
    List Call → ℕ → ℕ → Bool → Option (List Call × List Call × ℕ)
  | [], andCount, _, _ => some ([], [], andCount)
  | call :: calls, andCount, total, limit =>
    if !limit && f call then
      -- An underflow is a panic.
      if andCount < call.andCount then none
      else do
        let total := total + call.andCount
        let (taken, inner, andCount) ←
          extractLoop softLimit f calls (andCount - call.andCount) total
          (decide (softLimit ≤ total))
        return (call :: taken, inner, andCount)
    else do
      let (taken, inner, andCount) ← extractLoop softLimit f calls andCount total limit
      return (taken, call :: inner, andCount)

/-- Returns the ready calls, up to the limit. -/
def CallStack.extractIf (self : CallStack) (softLimit : ℕ) (f : Call → Bool) :
    Option (List Call × CallStack) := do
  let (taken, inner, andCount) ← extractLoop softLimit f self.inner self.andCount 0 false
  return (taken, ⟨inner, andCount⟩)

/-! ### The correlated OTs -/

/-- A source of correlated OTs whose allocations add up: how many were allocated, are materialized,
and were consumed. -/
structure Ot where
  allocated : ℕ
  flushed : ℕ
  consumed : ℕ
  deriving DecidableEq

def Ot.alloc (count : ℕ) (ot : Ot) : Ot := { ot with allocated := ot.allocated + count }

def Ot.flush (ot : Ot) : Ot := { ot with flushed := ot.allocated }

/-- `try_recv_rcot` or `try_send_rcot`, which fails where too few are materialized. -/
def Ot.tryRcot (count : ℕ) (ot : Ot) : Option Ot :=
  if ot.consumed + count ≤ ot.flushed then some { ot with consumed := ot.consumed + count }
  else none

/-! ### A party -/

/-- The role of a party. -/
inductive Role where
  | prover
  | verifier
  deriving DecidableEq

/-- A prover or a verifier: both count in the same way. What the store wants is `commit`, the inputs
that are committed and have no MACs or keys yet. The last four fields remember what has happened. -/
structure Party where
  role : Role
  ot : Ot
  callstack : CallStack
  /-- Gate OTs pre-registered by `callRaw` and not yet consumed by a chunk. -/
  registeredGates : ℕ
  /-- Checks pre-registered by `callRaw` and not yet consumed by a chunk. -/
  registeredChecks : ℕ
  /-- The gates that are executed and not checked: `core.pending()`. -/
  pending : ℕ
  /-- `mac_count()` or `key_count()` of the store. -/
  commit : ℕ
  /-- The inputs that are marked, and not committed. -/
  marked : ℕ
  /-- Those of them that are assigned. The verifier's are blind, and are never assigned. -/
  assigned : ℕ
  /-- The inputs that have got MACs or keys. -/
  authenticated : ℕ
  /-- The number of checks so far. -/
  checks : ℕ
  /-- The chunks so far. -/
  chunks : List (List Call)
  deriving DecidableEq

namespace Party

def new (role : Role) : Party := ⟨role, ⟨0, 0, 0⟩, ⟨[], 0⟩, 0, 0, 0, 0, 0, 0, 0, 0, []⟩

/-- Materializes the OTs, and consumes those for the inputs. -/
def flush (self : Party) : Option Party :=
  let ot := self.ot.flush
  if 0 < self.commit then do
    let ot ← ot.tryRcot self.commit
    return { self with ot, commit := 0, authenticated := self.authenticated + self.commit }
  else some { self with ot }

/-- The loop over a chunk that predicts its demand: gates, checks, and what is pending. -/
def predict (batchSize : ℕ) (s : ℕ × ℕ × ℕ) (call : Call) : ℕ × ℕ × ℕ :=
  let gates := s.1 + call.andCount
  let pending := s.2.2 + call.andCount
  if batchSize ≤ pending then (gates, s.2.1 + 1, 0) else (gates, s.2.1, pending)

/-- Takes whole calls until the batch size is crossed: the batch, and the other calls. -/
def takeBatch (limit : ℕ) : ℕ → List Call → List Call × List Call
  | _, [] => ([], [])
  | gates, call :: calls =>
    let gates := gates + call.andCount
    if limit ≤ gates then ([call], calls)
    else
      let (batch, calls) := takeBatch limit gates calls
      (call :: batch, calls)

/-- Starts the execution of a call: the OTs for its gates are consumed, and its gates are
pending. -/
def executeCall (self : Party) (call : Call) : Option Party := do
  let ot ← self.ot.tryRcot call.andCount
  return { self with ot, pending := self.pending + call.andCount }

/-- `set_output_macs` or `set_output_keys`, of a batch. Memory that is set is refused. The memory of
an output is its own, so it is set before only if it has no cells. -/
def setOutputs (batch : List Call) (self : Party) : Option Party :=
  if batch.all fun call => call.output.size ≠ 0 then some self else none

/-- A consistency check. -/
def check (self : Party) : Option Party := do
  let ot ← self.ot.tryRcot 128
  return { self with ot, pending := 0, checks := self.checks + 1 }

/-- A check, if the batch is full. -/
def checkBatch (config : Config) (self : Party) : Option Party :=
  if config.batchSize ≤ self.pending then self.check else some self

theorem length_takeBatch (limit gates : ℕ) (calls : List Call) :
    (takeBatch limit gates calls).2.length ≤ calls.length - 1 := by
  induction calls generalizing gates with
  | nil => simp [takeBatch]
  | cons call calls ih =>
    rw [takeBatch]
    dsimp only
    split
    · simp
    · have := ih (gates + call.andCount)
      simp only [List.length_cons]
      omega

/-- The loop over the batches of a chunk. -/
def executeCalls (config : Config) (self : Party) (calls : List Call) : Option Party :=
  if h : calls = [] then some self
  else
    let limit := config.batchSize - self.pending
    have : (takeBatch limit 0 calls).2.length < calls.length := by
      have := length_takeBatch limit 0 calls
      have := List.length_pos_iff.mpr h
      omega
    let batch := (takeBatch limit 0 calls).1
    match batch.foldlM executeCall self >>= setOutputs batch with
    | none => none
    | some self => match self.checkBatch config with
      | none => none
      | some self => executeCalls config self (takeBatch limit 0 calls).2
termination_by calls.length

/-- Executes a chunk of the calls whose inputs are committed. -/
def execute (config : Config) (committed : Slice → Bool) (self : Party) : Option Party :=
  -- `debug_assert_eq!(self.core.pending(), 0)`
  if self.pending ≠ 0 then none
  else do
    let (chunk, callstack) ←
      self.callstack.extractIf config.chunkCap fun call => call.inputs.all committed
    if chunk = [] then return { self with callstack }
    else
      let (gates, checks, pending) := chunk.foldl (predict config.batchSize) (0, 0, self.pending)
      -- The trailing partial batch is checked too.
      let checks := if 0 < pending then checks + 1 else checks
      let preRegisteredGates := min self.registeredGates gates
      let preRegisteredChecks := min self.registeredChecks checks
      let demand := (gates - preRegisteredGates) + (checks - preRegisteredChecks) * 128
      let self ← flush
        { self with
          callstack
          ot := if 0 < demand then self.ot.alloc demand else self.ot
          registeredGates := self.registeredGates - preRegisteredGates
          registeredChecks := self.registeredChecks - preRegisteredChecks }
      let self ← self.executeCalls config chunk
      let self ← if self.pending ≠ 0 then self.check else some self
      return { self with chunks := self.chunks ++ [chunk] }

/-- The first step of `call_raw`: pre-registers gate OTs up to the chunk window. -/
def registerGates (config : Config) (count : ℕ) (self : Party) : Party :=
  if 0 < count ∧ self.registeredGates + count ≤ config.chunkCap then
    { self with ot := self.ot.alloc count, registeredGates := self.registeredGates + count }
  else self

/-- The second step of `call_raw`: registers the consistency checks that the call's addition
triggers. -/
def registerChecks (config : Config) (count : ℕ) (self : Party) : Party :=
  if 0 < count then
    let partialLen := self.callstack.andCount % config.batchSize
    let checks := (partialLen + count - 1) / config.batchSize
    let checks := if partialLen = 0 then checks + 1 else checks
    if 0 < checks then
      { self with ot := self.ot.alloc (checks * 128), registeredChecks := self.registeredChecks +
        checks }
    else self
  else self

/-- Puts a call on the stack, and registers OTs for it ahead. -/
def callRaw (config : Config) (call : Call) (self : Party) : Party :=
  let self := self.registerGates config call.andCount
  let self := self.registerChecks config call.andCount
  { self with callstack := self.callstack.push call }

/-- `mark_private_raw` of the prover, or `mark_blind_raw` of the verifier, on inputs that are not
marked. -/
def markRaw (count : ℕ) (self : Party) : Party :=
  { self with ot := self.ot.alloc count, marked := self.marked + count }

/-- `assign_raw`, on inputs that are marked and not assigned. Blind ones are refused. -/
def assignRaw (count : ℕ) (self : Party) : Option Party :=
  match self.role with
  | .prover =>
    if self.marked < self.assigned + count then none
    else some { self with assigned := self.assigned + count }
  | .verifier => none

/-- `commit_raw`, which takes inputs that are assigned, as far as there are any. Inputs that are not
marked are refused, and so are those of the prover that are not assigned. -/
def commitRaw (count : ℕ) (self : Party) : Option Party :=
  if self.marked < count ∨ self.role = .prover ∧ self.assigned < count then none
  else some
    { self with
      commit := self.commit + count
      marked := self.marked - count
      assigned := self.assigned - count }

end Party

/-! ### Acts -/

inductive Act where
  | call (call : Call)
  | mark (count : ℕ)
  | assign (count : ℕ)
  | commit (count : ℕ)
  | flush
  /-- An execution, where some slices are committed. -/
  | execute (committed : Slice → Bool)

def next (config : Config) (p : Party) : Act → Option Party
  | .call call => some (p.callRaw config call)
  | .mark count => some (p.markRaw count)
  | .assign count => p.assignRaw count
  | .commit count => p.commitRaw count
  | .flush => p.flush
  | .execute committed => p.execute config committed

/-- Circuits that are called have outputs, only the prover assigns inputs, and no more than are
marked, and inputs are committed only where they are marked and, by the prover, assigned. -/
def Act.Careful (p : Party) : Act → Prop
  | .call c => 0 < c.output.size
  | .assign count => p.role = .prover ∧ p.assigned + count ≤ p.marked
  | .commit count => count ≤ p.marked ∧ (p.role = .prover → count ≤ p.assigned)
  | _ => True

instance (p : Party) : (a : Act) → Decidable (a.Careful p)
  | .mark _ | .flush | .execute _ => inferInstanceAs (Decidable True)
  | .call c => inferInstanceAs (Decidable (0 < c.output.size))
  | .assign count => inferInstanceAs (Decidable (p.role = .prover ∧ p.assigned + count ≤ p.marked))
  | .commit count =>
    inferInstanceAs (Decidable (count ≤ p.marked ∧ (p.role = .prover → count ≤ p.assigned)))

/-- An act of a caller that is careful. -/
def CarefulStep (config : Config) (p : Party) (a : Act) (q : Party) : Prop :=
  a.Careful p ∧ next config p a = some q

theorem carefulStep_of_guard {config : Config} {p q : Party} {a : Act}
    (h : (if a.Careful p then next config p a else none) = some q) : CarefulStep config p a q := by
  split at h
  · exact ⟨‹_›, h⟩
  · exact absurd h (Option.some_ne_none q).symm

/-! ### Batches -/

/-- How many times a batch is filled, where some gates are pending before, and how many gates are
pending behind. -/
def crossings (batchSize : ℕ) : ℕ → List Call → ℕ × ℕ
  | pending, [] => (0, pending)
  | pending, call :: calls =>
    if batchSize ≤ pending + call.andCount then
      ((crossings batchSize 0 calls).1 + 1, (crossings batchSize 0 calls).2)
    else crossings batchSize (pending + call.andCount) calls

/-- The checks of a chunk: one for each batch, the last of which may be partial. -/
def checksOf (batchSize : ℕ) (calls : List Call) : ℕ :=
  (crossings batchSize 0 calls).1 + if 0 < (crossings batchSize 0 calls).2 then 1 else 0

variable {config : Config} {p q : Party} {calls : List Call}

@[simp] theorem gatesOf_nil : gatesOf [] = 0 := rfl

@[simp] theorem gatesOf_cons (call : Call) (calls : List Call) :
    gatesOf (call :: calls) = call.andCount + gatesOf calls := rfl

@[simp] theorem gatesOf_append (calls calls' : List Call) :
    gatesOf (calls ++ calls') = gatesOf calls + gatesOf calls' := by
  rw [gatesOf, List.map_append, List.sum_append, gatesOf, gatesOf]

theorem gatesOf_perm {calls calls' : List Call} (h : calls.Perm calls') :
    gatesOf calls = gatesOf calls' :=
  (h.map Call.andCount).sum_eq

/-- The prediction counts the batches of the chunk. -/
theorem foldl_predict (batchSize : ℕ) (calls : List Call) (gates checks pending : ℕ) :
    calls.foldl (Party.predict batchSize) (gates, checks, pending) =
      (gates + gatesOf calls, checks + (crossings batchSize pending calls).1,
        (crossings batchSize pending calls).2) := by
  induction calls generalizing gates checks pending with
  | nil => rfl
  | cons call calls ih =>
    rw [List.foldl_cons, Party.predict, crossings, gatesOf_cons]
    dsimp only
    split
    · rw [ih, Nat.add_assoc, Nat.add_assoc checks, Nat.add_comm 1]
    · rw [ih, Nat.add_assoc]

/-! ### Execution -/

namespace Party

/-- A call on its own, with the check behind it if it fills the batch. -/
def runCall (config : Config) (self : Party) (call : Call) : Option Party := do
  let self ← self.executeCall call
  self.checkBatch config

/-- A batch, with its check, is its calls one by one: only the last of them may fill it. -/
theorem foldlM_takeBatch {gates first : ℕ} (hp : p.pending = first + gates)
    (hlt : p.pending < config.batchSize) (call : Call) (calls : List Call) :
    (do
      let q ← (takeBatch (config.batchSize - first) gates (call :: calls)).1.foldlM executeCall p
      let q ← q.checkBatch config
      (takeBatch (config.batchSize - first) gates (call :: calls)).2.foldlM (runCall config) q) =
    (call :: calls).foldlM (runCall config) p := by
  induction calls generalizing call gates p with
  | nil =>
    rw [takeBatch]
    dsimp only
    split <;> simp [takeBatch, runCall, Option.bind_eq_bind]
  | cons call' calls ih =>
    rw [takeBatch]
    dsimp only
    split
    · simp [runCall, Option.bind_eq_bind, Option.bind_assoc]
    · next hlimit =>
      rw [List.foldlM_cons, List.foldlM_cons, runCall]
      simp only [Option.bind_eq_bind, Option.bind_assoc]
      cases hexec : p.executeCall call with
      | none => rfl
      | some q =>
        rw [executeCall, Option.bind_eq_bind, Option.bind_eq_some_iff] at hexec
        obtain ⟨ot, -, hq⟩ := hexec
        obtain rfl := Option.some.inj hq
        have hpending : p.pending + call.andCount = first + (gates + call.andCount) := by omega
        have hlt' : p.pending + call.andCount < config.batchSize := by omega
        have ih := ih (p := { p with ot, pending := p.pending + call.andCount }) hpending hlt' call'
        simp only [Option.bind_eq_bind] at ih
        simp only [Option.bind_some, ih]
        rw [checkBatch, if_neg (Nat.not_le_of_lt hlt')]
        rfl

theorem pending_checkBatch (h : p.checkBatch config = some q) : q.pending < config.batchSize := by
  rw [checkBatch] at h
  split at h
  · rw [check, Option.bind_eq_bind, Option.bind_eq_some_iff] at h
    obtain ⟨ot, -, hq⟩ := h
    obtain rfl := Option.some.inj hq
    exact config.pos
  · obtain rfl := Option.some.inj h
    exact Nat.lt_of_not_le ‹_›

theorem takeBatch_append (limit gates : ℕ) (calls : List Call) :
    (takeBatch limit gates calls).1 ++ (takeBatch limit gates calls).2 = calls := by
  induction calls generalizing gates with
  | nil => rfl
  | cons call calls ih =>
    rw [takeBatch]
    dsimp only
    split
    · rfl
    · rw [List.cons_append, ih]

/-- Outputs that have cells are set. -/
theorem setOutputs_eq (h : ∀ call ∈ calls, 0 < call.output.size) (p : Party) :
    setOutputs calls p = some p :=
  if_pos (List.all_eq_true.mpr fun call hcall => decide_eq_true (h call hcall).ne')

/-- **The batches are taken call by call.** -/
theorem executeCalls_eq (hlt : p.pending < config.batchSize) (calls : List Call)
    (hout : ∀ call ∈ calls, 0 < call.output.size) :
    p.executeCalls config calls = calls.foldlM (runCall config) p := by
  induction hn : calls.length using Nat.strongRecOn generalizing calls p with
  | ind n ih =>
  cases calls with
  | nil => rw [executeCalls, dif_pos rfl]; rfl
  | cons call calls =>
    have hself : p.pending = p.pending + 0 := rfl
    have hlen := length_takeBatch (config.batchSize - p.pending) 0 (call :: calls)
    rw [List.length_cons] at hlen hn
    have happend := takeBatch_append (config.batchSize - p.pending) 0 (call :: calls)
    rw [← happend] at hout
    rw [executeCalls, dif_neg (List.cons_ne_nil call calls), ← foldlM_takeBatch hself hlt]
    dsimp only
    cases (takeBatch (config.batchSize - p.pending) 0 (call :: calls)).1.foldlM executeCall p with
    | none => rfl
    | some q =>
      simp only [Option.bind_eq_bind, Option.bind_some]
      rw [setOutputs_eq fun call hcall => hout call (List.mem_append_left _ hcall)]
      dsimp only
      cases hcheck : q.checkBatch config with
      | none => rfl
      | some q' =>
        exact ih _ (Nat.lt_of_le_of_lt hlen (by omega)) (pending_checkBatch hcheck) _
          (fun call hcall => hout call (List.mem_append_right _ hcall)) rfl

/-- **What a chunk consumes**, if enough is materialized: an OT for each gate, and 128 for each
check. -/
theorem foldlM_runCall (hlt : p.pending < config.batchSize) (calls : List Call)
    (h : p.ot.consumed + gatesOf calls + 128 * (crossings config.batchSize p.pending calls).1 ≤
      p.ot.flushed) :
    calls.foldlM (runCall config) p = some
      { p with
        ot := { p.ot with consumed :=
          p.ot.consumed + gatesOf calls + 128 * (crossings config.batchSize p.pending calls).1 }
        pending := (crossings config.batchSize p.pending calls).2
        checks := p.checks + (crossings config.batchSize p.pending calls).1 } := by
  induction calls generalizing p with
  | nil => rfl
  | cons call calls ih =>
    rw [gatesOf_cons] at h
    have htry : p.ot.tryRcot call.andCount =
        some { p.ot with consumed := p.ot.consumed + call.andCount } := by
      rw [Ot.tryRcot, if_pos (by omega)]
    rw [List.foldlM_cons, runCall, executeCall, htry]
    simp only [Option.bind_eq_bind, Option.bind_some, checkBatch, pure]
    by_cases hfull : config.batchSize ≤ p.pending + call.andCount
    · simp only [crossings, if_pos hfull] at h ⊢
      rw [check, Ot.tryRcot, if_pos (by dsimp only; omega)]
      simp only [Option.bind_eq_bind, Option.bind_some, pure]
      rw [ih config.pos (by dsimp only; omega)]
      simp only [gatesOf_cons, Option.some.injEq, mk.injEq, Ot.mk.injEq, and_true, true_and]
      omega
    · simp only [crossings, if_neg hfull] at h ⊢
      rw [Option.bind_some, ih (Nat.lt_of_not_le hfull) (by dsimp only; omega)]
      simp only [gatesOf_cons, Nat.add_assoc]

end Party

/-! ### The stack -/

/-- What is taken off a list of calls: ready ones in their order, up to the limit, which only the
last of them may pass. Where the limit is not met, all ready calls are taken. -/
structure Extracted (softLimit : ℕ) (f : Call → Bool) (calls : List Call) (total : ℕ)
    (taken inner : List Call) :
    Prop where
  perm : (taken ++ inner).Perm calls
  sublist : taken.Sublist (calls.filter f)
  stays : inner.Sublist calls
  window : taken ≠ [] → total + gatesOf taken.dropLast < softLimit
  all : total + gatesOf taken < softLimit → ∀ call ∈ inner, f call = false

theorem exists_extractLoop (softLimit : ℕ) (f : Call → Bool) (calls : List Call) {andCount : ℕ}
    (h : gatesOf calls ≤ andCount) (total : ℕ) (limit : Bool)
    (hlimit : limit = decide (softLimit ≤ total)) :
    ∃ taken inner, CallStack.extractLoop softLimit f calls andCount total limit =
      some (taken, inner, andCount - gatesOf taken) ∧
      Extracted softLimit f calls total taken inner := by
  induction calls generalizing andCount total limit with
  | nil =>
    exact ⟨[], [], rfl, .refl _, List.nil_sublist _, List.nil_sublist _, fun h => absurd rfl h,
      fun _ _ h => absurd h List.not_mem_nil⟩
  | cons call calls ih =>
    rw [gatesOf_cons] at h
    rw [CallStack.extractLoop]
    by_cases htake : (!limit && f call) = true
    · obtain ⟨hnot, hf⟩ := Bool.and_eq_true_iff.mp htake
      have hlt : total < softLimit := by
        rw [hlimit, Bool.not_eq_true', decide_eq_false_iff_not] at hnot
        omega
      have hrest : gatesOf calls ≤ andCount - call.andCount := by omega
      obtain ⟨taken, inner, hloop, hext⟩ := ih hrest (total + call.andCount) _ rfl
      refine ⟨call :: taken, inner, ?_, hext.perm.cons call, ?_, hext.stays.cons call, fun _ => ?_,
        fun hall => ?_⟩
      · rw [if_pos htake, if_neg (by omega)]
        dsimp only
        rw [hloop, gatesOf_cons, Nat.sub_add_eq]
        rfl
      · rw [List.filter_cons_of_pos hf]
        exact hext.sublist.cons_cons call
      · by_cases hnil : taken = []
        · rw [hnil]
          exact hlt
        · rw [List.dropLast_cons_of_ne_nil hnil, gatesOf_cons, ← Nat.add_assoc]
          exact hext.window hnil
      · rw [gatesOf_cons, ← Nat.add_assoc] at hall
        exact hext.all hall
    · have hrest : gatesOf calls ≤ andCount := by omega
      obtain ⟨taken, inner, hloop, hext⟩ := ih hrest total limit hlimit
      refine ⟨taken, call :: inner, ?_, ?_, ?_, hext.stays.cons_cons call, hext.window,
        fun hall => ?_⟩
      · rw [if_neg htake, hloop]
        rfl
      · exact (List.perm_middle.trans (hext.perm.cons call))
      · by_cases hf : f call
        · rw [List.filter_cons_of_pos hf]
          exact hext.sublist.cons call
        · rw [List.filter_cons_of_neg hf]
          exact hext.sublist
      · refine List.forall_mem_cons.mpr ⟨?_, hext.all hall⟩
        have hfalse : limit = false := by
          rw [hlimit, decide_eq_false_iff_not]
          omega
        rw [hfalse, Bool.not_false, Bool.true_and] at htake
        exact Bool.not_eq_true _ ▸ htake

/-- A call whose inputs are committed. -/
def ready (committed : Slice → Bool) (call : Call) : Bool := call.inputs.all committed

/-- **The chunk of an execution**, off a stack that is counted. -/
theorem exists_extractIf {stack : CallStack} (h : stack.andCount = gatesOf stack.inner)
    {softLimit : ℕ} (hlimit : 0 < softLimit) (f : Call → Bool) : ∃ chunk inner,
      stack.extractIf softLimit f = some (chunk, ⟨inner, gatesOf inner⟩) ∧
      Extracted softLimit f stack.inner 0 chunk inner := by
  obtain ⟨taken, inner, hloop, hext⟩ := exists_extractLoop softLimit f stack.inner h.ge 0 false
    (decide_eq_false (Nat.not_le_of_lt hlimit)).symm
  have hgates := gatesOf_perm hext.perm
  rw [gatesOf_append] at hgates
  refine ⟨taken, inner, ?_, hext⟩
  rw [CallStack.extractIf, hloop, h, ← hgates, Nat.add_sub_cancel_left]
  rfl

/-! ### The accounts -/

/-- The batches that so many gates make, the last of which may be partial. -/
def batches (batchSize gates : ℕ) : ℕ := (gates + batchSize - 1) / batchSize

/-- The accounts of a party between two acts. What is allocated and not consumed is registered, or
is for the inputs. -/
structure Party.Inv (config : Config) (p : Party) : Prop where
  count : p.callstack.andCount = gatesOf p.callstack.inner
  pending : p.pending = 0
  registered_le : p.registeredGates ≤ gatesOf p.callstack.inner
  allocated : p.ot.allocated =
    p.ot.consumed + p.registeredGates + 128 * p.registeredChecks + p.marked + p.commit
  consumed : p.ot.consumed = gatesOf p.chunks.flatten + 128 * p.checks + p.authenticated
  checks : p.checks = (p.chunks.map (checksOf config.batchSize)).sum
  outputs : ∀ call ∈ p.callstack.inner, 0 < call.output.size

/-- What an execution does with the chunk it takes. -/
structure Executed (config : Config) (committed : Slice → Bool) (p : Party) (chunk : List Call)
    (q : Party) :
    Prop where
  extracted : Extracted config.chunkCap (ready committed) p.callstack.inner 0 chunk
    q.callstack.inner
  chunks : q.chunks.flatten = p.chunks.flatten ++ chunk
  checks : q.checks = p.checks + checksOf config.batchSize chunk
  registeredChecks : q.registeredChecks = p.registeredChecks - checksOf config.batchSize chunk
  inputs : q.marked = p.marked ∧ q.authenticated + q.commit = p.authenticated + p.commit

namespace Party

theorem Inv.new (role : Role) : Inv config (.new role) :=
  ⟨rfl, rfl, le_rfl, rfl, rfl, rfl, fun _ h => absurd h List.not_mem_nil⟩

/-- A flush serves the inputs. -/
theorem flush_eq (h : p.ot.consumed + p.commit ≤ p.ot.allocated) : p.flush = some
    { p with
      ot := ⟨p.ot.allocated, p.ot.allocated, p.ot.consumed + p.commit⟩
      commit := 0
      authenticated := p.authenticated + p.commit } := by
  rw [flush]
  dsimp only [Ot.flush]
  split
  · rw [Ot.tryRcot, if_pos h]
    rfl
  · have hzero : p.commit = 0 := by omega
    simp only [hzero, Nat.add_zero]

theorem Inv.flush (h : Inv config p) : ∃ q, p.flush = some q ∧ Inv config q := by
  have hallocated := h.allocated
  refine ⟨_, flush_eq (by omega), h.count, h.pending, h.registered_le, ?_, ?_, h.checks, h.outputs⟩
  · dsimp only
    omega
  · have := h.consumed
    dsimp only
    omega

/-- A call registers the checks of the batches that its gates begin. -/
theorem begun_eq {batchSize : ℕ} (h : 0 < batchSize) (before : ℕ) {count : ℕ} (hcount : 0 < count) :
    (if before % batchSize = 0 then (before % batchSize + count - 1) / batchSize + 1
      else (before % batchSize + count - 1) / batchSize) =
      batches batchSize (before + count) - batches batchSize before := by
  have hsplit := Nat.div_add_mod before batchSize
  have hmod := Nat.mod_lt before h
  generalize before / batchSize = k at hsplit
  generalize before % batchSize = r at hsplit hmod ⊢
  have hbefore : batches batchSize before = k + if r = 0 then 0 else 1 := by
    have hsum : before + batchSize - 1 = batchSize * k + (r + batchSize - 1) := by omega
    rw [batches, hsum, Nat.mul_add_div h]
    split
    · rw [Nat.div_eq_of_lt (by omega)]
    · have hlast : r + batchSize - 1 = r - 1 + batchSize := by omega
      rw [hlast, Nat.add_div_right _ h, Nat.div_eq_of_lt (by omega)]
  have hafter : batches batchSize (before + count) = k + ((r + count - 1) / batchSize + 1) := by
    have hsum : before + count + batchSize - 1 = batchSize * k + (r + count - 1 + batchSize) := by
      omega
    rw [batches, hsum, Nat.mul_add_div h, Nat.add_div_right _ h]
  rw [hbefore, hafter]
  generalize (r + count - 1) / batchSize = m
  by_cases hr : r = 0
  · rw [if_pos hr, if_pos hr]
    omega
  · rw [if_neg hr, if_neg hr]
    omega

theorem exists_registerGates (config : Config) (p : Party) (count : ℕ) : ∃ gates ≤ count,
    p.registerGates config count =
      { p with ot := p.ot.alloc gates, registeredGates := p.registeredGates + gates } := by
  rw [registerGates]
  split
  · exact ⟨count, le_rfl, rfl⟩
  · exact ⟨0, Nat.zero_le _, rfl⟩

theorem registerChecks_eq (config : Config) (p : Party) (count : ℕ) :
    p.registerChecks config count =
      { p with
        ot := p.ot.alloc ((batches config.batchSize (p.callstack.andCount + count) -
          batches config.batchSize p.callstack.andCount) * 128)
        registeredChecks := p.registeredChecks +
          (batches config.batchSize (p.callstack.andCount + count) -
          batches config.batchSize p.callstack.andCount) } := by
  rw [registerChecks]
  by_cases hcount : 0 < count
  · rw [if_pos hcount]
    dsimp only
    rw [begun_eq config.pos p.callstack.andCount hcount]
    split
    · rfl
    · have hzero : batches config.batchSize (p.callstack.andCount + count) -
          batches config.batchSize p.callstack.andCount = 0 := by omega
      rw [hzero]
      rfl
  · have hzero : count = 0 := by omega
    rw [if_neg hcount, hzero, Nat.add_zero, Nat.sub_self]
    rfl

/-- What a call registers: its gates, if they fit into the window, and the batches that they
begin. -/
theorem exists_callRaw (config : Config) (p : Party) (call : Call) : ∃ gates ≤ call.andCount,
    p.callRaw config call =
      { p with
        ot := p.ot.alloc (gates + (batches config.batchSize (p.callstack.andCount + call.andCount) -
          batches config.batchSize p.callstack.andCount) * 128)
        registeredGates := p.registeredGates + gates
        registeredChecks := p.registeredChecks +
          (batches config.batchSize (p.callstack.andCount + call.andCount) -
            batches config.batchSize p.callstack.andCount)
        callstack := p.callstack.push call } := by
  obtain ⟨gates, hle, hgates⟩ := exists_registerGates config p call.andCount
  refine ⟨gates, hle, ?_⟩
  rw [callRaw, hgates, registerChecks_eq]
  simp only [Ot.alloc, Nat.add_assoc]

theorem Inv.callRaw (h : Inv config p) {call : Call} (hout : 0 < call.output.size) :
    Inv config (p.callRaw config call) := by
  obtain ⟨gates, hle, hcall⟩ := exists_callRaw config p call
  have hcount := h.count
  have hallocated := h.allocated
  have hregistered := h.registered_le
  rw [hcall]
  refine ⟨?_, h.pending, ?_, ?_, h.consumed, h.checks,
    List.forall_mem_append.mpr ⟨h.outputs, List.forall_mem_singleton.mpr hout⟩⟩
  · rw [CallStack.push, gatesOf_append, gatesOf_cons, gatesOf_nil, hcount]
    rfl
  · rw [CallStack.push, gatesOf_append, gatesOf_cons, gatesOf_nil]
    dsimp only
    omega
  · dsimp only [Ot.alloc]
    omega

theorem topUp_eq (ot : Ot) (demand : ℕ) : (if 0 < demand then ot.alloc demand else ot) =
    ot.alloc demand := by
  split
  · rfl
  · have hzero : demand = 0 := by omega
    rw [hzero]
    rfl

/-- **An execution** predicts what it consumes. -/
theorem Inv.execute (h : Inv config p) (committed : Slice → Bool) : ∃ q chunk,
    p.execute config committed = some q ∧ Inv config q ∧ Executed config committed p chunk q := by
  obtain ⟨chunk, inner, hextract, hext⟩ := exists_extractIf h.count
    (Nat.lt_of_lt_of_le config.pos config.le) (ready committed)
  have hgates := gatesOf_perm hext.perm
  rw [gatesOf_append] at hgates
  have hallocated := h.allocated
  have hconsumed := h.consumed
  have hregistered := h.registered_le
  have houtputs : ∀ call ∈ inner, 0 < call.output.size := fun call hcall =>
    h.outputs call (hext.stays.subset hcall)
  have hout : ∀ call ∈ chunk, 0 < call.output.size := fun call hcall =>
    h.outputs call (hext.perm.subset (List.mem_append_left _ hcall))
  rw [Party.execute, if_neg (not_not.mpr h.pending)]
  change ∃ q chunk, (p.callstack.extractIf config.chunkCap (ready committed) >>= _) = some q ∧ _
  rw [hextract, Option.bind_eq_bind, Option.bind_some]
  dsimp only
  by_cases hnil : chunk = []
  · subst hnil
    refine ⟨_, [], if_pos rfl, ⟨rfl, h.pending, ?_, hallocated, hconsumed, h.checks, houtputs⟩,
      ⟨hext, (List.append_nil _).symm, rfl, rfl, rfl, rfl⟩⟩
    rw [gatesOf_nil, Nat.zero_add] at hgates
    exact hgates ▸ hregistered
  · rw [if_neg hnil, foldl_predict, h.pending]
    dsimp only
    have hchecks : (if 0 < (crossings config.batchSize 0 chunk).2 then
        0 + (crossings config.batchSize 0 chunk).1 + 1 else 0 +
          (crossings config.batchSize 0 chunk).1) =
          checksOf config.batchSize chunk := by
      rw [checksOf]
      split <;> omega
    rw [hchecks, topUp_eq, Nat.zero_add]
    generalize hdemand : gatesOf chunk - min p.registeredGates (gatesOf chunk) +
      (checksOf config.batchSize chunk - min p.registeredChecks (checksOf config.batchSize chunk)) *
      128 = demand
    have hflush : ∀ stack gates checks, ({ p with
        ot := p.ot.alloc demand, callstack := stack, registeredGates := gates,
        registeredChecks := checks, pending := 0 } : Party).flush = some
        { p with
          ot := ⟨p.ot.allocated + demand, p.ot.allocated + demand, p.ot.consumed + p.commit⟩
          callstack := stack
          registeredGates := gates
          registeredChecks := checks
          pending := 0
          commit := 0
          authenticated := p.authenticated + p.commit } := fun stack gates checks =>
      flush_eq (by dsimp only [Ot.alloc]; omega)
    have hsum : (p.chunks ++ [chunk]).flatten = p.chunks.flatten ++ chunk := by
      rw [List.flatten_append, List.flatten_singleton]
    have hall : ((p.chunks ++ [chunk]).map (checksOf config.batchSize)).sum =
        p.checks + checksOf config.batchSize chunk := by
      rw [List.map_append, List.sum_append, h.checks]
      rfl
    simp only [hflush, Option.bind_eq_bind, Option.bind_some]
    rw [executeCalls_eq config.pos chunk hout, foldlM_runCall config.pos chunk (by
      dsimp only
      rw [checksOf] at hdemand
      omega), Option.bind_some]
    dsimp only
    by_cases hrest : (crossings config.batchSize 0 chunk).2 = 0
    · have hc : checksOf config.batchSize chunk = (crossings config.batchSize 0 chunk).1 := by
        rw [checksOf, if_neg (by omega), Nat.add_zero]
      rw [if_neg (not_not.mpr hrest)]
      refine ⟨_, chunk, rfl, ⟨rfl, hrest, ?_, ?_, ?_, hall.symm ▸ hc ▸ rfl, houtputs⟩,
        ⟨hext, hsum, hc ▸ rfl, ?_, rfl, rfl⟩⟩
      · dsimp only
        omega
      · dsimp only
        omega
      · rw [hsum, gatesOf_append]
        dsimp only
        omega
      · dsimp only
        omega
    · have hc : checksOf config.batchSize chunk = (crossings config.batchSize 0 chunk).1 + 1 := by
        rw [checksOf, if_pos (by omega)]
      rw [if_pos hrest, check, Ot.tryRcot, if_pos (by
        dsimp only
        omega)]
      simp only [Option.bind_eq_bind, Option.bind_some]
      refine ⟨_, chunk, rfl, ⟨rfl, rfl, ?_, ?_, ?_, ?_, houtputs⟩, ⟨hext, hsum, ?_, ?_, rfl, rfl⟩⟩
      · dsimp only
        omega
      · dsimp only
        omega
      · rw [hsum, gatesOf_append]
        dsimp only
        omega
      · rw [hall, hc, ← Nat.add_assoc]
      · rw [hc, ← Nat.add_assoc]
      · dsimp only
        omega

end Party

/-! ### Runs -/

/-- The calls that are submitted by some acts. -/
def submitted (acts : List Act) : List Call := acts.filterMap fun
  | .call call => some call
  | _ => none

/-- The inputs that are marked by some acts. -/
def inputsOf (acts : List Act) : ℕ := (acts.map fun
  | .mark count => count
  | _ => 0).sum

theorem Party.assignRaw_eq {count : ℕ} (ha : (Act.assign count).Careful p) :
    p.assignRaw count = some { p with assigned := p.assigned + count } := by
  obtain ⟨hrole, hle⟩ := ha
  rw [assignRaw, hrole]
  exact if_neg (Nat.not_lt_of_le hle)

theorem Party.commitRaw_eq {count : ℕ} (ha : (Act.commit count).Careful p) :
    p.commitRaw count = some
      { p with
        commit := p.commit + count
        marked := p.marked - count
        assigned := p.assigned - count } := by
  refine if_neg ?_
  rintro (hlt | ⟨hrole, hlt⟩)
  · exact absurd ha.1 (Nat.not_le_of_lt hlt)
  · exact absurd (ha.2 hrole) (Nat.not_le_of_lt hlt)

/-- No act of a careful caller fails, and every act keeps the accounts. -/
theorem Party.Inv.step (h : p.Inv config) {a : Act} (ha : a.Careful p) :
    ∃ q, next config p a = some q ∧ q.Inv config := by
  cases a with
  | call call => exact ⟨_, rfl, h.callRaw ha⟩
  | mark count =>
    refine ⟨_, rfl, h.count, h.pending, h.registered_le, ?_, h.consumed, h.checks, h.outputs⟩
    have := h.allocated
    dsimp only [Party.markRaw, Ot.alloc]
    omega
  | assign count =>
    exact ⟨_, Party.assignRaw_eq ha, h.count, h.pending, h.registered_le, h.allocated, h.consumed,
      h.checks, h.outputs⟩
  | commit count =>
    refine ⟨_, Party.commitRaw_eq ha, h.count, h.pending, h.registered_le, ?_, h.consumed, h.checks,
      h.outputs⟩
    have hle : count ≤ p.marked := ha.1
    have := h.allocated
    dsimp only
    omega
  | flush => exact h.flush
  | execute committed =>
    obtain ⟨q, chunk, hq, hinv, -⟩ := h.execute committed
    exact ⟨q, hq, hinv⟩

/-- What a step does to the calls and the inputs. -/
theorem moved_of_step (h : p.Inv config) {a : Act} (hstep : CarefulStep config p a q) :
    (q.chunks.flatten ++ q.callstack.inner).Perm (p.chunks.flatten ++ p.callstack.inner ++
      submitted [a]) ∧
      q.marked + q.commit + q.authenticated = p.marked + p.commit + p.authenticated +
      inputsOf [a] := by
  obtain ⟨ha, hnext⟩ := hstep
  cases a with
  | call call =>
    obtain rfl := Option.some.inj hnext
    obtain ⟨gates, -, hcall⟩ := Party.exists_callRaw config p call
    rw [hcall]
    exact ⟨(List.append_assoc ..).symm ▸ .refl _, rfl⟩
  | mark count =>
    obtain rfl := Option.some.inj hnext
    refine ⟨(List.append_nil _).symm ▸ .refl _, ?_⟩
    have : inputsOf [.mark count] = count := rfl
    dsimp only [Party.markRaw]
    omega
  | assign count =>
    obtain rfl := Option.some.inj ((Party.assignRaw_eq ha).symm.trans hnext)
    exact ⟨(List.append_nil _).symm ▸ .refl _, rfl⟩
  | commit count =>
    obtain rfl := Option.some.inj ((Party.commitRaw_eq ha).symm.trans hnext)
    refine ⟨(List.append_nil _).symm ▸ .refl _, ?_⟩
    have hle : count ≤ p.marked := ha.1
    have : inputsOf [.commit count] = 0 := rfl
    dsimp only
    omega
  | flush =>
    have hflush := Party.flush_eq (p := p) (by have := h.allocated; omega)
    obtain rfl := Option.some.inj (hflush.symm.trans hnext)
    refine ⟨(List.append_nil _).symm ▸ .refl _, ?_⟩
    have : inputsOf [.flush] = 0 := rfl
    dsimp only
    omega
  | execute committed =>
    obtain ⟨q', chunk, hq, -, hexec⟩ := h.execute committed
    obtain rfl := Option.some.inj (hq.symm.trans hnext)
    refine ⟨?_, ?_⟩
    · have hnil : submitted [.execute committed] = [] := rfl
      rw [hexec.chunks, List.append_assoc, hnil, List.append_nil]
      exact hexec.extracted.perm.append_left _
    · have : inputsOf [.execute committed] = 0 := rfl
      have := hexec.inputs
      omega

theorem inv_of_run {role : Role} {acts : List Act}
    (h : Run (CarefulStep config) (.new role) acts p) :
    p.Inv config ∧ (p.chunks.flatten ++ p.callstack.inner).Perm (submitted acts) ∧
      p.marked + p.commit + p.authenticated = inputsOf acts := by
  induction h with
  | nil => exact ⟨Party.Inv.new role, .refl _, rfl⟩
  | snoc _ hstep ih =>
    obtain ⟨hinv, hperm, hinputs⟩ := ih
    obtain ⟨q, hq, hinv'⟩ := hinv.step hstep.1
    obtain rfl := Option.some.inj (hq.symm.trans hstep.2)
    obtain ⟨hmoved, hsum⟩ := moved_of_step hinv hstep
    refine ⟨hinv', ?_, ?_⟩
    · rw [submitted, List.filterMap_append]
      exact hmoved.trans (hperm.append_right _)
    · rw [hsum, hinputs, inputsOf, inputsOf, inputsOf, List.map_append, List.sum_append]

/-- Batches of two gates, in chunks of four. -/
def sampleConfig : Config := ⟨2, 4, by decide, by decide⟩

def sampleCalls : List Call := [⟨1, [⟨0, 1⟩], ⟨1, 1⟩⟩, ⟨3, [⟨0, 1⟩], ⟨2, 1⟩⟩, ⟨5, [⟨1, 1⟩], ⟨3, 1⟩⟩]

def sampleActs : List Act :=
  [.mark 1, .assign 1, .commit 1, .flush, .execute fun _ => true, .execute fun _ => true]

/-- The party behind the calls and the acts: the first two calls are one chunk, and the third is
another. -/
def sampleParty : Party :=
  ⟨.prover, ⟨650, 650, 266⟩, ⟨[], 0⟩, 0, 3, 0, 0, 0, 0, 1, 2,
    [sampleCalls.take 2, sampleCalls.drop 2]⟩

theorem run_sample : Run (CarefulStep sampleConfig) (.new .prover)
    (sampleCalls.map Act.call ++ sampleActs) sampleParty :=
  Run.of_exec (fun _ _ _ => carefulStep_of_guard) (by decide +kernel)

/-- **The accounts behind every run.** Every call that was submitted is on the stack or was
executed, once, and every OT that was allocated was consumed by a gate, a check or an input, or is
registered for one; no act of a careful caller fails, and an execution takes ready calls in the
order of the stack and makes as many checks as their batches. -/
theorem accounts_of_run {role : Role} {acts : List Act}
    (h : Run (CarefulStep config) (.new role) acts p) :
    p.Inv config ∧ (p.chunks.flatten ++ p.callstack.inner).Perm (submitted acts) ∧
      p.marked + p.commit + p.authenticated = inputsOf acts ∧
      (∀ a : Act, a.Careful p → (next config p a).isSome) ∧
      ∀ committed, ∃ q chunk, p.execute config committed = some q ∧
        Executed config committed p chunk q := by
  obtain ⟨hinv, hperm, hinputs⟩ := inv_of_run h
  refine ⟨hinv, hperm, hinputs, fun a ha => ?_, fun committed => ?_⟩
  · obtain ⟨q, hq, -⟩ := hinv.step ha
    rw [hq]
    rfl
  · obtain ⟨q, chunk, hq, -, hexec⟩ := hinv.execute committed
    exact ⟨q, chunk, hq, hexec⟩

theorem accounts_of_run_sample :
    sampleParty.Inv sampleConfig ∧
      (next sampleConfig sampleParty (.execute fun _ => true)).isSome :=
  ⟨(accounts_of_run run_sample).1, (accounts_of_run run_sample).2.2.2.1 _ trivial⟩

/-- A call without outputs makes its execution fail, and an input that is not assigned its
commitment. -/
example : exec (next sampleConfig) (.new .prover)
    [.call ⟨1, [], ⟨1, 0⟩⟩, .execute fun _ => true] = none ∧
    exec (next sampleConfig) (.new .prover) [.mark 1, .commit 1] = none := by decide +kernel

/-- Behind the submission of some calls, the checks of all their batches are registered. -/
theorem registered_of_calls {role : Role} {calls : List Call}
    (h : Run (CarefulStep config) (.new role) (calls.map Act.call) p) :
    p.checks = 0 ∧ p.callstack.andCount = gatesOf calls ∧
      p.registeredChecks = batches config.batchSize (gatesOf calls) := by
  induction calls using List.reverseRecOn generalizing p with
  | nil =>
    obtain rfl := h.of_nil
    refine ⟨rfl, rfl, (Nat.div_eq_of_lt ?_).symm⟩
    have := config.pos
    rw [gatesOf_nil]
    omega
  | append_singleton calls call ih =>
    rw [List.map_append] at h
    obtain ⟨q, hq, -, hnext⟩ := h.of_snoc
    obtain ⟨hchecks, hcount, hregistered⟩ := ih hq
    obtain rfl := Option.some.inj hnext
    obtain ⟨gates, -, hcall⟩ := Party.exists_callRaw config q call
    have hle : batches config.batchSize (gatesOf calls) ≤
        batches config.batchSize (gatesOf calls + call.andCount) := Nat.div_le_div_right (by omega)
    rw [hcall, gatesOf_append, gatesOf_cons, gatesOf_nil, Nat.add_zero]
    refine ⟨hchecks, ?_, ?_⟩
    · rw [CallStack.push, hcount]
    · rw [hcount, hregistered]
      exact Nat.add_sub_cancel' hle

/-- Where no call is submitted, what is registered goes down by what is checked. -/
theorem registered_of_run {acts : List Act} (hacts : submitted acts = []) (hinv : p.Inv config)
    (h : Run (CarefulStep config) p acts q) (total : ℕ)
    (hp : p.registeredChecks = total - p.checks) :
    q.Inv config ∧ q.registeredChecks = total - q.checks := by
  induction h with
  | nil => exact ⟨hinv, hp⟩
  | @snoc acts a r q hrun hstep ih =>
    rw [submitted, List.filterMap_append] at hacts
    obtain ⟨hinit, hlast⟩ := List.append_eq_nil_iff.mp hacts
    obtain ⟨hr, hregistered⟩ := ih hinit
    obtain ⟨q', hq', hinv'⟩ := hr.step hstep.1
    obtain rfl := Option.some.inj (hq'.symm.trans hstep.2)
    refine ⟨hinv', ?_⟩
    cases a with
    | call call => exact absurd hlast (List.cons_ne_nil call [])
    | mark count =>
      obtain rfl := Option.some.inj hq'
      exact hregistered
    | assign count =>
      obtain rfl := Option.some.inj ((Party.assignRaw_eq hstep.1).symm.trans hq')
      exact hregistered
    | commit count =>
      obtain rfl := Option.some.inj ((Party.commitRaw_eq hstep.1).symm.trans hq')
      exact hregistered
    | flush =>
      have hflush := Party.flush_eq (p := r) (by have := hr.allocated; omega)
      obtain rfl := Option.some.inj (hflush.symm.trans hq')
      exact hregistered
    | execute committed =>
      obtain ⟨q'', chunk, hq'', -, hexec⟩ := hr.execute committed
      obtain rfl := Option.some.inj (hq''.symm.trans hq')
      rw [hexec.registeredChecks, hexec.checks, hregistered, Nat.sub_sub]

theorem submitted_calls (calls : List Call) : submitted (calls.map Act.call) = calls := by
  rw [submitted, List.filterMap_map]
  exact List.filterMap_some

theorem inputsOf_calls (calls : List Call) : inputsOf (calls.map Act.call) = 0 := by
  rw [inputsOf, List.map_map]
  refine List.sum_eq_zero fun n hn => ?_
  obtain ⟨call, -, rfl⟩ := List.mem_map.mp hn
  rfl

/-- **What is allocated where all calls are submitted first**: an OT for every gate and every input,
and 128 for each of the checks that were registered, or for each of those that were made, if they
are more. -/
theorem allocated_of_submitted {role : Role} {calls : List Call} {acts : List Act}
    (hacts : submitted acts = [])
    (h : Run (CarefulStep config) (.new role) (calls.map Act.call ++ acts) p)
    (hstack : p.callstack.inner = []) :
    p.ot.allocated = gatesOf calls +
      128 * max (batches config.batchSize (gatesOf calls)) p.checks + inputsOf acts := by
  obtain ⟨hinv, hperm, hinputs⟩ := inv_of_run h
  obtain ⟨q, hcalls, hrun⟩ := h.of_append
  obtain ⟨hchecks, -, hq⟩ := registered_of_calls hcalls
  have hregistered := (registered_of_run hacts (inv_of_run hcalls).1 hrun
    (batches config.batchSize (gatesOf calls)) (by rw [hq, hchecks, Nat.sub_zero])).2
  have hsubmitted : submitted (calls.map Act.call ++ acts) = calls := by
    rw [submitted, List.filterMap_append, ← submitted, ← submitted, hacts, submitted_calls,
      List.append_nil]
  have hmarks : inputsOf (calls.map Act.call ++ acts) = inputsOf acts := by
    rw [inputsOf, List.map_append, List.sum_append, ← inputsOf, ← inputsOf, inputsOf_calls,
      Nat.zero_add]
  rw [hsubmitted, hstack, List.append_nil] at hperm
  rw [hmarks] at hinputs
  have hgates := gatesOf_perm hperm
  have hallocated := hinv.allocated
  have hconsumed := hinv.consumed
  have hle := hinv.registered_le
  rw [hstack, gatesOf_nil] at hle
  omega

theorem allocated_of_submitted_sample : sampleParty.ot.allocated = 9 + 128 * max 5 2 + 1 :=
  @allocated_of_submitted sampleConfig sampleParty .prover sampleCalls sampleActs rfl run_sample rfl

end Chunked

end Zk

end Mpz
