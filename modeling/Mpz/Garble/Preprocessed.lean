import Mpz.Garble.Correctness
import Mpz.Lib.Blocks

/-!
# Preprocessed circuits

Encrypted gates are sent in batches, the last one of a circuit padded. They are evaluated as they
arrive, or collected and evaluated later. The batches of many circuits share a channel, and an
evaluator that is used for many circuits keeps the labels of the circuits before in its buffer.

## Main definitions

* `generate`, `evaluateStreaming`, `receiveGarbledCircuit` — the garbler, and the two ways to read
* `evaluateGarbledCircuits` — evaluation of what was collected
* `SameWires`, `Twin` — two evaluators in front of the same gates, with the same labels on the wires
  that are known

## Main results

* `InStep.feed_spec` — the batches that are written
* `Twin.reads`, `receiveGates_spec` — the batches that are read
* `preprocessed_eq_streaming` — both ways read what is written, and give the same
-/

namespace Mpz

variable (tccr : Tccr)

/-- The loop over the batches of a garbler. -/
def EncryptedGateIter.feed (N : ℕ) :
    ℕ → EncryptedGateIter → Option (List EncryptedGateBatch × EncryptedGateIter)
  | 0, _ => none
  | fuel + 1, self => do
    let (batch, self) ← self.nextBatch tccr N
    match batch with
    | none => some ([], self)
    | some batch => do
      let (batches, self) ← EncryptedGateIter.feed N fuel self
      some (batch :: batches, self)

/-- Generate a garbled circuit: the batches that are fed to the channel, and the output. Each batch
but the one that ends the loop takes an AND gate. -/
def generate (circ : Circuit) (delta : Delta) (inputs : List Key) :
    Outcome GarblerError (List EncryptedGateBatch × GarblerOutput) := do
  let gbIter ← (Garbler.mk []).generateBatched circ delta inputs
  let (batches, gbIter) ← .ofOption (gbIter.feed tccr defaultBatchSize (circ.andCount + 1))
  let output ← gbIter.finish tccr
  return (batches, output)

/-- Garbled circuit evaluator error. -/
inductive EvaluateError where
  /-- core error: {0} -/
  | core (e : EvaluatorError)
  /-- io error: {0} -/
  | io

/-- The loop that evaluates batches, as long as gates are wanted. -/
def EncryptedGateConsumer.readBatches : List EncryptedGateBatch → EncryptedGateConsumer →
    Outcome EvaluateError (EncryptedGateConsumer × List EncryptedGateBatch)
  | [], self => if self.wantsGates then .err .io else .ok (self, [])
  | batch :: channel, self =>
    if self.wantsGates then do
      let self ← .ofOption (self.nextBatch tccr batch)
      EncryptedGateConsumer.readBatches channel self
    else .ok (self, batch :: channel)

/-- Evaluate a garbled circuit, streaming the encrypted gates from the garbler in batches. -/
def evaluateStreaming (channel : List EncryptedGateBatch) (circ : Circuit) (inputs : List Mac) :
    Outcome EvaluateError (EvaluatorOutput × List EncryptedGateBatch) := do
  let evConsumer ← ((Evaluator.mk []).evaluateBatched circ inputs).mapErr .core
  let (evConsumer, channel) ← evConsumer.readBatches tccr channel
  let output ← (evConsumer.finish tccr).mapErr .core
  return (output, channel)

/-- The loop that collects batches, as long as there are fewer gates than there should be. -/
def receiveGates (gateCount : ℕ) : List EncryptedGateBatch → List EncryptedGate →
    Outcome EvaluateError (List EncryptedGate × List EncryptedGateBatch)
  | [], gates => if gates.length < gateCount then .err .io else .ok (gates, [])
  | batch :: channel, gates =>
    if gates.length < gateCount then receiveGates gateCount channel (gates ++ batch)
    else .ok (gates, batch :: channel)

/-- `receive_garbled_circuit` -/
def receiveGarbledCircuit (channel : List EncryptedGateBatch) (circ : Circuit) :
    Outcome EvaluateError (List EncryptedGate × List EncryptedGateBatch) := do
  let (gates, channel) ← receiveGates circ.andCount channel []
  -- Trim off any batch padding.
  return (gates.take circ.andCount, channel)

/-- What `finish` leaves of a consumer: the "free" gates of a circuit without AND gates are
evaluated. -/
def EncryptedGateConsumer.finished (self : EncryptedGateConsumer) :
    Outcome EvaluatorError EncryptedGateConsumer :=
  if self.complete then .ok self else .ofOption (self.next tccr default)

/-- A circuit that is evaluated from all of its gates, and the evaluator with the labels that are
left in its buffer. -/
def Evaluator.evaluateGarbled (self : Evaluator) (circ : Circuit) (inputs : List Mac)
    (gates : List EncryptedGate) :
    Outcome EvaluatorError (EvaluatorOutput × Evaluator) := do
  let consumer ← self.evaluate circ inputs
  let consumer ← .ofOption (gates.foldlM (fun consumer gate => consumer.next tccr gate) consumer)
  let output ← consumer.finish tccr
  let consumer ← consumer.finished tccr
  return (output, ⟨consumer.labels⟩)

/-- The loop of the sequential build, with one evaluator. -/
def evaluateSequential : Evaluator → List (Circuit × List Mac × List EncryptedGate) →
    Outcome EvaluatorError (List EvaluatorOutput)
  | _, [] => .ok []
  | ev, (circ, inputs, gates) :: circs => do
    let (output, ev) ← ev.evaluateGarbled tccr circ inputs gates
    let outputs ← evaluateSequential ev circs
    return output :: outputs

/-- The parallel build, with an evaluator for each circuit. -/
def evaluateParallel : List (Circuit × List Mac × List EncryptedGate) →
    Outcome EvaluatorError (List EvaluatorOutput)
  | [] => .ok []
  | (circ, inputs, gates) :: circs => do
    let (output, _) ← (Evaluator.mk []).evaluateGarbled tccr circ inputs gates
    let outputs ← evaluateParallel circs
    return output :: outputs

/-- Evaluates multiple garbled circuits in bulk. -/
def evaluateGarbledCircuits (rayon : Bool)
    (circs : List (Circuit × List Mac × List EncryptedGate)) :
    Outcome EvaluatorError (List EvaluatorOutput) :=
  if rayon then evaluateParallel tccr circs else evaluateSequential tccr ⟨[]⟩ circs

/-! ### Many circuits -/

/-- A circuit, and the keys and the MACs of its inputs. -/
structure GarbleJob where
  circ : Circuit
  keys : List Key
  macs : List Mac

/-- A job has a circuit that is well formed, with a key and a MAC for each input. -/
structure GarbleJob.WellFormed (job : GarbleJob) : Prop where
  circ : job.circ.WellFormed
  keys : job.keys.length = job.circ.inputs.len
  macs : job.macs.length = job.circ.inputs.len

/-- The garbler writes the batches of one circuit after the other. -/
def generateAll (delta : Delta) :
    List GarbleJob → Outcome GarblerError (List (List EncryptedGateBatch))
  | [] => .ok []
  | job :: jobs => do
    let (batches, _) ← generate tccr job.circ delta job.keys
    let written ← generateAll delta jobs
    return batches :: written

/-- The circuits are evaluated one after the other, from a channel. -/
def evaluateAll (channel : List EncryptedGateBatch) : List GarbleJob →
    Outcome EvaluateError (List EvaluatorOutput × List EncryptedGateBatch)
  | [] => .ok ([], channel)
  | job :: jobs => do
    let (output, channel) ← evaluateStreaming tccr channel job.circ job.macs
    let (outputs, channel) ← evaluateAll channel jobs
    return (output :: outputs, channel)

/-- The circuits are received one after the other, from a channel. -/
def receiveAll (channel : List EncryptedGateBatch) : List GarbleJob →
    Outcome EvaluateError (List (List EncryptedGate) × List EncryptedGateBatch)
  | [] => .ok ([], channel)
  | job :: jobs => do
    let (gates, channel) ← receiveGarbledCircuit channel job.circ
    let (received, channel) ← receiveAll channel jobs
    return (gates :: received, channel)

variable {N : ℕ}

/-! ### What is written -/

/-- The number of batches of a number of gates. -/
def batchCount (N k : ℕ) : ℕ := (k + N - 1) / N

theorem batchCount_zero (hN : 0 < N) : batchCount N 0 = 0 := by
  rw [batchCount, Nat.zero_add]
  exact Nat.div_eq_of_lt (Nat.sub_lt hN Nat.one_pos)

/-- One batch more. -/
theorem batchCount_of_pos {k : ℕ} (hN : 0 < N) (hk : 0 < k) :
    batchCount N k = batchCount N (k - min N k) + 1 := by
  rw [batchCount, batchCount, ← Nat.add_div_right _ hN]
  rcases Nat.le_total N k with hle | hle
  · rw [Nat.min_eq_left hle]
    congr 1
    omega
  · have hone : (k + N - 1) / N = 1 := by
      rw [Nat.div_eq_iff hN]
      omega
    rw [Nat.min_eq_right hle, Nat.sub_self, Nat.zero_add, hone]
    have hlast : (N - 1 + N) / N = 1 := by
      rw [Nat.div_eq_iff hN]
      omega
    exact hlast.symm

namespace InStep

variable {run : GarbledRun} {gb : EncryptedGateIter} {ev : EncryptedGateConsumer}

/-- A batch holds as many gates as fit in it, of those that remain. -/
theorem fill_length (n : ℕ) (h : InStep run gb ev) (hpos : 0 < andGates gb.gates) :
    ∃ rows gb' ev', gb.fill tccr (n + 1) = some (rows, gb') ∧ InStep run gb' ev' ∧
      rows.length = min (n + 1) (andGates gb.gates) ∧ andGates gb'.gates =
        andGates gb.gates - rows.length := by
  induction n generalizing gb ev with
  | zero =>
    obtain ⟨row, gb', ev', hgb, -, h', hcount, -⟩ := h.next tccr hpos
    refine ⟨[row], gb', ev', ?_, h', ?_, ?_⟩
    · simp [EncryptedGateIter.fill, hgb]
    · rw [List.length_singleton]
      omega
    · rw [List.length_singleton]
      omega
  | succ n ih =>
    obtain ⟨row, gb₁, ev₁, hgb, -, h₁, hcount, hnil⟩ := h.next tccr hpos
    by_cases hmore : 0 < andGates gb₁.gates
    · obtain ⟨rows, gb', ev', hgb', h', hlen, hrest⟩ := ih h₁ hmore
      refine ⟨row :: rows, gb', ev', ?_, h', ?_, ?_⟩
      · rw [EncryptedGateIter.fill]
        simp [hgb, hgb']
      · rw [List.length_cons, hlen]
        omega
      · rw [hrest, List.length_cons]
        omega
    · -- The circuit is done before the batch is full.
      have hgates : gb₁.gates = [] := hnil (by omega)
      obtain ⟨known, hstep⟩ := h₁.lockstep
      refine ⟨[row], { gb₁ with gates := [] }, ev₁, ?_,
        ⟨⟨known, ?_⟩, ?_, fun _ => rfl, fun _ => rfl⟩, ?_, ?_⟩
      · rw [EncryptedGateIter.fill]
        simp only [hgb, Option.bind_eq_bind, Option.bind_some, Nat.add_one_ne_zero, if_false]
        rw [EncryptedGateIter.fill, EncryptedGateIter.next, hgates]
        rfl
      · exact { hgates ▸ hstep with }
      · rw [h₁.gates, hgates]
      · rw [List.length_singleton]
        omega
      · rw [List.length_singleton]
        have hzero : andGates ([] : List Gate) = 0 := rfl
        rw [hzero]
        omega

/-- **The garbler writes as many batches as the gates need, each of its size.** -/
theorem feed_spec (hN : 0 < N) {fuel : ℕ} (h : InStep run gb ev)
    (hfuel : andGates gb.gates < fuel) :
    ∃ batches gb' ev', gb.feed tccr N fuel = some (batches, gb') ∧ InStep run gb' ev' ∧
      andGates gb'.gates = 0 ∧ batches.length = batchCount N (andGates gb.gates) ∧
      ∀ batch ∈ batches, batch.length = N := by
  induction fuel generalizing gb ev with
  | zero => exact absurd hfuel (Nat.not_lt_zero _)
  | succ fuel ih =>
    rw [EncryptedGateIter.feed, EncryptedGateIter.nextBatch]
    by_cases hpos : 0 < andGates gb.gates
    · obtain ⟨n, rfl⟩ := Nat.exists_eq_succ_of_ne_zero hN.ne'
      obtain ⟨rows, gb₁, ev₁, hfill, h₁, hlen, hrest⟩ := h.fill_length tccr n hpos
      obtain ⟨batches, gb', ev', hfeed, h', hzero, hcount, hbatch⟩ := ih h₁ (by omega)
      rw [if_pos (h.hasGates_iff.mpr hpos), hfill]
      simp only [Option.bind_eq_bind, Option.bind_some, hfeed]
      refine ⟨_, gb', ev', rfl, h', hzero, ?_, fun batch hmem => ?_⟩
      · rw [List.length_cons, hcount, batchCount_of_pos hN hpos, hrest, hlen]
      · rcases List.mem_cons.mp hmem with rfl | hmem
        · rw [List.length_append, List.length_replicate]
          omega
        · exact hbatch batch hmem
    · rw [if_neg (mt h.hasGates_iff.mp hpos)]
      have hzero : andGates gb.gates = 0 := Nat.eq_zero_of_not_pos hpos
      refine ⟨[], gb, ev, rfl, h, hzero, ?_, fun batch hmem => absurd hmem List.not_mem_nil⟩
      rw [hzero, batchCount_zero hN, List.length_nil]

end InStep

/-! ### Two evaluators -/

/-- The same label. -/
def SameLabel (_ : Bool) (x y : Block) : Prop := x = y

theorem evaluatorOps_respect : FreeOps.Respect SameLabel evaluatorOps evaluatorOps where
  xor := by
    rintro _ _ k k' _ _ rfl rfl
    rfl
  inv := by
    rintro _ k _ rfl
    rfl

/-- Two evaluators in front of the same gates, with the same labels on the wires that are known. -/
structure SameWires (feedCount : ℕ) (range : Range) (gates : List Gate)
    (ev ev' : EncryptedGateConsumer) : Prop where
  gid : ev'.gid = ev.gid
  counter : ev'.counter = ev.counter
  andCount : ev'.andCount = ev.andCount
  outputs : ev.outputs = range
  outputs' : ev'.outputs = range
  count : ev.counter + andGates gates = ev.andCount
  walk : ∃ known result, Walk SameLabel feedCount result known gates ev.labels ev'.labels

namespace SameWires

variable {feedCount : ℕ} {range : Range} {g : Gate} {gates : List Gate}
    {ev ev' : EncryptedGateConsumer}

theorem wantsGates_iff (h : SameWires feedCount range gates ev ev') :
    (ev.wantsGates = true ↔ 0 < andGates gates) ∧ (ev'.wantsGates = true ↔ 0 < andGates gates) := by
  have hcount := h.count
  rw [EncryptedGateConsumer.wantsGates, EncryptedGateConsumer.wantsGates, h.counter, h.andCount,
    bne_iff_ne]
  constructor <;> omega

/-- A free gate moves both past it. -/
theorem free (h : SameWires feedCount range (g :: gates) ev ev') (hg : g.isAnd = false) :
    ∃ a b, evaluatorOps.apply ev.labels g = some a ∧ evaluatorOps.apply ev'.labels g = some b ∧
      SameWires feedCount range gates { ev with labels := a } { ev' with labels := b } := by
  obtain ⟨known, result, hwalk⟩ := h.walk
  obtain ⟨a, b, ha, hb, hwalk'⟩ := hwalk.free evaluatorOps_respect hg
  refine ⟨a, b, ha, hb, { h with count := ?_, walk := ⟨_, _, hwalk'⟩ }⟩
  simpa [andGates, hg] using h.count

/-- An AND gate moves both past it, whatever row they are handed. -/
theorem and {x y z : ℕ} (row : EncryptedGate)
    (h : SameWires feedCount range (.and x y z :: gates) ev ev') :
    ∃ lx ly a b, ev.labels[x]? = some lx ∧ ev'.labels[x]? = some lx ∧ ev.labels[y]? = some ly ∧
      ev'.labels[y]? = some ly ∧
      writeAt ev.labels z (Evaluator.andGate tccr lx ly row ev.gid) = some a ∧
      writeAt ev'.labels z (Evaluator.andGate tccr lx ly row ev'.gid) = some b ∧
      SameWires feedCount range gates
        { ev with labels := a, gid := ev.gid + 2, counter := ev.counter + 1, gates }
        { ev' with labels := b, gid := ev'.gid + 2, counter := ev'.counter + 1, gates } := by
  obtain ⟨known, result, hwalk⟩ := h.walk
  obtain ⟨p, q, lx, _, ly, _, hx, hx', hy, hy', rfl, rfl, hwrite⟩ := hwalk.and
  have hsame : SameLabel (p && q) (Evaluator.andGate tccr lx ly row ev.gid)
      (Evaluator.andGate tccr lx ly row ev'.gid) := by rw [SameLabel, h.gid]
  obtain ⟨a, b, ha, hb, hwalk'⟩ := hwrite _ _ hsame
  refine ⟨lx, ly, a, b, hx, hx', hy, hy', ha, hb, { h with
    gid := congrArg (· + 2) h.gid
    counter := congrArg (· + 1) h.counter
    count := ?_
    walk := ⟨_, _, hwalk'⟩ }⟩
  have hcount := h.count
  simp only [andGates, List.countP_cons, Gate.isAnd, if_true] at hcount ⊢
  omega

/-- Where no AND gate remains, both run to the end of the circuit, whatever row they are handed. -/
theorem tail (h : SameWires feedCount range gates ev ev') (h0 : andGates gates = 0) :
    ∃ evEnd evEnd', (∀ row, ev.nextGates tccr row gates = some evEnd) ∧
      (∀ row, ev'.nextGates tccr row gates = some evEnd') ∧
      SameWires feedCount range [] evEnd evEnd' ∧
      evEnd.gates = [] ∧ evEnd'.gates = [] := by
  induction gates generalizing ev ev' with
  | nil =>
    exact ⟨{ ev with gates := [], complete := true }, { ev' with gates := [], complete := true },
      fun _ => rfl, fun _ => rfl, { h with }, rfl, rfl⟩
  | cons g gates ih =>
    have hg : g.isAnd = false := by
      simpa using List.countP_eq_zero.mp h0 g List.mem_cons_self
    have h0' : andGates gates = 0 := by simpa [andGates, hg] using h0
    obtain ⟨a, b, ha, hb, h'⟩ := h.free hg
    obtain ⟨evEnd, evEnd', hev, hev', hend⟩ := ih h' h0'
    refine ⟨evEnd, evEnd', fun row => ?_, fun row => ?_, hend⟩
    · rw [EncryptedGateConsumer.nextGates_free tccr row hg, ha]
      exact hev row
    · rw [EncryptedGateConsumer.nextGates_free tccr row hg, hb]
      exact hev' row

/-- **One encrypted gate** moves both past one AND gate, and past all gates if it was the last
one. -/
theorem next (row : EncryptedGate) (h : SameWires feedCount range gates ev ev')
    (hpos : 0 < andGates gates) (hc : ev.complete = false) (hc' : ev'.complete = false) :
    ∃ evNext evNext', ev.nextGates tccr row gates = some evNext ∧ ev'.nextGates tccr row gates =
      some evNext' ∧
      SameWires feedCount range evNext.gates evNext evNext' ∧ evNext'.gates = evNext.gates ∧
      andGates evNext.gates + 1 = andGates gates ∧ (evNext.complete = true → evNext.gates = []) ∧
      (evNext'.complete = true → evNext.gates = []) := by
  induction gates generalizing ev ev' with
  | nil => simp [andGates] at hpos
  | cons g gates ih =>
    by_cases hg : g.isAnd = false
    · have hcount : andGates (g :: gates) = andGates gates := by simp [andGates, hg]
      obtain ⟨a, b, ha, hb, h'⟩ := h.free hg
      obtain ⟨evNext, evNext', hev, hev', hrest⟩ := ih h' (hcount ▸ hpos) hc hc'
      refine ⟨evNext, evNext', ?_, ?_, by rw [hcount]; exact hrest⟩
      · rw [EncryptedGateConsumer.nextGates_free tccr row hg, ha]
        exact hev
      · rw [EncryptedGateConsumer.nextGates_free tccr row hg, hb]
        exact hev'
    · obtain ⟨x, y, z, rfl⟩ := Gate.exists_eq_and (Bool.of_not_eq_false hg)
      obtain ⟨lx, ly, a, b, hx, hx', hy, hy', ha, hb, h'⟩ := h.and tccr row
      have hcount : andGates (.and x y z :: gates) = andGates gates + 1 := by
        simp [andGates, List.countP_cons, Gate.isAnd]
      rw [hcount]
      by_cases hmore : 0 < andGates gates
      · refine ⟨{ ev with labels := a, gid := ev.gid + 2, counter := ev.counter + 1, gates },
          { ev' with labels := b, gid := ev'.gid + 2, counter := ev'.counter + 1, gates }, ?_, ?_,
          h', rfl, rfl, ?_, ?_⟩
        · rw [EncryptedGateConsumer.nextGates_and hx hy ha rfl,
            if_pos (h'.wantsGates_iff.1.mpr hmore)]
        · rw [EncryptedGateConsumer.nextGates_and hx' hy' hb rfl,
            if_pos (h'.wantsGates_iff.2.mpr hmore)]
        · simp [hc]
        · simp [hc']
      · -- The last AND gate: both run the free gates behind it.
        have hlast : andGates gates = 0 := Nat.eq_zero_of_not_pos hmore
        obtain ⟨evEnd, evEnd', hev, hev', hend, hgates, hgates'⟩ := h'.tail tccr hlast
        refine ⟨evEnd, evEnd', ?_, ?_, ?_⟩
        · rw [EncryptedGateConsumer.nextGates_and hx hy ha rfl,
            if_neg (mt h'.wantsGates_iff.1.mp hmore), hev]
        · rw [EncryptedGateConsumer.nextGates_and hx' hy' hb rfl,
            if_neg (mt h'.wantsGates_iff.2.mp hmore), hev']
        · rw [hlast, hgates, hgates']
          exact ⟨hend, rfl, rfl, fun _ => rfl, fun _ => rfl⟩

end SameWires

/-- Two evaluators that have come as far as each other. -/
structure Twin (feedCount : ℕ) (range : Range) (ev ev' : EncryptedGateConsumer) : Prop where
  wires : SameWires feedCount range ev.gates ev ev'
  gates : ev'.gates = ev.gates
  complete : ev.complete = true → ev.gates = []
  complete' : ev'.complete = true → ev.gates = []

namespace Twin

variable {feedCount : ℕ} {range : Range} {ev ev' : EncryptedGateConsumer}

theorem next (row : EncryptedGate) (h : Twin feedCount range ev ev')
    (hpos : 0 < andGates ev.gates) :
    ∃ evNext evNext', ev.next tccr row = some evNext ∧ ev'.next tccr row = some evNext' ∧
      Twin feedCount range evNext evNext' ∧ andGates evNext.gates + 1 = andGates ev.gates := by
  have hne : ev.gates ≠ [] := by
    rintro hnil
    simp [hnil, andGates] at hpos
  have hc : ev.complete = false := Bool.eq_false_iff.mpr (mt h.complete hne)
  have hc' : ev'.complete = false := Bool.eq_false_iff.mpr (mt h.complete' hne)
  obtain ⟨evNext, evNext', hev, hev', hwires, hgates, hcount, hcomplete, hcomplete'⟩ :=
    h.wires.next tccr row hpos hc hc'
  refine ⟨evNext, evNext', hev, ?_, ⟨hwires, hgates, hcomplete, hcomplete'⟩, hcount⟩
  rw [EncryptedGateConsumer.next, h.gates]
  exact hev'

/-- **One batch**: an evaluator that is handed a batch does what one does that is handed its gates,
without those that are padding. -/
theorem nextBatch {batch : EncryptedGateBatch} (h : Twin feedCount range ev ev')
    (hpos : 0 < andGates ev.gates) :
    ∃ evNext evNext', ev.nextBatch tccr batch = some evNext ∧
      (batch.take (andGates ev.gates)).foldlM (fun consumer gate => consumer.next tccr gate) ev' =
        some evNext' ∧
      Twin feedCount range evNext evNext' ∧
      andGates evNext.gates = andGates ev.gates - min batch.length (andGates ev.gates) := by
  induction batch generalizing ev ev' with
  | nil => exact ⟨ev, ev', rfl, by rw [List.take_nil]; rfl,
      h, by rw [List.length_nil, Nat.zero_min, Nat.sub_zero]⟩
  | cons row batch ih =>
    obtain ⟨ev₁, ev₁', hev, hev', h₁, hcount⟩ := h.next tccr row hpos
    have htake : (row :: batch).take (andGates ev.gates) =
        row :: batch.take (andGates ev₁.gates) := by
      rw [← hcount, List.take_succ_cons]
    rw [EncryptedGateConsumer.nextBatch, hev, Option.bind_eq_bind, Option.bind_some, htake,
      List.foldlM_cons, hev', Option.bind_eq_bind, Option.bind_some, List.length_cons]
    by_cases hmore : 0 < andGates ev₁.gates
    · obtain ⟨evNext, evNext', hnext, hnext', hend, hrest⟩ := ih h₁ hmore
      refine ⟨evNext, evNext', ?_, hnext', hend, by omega⟩
      rw [if_pos (h₁.wires.wantsGates_iff.1.mpr hmore), hnext]
    · have hzero : andGates ev₁.gates = 0 := Nat.eq_zero_of_not_pos hmore
      refine ⟨ev₁, ev₁', ?_, ?_, h₁, by omega⟩
      · rw [if_neg (mt h₁.wires.wantsGates_iff.1.mp hmore)]
      · rw [hzero, List.take_zero]
        rfl

/-- **All batches**: an evaluator reads as many batches as the gates need, and does what one does
that is handed the gates. -/
theorem reads (hN : 0 < N) {batches : List EncryptedGateBatch} (rest : List EncryptedGateBatch)
    (h : Twin feedCount range ev ev') (hlen : batches.length = batchCount N (andGates ev.gates))
    (hbatch : ∀ batch ∈ batches, batch.length = N) :
    ∃ evEnd evEnd', ev.readBatches tccr (batches ++ rest) = .ok (evEnd, rest) ∧
      (batches.flatten.take (andGates ev.gates)).foldlM
      (fun consumer gate => consumer.next tccr gate) ev' =
        some evEnd' ∧
      Twin feedCount range evEnd evEnd' ∧ andGates evEnd.gates = 0 := by
  induction batches generalizing ev ev' with
  | nil =>
    have hzero : andGates ev.gates = 0 := by
      by_contra hne
      rw [List.length_nil, batchCount_of_pos hN (Nat.pos_of_ne_zero hne)] at hlen
      exact absurd hlen (Nat.succ_ne_zero _).symm
    have hwants : ¬ ev.wantsGates = true := fun hw => (h.wires.wantsGates_iff.1.mp hw).ne' hzero
    refine ⟨ev, ev', ?_, by rw [hzero]; rfl, h, hzero⟩
    cases rest with
    | nil => rw [List.nil_append, EncryptedGateConsumer.readBatches, if_neg hwants]
    | cons batch rest => rw [List.nil_append, EncryptedGateConsumer.readBatches, if_neg hwants]
  | cons batch batches ih =>
    have hpos : 0 < andGates ev.gates := by
      refine Nat.pos_of_ne_zero fun hzero => ?_
      rw [hzero, batchCount_zero hN, List.length_cons] at hlen
      exact absurd hlen (Nat.succ_ne_zero _)
    obtain ⟨ev₁, ev₁', hnext, hnext', h₁, hcount⟩ := h.nextBatch tccr hpos
    have hsize : batch.length = N := hbatch batch (List.mem_cons_self ..)
    rw [hsize] at hcount
    have hlen₁ : batches.length = batchCount N (andGates ev₁.gates) := by
      rw [batchCount_of_pos hN hpos, List.length_cons, ← hcount] at hlen
      exact Nat.succ.inj hlen
    obtain ⟨evEnd, evEnd', hread, hfold, hend, hzero⟩ :=
      ih h₁ hlen₁ fun b hb => hbatch b (List.mem_cons_of_mem _ hb)
    refine ⟨evEnd, evEnd', ?_, ?_, hend, hzero⟩
    · rw [List.cons_append, EncryptedGateConsumer.readBatches,
        if_pos (h.wires.wantsGates_iff.1.mpr hpos), hnext, Outcome.ofOption_some,
        Outcome.ok_bind, hread]
    · have hrest : andGates ev₁.gates = andGates ev.gates - batch.length := by
        rw [hcount, hsize]
        omega
      rw [List.flatten_cons, List.take_append, List.foldlM_append, hnext', Option.bind_eq_bind,
        Option.bind_some, ← hrest, hfold]

/-- **Both finish with the same outputs**, and can run on to the end of the circuit. -/
theorem finish (h : Twin feedCount range ev ev') (h0 : andGates ev.gates = 0)
    (hle : range.start ≤ range.stop ∧ range.stop ≤ feedCount) :
    ∃ output, ev.finish tccr = .ok output ∧ ev'.finish tccr = .ok output ∧
      ∃ evEnd', ev'.next tccr default = some evEnd' := by
  obtain ⟨evEnd, evEnd', hev, hev', hend, -⟩ := h.wires.tail tccr h0
  obtain ⟨known, result, hwalk⟩ := hend.walk
  obtain ⟨xs, ks, ms, -, hks, hms, -, hlk, hlm, hsame⟩ := hwalk.outputs hle
  have hwants := Bool.eq_false_iff.mpr (mt h.wires.wantsGates_iff.1.mp h0.not_gt)
  have hwants' := Bool.eq_false_iff.mpr (mt h.wires.wantsGates_iff.2.mp h0.not_gt)
  have hnext' : ev'.next tccr default = some evEnd' := by
    rw [EncryptedGateConsumer.next, h.gates]
    exact hev' _
  have heq : ks = ms := by
    refine List.ext_getElem? fun j => ?_
    by_cases hj : j < range.len
    · obtain ⟨x, k, m, -, hk, hm, rfl⟩ := hsame j hj
      rw [hk, hm]
    · rw [List.getElem?_eq_none (by omega), List.getElem?_eq_none (by omega)]
  refine ⟨⟨ks.map Mac.mk⟩, ?_, ?_, evEnd', hnext'⟩
  · exact EncryptedGateConsumer.finish_eq hwants (hev _) h.complete (by rw [h.wires.outputs, hks])
      (by rw [hend.outputs, h.wires.outputs])
  · rw [heq]
    exact EncryptedGateConsumer.finish_eq hwants' hnext' (fun hc => h.gates.trans (h.complete' hc))
      (by rw [h.wires.outputs', hms]) (by rw [hend.outputs', h.wires.outputs'])

end Twin

/-- Evaluation starts alike, whatever labels the buffers hold. -/
theorem exists_twin {circ : Circuit} (hwf : circ.WellFormed) {macs : List Mac}
    (hmacs : macs.length = circ.inputs.len) (ev ev' : Evaluator) :
    ∃ consumer consumer', ev.evaluate circ macs = .ok consumer ∧ ev'.evaluate circ macs =
      .ok consumer' ∧
      Twin circ.feedCount circ.outputs consumer consumer' ∧ andGates consumer.gates =
        circ.andCount := by
  have hlen : (macs.map Mac.block).length = circ.inputs.len := by rw [List.length_map, hmacs]
  obtain ⟨feeds, a, b, -, ha, hb, hwalk⟩ :=
    Walk.init (R := SameLabel) hwf (macs.map Mac.block) (macs.map Mac.block)
      (List.length_replicate (a := false)) hlen
      hlen (fun i _ k m _ hk hm => Option.some.inj (hk.symm.trans hm))
      (le_length_expand ev.buffer _ Block.zero) (le_length_expand ev'.buffer _ Block.zero)
  refine ⟨.new circ.gates a circ.andCount circ.outputs,
    .new circ.gates b circ.andCount circ.outputs, ?_, ?_,
    ⟨⟨rfl, rfl, rfl, rfl, rfl, ?_, _, _, hwalk⟩, rfl, nofun, nofun⟩, hwf.and_count⟩
  · rw [Evaluator.evaluate, if_neg (not_not.mpr hmacs)]
    simp only [ha, Outcome.ofOption_some, Outcome.ok_bind]
  · rw [Evaluator.evaluate, if_neg (not_not.mpr hmacs)]
    simp only [hb, Outcome.ofOption_some, Outcome.ok_bind]
  · simpa [EncryptedGateConsumer.new] using hwf.and_count

/-- **A receiver collects as many batches as the gates need.** -/
theorem receiveGates_spec (hN : 0 < N) {gateCount : ℕ} {batches : List EncryptedGateBatch}
    (rest : List EncryptedGateBatch) {gates : List EncryptedGate}
    (hlen : batches.length = batchCount N (gateCount - gates.length))
    (hbatch : ∀ batch ∈ batches, batch.length = N) :
    receiveGates gateCount (batches ++ rest) gates = .ok (gates ++ batches.flatten, rest) := by
  induction batches generalizing gates with
  | nil =>
    have hle : ¬ gates.length < gateCount := fun hlt => by
      rw [List.length_nil, batchCount_of_pos hN (Nat.sub_pos_of_lt hlt)] at hlen
      exact absurd hlen (Nat.succ_ne_zero _).symm
    rw [List.nil_append, List.flatten_nil, List.append_nil]
    cases rest with
    | nil => rw [receiveGates, if_neg hle]
    | cons batch rest => rw [receiveGates, if_neg hle]
  | cons batch batches ih =>
    have hlt : gates.length < gateCount := by
      by_contra hle
      rw [Nat.sub_eq_zero_of_le (Nat.le_of_not_lt hle), batchCount_zero hN,
        List.length_cons] at hlen
      exact absurd hlen (Nat.succ_ne_zero _)
    have hsize : batch.length = N := hbatch batch (List.mem_cons_self ..)
    have hrest : gateCount - (gates ++ batch).length =
        gateCount - gates.length - min N (gateCount - gates.length) := by
      rw [List.length_append, hsize]
      omega
    rw [batchCount_of_pos hN (Nat.sub_pos_of_lt hlt), ← hrest, List.length_cons] at hlen
    rw [List.cons_append, receiveGates, if_pos hlt,
      ih (Nat.succ.inj hlen) fun b hb => hbatch b (List.mem_cons_of_mem _ hb), List.flatten_cons,
      List.append_assoc]

/-! ### Whole circuits -/

/-- Batches, output and gates of a job: what the garbler writes, as many batches as the AND gates
need, is what both ways of reading take from a channel, whatever comes behind it. -/
structure GarbleJob.Delivers (tccr : Tccr) (delta : Delta) (job : GarbleJob)
    (batches : List EncryptedGateBatch) (output : EvaluatorOutput) (gates : List EncryptedGate) :
    Prop where
  written : ∃ keys, generate tccr job.circ delta job.keys = .ok (batches, keys)
  length : batches.length = batchCount defaultBatchSize job.circ.andCount
  streamed : ∀ rest, evaluateStreaming tccr (batches ++ rest) job.circ job.macs = .ok (output, rest)
  received : ∀ rest, receiveGarbledCircuit (batches ++ rest) job.circ = .ok (gates, rest)
  length_gates : gates.length = job.circ.andCount

/-- The batches have room for the gates. -/
theorem le_mul_batchCount (hN : 0 < N) (k : ℕ) : k ≤ N * batchCount N k := by
  have hlt := Nat.lt_mul_div_succ (k + N - 1) hN
  rw [batchCount, Nat.mul_add, Nat.mul_one] at *
  omega

/-- The garbler's batches, and that its loop and the end of the circuit come through. -/
theorem generate_spec (tccr : Tccr) {circ : Circuit} (hwf : circ.WellFormed) (delta : Delta)
    {keys : List Key} (hkeys : keys.length = circ.inputs.len) :
    ∃ batches output, generate tccr circ delta keys = .ok (batches, output) ∧
      batches.length = batchCount defaultBatchSize circ.andCount ∧
      ∀ batch ∈ batches, batch.length = defaultBatchSize := by
  obtain ⟨feeds, gbIter, evConsumer, -, hgb, -, hcount, hstep⟩ :=
    exists_inStep hwf delta hkeys (List.length_replicate (a := false)) ⟨[]⟩ ⟨[]⟩
  obtain ⟨batches, gbIter', ev', hfeed, hstep', hzero, hlen, hbatch⟩ :=
    hstep.feed_spec tccr (N := defaultBatchSize) (by decide) (Nat.lt_succ_of_le hcount.le)
  obtain ⟨values, outputKeys, -, hfin, -⟩ := hstep'.finish tccr hzero hwf.outputs_le
  refine ⟨batches, ⟨outputKeys⟩, ?_, hcount ▸ hlen, hbatch⟩
  rw [generate, hgb, Outcome.ok_bind, hfeed, Outcome.ofOption_some, Outcome.ok_bind]
  dsimp only
  rw [hfin]
  rfl

/-- **One circuit**: what is written is read, and the gates that are received evaluate to the output
that streaming gives, whatever is left in the buffer. -/
theorem GarbleJob.WellFormed.delivers (tccr : Tccr) (delta : Delta) {job : GarbleJob}
    (h : job.WellFormed) :
    ∃ batches output gates, job.Delivers tccr delta batches output gates ∧
      ∀ ev : Evaluator, ∃ ev', ev.evaluateGarbled tccr job.circ job.macs gates =
        .ok (output, ev') := by
  obtain ⟨batches, keys, hwritten, hlen, hbatch⟩ := generate_spec tccr h.circ delta h.keys
  have hN : 0 < defaultBatchSize := by decide
  have hrun : ∀ ev : Evaluator, ∃ output ev', (∀ rest,
      evaluateStreaming tccr (batches ++ rest) job.circ job.macs = .ok (output, rest)) ∧
      ev.evaluateGarbled tccr job.circ job.macs (batches.flatten.take job.circ.andCount) =
        .ok (output, ev') := by
    intro ev
    obtain ⟨consumer, consumer', hev, hev', htwin, hcount⟩ := exists_twin h.circ h.macs ⟨[]⟩ ev
    obtain ⟨evEnd, evEnd', -, hfold, htwin', hzero⟩ :=
      htwin.reads tccr hN [] (by rw [hcount, hlen]) hbatch
    obtain ⟨output, hfin, hfin', evLast, hlast⟩ := htwin'.finish tccr hzero h.circ.outputs_le
    rw [hcount] at hfold
    have hbuffer : ∃ evLast', evEnd'.finished tccr = .ok evLast' := by
      rw [EncryptedGateConsumer.finished]
      split
      case isTrue => exact ⟨_, rfl⟩
      case isFalse => exact ⟨evLast, by rw [hlast]; rfl⟩
    obtain ⟨evLast', hlast'⟩ := hbuffer
    refine ⟨output, ⟨evLast'.labels⟩, fun rest => ?_, ?_⟩
    · obtain ⟨evEnd₁, evEnd₁', hread₁, hfold₁, htwin₁, hzero₁⟩ :=
        htwin.reads tccr hN rest (by rw [hcount, hlen]) hbatch
      obtain ⟨output₁, hfin₁, hfin₁', -⟩ := htwin₁.finish tccr hzero₁ h.circ.outputs_le
      rw [hcount, hfold] at hfold₁
      obtain rfl := Option.some.inj hfold₁
      obtain rfl := Outcome.ok.inj (hfin'.symm.trans hfin₁')
      rw [evaluateStreaming, Evaluator.evaluateBatched, hev, Outcome.mapErr_ok,
        Outcome.ok_bind, hread₁, Outcome.ok_bind]
      dsimp only
      rw [hfin₁]
      rfl
    · rw [Evaluator.evaluateGarbled, hev', Outcome.ok_bind, hfold, Outcome.ofOption_some,
        Outcome.ok_bind, hfin', Outcome.ok_bind, hlast']
      rfl
  obtain ⟨output, -, hstream, -⟩ := hrun ⟨[]⟩
  refine ⟨batches, output, batches.flatten.take job.circ.andCount,
    ⟨⟨keys, hwritten⟩, hlen, hstream, fun rest => ?_, ?_⟩, fun ev => ?_⟩
  · rw [receiveGarbledCircuit, receiveGates_spec hN rest (by rw [hlen]; rfl) hbatch]
    rfl
  · rw [List.length_take, length_flatten_of_forall hbatch, hlen, Nat.mul_comm,
      Nat.min_eq_left (le_mul_batchCount hN _)]
  · obtain ⟨output', ev', hstream', heval⟩ := hrun ev
    obtain ⟨rfl, -⟩ := Prod.mk.inj (Outcome.ok.inj ((hstream []).symm.trans (hstream' [])))
    exact ⟨ev', heval⟩

/-! ### Many circuits -/

/-- **Preprocessed evaluation is streaming evaluation.** The batches of the circuits are read by
those that they are written for, in either way, and evaluation of the gates that are received, in
either build, gives the outputs of streaming. -/
theorem preprocessed_eq_streaming (tccr : Tccr) (delta : Delta) (jobs : List GarbleJob)
    (h : ∀ job ∈ jobs, job.WellFormed) :
    ∃ items : List (List EncryptedGateBatch × EvaluatorOutput × List EncryptedGate),
      List.Forall₂ (fun job item => job.Delivers tccr delta item.1 item.2.1 item.2.2) jobs items ∧
      generateAll tccr delta jobs = .ok (items.map fun item => item.1) ∧
      (∀ rest, evaluateAll tccr ((items.flatMap fun item => item.1) ++ rest) jobs =
        .ok (items.map fun item => item.2.1, rest)) ∧
      (∀ rest, receiveAll ((items.flatMap fun item => item.1) ++ rest) jobs =
        .ok (items.map fun item => item.2.2, rest)) ∧
      ∀ rayon, evaluateGarbledCircuits tccr rayon
        (List.zipWith (fun job item => (job.circ, job.macs, item.2.2)) jobs items) =
          .ok (items.map fun item => item.2.1) := by
  suffices hloops : ∃ items : List (List EncryptedGateBatch × EvaluatorOutput × List EncryptedGate),
      List.Forall₂ (fun job item => job.Delivers tccr delta item.1 item.2.1 item.2.2) jobs items ∧
      generateAll tccr delta jobs = .ok (items.map fun item => item.1) ∧
      (∀ rest, evaluateAll tccr ((items.flatMap fun item => item.1) ++ rest) jobs =
        .ok (items.map fun item => item.2.1, rest)) ∧
      (∀ rest, receiveAll ((items.flatMap fun item => item.1) ++ rest) jobs =
        .ok (items.map fun item => item.2.2, rest)) ∧
      evaluateParallel tccr (List.zipWith (fun job item => (job.circ, job.macs, item.2.2)) jobs
        items) =
        .ok (items.map fun item => item.2.1) ∧
      ∀ ev, evaluateSequential tccr ev
        (List.zipWith (fun job item => (job.circ, job.macs, item.2.2)) jobs items) =
        .ok (items.map fun item => item.2.1) by
    obtain ⟨items, hitems, hgen, heval, hreceive, hparallel, hsequential⟩ := hloops
    refine ⟨items, hitems, hgen, heval, hreceive, fun rayon => ?_⟩
    cases rayon with
    | true => exact hparallel
    | false => exact hsequential ⟨[]⟩
  induction jobs with
  | nil => exact ⟨[], .nil, rfl, fun _ => rfl, fun _ => rfl, rfl, fun _ => rfl⟩
  | cons job jobs ih =>
    obtain ⟨batches, output, gates, hjob, hbuffer⟩ :=
      (h job (List.mem_cons_self ..)).delivers tccr delta
    obtain ⟨items, hitems, hgen, heval, hreceive, hparallel, hsequential⟩ :=
      ih fun j hj => h j (List.mem_cons_of_mem _ hj)
    obtain ⟨keys, hwritten⟩ := hjob.written
    refine ⟨(batches, output, gates) :: items, .cons hjob hitems, ?_, fun rest => ?_, fun rest =>
      ?_, ?_, fun ev => ?_⟩
    · rw [generateAll, hwritten, Outcome.ok_bind, hgen]
      rfl
    · rw [List.flatMap_cons, List.append_assoc, evaluateAll, hjob.streamed, Outcome.ok_bind]
      dsimp only
      rw [heval]
      rfl
    · rw [List.flatMap_cons, List.append_assoc, receiveAll, hjob.received, Outcome.ok_bind]
      dsimp only
      rw [hreceive]
      rfl
    · obtain ⟨ev', hev⟩ := hbuffer ⟨[]⟩
      rw [List.zipWith_cons_cons, evaluateParallel, hev, Outcome.ok_bind, hparallel]
      rfl
    · obtain ⟨ev', hev⟩ := hbuffer ev
      rw [List.zipWith_cons_cons, evaluateSequential, hev, Outcome.ok_bind]
      dsimp only
      rw [hsequential]
      rfl

/-- An AND gate and a free gate behind it. -/
def nandJob : GarbleJob := ⟨nandCircuit, [⟨5#128⟩, ⟨6#128⟩], [⟨1#128⟩, ⟨2#128⟩]⟩

theorem preprocessed_eq_streaming_nand :
    ∃ items : List (List EncryptedGateBatch × EvaluatorOutput × List EncryptedGate),
      List.Forall₂ (fun job item => job.Delivers (fun t x => t ^^^ x)
        (.new 4#128) item.1 item.2.1 item.2.2)
        [nandJob, nandJob] items ∧
      generateAll (fun t x => t ^^^ x) (.new 4#128) [nandJob, nandJob] =
        .ok (items.map fun item => item.1) ∧
      (∀ rest, evaluateAll (fun t x => t ^^^ x) ((items.flatMap fun item => item.1) ++ rest)
        [nandJob, nandJob] =
        .ok (items.map fun item => item.2.1, rest)) ∧
      (∀ rest, receiveAll ((items.flatMap fun item => item.1) ++ rest) [nandJob, nandJob] =
        .ok (items.map fun item => item.2.2, rest)) ∧
      ∀ rayon, evaluateGarbledCircuits (fun t x => t ^^^ x) rayon
        (List.zipWith (fun job item => (job.circ, job.macs, item.2.2)) [nandJob, nandJob] items) =
          .ok (items.map fun item => item.2.1) := by
  have hjob : nandJob.WellFormed := ⟨nandCircuit_wellFormed, rfl, rfl⟩
  refine preprocessed_eq_streaming (fun t x => t ^^^ x) (.new 4#128) [nandJob, nandJob]
    fun job hmem => ?_
  rcases List.mem_cons.mp hmem with rfl | hmem
  · exact hjob
  · rw [List.mem_singleton.mp hmem]
    exact hjob

end Mpz
