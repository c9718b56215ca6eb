import Mpz.Garble.Evaluator
import Mpz.Garble.Garbler

/-!
# Garbling a circuit is correct

The garbler and the evaluator walk the same gate list, and every encrypted gate moves both past the
same AND gate: the garbler runs the free gates behind the last AND gate by calling itself, the
evaluator by staying in its loop. `Lockstep` is the invariant between two encrypted gates. On the
wires written so far the active label is the garbler's label plus the offset where the plain bit is
set, and the gate ids agree.

## Main definitions

* `Authentic` — the active label of a bit
* `transfer` — every batch of the garbler, handed to the evaluator
* `Lockstep`, `InStep` — the invariant, on a gate list and on the two iterators

## Main results

* `Lockstep.next` — one encrypted gate
* `InStep.fill`, `InStep.transfer` — one batch, all batches
* `garbleBatched_correct` — the output MACs authenticate the outputs of the plain evaluation
-/

namespace Mpz

/-- The active label of a bit: the garbler's label, plus the offset if the bit is set. -/
def Authentic (delta : Delta) (x : Bool) (k m : Block) : Prop := m = k ^^^ delta.select x

theorem freeOps_respect (delta : Delta) :
    FreeOps.Respect (Authentic delta) (garblerOps delta) evaluatorOps where
  xor := by
    rintro x y k k' _ _ rfl rfl
    simp only [Authentic, garblerOps, evaluatorOps, Delta.select_xor]
    ac_rfl
  inv := by
    rintro x k _ rfl
    simp only [Authentic, garblerOps, evaluatorOps]
    cases x with
    | false => rw [Bool.not_false, Delta.select_false, Delta.select_true, BitVec.xor_zero,
        BitVec.xor_assoc, BitVec.xor_self, BitVec.xor_zero]
    | true => simp

/-- Every batch of `N` gates that the garbler yields, fed to the evaluator:
`for batch in gb_iter.by_ref() { ev_consumer.next(batch) }`. -/
def transfer (tccr : Tccr) (N : ℕ) : ℕ → EncryptedGateIter → EncryptedGateConsumer →
    Option (EncryptedGateIter × EncryptedGateConsumer)
  | 0, _, _ => none
  | fuel + 1, gb, ev => do
    let (batch, gb) ← gb.nextBatch tccr N
    match batch with
    | none => some (gb, ev)
    | some batch => do
      let ev ← ev.nextBatch tccr batch
      transfer tccr N fuel gb ev

/-- What stays fixed while a circuit is garbled and evaluated. -/
structure GarbledRun where
  /-- Global offset. -/
  delta : Delta
  /-- The number of feeds of the circuit. -/
  feedCount : ℕ
  /-- The feeds of the outputs. -/
  outputs : Range
  /-- The wires that the plain evaluation leaves. -/
  result : Option (List Bool)

/-- Garbler and evaluator are in front of the same gates, and agree with the plain evaluation. -/
structure Lockstep (run : GarbledRun) (known : List ℕ) (gates : List Gate)
    (gb : EncryptedGateIter) (ev : EncryptedGateConsumer) : Prop where
  delta : gb.delta = run.delta
  gid : ev.gid = gb.gid
  counter : ev.counter = gb.counter
  andCount : ev.andCount = gb.andCount
  outputs_gb : gb.outputs = run.outputs
  outputs_ev : ev.outputs = run.outputs
  count : gb.counter + andGates gates = gb.andCount
  walk : Walk (Authentic run.delta) run.feedCount run.result known gates gb.labels ev.labels

namespace Lockstep

variable {run : GarbledRun} {known : List ℕ} {g : Gate}
  {gates : List Gate} {gb : EncryptedGateIter} {ev : EncryptedGateConsumer}

theorem hasGates_iff (h : Lockstep run known gates gb ev) :
    gb.hasGates = true ↔ 0 < andGates gates := by
  have := h.count
  simp only [EncryptedGateIter.hasGates, bne_iff_ne, ne_eq]
  omega

theorem wantsGates_iff (h : Lockstep run known gates gb ev) :
    ev.wantsGates = true ↔ 0 < andGates gates := by
  have := h.count
  simp only [EncryptedGateConsumer.wantsGates, bne_iff_ne, ne_eq, h.counter, h.andCount]
  omega

/-- A free gate moves both past it. -/
theorem free (h : Lockstep run known (g :: gates) gb ev) (hg : g.isAnd = false) :
    ∃ a b, (garblerOps gb.delta).apply gb.labels g = some a ∧
      evaluatorOps.apply ev.labels g = some b ∧
      Lockstep run (g.z :: known) gates { gb with labels := a }
        { ev with labels := b } := by
  obtain ⟨a, b, ha, hb, hwalk⟩ := h.walk.free (freeOps_respect run.delta) hg
  refine ⟨a, b, by rwa [h.delta], hb, { h with count := ?_, walk := hwalk }⟩
  simpa [andGates, hg] using h.count

/-- An AND gate moves both past it, the evaluator with the row that the garbler yields. -/
theorem and {x y z : ℕ} (tccr : Tccr)
    (h : Lockstep run known (.and x y z :: gates) gb ev) :
    ∃ x₀ y₀ lx ly a b, gb.labels[x]? = some x₀ ∧ gb.labels[y]? = some y₀ ∧
      ev.labels[x]? = some lx ∧ ev.labels[y]? = some ly ∧
      writeAt gb.labels z (Garbler.andGate tccr x₀ y₀ gb.delta gb.gid).1 = some a ∧
      writeAt ev.labels z (Evaluator.andGate tccr lx ly
        (Garbler.andGate tccr x₀ y₀ gb.delta gb.gid).2 ev.gid) = some b ∧
      Lockstep run (z :: known) gates
        { gb with labels := a, gid := gb.gid + 2, counter := gb.counter + 1, gates }
        { ev with labels := b, gid := ev.gid + 2, counter := ev.counter + 1, gates } := by
  obtain ⟨p, q, x₀, lx, y₀, ly, hx₀, hlx, hy₀, hly, hRx, hRy, hwrite⟩ := h.walk.and
  have hR : Authentic run.delta (p && q) (Garbler.andGate tccr x₀ y₀ gb.delta gb.gid).1
      (Evaluator.andGate tccr lx ly (Garbler.andGate tccr x₀ y₀ gb.delta gb.gid).2 ev.gid) := by
    rw [Authentic, h.gid, hRx, hRy, ← h.delta, Evaluator.andGate_garble]
  obtain ⟨a, b, ha, hb, hwalk⟩ := hwrite _ _ hR
  refine ⟨x₀, y₀, lx, ly, a, b, hx₀, hy₀, hlx, hly, ha, hb, { h with
    gid := by simp [h.gid]
    counter := by simp [h.counter]
    count := ?_
    walk := hwalk }⟩
  have := h.count
  simp only [andGates, List.countP_cons, Gate.isAnd, if_true] at this ⊢
  omega

end Lockstep

theorem EncryptedGateIter.nextGates_free (tccr : Tccr) {g : Gate} (hg : g.isAnd = false)
    (gates : List Gate) (gb : EncryptedGateIter) :
    gb.nextGates tccr (g :: gates) = (do
      let labels ← (garblerOps gb.delta).apply gb.labels g
      nextGates tccr gates { gb with labels }) := by
  cases g <;> first | rfl | simp [Gate.isAnd] at hg

theorem EncryptedGateConsumer.nextGates_free (tccr : Tccr) (row : EncryptedGate) {g : Gate}
    (hg : g.isAnd = false) (gates : List Gate) (ev : EncryptedGateConsumer) :
    ev.nextGates tccr row (g :: gates) = (do
      let labels ← evaluatorOps.apply ev.labels g
      nextGates tccr row gates { ev with labels }) := by
  cases g <;> first | rfl | simp [Gate.isAnd] at hg

/-- What the garbler does at an AND gate whose labels are in bounds. -/
theorem EncryptedGateIter.nextGates_and {tccr : Tccr} {x y z : ℕ} {x₀ y₀ : Block} {a : List Block}
    {gates : List Gate} {gb gb' : EncryptedGateIter} (hx : gb.labels[x]? = some x₀)
    (hy : gb.labels[y]? = some y₀)
    (ha : writeAt gb.labels z (Garbler.andGate tccr x₀ y₀ gb.delta gb.gid).1 = some a)
    (hgb' : gb' =
      { gb with labels := a, gid := gb.gid + 2, counter := gb.counter + 1, gates := gates }) :
    gb.nextGates tccr (.and x y z :: gates) =
      if gb'.hasGates then
        some (some (Garbler.andGate tccr x₀ y₀ gb.delta gb.gid).2, gb')
      else (gb'.nextGates tccr gates).bind fun (row, gb') =>
        if row.isNone then
          some (some (Garbler.andGate tccr x₀ y₀ gb.delta gb.gid).2, { gb' with complete := true })
        else none := by
  subst hgb'
  rw [nextGates]
  simp only [hx, hy, ha, Option.bind_eq_bind, Option.bind_some]

/-- What the evaluator does at an AND gate whose labels are in bounds. -/
theorem EncryptedGateConsumer.nextGates_and {tccr : Tccr} {row : EncryptedGate} {x y z : ℕ}
    {lx ly : Block} {b : List Block} {gates : List Gate} {ev ev' : EncryptedGateConsumer}
    (hx : ev.labels[x]? = some lx) (hy : ev.labels[y]? = some ly)
    (hb : writeAt ev.labels z (Evaluator.andGate tccr lx ly row ev.gid) = some b)
    (hev' : ev' =
      { ev with labels := b, gid := ev.gid + 2, counter := ev.counter + 1, gates := gates }) :
    ev.nextGates tccr row (.and x y z :: gates) =
      if ev'.wantsGates then some ev' else ev'.nextGates tccr row gates := by
  subst hev'
  rw [nextGates]
  simp only [hx, hy, hb, Option.bind_eq_bind, Option.bind_some]

namespace Lockstep

variable {run : GarbledRun} {known : List ℕ} {gates : List Gate}
  {gb : EncryptedGateIter} {ev : EncryptedGateConsumer}

/-- Where no AND gate remains, both run to the end of the circuit, whatever row the evaluator is
handed. -/
theorem tail (tccr : Tccr) (h : Lockstep run known gates gb ev)
    (h0 : andGates gates = 0) :
    ∃ known' gb' ev', gb.nextGates tccr gates = some (none, gb') ∧
      (∀ row, ev.nextGates tccr row gates = some ev') ∧
      Lockstep run known' [] gb' ev' ∧ gb'.gates = [] ∧ ev'.gates = [] ∧
      ev'.complete = true := by
  induction gates generalizing known gb ev with
  | nil =>
    exact ⟨known, { gb with gates := [] }, { ev with gates := [], complete := true }, rfl,
      fun _ => rfl, { h with }, rfl, rfl, rfl⟩
  | cons g gates ih =>
    have hg : g.isAnd = false := by
      simpa using List.countP_eq_zero.mp h0 g List.mem_cons_self
    have h0' : andGates gates = 0 := by simpa [andGates, hg] using h0
    obtain ⟨a, b, ha, hb, h'⟩ := h.free hg
    obtain ⟨known', gb', ev', hgb, hev, hstep⟩ := ih h' h0'
    refine ⟨known', gb', ev', ?_, fun row => ?_, hstep⟩
    · rw [EncryptedGateIter.nextGates_free tccr hg, ha]
      exact hgb
    · rw [EncryptedGateConsumer.nextGates_free tccr row hg, hb]
      exact hev row

/-- **One encrypted gate.** The garbler yields a row, the evaluator consumes it, and both are in
front of the same gates again: of none, if it was the last row. -/
theorem next (tccr : Tccr) (h : Lockstep run known gates gb ev)
    (hpos : 0 < andGates gates) (hgb : gb.complete = false) (hev : ev.complete = false) :
    ∃ row known' gb' ev', gb.nextGates tccr gates = some (some row, gb') ∧
      ev.nextGates tccr row gates = some ev' ∧
      Lockstep run known' gb'.gates gb' ev' ∧ ev'.gates = gb'.gates ∧
      andGates gb'.gates + 1 = andGates gates ∧ (andGates gb'.gates = 0 → gb'.gates = []) ∧
      (gb'.complete = true → gb'.gates = []) ∧ (ev'.complete = true → gb'.gates = []) := by
  induction gates generalizing known gb ev with
  | nil => simp [andGates] at hpos
  | cons g gates ih =>
    by_cases hg : g.isAnd = false
    · have hcount : andGates (g :: gates) = andGates gates := by simp [andGates, hg]
      obtain ⟨a, b, ha, hb, h'⟩ := h.free hg
      obtain ⟨row, known', gb', ev', hgb', hev', hrest⟩ := ih h' (hcount ▸ hpos) hgb hev
      refine ⟨row, known', gb', ev', ?_, ?_, by rw [hcount]; exact hrest⟩
      · rw [EncryptedGateIter.nextGates_free tccr hg, ha]
        exact hgb'
      · rw [EncryptedGateConsumer.nextGates_free tccr row hg, hb]
        exact hev'
    · obtain ⟨x, y, z, rfl⟩ := Gate.exists_eq_and (Bool.of_not_eq_false hg)
      obtain ⟨x₀, y₀, lx, ly, a, b, hx₀, hy₀, hlx, hly, ha, hb, h'⟩ := h.and tccr
      have hcount : andGates (.and x y z :: gates) = andGates gates + 1 := by
        simp [andGates, List.countP_cons, Gate.isAnd]
      rw [hcount]
      by_cases hmore : 0 < andGates gates
      · have hhas := h'.hasGates_iff.mpr hmore
        have hwants := h'.wantsGates_iff.mpr hmore
        refine ⟨(Garbler.andGate tccr x₀ y₀ gb.delta gb.gid).2, z :: known,
          { gb with labels := a, gid := gb.gid + 2, counter := gb.counter + 1, gates },
          { ev with labels := b, gid := ev.gid + 2, counter := ev.counter + 1, gates },
          ?_, ?_, h', rfl, rfl, fun h0 => absurd h0 hmore.ne', ?_, ?_⟩
        · rw [EncryptedGateIter.nextGates_and hx₀ hy₀ ha rfl, if_pos hhas]
        · rw [EncryptedGateConsumer.nextGates_and hlx hly hb rfl, if_pos hwants]
        · simp [hgb]
        · simp [hev]
      · -- The last AND gate: both run the free gates behind it.
        have hlast : andGates gates = 0 := by omega
        have hhas := mt h'.hasGates_iff.mp hmore
        have hwants := mt h'.wantsGates_iff.mp hmore
        obtain ⟨known', gb', ev', hgb', hev', h'', hgates, hgates', -⟩ := h'.tail tccr hlast
        refine ⟨(Garbler.andGate tccr x₀ y₀ gb.delta gb.gid).2, known',
          { gb' with complete := true }, ev', ?_, ?_, ?_⟩
        · rw [EncryptedGateIter.nextGates_and hx₀ hy₀ ha rfl, if_neg hhas, hgb']
          rfl
        · rw [EncryptedGateConsumer.nextGates_and hlx hly hb rfl, if_neg hwants, hev']
        · rw [hlast, hgates, hgates']
          exact ⟨{ h'' with }, rfl, rfl, fun _ => rfl, fun _ => rfl, fun _ => rfl⟩

end Lockstep

/-! ### Batches -/

/-- The two iterators are in step. -/
structure InStep (run : GarbledRun) (gb : EncryptedGateIter) (ev : EncryptedGateConsumer) :
    Prop where
  lockstep : ∃ known, Lockstep run known gb.gates gb ev
  gates : ev.gates = gb.gates
  complete_gb : gb.complete = true → gb.gates = []
  complete_ev : ev.complete = true → gb.gates = []

namespace InStep

variable {run : GarbledRun} {gb : EncryptedGateIter} {ev : EncryptedGateConsumer}

theorem hasGates_iff (h : InStep run gb ev) :
    gb.hasGates = true ↔ 0 < andGates gb.gates := by
  obtain ⟨known, h⟩ := h.lockstep
  exact h.hasGates_iff

theorem wantsGates_iff (h : InStep run gb ev) :
    ev.wantsGates = true ↔ 0 < andGates gb.gates := by
  obtain ⟨known, h⟩ := h.lockstep
  exact h.wantsGates_iff

/-- One encrypted gate, on the iterators. -/
theorem next (tccr : Tccr) (h : InStep run gb ev) (hpos : 0 < andGates gb.gates) :
    ∃ row gb' ev', gb.next tccr = some (some row, gb') ∧ ev.next tccr row = some ev' ∧
      InStep run gb' ev' ∧ andGates gb'.gates + 1 = andGates gb.gates ∧
      (andGates gb'.gates = 0 → gb'.gates = []) := by
  obtain ⟨known, hstep⟩ := h.lockstep
  have hne : gb.gates ≠ [] := by
    rintro hnil
    simp [hnil, andGates] at hpos
  have hgb : gb.complete = false := Bool.eq_false_iff.mpr (mt h.complete_gb hne)
  have hev : ev.complete = false := Bool.eq_false_iff.mpr (mt h.complete_ev hne)
  obtain ⟨row, known', gb', ev', hgb', hev', hstep', hgates, hcount, hnil, hcgb, hcev⟩ :=
    hstep.next tccr hpos hgb hev
  refine ⟨row, gb', ev', hgb', ?_, ⟨⟨known', hstep'⟩, hgates, hcgb, hcev⟩, hcount, hnil⟩
  rw [EncryptedGateConsumer.next, h.gates]
  exact hev'

/-- **One batch.** The garbler fills at most `n` places; it leaves some free only at the end of the
circuit, and there the evaluator does not look at them. -/
theorem fill (tccr : Tccr) (n : ℕ) (h : InStep run gb ev)
    (hpos : 0 < andGates gb.gates) :
    ∃ rows gb' ev', gb.fill tccr (n + 1) = some (rows, gb') ∧
      (∀ pad, (0 < andGates gb'.gates → pad = []) → ev.nextBatch tccr (rows ++ pad) = some ev') ∧
      (0 < andGates gb'.gates → rows.length = n + 1) ∧
      InStep run gb' ev' ∧ andGates gb'.gates < andGates gb.gates := by
  induction n generalizing gb ev with
  | zero =>
    obtain ⟨row, gb', ev', hgb, hev, h', hcount, -⟩ := h.next tccr hpos
    refine ⟨[row], gb', ev', ?_, fun pad hpad => ?_, fun _ => rfl, h', by omega⟩
    · simp [EncryptedGateIter.fill, hgb]
    · simp only [List.singleton_append, EncryptedGateConsumer.nextBatch, hev,
        Option.bind_eq_bind, Option.bind_some]
      split
      case isTrue hw =>
        rw [hpad (h'.wantsGates_iff.mp hw)]
        rfl
      case isFalse => rfl
  | succ n ih =>
    obtain ⟨row, gb₁, ev₁, hgb, hev, h₁, hcount, hnil⟩ := h.next tccr hpos
    by_cases hmore : 0 < andGates gb₁.gates
    · obtain ⟨rows, gb', ev', hgb', hev', hlen, h', hlt⟩ := ih h₁ hmore
      refine ⟨row :: rows, gb', ev', ?_, fun pad hpad => ?_, fun hp => by simp [hlen hp], h',
        by omega⟩
      · rw [EncryptedGateIter.fill]
        simp [hgb, hgb']
      · simp [EncryptedGateConsumer.nextBatch, hev, h₁.wantsGates_iff.mpr hmore, hev' pad hpad]
    · -- The circuit is done before the batch is full.
      have hgates : gb₁.gates = [] := hnil (by omega)
      obtain ⟨known, hstep⟩ := h₁.lockstep
      refine ⟨[row], { gb₁ with gates := [] }, ev₁, ?_, fun pad _ => ?_, ?_, ⟨⟨known, ?_⟩, ?_,
        fun _ => rfl, fun _ => rfl⟩, ?_⟩
      · rw [EncryptedGateIter.fill]
        simp only [hgb, Option.bind_eq_bind, Option.bind_some, Nat.add_one_ne_zero, if_false]
        rw [EncryptedGateIter.fill, EncryptedGateIter.next, hgates]
        rfl
      · simp [EncryptedGateConsumer.nextBatch, hev, mt h₁.wantsGates_iff.mp hmore]
      · simp [andGates]
      · exact { hgates ▸ hstep with }
      · rw [h₁.gates, hgates]
      · simpa [andGates] using hpos

/-- **All batches.** The garbler runs out of batches with both at the last AND gate or past it. -/
theorem transfer (tccr : Tccr) {N : ℕ} (hN : 0 < N) (h : InStep run gb ev) :
    ∃ gb' ev', (∀ fuel, andGates gb.gates < fuel →
        transfer tccr N fuel gb ev = some (gb', ev')) ∧
      InStep run gb' ev' ∧ andGates gb'.gates = 0 := by
  obtain ⟨n, rfl⟩ : ∃ n, N = n + 1 := ⟨N - 1, by omega⟩
  induction hm : andGates gb.gates using Nat.strong_induction_on generalizing gb ev with
  | _ m ih =>
    by_cases hpos : 0 < andGates gb.gates
    · obtain ⟨rows, gb₁, ev₁, hfill, hbatch, hlen, h₁, hlt⟩ := h.fill tccr n hpos
      obtain ⟨gb', ev', hrun, hend⟩ := ih _ (hm ▸ hlt) h₁ rfl
      refine ⟨gb', ev', fun fuel hfuel => ?_, hend⟩
      obtain ⟨fuel, rfl⟩ : ∃ k, fuel = k + 1 := ⟨fuel - 1, by omega⟩
      have hpad := hbatch (List.replicate (n + 1 - rows.length) default) fun hp => by
        simp [hlen hp]
      rw [Mpz.transfer, EncryptedGateIter.nextBatch, if_pos (h.hasGates_iff.mpr hpos), hfill]
      simp only [Option.bind_eq_bind, Option.bind_some, hpad]
      exact hrun fuel (by omega)
    · refine ⟨gb, ev, fun fuel hfuel => ?_, h, by omega⟩
      obtain ⟨fuel, rfl⟩ : ∃ k, fuel = k + 1 := ⟨fuel - 1, by omega⟩
      rw [Mpz.transfer, EncryptedGateIter.nextBatch, if_neg (mt h.hasGates_iff.mp hpos)]
      rfl

end InStep

/-! ### The end of the circuit -/

theorem EncryptedGateIter.finish_eq {tccr : Tccr} {gb gb' : EncryptedGateIter}
    (hhas : gb.hasGates = false) (hnext : gb.next tccr = some (none, gb'))
    (hc : gb.complete = true → gb.gates = []) {ks : List Block}
    (hks : slice gb'.labels gb.outputs = some ks) (hout : gb'.outputs = gb.outputs) :
    gb.finish tccr = .ok ⟨ks.map Key.mk⟩ := by
  rw [finish, hhas, if_neg Bool.false_ne_true]
  cases hcomplete : gb.complete with
  | true =>
    rw [next, hc hcomplete, nextGates] at hnext
    obtain ⟨-, rfl⟩ := Prod.mk.inj (Option.some.inj hnext)
    simp [hks]
  | false => simp [hnext, hout, hks]

theorem EncryptedGateConsumer.finish_eq {tccr : Tccr} {ev ev' : EncryptedGateConsumer}
    (hwants : ev.wantsGates = false) (hnext : ev.next tccr default = some ev')
    (hc : ev.complete = true → ev.gates = []) {ms : List Block}
    (hms : slice ev'.labels ev.outputs = some ms) (hout : ev'.outputs = ev.outputs) :
    ev.finish tccr = .ok ⟨ms.map Mac.mk⟩ := by
  rw [finish, hwants, if_neg Bool.false_ne_true]
  cases hcomplete : ev.complete with
  | true =>
    rw [next, hc hcomplete, nextGates] at hnext
    obtain rfl := Option.some.inj hnext
    simp [hms]
  | false => simp [hnext, hout, hms]

/-- **Both sides finish**, and the MACs of the evaluator authenticate the plain outputs under the
keys of the garbler. -/
theorem InStep.finish {run : GarbledRun} {gb : EncryptedGateIter} {ev : EncryptedGateConsumer}
    (tccr : Tccr) (h : InStep run gb ev) (h0 : andGates gb.gates = 0)
    (hle : run.outputs.start ≤ run.outputs.stop ∧ run.outputs.stop ≤ run.feedCount) :
    ∃ values ks, (run.result >>= fun feeds => slice feeds run.outputs) = some values ∧
      gb.finish tccr = .ok ⟨ks⟩ ∧
      ev.finish tccr = .ok ⟨List.zipWith (fun k v => k.auth v run.delta) ks values⟩ ∧
      ks.length = run.outputs.len ∧ values.length = run.outputs.len := by
  obtain ⟨known, hstep⟩ := h.lockstep
  obtain ⟨known', gb', ev', hgb, hev, hend, -⟩ := hstep.tail tccr h0
  obtain ⟨values, ks, ms, hvalues, hks, hms, hlv, hlk, hlm, hR⟩ := hend.walk.outputs hle
  have hhas : gb.hasGates = false := Bool.eq_false_iff.mpr (mt h.hasGates_iff.mp (by omega))
  have hwants : ev.wantsGates = false := Bool.eq_false_iff.mpr (mt h.wantsGates_iff.mp (by omega))
  have hmacs : ms.map Mac.mk =
      List.zipWith (fun k v => Key.auth k v run.delta) (ks.map Key.mk) values := by
    refine List.ext_getElem (by simp [hlk, hlm, hlv]) fun j hj _ => ?_
    obtain ⟨x, k, m, hx, hk, hm, hR⟩ := hR j (by simpa [hlm] using hj)
    simp only [List.getElem_map, List.getElem_zipWith, Key.auth, Mac.mk.injEq]
    rw [(List.getElem?_eq_some_iff.mp hx).2, (List.getElem?_eq_some_iff.mp hk).2,
      (List.getElem?_eq_some_iff.mp hm).2]
    exact hR
  refine ⟨values, ks.map Key.mk, hvalues, ?_, ?_, by simp [hlk], hlv⟩
  · exact EncryptedGateIter.finish_eq hhas hgb h.complete_gb (by rw [hstep.outputs_gb, hks])
      (by rw [hend.outputs_gb, hstep.outputs_gb])
  · rw [← hmacs]
    refine EncryptedGateConsumer.finish_eq hwants ?_ (fun hc => h.gates.trans (h.complete_ev hc))
      (by rw [hstep.outputs_ev, hms]) (by rw [hend.outputs_ev, hstep.outputs_ev])
    rw [EncryptedGateConsumer.next, h.gates]
    exact hev _

/-! ### Whole circuits -/

/-- Garbling and evaluation start in step, whatever labels the buffers hold. -/
theorem exists_inStep {circ : Circuit} (hwf : circ.WellFormed) (delta : Delta)
    {keys : List Key} {bits : List Bool} (hkeys : keys.length = circ.inputs.len)
    (hbits : bits.length = circ.inputs.len) (gb : Garbler) (ev : Evaluator) :
    ∃ feeds gbIter evConsumer,
      copyFrom (List.replicate circ.feedCount false) 0 bits = some feeds ∧
      gb.generateBatched circ delta keys = .ok gbIter ∧
      ev.evaluateBatched circ (List.zipWith (fun k x => k.auth x delta) keys bits) =
        .ok evConsumer ∧
      andGates gbIter.gates = circ.andCount ∧
      InStep ⟨delta, circ.feedCount, circ.outputs, evaluateGates feeds circ.gates⟩ gbIter
        evConsumer := by
  have hmacs : (List.zipWith (fun k x => Key.auth k x delta) keys bits).length =
      circ.inputs.len := by simp [hkeys, hbits]
  obtain ⟨feeds, a, b, hfeeds, ha, hb, hwalk⟩ :=
    Walk.init (R := Authentic delta) hwf (keys.map Key.block)
      ((List.zipWith (fun k x => Key.auth k x delta) keys bits).map Mac.block) hbits
      (by rw [List.length_map, hkeys]) (by rw [List.length_map, hmacs]) (by
        intro i x k m hx hk hm
        simp only [List.getElem?_map, List.getElem?_zipWith, Option.map_eq_some_iff] at hk hm
        obtain ⟨k, hk, rfl⟩ := hk
        obtain ⟨m, hm, rfl⟩ := hm
        simp only [hk, hx, Option.some.injEq] at hm
        rw [← hm]
        rfl)
      (le_length_expand gb.buffer _ Block.zero) (le_length_expand ev.buffer _ Block.zero)
  refine ⟨feeds, .new delta circ.gates a circ.andCount circ.outputs,
    .new circ.gates b circ.andCount circ.outputs, hfeeds, ?_, ?_, hwf.and_count, ?_⟩
  · simp [Garbler.generateBatched, Garbler.generate, hkeys, ha]
  · rw [Evaluator.evaluateBatched, Evaluator.evaluate, if_neg (not_not.mpr hmacs)]
    simp only [hb, Outcome.ofOption_some, Outcome.ok_bind]
  · refine ⟨⟨circ.inputs.indices, ?_⟩, rfl, fun h => by simp [EncryptedGateIter.new] at h,
      fun h => by simp [EncryptedGateConsumer.new] at h⟩
    exact
      { delta := rfl, gid := rfl, counter := rfl, andCount := rfl, outputs_gb := rfl
        outputs_ev := rfl
        count := by simpa [EncryptedGateIter.new] using hwf.and_count
        walk := hwalk }

/-- **Half-gate garbling is correct over whole circuits**, in batches of any size: with every batch
handed over, both sides finish, and the output MACs authenticate what the circuit evaluates to. -/
theorem garbleBatched_correct (tccr : Tccr) {N : ℕ} (hN : 0 < N) {circ : Circuit}
    (hwf : circ.WellFormed) (delta : Delta) {keys : List Key} {bits : List Bool}
    (hkeys : keys.length = circ.inputs.len) (hbits : bits.length = circ.inputs.len)
    (gb : Garbler) (ev : Evaluator) :
    ∃ gbIter evConsumer gbIter' evConsumer' outputKeys values,
      gb.generateBatched circ delta keys = .ok gbIter ∧
      ev.evaluateBatched circ (List.zipWith (fun k x => k.auth x delta) keys bits) =
        .ok evConsumer ∧
      (∀ fuel, circ.andCount < fuel →
        transfer tccr N fuel gbIter evConsumer = some (gbIter', evConsumer')) ∧
      circ.evaluate bits = .ok values ∧
      gbIter'.finish tccr = .ok ⟨outputKeys⟩ ∧
      evConsumer'.finish tccr = .ok ⟨List.zipWith (fun k v => k.auth v delta) outputKeys values⟩ ∧
      outputKeys.length = circ.outputs.len ∧ values.length = circ.outputs.len := by
  obtain ⟨feeds, gbIter, evConsumer, hfeeds, hgb, hev, hcount, hstep⟩ :=
    exists_inStep hwf delta hkeys hbits gb ev
  obtain ⟨gbIter', evConsumer', hrun, hstep', h0⟩ := hstep.transfer tccr hN
  obtain ⟨values, outputKeys, hvalues, hfin, hfin', hlk, hlv⟩ :=
    hstep'.finish tccr h0 hwf.outputs_le
  refine ⟨gbIter, evConsumer, gbIter', evConsumer', outputKeys, values, hgb, hev,
    fun fuel hfuel => hrun fuel (hcount ▸ hfuel), ?_, hfin, hfin', hlk, hlv⟩
  rw [Circuit.evaluate_eq hwf hbits hfeeds, hvalues, Outcome.ofOption_some]

/-- **Garbling with the default batch size is correct**, for every hash in place of the tweakable
one and whatever the buffers held before. -/
theorem garble_correct (tccr : Tccr) {circ : Circuit} (hwf : circ.WellFormed) (delta : Delta)
    {keys : List Key} {bits : List Bool} (hkeys : keys.length = circ.inputs.len)
    (hbits : bits.length = circ.inputs.len) (gb : Garbler) (ev : Evaluator) :
    ∃ gbIter evConsumer gbIter' evConsumer' outputKeys values,
      gb.generateBatched circ delta keys = .ok gbIter ∧
      ev.evaluateBatched circ (List.zipWith (fun k x => k.auth x delta) keys bits) =
        .ok evConsumer ∧
      (∀ fuel, circ.andCount < fuel →
        transfer tccr defaultBatchSize fuel gbIter evConsumer = some (gbIter', evConsumer')) ∧
      circ.evaluate bits = .ok values ∧
      gbIter'.finish tccr = .ok ⟨outputKeys⟩ ∧
      evConsumer'.finish tccr = .ok ⟨List.zipWith (fun k v => k.auth v delta) outputKeys values⟩ ∧
      outputKeys.length = circ.outputs.len ∧ values.length = circ.outputs.len :=
  garbleBatched_correct tccr (by decide) hwf delta hkeys hbits gb ev

/-- An AND gate and a free gate behind it, from buffers that hold labels of an earlier run. -/
theorem garble_correct_nand :
    ∃ gbIter evConsumer gbIter' evConsumer' outputKeys values,
      (Garbler.mk [7#128, 8#128]).generateBatched nandCircuit (.new 4#128) [⟨5#128⟩, ⟨6#128⟩] =
        .ok gbIter ∧
      (Evaluator.mk [9#128]).evaluateBatched nandCircuit
        (List.zipWith (fun (k : Key) x => k.auth x (.new 4#128)) [⟨5#128⟩, ⟨6#128⟩] [true, false]) =
        .ok evConsumer ∧
      (∀ fuel, nandCircuit.andCount < fuel →
        transfer (fun t x => t ^^^ x) defaultBatchSize fuel gbIter evConsumer =
          some (gbIter', evConsumer')) ∧
      nandCircuit.evaluate [true, false] = .ok values ∧
      gbIter'.finish (fun t x => t ^^^ x) = .ok ⟨outputKeys⟩ ∧
      evConsumer'.finish (fun t x => t ^^^ x) =
        .ok ⟨List.zipWith (fun k v => k.auth v (.new 4#128)) outputKeys values⟩ ∧
      outputKeys.length = nandCircuit.outputs.len ∧ values.length = nandCircuit.outputs.len :=
  garble_correct (fun t x => t ^^^ x) nandCircuit_wellFormed (.new 4#128) rfl rfl ⟨_⟩ ⟨_⟩

end Mpz
