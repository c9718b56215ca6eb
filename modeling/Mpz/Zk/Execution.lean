import Mpz.Zk.Verifier

/-!
# One circuit, proven and verified

A circuit run by both sides, with the adjust bits of the prover fed to the verifier. On every wire
the MAC authenticates the plain bit under a key whose pointer bit is clear, so the pointer bit of
the MAC is the bit itself; both sides push the MACs and the keys of the same true products.

## Main definitions

* `Zk.Authentic` — the MAC and the key of a bit
* `Zk.Job` — a circuit with the inputs and the gate correlations of one execution
* `Zk.Lockstep` — the invariant between two adjust bits

## Main results

* `Zk.Lockstep.next` — one adjust bit
* `Zk.Lockstep.drain` — all of them
* `Zk.Job.exec` — both executions complete, with the buffers and the outputs they leave
-/

namespace Mpz.Zk

/-- The MAC of a bit authenticates it, under a key with a clear pointer bit. -/
def Authentic (delta : Delta) (x : Bool) (m : Mac) (k : Key) : Prop :=
  k.pointer = false ∧ m = k.auth x delta

theorem Authentic.pointer {delta : Delta} {x : Bool} {m : Mac} {k : Key}
    (h : Authentic delta x m k) : m.pointer = x := by
  rw [h.2, Key.pointer_auth, h.1, Bool.false_xor]

/-- The key is recovered from the MAC. -/
theorem Authentic.key_block {delta : Delta} {x : Bool} {m : Mac} {k : Key}
    (h : Authentic delta x m k) : k.block = m.block ^^^ delta.select m.block.lsb := by
  have hx : m.block.lsb = x := h.pointer
  rw [hx, h.2, Key.auth, BitVec.xor_assoc, BitVec.xor_self, BitVec.xor_zero]

/-- A random correlation, derandomized to a bit. -/
theorem Authentic.adjust (delta : Delta) (k : Key) (r x : Bool) :
    Authentic delta x ((k.auth r delta).setPointer x) (k.adjust (r ^^ x) delta) :=
  ⟨Key.pointer_adjust delta k _, (Key.auth_adjust delta k r x).symm⟩

theorem freeOps_respect (delta : Delta) :
    FreeOps.Respect (Authentic delta) proverOps (verifierOps delta) where
  xor := by
    rintro x y m m' k k' ⟨hk, rfl⟩ ⟨hk', rfl⟩
    refine ⟨by simp [verifierOps, hk, hk'], ?_⟩
    exact (Key.auth_add delta k k' x y).symm
  inv := by
    rintro x m k h
    have hadj := Authentic.adjust delta k x (!x)
    rw [← h.2, Bool.xor_not_self] at hadj
    simpa [proverOps, verifierOps, h.pointer] using hadj

/-- What one execution of a circuit is given: input bits authenticated under `keys`, and a random
mask authenticated under every gate key. -/
structure Job where
  /-- The circuit. -/
  circ : Circuit
  /-- The input bits. -/
  bits : List Bool
  /-- The keys of the inputs. -/
  keys : List Key
  /-- The masks of the AND gates. -/
  gateMasks : List Bool
  /-- The keys of the masks. -/
  gateKeys : List Key
  wellFormed : circ.WellFormed
  length_bits : bits.length = circ.inputs.len
  length_keys : keys.length = circ.inputs.len
  pointer_keys : ∀ k ∈ keys, k.pointer = false
  length_gateMasks : gateMasks.length = circ.andCount
  length_gateKeys : gateKeys.length = circ.andCount

namespace Job

variable (job : Job) (delta : Delta)

/-- The MACs of the inputs. -/
def macs : List Mac := List.zipWith (fun k x => k.auth x delta) job.keys job.bits

/-- The MACs of the masks. -/
def gateMacs : List Mac := List.zipWith (fun k r => k.auth r delta) job.gateKeys job.gateMasks

end Job

/-! ### One adjust bit -/

/-- Prover and verifier are in front of the same gates, agree with the plain evaluation, and have
pushed the MACs and keys of the same true products. -/
structure Lockstep (job : Job) (delta : Delta) (result : Option (List Bool)) (known : List ℕ)
    (gates : List Gate) (p : ProverIter) (v : VerifierConsumer) : Prop where
  delta_v : v.delta = delta
  gateMasks : p.gateMasks = job.gateMasks
  gateMacs : p.gateMacs = job.gateMacs delta
  gateKeys : v.gateKeys = job.gateKeys
  andCount_p : p.andCount = job.circ.andCount
  andCount_v : v.andCount = job.circ.andCount
  counter : v.counter = p.counter
  count : p.counter + andGates gates = job.circ.andCount
  length_triples : p.triples.length = p.counter
  triples : v.triples = p.triples.map (Triple.keys delta)
  products : ∀ t ∈ p.triples, t.z.lsb = (t.x.lsb && t.y.lsb)
  length_adjust : p.adjust.length = p.counter
  adjust : v.adjust = p.adjust
  walk : Walk (Authentic delta) job.circ.feedCount result known gates p.macs v.keys

theorem ProverIter.nextGates_free {g : Gate} (hg : g.isAnd = false) (gates : List Gate)
    (p : ProverIter) : p.nextGates (g :: gates) = (do
      let macs ← proverOps.apply p.macs g
      nextGates gates { p with macs }) := by
  cases g <;> first | rfl | simp [Gate.isAnd] at hg

theorem VerifierConsumer.nextGates_free (adjust : Bool) {g : Gate} (hg : g.isAnd = false)
    (gates : List Gate) (v : VerifierConsumer) : v.nextGates adjust (g :: gates) = (do
      let keys ← (verifierOps v.delta).apply v.keys g
      nextGates adjust gates { v with keys }) := by
  cases g <;> first | rfl | simp [Gate.isAnd] at hg

/-- What the prover does at an AND gate whose indices are in bounds. -/
theorem ProverIter.nextGates_and {x y z : ℕ} {gates : List Gate} {p p' : ProverIter}
    {mx my mz : Mac} {mask : Bool} {macs : List Mac} (hx : p.macs[x]? = some mx)
    (hy : p.macs[y]? = some my) (hz : p.gateMacs[p.counter]? = some mz)
    (hmask : p.gateMasks[p.counter]? = some mask)
    (hmacs : writeAt p.macs z (mz.setPointer (mx.pointer && my.pointer)) = some macs)
    (hp' : p' =
      { p with
        macs, gates
        triples := p.triples ++
          [⟨mx.block, my.block, (mz.setPointer (mx.pointer && my.pointer)).block⟩]
        adjust := p.adjust ++ [mask ^^ (mx.pointer && my.pointer)]
        counter := p.counter + 1 }) :
    p.nextGates (.and x y z :: gates) =
      if p'.counter ≥ p'.andCount then
        (p'.nextGates gates).bind fun (bit, p'') =>
          if bit.isNone then some (some (mask ^^ (mx.pointer && my.pointer)), p'') else none
      else some (some (mask ^^ (mx.pointer && my.pointer)), p') := by
  subst hp'
  rw [nextGates, hx, hy, hz, hmask]
  change Option.bind (writeAt p.macs z (mz.setPointer (mx.pointer && my.pointer))) _ = _
  rw [hmacs]
  rfl

/-- What the verifier does at an AND gate whose indices are in bounds. -/
theorem VerifierConsumer.nextGates_and {adjust : Bool} {x y z : ℕ} {gates : List Gate}
    {v v' : VerifierConsumer} {kx ky kz : Key} {keys : List Key} (hx : v.keys[x]? = some kx)
    (hy : v.keys[y]? = some ky) (hz : v.gateKeys[v.counter]? = some kz)
    (hkeys : writeAt v.keys z (kz.adjust adjust v.delta) = some keys)
    (hv' : v' =
      { v with
        keys, gates
        triples := v.triples ++ [⟨kx.block, ky.block, (kz.adjust adjust v.delta).block⟩]
        adjust := v.adjust ++ [adjust]
        counter := v.counter + 1 }) :
    v.nextGates adjust (.and x y z :: gates) =
      if v'.wantsAdjust then some v' else v'.nextGates adjust gates := by
  subst hv'
  rw [nextGates, hx, hy, hz]
  change Option.bind (writeAt v.keys z (kz.adjust adjust v.delta)) _ = _
  rw [hkeys]
  rfl

namespace Lockstep

variable {job : Job} {delta : Delta} {result : Option (List Bool)} {known : List ℕ}
  {gates : List Gate} {p : ProverIter} {v : VerifierConsumer}

theorem wantsAdjust_iff (h : Lockstep job delta result known gates p v) :
    v.wantsAdjust = true ↔ 0 < andGates gates := by
  have := h.count
  simp only [VerifierConsumer.wantsAdjust, decide_eq_true_eq, h.counter, h.andCount_v]
  omega

theorem le_counter_iff (h : Lockstep job delta result known gates p v) :
    p.counter ≥ p.andCount ↔ ¬ 0 < andGates gates := by
  have := h.count
  rw [h.andCount_p]
  omega

/-- A free gate moves both past it. -/
theorem free {g : Gate} (h : Lockstep job delta result known (g :: gates) p v)
    (hg : g.isAnd = false) :
    ∃ a b, proverOps.apply p.macs g = some a ∧ (verifierOps v.delta).apply v.keys g = some b ∧
      Lockstep job delta result (g.z :: known) gates { p with macs := a } { v with keys := b } := by
  obtain ⟨a, b, ha, hb, hwalk⟩ := h.walk.free (freeOps_respect delta) hg
  refine ⟨a, b, ha, by rwa [h.delta_v], { h with count := ?_, walk := hwalk }⟩
  simpa [andGates, hg] using h.count

/-- An AND gate moves both past it, the verifier with the bit that the prover yields. -/
theorem and {x y z : ℕ} (h : Lockstep job delta result known (.and x y z :: gates) p v) :
    ∃ adjust p' v',
      p.nextGates (.and x y z :: gates) = (if p'.counter ≥ p'.andCount then
        (p'.nextGates gates).bind fun (bit, p'') =>
          if bit.isNone then some (some adjust, p'') else none
        else some (some adjust, p')) ∧
      v.nextGates adjust (.and x y z :: gates) =
        (if v'.wantsAdjust then some v' else v'.nextGates adjust gates) ∧
      Lockstep job delta result (z :: known) gates p' v' ∧ p'.gates = gates ∧ v'.gates = gates := by
  have hcount := h.count
  rw [show andGates (.and x y z :: gates) = andGates gates + 1 by
    simp [andGates, List.countP_cons, Gate.isAnd]] at hcount
  obtain ⟨a, b, mx, kx, my, ky, hmx, hkx, hmy, hky, hRx, hRy, hwrite⟩ := h.walk.and
  have hlt : p.counter < job.gateKeys.length := by rw [job.length_gateKeys]; omega
  have hlt' : p.counter < job.gateMasks.length := by rw [job.length_gateMasks]; omega
  -- The gate's random correlation, and the bit that derandomizes it.
  have hkz : v.gateKeys[v.counter]? = some job.gateKeys[p.counter] := by
    rw [h.gateKeys, h.counter, List.getElem?_eq_getElem hlt]
  have hmask : p.gateMasks[p.counter]? = some job.gateMasks[p.counter] := by
    rw [h.gateMasks, List.getElem?_eq_getElem hlt']
  have hmz : p.gateMacs[p.counter]? =
      some (job.gateKeys[p.counter].auth job.gateMasks[p.counter] delta) := by
    rw [h.gateMacs, Job.gateMacs, List.getElem?_zipWith, List.getElem?_eq_getElem hlt,
      List.getElem?_eq_getElem hlt']
  have hRz := Authentic.adjust delta job.gateKeys[p.counter] job.gateMasks[p.counter] (a && b)
  have hw : (mx.pointer && my.pointer) = (a && b) := by rw [hRx.pointer, hRy.pointer]
  obtain ⟨macs, keys, hmacs, hkeys, hwalk⟩ := hwrite _ _ hRz
  rw [← hw] at hmacs hkeys hRz
  rw [← h.delta_v] at hkeys
  refine ⟨_, _, _, ProverIter.nextGates_and hmx hmy hmz hmask hmacs rfl,
    VerifierConsumer.nextGates_and hkx hky hkz hkeys rfl, { h with
      counter := by simp [h.counter]
      count := by simp only; omega
      length_triples := by simp [h.length_triples]
      triples := ?_
      products := ?_
      length_adjust := by simp [h.length_adjust]
      adjust := by simp [h.adjust]
      walk := hwalk }, rfl, rfl⟩
  · rw [List.map_append, h.triples, h.delta_v]
    simp only [List.map_cons, List.map_nil, Triple.keys, ← hRx.key_block, ← hRy.key_block,
      ← hRz.key_block]
  · intro t ht
    rcases List.mem_append.mp ht with ht | ht
    · exact h.products t ht
    · rw [List.mem_singleton.mp ht]
      exact Mac.pointer_setPointer _ _

/-- Where no AND gate remains, both run to the end of the circuit. -/
theorem tail (h : Lockstep job delta result known gates p v) (h0 : andGates gates = 0) :
    ∃ known' p' v', p.nextGates gates = some (none, p') ∧
      (∀ adjust, v.nextGates adjust gates = some v') ∧
      Lockstep job delta result known' [] p' v' ∧ p'.gates = [] ∧ v'.gates = [] := by
  induction gates generalizing known p v with
  | nil => exact ⟨known, { p with gates := [] }, { v with gates := [] }, rfl, fun _ => rfl,
      { h with }, rfl, rfl⟩
  | cons g gates ih =>
    have hg : g.isAnd = false := by
      simpa using List.countP_eq_zero.mp h0 g List.mem_cons_self
    have h0' : andGates gates = 0 := by simpa [andGates, hg] using h0
    obtain ⟨a, b, ha, hb, h'⟩ := h.free hg
    obtain ⟨known', p', v', hp, hv, hend⟩ := ih h' h0'
    refine ⟨known', p', v', ?_, fun adjust => ?_, hend⟩
    · rw [ProverIter.nextGates_free hg, ha]
      exact hp
    · rw [VerifierConsumer.nextGates_free adjust hg, hb]
      exact hv adjust

/-- **One adjust bit.** The prover yields it, the verifier consumes it, and both are in front of
the same gates again: of none, if it was the last one. -/
theorem next (h : Lockstep job delta result known gates p v) (hpos : 0 < andGates gates) :
    ∃ adjust known' p' v', p.nextGates gates = some (some adjust, p') ∧
      v.nextGates adjust gates = some v' ∧ Lockstep job delta result known' p'.gates p' v' ∧
      v'.gates = p'.gates ∧ andGates p'.gates + 1 = andGates gates ∧
      (andGates p'.gates = 0 → p'.gates = []) := by
  induction gates generalizing known p v with
  | nil => simp [andGates] at hpos
  | cons g gates ih =>
    by_cases hg : g.isAnd = false
    · have hcount : andGates (g :: gates) = andGates gates := by simp [andGates, hg]
      obtain ⟨a, b, ha, hb, h'⟩ := h.free hg
      obtain ⟨adjust, known', p', v', hp, hv, hend⟩ := ih h' (hcount ▸ hpos)
      refine ⟨adjust, known', p', v', ?_, ?_, by rw [hcount]; exact hend⟩
      · rw [ProverIter.nextGates_free hg, ha]
        exact hp
      · rw [VerifierConsumer.nextGates_free adjust hg, hb]
        exact hv
    · obtain ⟨x, y, z, rfl⟩ := Gate.exists_eq_and (Bool.of_not_eq_false hg)
      obtain ⟨adjust, p₁, v₁, hp, hv, h₁, hgates, hgates'⟩ := h.and
      have hcount : andGates (.and x y z :: gates) = andGates gates + 1 := by
        simp [andGates, List.countP_cons, Gate.isAnd]
      rw [hcount]
      by_cases hmore : 0 < andGates gates
      · refine ⟨adjust, z :: known, p₁, v₁, ?_, ?_, by rwa [hgates], by rw [hgates, hgates'],
          by rw [hgates], fun h0 => ?_⟩
        · rw [hp, if_neg (by rw [h₁.le_counter_iff]; exact not_not.mpr hmore)]
        · rw [hv, if_pos (h₁.wantsAdjust_iff.mpr hmore)]
        · rw [hgates] at h0
          omega
      · -- The last AND gate: both run the free gates behind it.
        have hlast : andGates gates = 0 := by omega
        obtain ⟨known', p', v', hp', hv', h', hnil, hnil'⟩ := h₁.tail hlast
        refine ⟨adjust, known', p', v', ?_, ?_, by rwa [hnil], by rw [hnil, hnil'],
          by rw [hnil, hlast]; rfl, fun _ => hnil⟩
        · rw [hp, if_pos (h₁.le_counter_iff.mpr hmore), hp']
          rfl
        · rw [hv, if_neg (mt h₁.wantsAdjust_iff.mp hmore), hv']

/-- **All adjust bits.** The prover's iterator is exhausted, and the verifier is at the end of the
circuit with it. -/
theorem drain (h : Lockstep job delta result known p.gates p v) (hgates : v.gates = p.gates)
    (hnil : andGates p.gates = 0 → p.gates = []) :
    ∃ bits known' p' v', (∀ fuel, andGates p.gates < fuel → p.drain fuel = some (bits, p')) ∧
      v.feed bits = some v' ∧ Lockstep job delta result known' [] p' v' := by
  induction hm : andGates p.gates generalizing known p v with
  | zero =>
    have hg := hnil hm
    refine ⟨[], known, { p with gates := [] }, v, fun fuel hfuel => ?_, rfl, { hg ▸ h with }⟩
    obtain ⟨fuel, rfl⟩ : ∃ k, fuel = k + 1 := ⟨fuel - 1, by omega⟩
    rw [ProverIter.drain, ProverIter.next, hg]
    rfl
  | succ m ih =>
    obtain ⟨adjust, known₁, p₁, v₁, hp, hv, h₁, hgates₁, hcount, hnil₁⟩ := h.next (by omega)
    obtain ⟨bits, known', p', v', hdrain, hfeed, hend⟩ := ih h₁ hgates₁ hnil₁ (by omega)
    refine ⟨adjust :: bits, known', p', v', fun fuel hfuel => ?_, ?_, hend⟩
    · obtain ⟨fuel, rfl⟩ : ∃ k, fuel = k + 1 := ⟨fuel - 1, by omega⟩
      rw [ProverIter.drain, ProverIter.next, hp]
      simp only [Option.bind_eq_bind, Option.bind_some, hdrain fuel (by omega)]
    · rw [VerifierConsumer.feed, VerifierConsumer.next, hgates, hv]
      exact hfeed

end Lockstep

/-! ### A whole execution -/

/-- Runs an execution: every adjust bit is taken from the iterator, then it is finished. -/
def ProverExecute.run (fuel : ℕ) (self : ProverExecute) :
    Method Shared ProverError (List Bool × List Mac) := do
  let (bits, it) ← .call (.ofOption (self.iter.drain fuel))
  let macs ← (self.afterIter it).finish
  return (bits, macs)

/-- Runs an execution on the adjust bits of the prover, and finishes it. -/
def VerifierExecute.run (bits : List Bool) (self : VerifierExecute) :
    Method Shared VerifierError (List Key) := do
  let consumer ← .call (.ofOption self.consumer)
  let consumer ← .call (.ofOption (consumer.feed bits))
  (self.afterConsumer consumer).finish

theorem ProverExecute.finish_eq (self : ProverExecute) {shared : Shared} {check : Check}
    {macs : List Mac} (hcounter : self.counter = self.andCount)
    (hwrite : shared.check.write self.checkIdx self.triples self.adjust = some check)
    (hslice : slice self.macs self.circ.outputs = some macs) :
    self.finish shared = (.ok macs, ⟨check, shared.clones - 1⟩) := by
  rw [finish, Method.modify_bind, Method.ite_apply, if_neg (not_not.mpr hcounter),
    Method.get_bind]
  simp only [hwrite, hslice, Outcome.ofOption_some, Method.call_ok_bind, Method.modify_bind,
    Method.call_apply]

theorem VerifierExecute.finish_eq (self : VerifierExecute) {shared : Shared} {check : Check}
    {keys : List Key} (hcounter : self.counter = self.andCount)
    (hwrite : shared.check.write self.checkIdx self.triples self.adjust = some check)
    (hslice : slice self.keys self.circ.outputs = some keys) :
    self.finish shared = (.ok keys, ⟨check, shared.clones - 1⟩) := by
  rw [finish, Method.modify_bind, Method.ite_apply, if_neg (by omega), Method.get_bind]
  simp only [hwrite, hslice, Outcome.ofOption_some, Method.call_ok_bind, Method.modify_bind,
    Method.call_apply]

namespace Job

variable (job : Job) (delta : Delta)

/-- The prover's execution of a job, as `Prover::execute` returns it. -/
def proverExecute (checkIdx : ℕ) : ProverExecute where
  circ := job.circ
  macs := job.macs delta
  triples := []
  adjust := []
  gateMasks := job.gateMasks
  gateMacs := job.gateMacs delta
  checkIdx := checkIdx
  counter := 0
  andCount := job.circ.andCount

/-- The verifier's execution of a job, as `Verifier::execute` returns it. -/
def verifierExecute (checkIdx : ℕ) : VerifierExecute where
  circ := job.circ
  delta := delta
  keys := job.keys
  gateKeys := job.gateKeys
  triples := []
  adjust := []
  checkIdx := checkIdx
  counter := 0
  andCount := job.circ.andCount

/-- The executions of a job start in front of the same gates. -/
theorem exists_lockstep (checkIdx : ℕ) :
    ∃ feeds known, copyFrom (List.replicate job.circ.feedCount false) 0 job.bits = some feeds ∧
      Lockstep job delta (evaluateGates feeds job.circ.gates) known job.circ.gates
        (job.proverExecute delta checkIdx).iter
        (job.verifierExecute delta checkIdx).start := by
  have hmacs : (job.macs delta).length = job.circ.inputs.len := by
    simp [macs, job.length_keys, job.length_bits]
  have hR : ∀ (i : ℕ) x m k, job.bits[i]? = some x → (job.macs delta)[i]? = some m →
      job.keys[i]? = some k → Authentic delta x m k := by
    intro i x m k hx hm hk
    simp only [macs, List.getElem?_zipWith, hx, hk, Option.some.injEq] at hm
    exact ⟨job.pointer_keys k (List.mem_of_getElem? hk), hm.symm⟩
  obtain ⟨feeds, a, b, hfeeds, ha, hb, hwalk⟩ :=
    Walk.init job.wellFormed (job.macs delta) job.keys job.length_bits hmacs job.length_keys hR
      (length_resize (job.macs delta) _ default).ge (length_resize job.keys _ default).ge
  rw [copyFrom_resize (by rw [hmacs]; exact job.wellFormed.inputs_le)] at ha
  rw [copyFrom_resize (by rw [job.length_keys]; exact job.wellFormed.inputs_le)] at hb
  obtain rfl := Option.some.inj ha
  obtain rfl := Option.some.inj hb
  exact ⟨feeds, _, hfeeds,
    { delta_v := rfl, gateMasks := rfl, gateMacs := rfl, gateKeys := rfl, andCount_p := rfl
      andCount_v := rfl, counter := rfl
      count := by simpa [ProverExecute.iter] using job.wellFormed.and_count
      length_triples := rfl, triples := rfl, products := fun t ht => absurd ht List.not_mem_nil
      length_adjust := rfl, adjust := rfl, walk := hwalk }⟩

/-- Both sides reach the end of the circuit. -/
theorem exists_end :
    ∃ feeds known bits it consumer consumer',
      copyFrom (List.replicate job.circ.feedCount false) 0 job.bits = some feeds ∧
      (∀ checkIdx fuel, job.circ.andCount < fuel →
        (job.proverExecute delta checkIdx).iter.drain fuel = some (bits, it)) ∧
      (∀ checkIdx, (job.verifierExecute delta checkIdx).consumer = some consumer) ∧
      consumer.feed bits = some consumer' ∧
      Lockstep job delta (evaluateGates feeds job.circ.gates) known [] it consumer' := by
  obtain ⟨feeds, known, hfeeds, h⟩ := job.exists_lockstep delta 0
  have hcount := job.wellFormed.and_count
  by_cases h0 : job.circ.andCount = 0
  · -- The verifier runs the free gates when its consumer is created, the prover when it is drained.
    obtain ⟨known', it, consumer, hp, hv, hend, hnil, hnil'⟩ := h.tail (hcount.trans h0)
    refine ⟨feeds, known', [], it, consumer, consumer, hfeeds, fun checkIdx fuel hfuel => ?_,
      fun _ => (if_pos h0).trans (hv false), rfl, hend⟩
    obtain ⟨fuel, rfl⟩ : ∃ k, fuel = k + 1 := ⟨fuel - 1, by omega⟩
    have hnext : (job.proverExecute delta checkIdx).iter.next = some (none, it) := hp
    rw [ProverIter.drain, hnext]
    rfl
  · have hne : andGates (job.proverExecute delta 0).iter.gates ≠ 0 := fun hz => h0 (hcount ▸ hz)
    obtain ⟨bits, known', it, consumer', hdrain, hfeed, hend⟩ :=
      Lockstep.drain (p := (job.proverExecute delta 0).iter) h rfl fun hz => absurd hz hne
    exact ⟨feeds, known', bits, it, (job.verifierExecute delta 0).start, consumer', hfeeds,
      fun _ fuel hfuel => hdrain fuel (hcount.trans_lt hfuel), fun _ => if_neg h0, hfeed, hend⟩

/-- What both sides obtain from the execution of a job. -/
structure Output (job : Job) where
  /-- The MACs of the AND gates. -/
  triples : List Triple
  /-- The adjust bits that the check absorbs. -/
  adjust : List Bool
  /-- The adjust bits sent. -/
  bits : List Bool
  /-- The outputs of the circuit. -/
  values : List Bool
  /-- The keys of the outputs. -/
  keys : List Key
  length_triples : triples.length = job.circ.andCount
  length_adjust : adjust.length = job.circ.andCount
  products : ∀ t ∈ triples, t.z.lsb = (t.x.lsb && t.y.lsb)
  evaluate : job.circ.evaluate job.bits = .ok values
  length_keys : keys.length = job.circ.outputs.len
  length_values : values.length = job.circ.outputs.len
  pointer_keys : ∀ k ∈ keys, k.pointer = false

/-- The MACs of the outputs. -/
def Output.macs {job : Job} (out : Output job) (delta : Delta) : List Mac :=
  List.zipWith (fun k x => k.auth x delta) out.keys out.values

/-- **Both executions complete.** Whenever there is room at the place an execution has reserved, it
writes its triples there, gives its clone back, and returns the labels of the outputs. -/
theorem exec : ∃ out : Output job,
    (∀ checkIdx fuel shared check, job.circ.andCount < fuel →
      shared.check.write checkIdx out.triples out.adjust = some check →
      (job.proverExecute delta checkIdx).run fuel shared =
        (.ok (out.bits, out.macs delta), ⟨check, shared.clones - 1⟩)) ∧
    (∀ checkIdx shared check,
      shared.check.write checkIdx (out.triples.map (Triple.keys delta)) out.adjust = some check →
      (job.verifierExecute delta checkIdx).run out.bits shared =
        (.ok out.keys, ⟨check, shared.clones - 1⟩)) := by
  obtain ⟨feeds, known, bits, it, consumer, consumer', hfeeds, hdrain, hconsumer, hfeed, hend⟩ :=
    job.exists_end delta
  obtain ⟨values, ms, ks, hvalues, hms, hks, hlv, hlm, hlk, hR⟩ :=
    hend.walk.outputs job.wellFormed.outputs_le
  have hcount : it.counter = job.circ.andCount := by simpa [andGates] using hend.count
  have hmacs : ms = List.zipWith (fun k x => k.auth x delta) ks values := by
    refine List.ext_getElem (by simp [hlm, hlk, hlv]) fun j hj _ => ?_
    obtain ⟨x, m, k, hx, hm, hk, hR⟩ := hR j (hlm ▸ hj)
    rw [List.getElem_zipWith, (List.getElem?_eq_some_iff.mp hx).2,
      (List.getElem?_eq_some_iff.mp hm).2, (List.getElem?_eq_some_iff.mp hk).2]
    exact hR.2
  have hpointer : ∀ k ∈ ks, k.pointer = false := by
    intro k hk
    obtain ⟨j, hj, rfl⟩ := List.mem_iff_getElem.mp hk
    obtain ⟨x, m, k, hx, hm, hk, hR⟩ := hR j (hlk ▸ hj)
    rw [(List.getElem?_eq_some_iff.mp hk).2]
    exact hR.1
  refine ⟨{
    triples := it.triples, adjust := it.adjust, bits, values, keys := ks
    length_triples := hend.length_triples.trans hcount
    length_adjust := hend.length_adjust.trans hcount
    products := hend.products
    evaluate := by rw [Circuit.evaluate_eq job.wellFormed job.length_bits hfeeds, hvalues]; rfl
    length_keys := hlk, length_values := hlv, pointer_keys := hpointer }, ?_, ?_⟩
  · intro checkIdx fuel shared check hfuel hwrite
    have hfinish := ProverExecute.finish_eq ((job.proverExecute delta checkIdx).afterIter it)
      hcount hwrite hms
    rw [ProverExecute.run, hdrain checkIdx fuel hfuel, Outcome.ofOption_some, Method.call_ok_bind]
    exact (Method.bind_apply_of_ok hfinish).trans (by rw [hmacs]; rfl)
  · intro checkIdx shared check hwrite
    have hwrite' : shared.check.write checkIdx consumer'.triples consumer'.adjust = some check := by
      rw [hend.triples, hend.adjust]
      exact hwrite
    change VerifierExecute.run bits (job.verifierExecute delta checkIdx) shared = (.ok ks, _)
    rw [VerifierExecute.run, hconsumer, Outcome.ofOption_some, Method.call_ok_bind, hfeed,
      Outcome.ofOption_some, Method.call_ok_bind]
    exact VerifierExecute.finish_eq ((job.verifierExecute delta checkIdx).afterConsumer consumer')
      (hend.counter.trans hcount) hwrite' hks

end Job

end Mpz.Zk
