import Mpz.Zk.Execution
import Mpz.Zk.Schedule
import Mpz.Zk.Soundness

/-!
# The check is complete

Any number of circuits are executed by both sides in the same order, and finished in any order on
either side. The verifier then holds the keys of the prover's triples, all of them true products,
so the line it computes is the prover's: the check accepts, and leaves both sides with empty
buffers and one transcript.

## Main definitions

* `Zk.proverParty`, `Zk.verifierParty` — the calls of the two sides

## Main results

* `Zk.check_accepts` — the check on related buffers
* `Zk.quicksilver_complete` — executions in any order, and the check behind them
-/

namespace Mpz.Zk

/-- The prover's calls. Running an execution also yields its adjust bits. -/
def proverParty (delta : Delta) (jobs : ℕ → Job) (fuel : ℕ) :
    Party ProverExecute (List Bool × List Mac) where
  execute i shared :=
    match Prover.execute (jobs i).circ ((jobs i).macs delta) (jobs i).gateMasks
      ((jobs i).gateMacs delta) ⟨shared⟩ with
    | (.ok exec, prover) => some (exec, prover.shared)
    | _ => none
  run _ exec shared :=
    match exec.run fuel shared with
    | (.ok o, shared) => some (o, shared)
    | _ => none

/-- The verifier's calls, on the adjust bits of every job. -/
def verifierParty (delta : Delta) (jobs : ℕ → Job) (bits : ℕ → List Bool) :
    Party VerifierExecute (List Key) where
  execute i shared :=
    match Verifier.execute (jobs i).circ (jobs i).keys (jobs i).gateKeys ⟨delta, shared⟩ with
    | (.ok exec, verifier) => some (exec, verifier.shared)
    | _ => none
  run i exec shared :=
    match exec.run (bits i) shared with
    | (.ok o, shared) => some (o, shared)
    | _ => none

/-! ### The check on related buffers -/

theorem checkProver_eq (env : CheckEnv) {choices : List Bool} {ev : List Block}
    (hchoices : choices.length = 128) (hev : ev.length = 128) {p : Prover}
    (hp : p.shared.clones = 0) (t : Transcript) :
    Prover.check env choices ev (p, t) =
      (.ok (p.shared.check.honestUV (chunkSizes segmentSize) env choices ev t),
        (⟨.empty⟩, p.shared.check.absorbed env t ++
          (p.shared.check.honestUV (chunkSizes segmentSize) env choices ev t).u.toBytes ++
          (p.shared.check.honestUV (chunkSizes segmentSize) env choices ev t).v.toBytes)) := by
  rw [Prover.check, Method.get_bind, Method.ite_apply, if_neg (by simp [hp]), Method.zoom_apply,
    Check.checkProver, Check.checkProverIn_eq _ env hchoices hev]
  simp [hp, Shared.empty]

theorem checkVerifier_eq (env : CheckEnv) {keys : List Block} (hkeys : keys.length = 128)
    (uv : UV) {v : Verifier} (hv : v.shared.clones = 0) (t : Transcript)
    (haccept : verifierSum v.delta.block
        (v.shared.check.stateSegments (chunkSizes segmentSize) env t) ^^^ voleSender keys =
      uv.u ^^^ v.delta.block.gfmul uv.v) :
    Verifier.check env keys uv (v, t) =
      (.ok (), (⟨v.delta, .empty⟩, v.shared.check.absorbed env t ++ uv.u.toBytes ++
        uv.v.toBytes)) := by
  rw [Verifier.check, Method.get_bind, Method.ite_apply, if_neg (by simp [hv]), Method.zoom_apply,
    Check.checkVerifier, Check.checkVerifierIn_eq _ env _ hkeys, if_pos haccept]
  simp [hv, Shared.empty]

theorem falseProducts_eq_nil {l : List (Triple × Block)}
    (h : ∀ tc ∈ l, tc.1.z.lsb = (tc.1.x.lsb && tc.1.y.lsb)) : falseProducts l = [] := by
  rw [falseProducts, List.map_eq_nil_iff, List.filter_eq_nil_iff]
  intro tc htc
  simp [h tc htc]

/-- **The check accepts** the honest message on the keys of true products. -/
theorem check_accepts (env : CheckEnv) (delta : Delta) {keys : List Block} {choices : List Bool}
    (hkeys : keys.length = 128) (hchoices : choices.length = 128) (c : Check)
    (hproducts : ∀ t ∈ c.triples, t.z.lsb = (t.x.lsb && t.y.lsb)) (t : Transcript) :
    verifierSum delta.block ((keysOf delta c).stateSegments (chunkSizes segmentSize) env t) ^^^
        voleSender keys =
      (c.honestUV (chunkSizes segmentSize) env choices (evOf delta keys choices) t).u ^^^
        delta.block.gfmul
          (c.honestUV (chunkSizes segmentSize) env choices (evOf delta keys choices) t).v := by
  have hnil : falseProducts (c.stateSegments (chunkSizes segmentSize) env t).flatten = [] := by
    refine falseProducts_eq_nil fun tc htc => hproducts tc.1 ?_
    have hfst := flatten_segments env (chunkSizes segmentSize c.triples.length)
      (env.finalize (c.absorbed env t)) (sum_chunkSizes segmentSize c.triples.length).ge
    rw [← hfst]
    exact List.mem_map_of_mem htc
  rw [← Block.toGf_inj, toGf_verifier _ env delta c t hkeys hchoices, hnil, Block.toGf_xor,
    Block.toGf_gfmul, List.map_nil, List.sum_nil, mul_zero, add_zero]

/-! ### Both sides follow a plan -/

section Plans

variable (delta : Delta) (jobs : ℕ → Job) (out : ∀ i, (jobs i).Output)

theorem execute_prover (job : Job) (shared : Shared) :
    Prover.execute job.circ (job.macs delta) job.gateMasks (job.gateMacs delta) ⟨shared⟩ =
      (.ok (job.proverExecute delta shared.check.triples.length),
        ⟨(shared.reserve job.circ.andCount).2⟩) := by
  have hmacs : (job.macs delta).length = job.circ.inputs.len := by
    simp [Job.macs, job.length_keys, job.length_bits]
  have hgate : (job.gateMacs delta).length = job.circ.andCount := by
    simp [Job.gateMacs, job.length_gateKeys, job.length_gateMasks]
  rw [Prover.execute, if_neg (not_not.mpr hmacs), if_neg (not_not.mpr job.length_gateMasks),
    if_neg (not_not.mpr hgate)]
  rfl

theorem execute_verifier (job : Job) (shared : Shared) :
    Verifier.execute job.circ job.keys job.gateKeys ⟨delta, shared⟩ =
      (.ok (job.verifierExecute delta shared.check.triples.length),
        ⟨delta, (shared.reserve job.circ.andCount).2⟩) := by
  rw [Verifier.execute, if_neg (not_not.mpr job.length_keys),
    if_neg (not_not.mpr job.length_gateKeys)]
  rfl

/-- The prover's executions. -/
def proverPlan : Plan ProverExecute (List Bool × List Mac) where
  size i := (jobs i).circ.andCount
  exec i := (jobs i).proverExecute delta
  triples i := (out i).triples
  adjust i := (out i).adjust
  output i := ((out i).bits, (out i).macs delta)

/-- The verifier's executions: the keys of the prover's triples, and the same adjust bits. -/
def verifierPlan : Plan VerifierExecute (List Key) where
  size i := (jobs i).circ.andCount
  exec i := (jobs i).verifierExecute delta
  triples i := (out i).triples.map (Triple.keys delta)
  adjust i := (out i).adjust
  output i := (out i).keys

variable {delta jobs out}

/-- Where the first `n` places hold what the two plans write, the verifier's buffer is that of the
prover's keys, and every triple is a true product. -/
theorem keysOf_of_holds {n : ℕ} {cp cv : Check}
    (hp : ∀ i < n, cp.Holds (proverPlan delta jobs out) i)
    (hv : ∀ i < n, cv.Holds (verifierPlan delta jobs out) i)
    (hlp : cp.triples.length = offset (proverPlan delta jobs out).size n)
    (hlap : cp.adjust.length = offset (proverPlan delta jobs out).size n)
    (hlv : cv.triples.length = offset (verifierPlan delta jobs out).size n)
    (hlav : cv.adjust.length = offset (verifierPlan delta jobs out).size n) :
    cv = keysOf delta cp ∧ ∀ t ∈ cp.triples, t.z.lsb = (t.x.lsb && t.y.lsb) := by
  have hsize : (verifierPlan delta jobs out).size = (proverPlan delta jobs out).size := rfl
  rw [hsize] at hlv hlav
  have htriples : cv.triples = cp.triples.map (Triple.keys delta) := by
    refine List.ext_getElem? fun k => ?_
    by_cases hk : k < offset (proverPlan delta jobs out).size n
    · obtain ⟨i, hi, j, hj, rfl⟩ := exists_offset _ hk
      rw [List.getElem?_map, (hp i hi j hj).1]
      refine (hv i hi j hj).1.trans ?_
      simp only [verifierPlan, proverPlan, List.getElem?_map]
    · rw [List.getElem?_eq_none (by omega), List.getElem?_eq_none (by simp; omega)]
  have hadjust : cv.adjust = cp.adjust := by
    refine List.ext_getElem? fun k => ?_
    by_cases hk : k < offset (proverPlan delta jobs out).size n
    · obtain ⟨i, hi, j, hj, rfl⟩ := exists_offset _ hk
      exact (hv i hi j hj).2.trans (hp i hi j hj).2.symm
    · rw [List.getElem?_eq_none (by omega), List.getElem?_eq_none (by omega)]
  refine ⟨by rw [keysOf, ← htriples, ← hadjust], fun t ht => ?_⟩
  obtain ⟨k, hk, rfl⟩ := List.mem_iff_getElem.mp ht
  obtain ⟨i, hi, j, hj, rfl⟩ := exists_offset (proverPlan delta jobs out).size (hlp ▸ hk)
  have hmem := (hp i hi j hj).1
  rw [List.getElem?_eq_getElem hk] at hmem
  exact (out i).products _ (List.mem_of_getElem? hmem.symm)

end Plans

/-- **QuickSilver is complete.** Circuits executed in one order and finished in any order on
either side, with the adjust bits of the prover fed to the verifier: every execution completes with
authenticated outputs, and the check that follows accepts and leaves no pending gates and equal
transcripts. -/
theorem quicksilver_complete (env : CheckEnv) (delta : Delta) (jobs : ℕ → Job) {n fuel : ℕ}
    (hfuel : ∀ i < n, (jobs i).circ.andCount < fuel) {esP esV : List Event}
    (hP : Schedule n 0 [] esP) (hV : Schedule n 0 [] esV) {keys : List Block}
    {choices : List Bool} (hkeys : keys.length = 128) (hchoices : choices.length = 128)
    (t : Transcript) :
    ∃ bits sp sv, (proverParty delta jobs fuel).events .new esP = some sp ∧
      (verifierParty delta jobs bits).events .new esV = some sv ∧
      (∀ i < n, ∃ values ms ks, (jobs i).circ.evaluate (jobs i).bits = .ok values ∧
        sp.outputs.lookup i = some (bits i, ms) ∧ sv.outputs.lookup i = some ks ∧
        ks.length = values.length ∧ ms = List.zipWith (fun k x => k.auth x delta) ks values ∧
        (∀ k ∈ ks, k.pointer = false) ∧ ms.map Mac.pointer = values) ∧
      ∃ uv p' v' t',
        Prover.check env choices (evOf delta keys choices) (⟨sp.shared⟩, t) = (.ok uv, (p', t')) ∧
        Verifier.check env keys uv (⟨delta, sv.shared⟩, t) = (.ok (), (v', t')) ∧
        p'.pending = 0 ∧ v'.pending = 0 := by
  choose out hprover hverifier using fun i => (jobs i).exec delta
  have hPfollows : (proverParty delta jobs fuel).Follows (proverPlan delta jobs out) n :=
    { length_triples := fun i _ => (out i).length_triples
      length_adjust := fun i _ => (out i).length_adjust
      execute := fun i _ shared => by
        simp only [proverParty, execute_prover]
        rfl
      run := fun i hi checkIdx shared check hwrite => by
        have hrun := hprover i checkIdx fuel shared check (hfuel i hi) hwrite
        simp only [proverParty, proverPlan, hrun] }
  have hVfollows : (verifierParty delta jobs fun i => (out i).bits).Follows
      (verifierPlan delta jobs out) n :=
    { length_triples := fun i _ => by
        simp only [verifierPlan, List.length_map, (out i).length_triples]
      length_adjust := fun i _ => (out i).length_adjust
      execute := fun i _ shared => by
        simp only [verifierParty, execute_verifier]
        rfl
      run := fun i hi checkIdx shared check hwrite => by
        have hrun := hverifier i checkIdx shared check hwrite
        simp only [verifierParty, verifierPlan, hrun] }
  obtain ⟨sp, hsp, hip⟩ := Party.events_of_schedule hPfollows hP (Side.Inv.new _) (Nat.zero_le n)
  obtain ⟨sv, hsv, hiv⟩ := Party.events_of_schedule hVfollows hV (Side.Inv.new _) (Nat.zero_le n)
  obtain ⟨hkeysOf, hproducts⟩ := keysOf_of_holds
    (fun i hi => hip.holds i hi List.not_mem_nil) (fun i hi => hiv.holds i hi List.not_mem_nil)
    hip.length_triples hip.length_adjust hiv.length_triples hiv.length_adjust
  refine ⟨fun i => (out i).bits, sp, sv, hsp, hsv, fun i hi => ?_, ?_⟩
  · refine ⟨(out i).values, (out i).macs delta, (out i).keys, (out i).evaluate,
      hip.outputs i hi List.not_mem_nil, hiv.outputs i hi List.not_mem_nil,
      (out i).length_keys.trans (out i).length_values.symm, rfl, (out i).pointer_keys, ?_⟩
    refine List.ext_getElem (by simp [Job.Output.macs, (out i).length_keys,
      (out i).length_values]) fun j hj _ => ?_
    have hk := (out i).pointer_keys _ (List.getElem_mem (by
      rw [(out i).length_keys, ← (out i).length_values]; assumption : j < (out i).keys.length))
    simp [Job.Output.macs, Key.pointer_auth, hk]
  · have hev : (evOf delta keys choices).length = 128 := by simp [evOf, hkeys, hchoices]
    have haccept := check_accepts env delta hkeys hchoices sp.shared.check hproducts t
    have habs : sv.shared.check.absorbed env t = sp.shared.check.absorbed env t := by
      rw [hkeysOf]
      rfl
    refine ⟨_, ⟨.empty⟩, ⟨delta, .empty⟩, _, checkProver_eq env hchoices hev hip.clones t, ?_,
      rfl, rfl⟩
    rw [checkVerifier_eq env hkeys _ hiv.clones t (hkeysOf ▸ haccept), habs]

/-- A job on one AND gate and a free gate behind it. -/
def nandJob (x y : Bool) : Job where
  circ := nandCircuit
  bits := [x, y]
  keys := [⟨2#128⟩, ⟨4#128⟩]
  gateMasks := [true]
  gateKeys := [⟨6#128⟩]
  wellFormed := nandCircuit_wellFormed
  length_bits := rfl
  length_keys := rfl
  pointer_keys := by decide
  length_gateMasks := List.length_singleton
  length_gateKeys := rfl

/-- Two jobs: the prover starts both and finishes the second first, the verifier goes one by one. -/
theorem quicksilver_complete_nand :
    ∃ bits sp sv,
      (proverParty (.new 8#128) (fun _ => nandJob true false) 2).events .new
        [.execute, .execute, .finish 1, .finish 0] = some sp ∧
      (verifierParty (.new 8#128) (fun _ => nandJob true false) bits).events .new
        [.execute, .finish 0, .execute, .finish 1] = some sv ∧
      (∀ i < 2, ∃ values ms ks, (nandJob true false).circ.evaluate (nandJob true false).bits =
          .ok values ∧
        sp.outputs.lookup i = some (bits i, ms) ∧ sv.outputs.lookup i = some ks ∧
        ks.length = values.length ∧
        ms = List.zipWith (fun k x => k.auth x (.new 8#128)) ks values ∧
        (∀ k ∈ ks, k.pointer = false) ∧ ms.map Mac.pointer = values) ∧
      ∃ uv p' v' t',
        Prover.check countingEnv (List.replicate 128 true)
          (evOf (.new 8#128) (List.replicate 128 5#128) (List.replicate 128 true))
          (⟨sp.shared⟩, []) = (.ok uv, (p', t')) ∧
        Verifier.check countingEnv (List.replicate 128 5#128) uv (⟨.new 8#128, sv.shared⟩, []) =
          (.ok (), (v', t')) ∧
        p'.pending = 0 ∧ v'.pending = 0 :=
  quicksilver_complete countingEnv (.new 8#128) (fun _ => nandJob true false)
    (n := 2) (fun _ _ => by decide) (by decide) (by decide) List.length_replicate
    List.length_replicate []

end Mpz.Zk
