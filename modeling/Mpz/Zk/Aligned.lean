import Mpz.Zk.Rerun
import Mpz.Zk.Schedule
import Mpz.Zk.Soundness

/-!
# Triples and their adjust bits

The check keeps its gates in two buffers, one of triples and one of adjust bits. `Gates` is the one
buffer that both stand for: every gate has its triple and its bit, and a check consumes the gates it
was given, whatever it returns.

A check that is given a wrong number of correlations returns after it has cleared the triples and
before it clears the adjust bits. As long as this does not happen while gates are pending, the two
buffers are the two columns of `Gates`.

Executions write places that they reserve when they start, so the buffers in front of a check do not
depend on the order in which the executions were finished.

## Main definitions

* `Zk.Gates` — the gates to check, with what every call does to them
* `Zk.Serves` — the two buffers are its columns, behind every call
* `Zk.CountedThrough` — the checks with pending gates are given 128 correlations

## Main results

* `Zk.serves_iff` — this is when the buffers stay the columns of one
* `Zk.Side.Inv.shared_eq` — the check behind any schedule
* `Zk.check_aligned` — both
-/

namespace Mpz.Zk

/-- A call on the check. -/
inductive Call where
  /-- `reserve` -/
  | reserve (n : ℕ)
  /-- `write` -/
  | write (idx : ℕ) (triples : List Triple) (adjust : List Bool)
  /-- `check_prover` -/
  | checkProver (svoleChoices : List Bool) (svoleEv : List Block)
  /-- `check_verifier` -/
  | checkVerifier (delta : Block) (svoleKeys : List Block) (uv : UV)
  deriving DecidableEq, Repr

/-- What a call returns. -/
inductive Reply where
  /-- The starting index. -/
  | reserved (idx : ℕ)
  /-- Nothing. -/
  | written
  /-- The message of the prover. -/
  | proved (o : Outcome CheckError UV)
  /-- The verdict of the verifier. -/
  | verified (o : Outcome CheckError Unit)
  deriving DecidableEq, Repr

/-- One call, on the check and the transcript. A write that panics has no reply. -/
def Check.call (env : CheckEnv) (s : Check × Transcript) :
    Call → Option (Reply × Check × Transcript)
  | .reserve n => some (.reserved (s.1.reserve n).1, (s.1.reserve n).2, s.2)
  | .write idx triples adjust => do
    let check ← s.1.write idx triples adjust
    some (.written, check, s.2)
  | .checkProver choices ev =>
    let (o, s) := Check.checkProver env choices ev s
    some (.proved o, s)
  | .checkVerifier delta keys uv =>
    let (o, s) := Check.checkVerifier env delta keys uv s
    some (.verified o, s)

/-! ### The gates -/

/-- The gates to check, each with its adjust bit. -/
abbrev Gates := List (Triple × Bool)

namespace Gates

/-- The two columns. -/
def check (self : Gates) : Check := ⟨self.map Prod.fst, self.map Prod.snd⟩

/-- The transcript, behind the adjust bits of the gates. -/
def absorb (env : CheckEnv) (self : Gates) (t : Transcript) : Transcript :=
  t ++ (env.rawBytes (self.map Prod.snd)).take ((self.length + 7) / 8)

/-- The triples of the gates, with their coefficients. -/
def terms (env : CheckEnv) (self : Gates) (t : Transcript) : List (List (Triple × Block)) :=
  segments env (chunkSizes segmentSize self.length) (env.finalize (self.absorb env t))
    (self.map Prod.fst)

/-- The message of the prover. -/
def message (env : CheckEnv) (self : Gates) (t : Transcript) (choices : List Bool)
    (ev : List Block) : UV where
  u := (proverSum (self.terms env t)).1 ^^^ (voleReceiver choices ev).1
  v := (proverSum (self.terms env t)).2 ^^^ (voleReceiver choices ev).2

/-- Whether the message of the prover lies on the line of the verifier. -/
def Valid (env : CheckEnv) (self : Gates) (t : Transcript) (delta : Block) (keys : List Block)
    (uv : UV) : Prop :=
  verifierSum delta (self.terms env t) ^^^ voleSender keys = uv.u ^^^ delta.gfmul uv.v

instance (env : CheckEnv) (self : Gates) (t : Transcript) (delta : Block) (keys : List Block)
    (uv : UV) : Decidable (self.Valid env t delta keys uv) :=
  inferInstanceAs (Decidable (_ = _))

/-- One call. A check consumes the gates, and absorbs their adjust bits. -/
def call (env : CheckEnv) (g : Gates × Transcript) : Call → Option (Reply × Gates × Transcript)
  | .reserve n => some (.reserved g.1.length, resize g.1 (g.1.length + n) (default, false), g.2)
  | .write idx triples adjust => do
    let gates ←
      if adjust.length = triples.length then copyFrom g.1 idx (triples.zip adjust) else none
    some (.written, gates, g.2)
  | .checkProver choices ev =>
    let t := g.1.absorb env g.2
    if choices.length = 128 ∧ ev.length = 128 then
      let uv := g.1.message env g.2 choices ev
      some (.proved (.ok uv), [], t ++ uv.u.toBytes ++ uv.v.toBytes)
    else some (.proved (.err .sVole), [], t)
  | .checkVerifier delta keys uv =>
    let t := g.1.absorb env g.2
    if keys.length = 128 then
      some (.verified (if g.1.Valid env g.2 delta keys uv then .ok () else .err .invalid), [],
        t ++ uv.u.toBytes ++ uv.v.toBytes)
    else some (.verified (.err .sVole), [], t)

end Gates

/-- **The buffers are the columns of the gates**, in every state that the calls go through, and
every call returns the same and leaves the same transcript. -/
def Serves (env : CheckEnv) : Check × Transcript → Gates × Transcript → List Call → Prop
  | s, g, [] => s = (g.1.check, g.2)
  | s, g, c :: cs => s = (g.1.check, g.2) ∧
    match Check.call env s c, Gates.call env g c with
    | some (r, s'), some (r', g') => r = r' ∧ Serves env s' g' cs
    | none, none => True
    | _, _ => False

/-- A check is given 128 correlations, or finds no gates. -/
def Call.Counted (check : Check) : Call → Prop
  | .reserve _ => True
  | .write _ _ _ => True
  | .checkProver choices ev => choices.length = 128 ∧ ev.length = 128 ∨ check.total = 0
  | .checkVerifier _ keys _ => keys.length = 128 ∨ check.total = 0

/-- All checks that the calls go through are. -/
def CountedThrough (env : CheckEnv) : Check × Transcript → List Call → Prop
  | _, [] => True
  | s, c :: cs => c.Counted s.1 ∧ ∀ r s', Check.call env s c = some (r, s') →
      CountedThrough env s' cs

/-! ### One call -/

section Calls

variable (env : CheckEnv) (gates : Gates) (t : Transcript)

theorem map_resize {α β : Type} (f : α → β) (l : List α) (n : ℕ) (a : α) :
    (resize l n a).map f = resize (l.map f) n (f a) := by
  simp [resize, List.map_take]

theorem map_copyFrom {α β : Type} (f : α → β) (l : List α) (start : ℕ) (src : List α) :
    (copyFrom l start src).map (List.map f) = copyFrom (l.map f) start (src.map f) := by
  by_cases h : start + src.length ≤ l.length
  · rw [copyFrom_of_le h, copyFrom_of_le (by simpa using h)]
    simp [List.map_take, List.map_drop]
  · rw [copyFrom, if_neg h, copyFrom, if_neg (by simpa using h)]
    rfl

theorem Gates.length_adjust : gates.check.adjust.length = gates.length := List.length_map _

theorem Gates.absorbed_check : gates.check.absorbed env t = gates.absorb env t := by
  rw [Check.absorbed, Check.adjustBytes, gates.length_adjust]
  rfl

theorem Gates.stateSegments_check :
    gates.check.stateSegments (chunkSizes segmentSize) env t = gates.terms env t := by
  rw [Check.stateSegments, gates.absorbed_check, Gates.terms]
  simp [Gates.check]

theorem Gates.honestUV_check (choices : List Bool) (ev : List Block) :
    gates.check.honestUV (chunkSizes segmentSize) env choices ev t =
      gates.message env t choices ev := by
  rw [Check.honestUV, gates.stateSegments_check]
  rfl

theorem Gates.reserve_check (n : ℕ) : gates.check.reserve n =
    (gates.length, check (resize gates (gates.length + n) (default, false))) := by
  simp [Check.reserve, check, map_resize]

theorem Gates.write_check (idx : ℕ) {triples : List Triple} {adjust : List Bool}
    (hlen : adjust.length = triples.length) :
    gates.check.write idx triples adjust =
      (copyFrom gates idx (triples.zip adjust)).map check := by
  have hfst := map_copyFrom Prod.fst gates idx (triples.zip adjust)
  have hsnd := map_copyFrom Prod.snd gates idx (triples.zip adjust)
  rw [List.map_fst_zip hlen.ge] at hfst
  rw [List.map_snd_zip hlen.le] at hsnd
  rw [Check.write, if_pos hlen]
  simp only [check, ← hfst, ← hsnd]
  cases copyFrom gates idx (triples.zip adjust) <;> rfl

/-- What the prover's check does with a wrong number of correlations. -/
theorem checkProver_of_ne {choices : List Bool} {ev : List Block}
    (h : ¬ (choices.length = 128 ∧ ev.length = 128)) (c : Check) :
    Check.checkProver env choices ev (c, t) =
      (.err .sVole, ⟨[], c.adjust⟩, c.absorbed env t) := by
  simp only [Check.checkProver, Check.checkProverIn, Method.modify_bind, Method.get_bind,
    Check.array128]
  by_cases hchoices : choices.length = 128
  · simp only [if_pos hchoices, if_neg (fun hev => h ⟨hchoices, hev⟩), Method.pure_bind',
      Method.throw_bind]
    rfl
  · simp only [if_neg hchoices, Method.throw_bind]
    rfl

/-- What the verifier's check does with a wrong number of correlations. -/
theorem checkVerifier_of_ne (delta : Block) {keys : List Block} (h : keys.length ≠ 128) (uv : UV)
    (c : Check) :
    Check.checkVerifier env delta keys uv (c, t) =
      (.err .sVole, ⟨[], c.adjust⟩, c.absorbed env t) := by
  simp only [Check.checkVerifier, Check.checkVerifierIn, Method.modify_bind, Method.get_bind,
    Check.array128, if_neg h, Method.throw_bind]
  rfl

theorem Gates.total_check : gates.check.total = gates.length := by
  simp [Check.total, check]

/-- **A counted call** does to the columns what it does to the gates. -/
theorem call_of_counted {c : Call} (hc : c.Counted gates.check) :
    Check.call env (gates.check, t) c =
      (Gates.call env (gates, t) c).map fun o => (o.1, o.2.1.check, o.2.2) := by
  cases c with
  | reserve n => simp only [Check.call, gates.reserve_check, Gates.call, Option.map_some]
  | write idx triples adjust =>
    simp only [Check.call, Gates.call]
    by_cases hlen : adjust.length = triples.length
    · rw [gates.write_check idx hlen, if_pos hlen]
      cases copyFrom gates idx (triples.zip adjust) <;> rfl
    · rw [Check.write, if_neg hlen, if_neg hlen]
      rfl
  | checkProver choices ev =>
    simp only [Check.call, Gates.call]
    by_cases hlen : choices.length = 128 ∧ ev.length = 128
    · rw [Check.checkProver, Check.checkProverIn_eq _ env hlen.1 hlen.2, if_pos hlen,
        gates.honestUV_check, gates.absorbed_check]
      rfl
    · have hnil : gates = [] := by
        have := hc.resolve_left hlen
        rwa [gates.total_check, List.length_eq_zero_iff] at this
      rw [checkProver_of_ne env t hlen, if_neg hlen, gates.absorbed_check, hnil]
      rfl
  | checkVerifier delta keys uv =>
    simp only [Check.call, Gates.call]
    by_cases hlen : keys.length = 128
    · rw [Check.checkVerifier, Check.checkVerifierIn_eq _ env _ hlen, if_pos hlen,
        gates.stateSegments_check, gates.absorbed_check]
      rfl
    · have hnil : gates = [] := by
        have := hc.resolve_left hlen
        rwa [gates.total_check, List.length_eq_zero_iff] at this
      rw [checkVerifier_of_ne env t _ hlen, if_neg hlen, gates.absorbed_check, hnil]
      rfl

/-- **A call that is not counted** leaves adjust bits without triples. -/
theorem call_of_not_counted {c : Call} (hc : ¬ c.Counted gates.check) :
    ∃ r t', Check.call env (gates.check, t) c = some (r, ⟨[], gates.check.adjust⟩, t') ∧
      gates.check.adjust ≠ [] := by
  have hne : gates.check.total ≠ 0 → gates.check.adjust ≠ [] := by
    rw [gates.total_check]
    intro h hnil
    rw [← gates.length_adjust, hnil] at h
    exact h rfl
  cases c with
  | reserve n => exact absurd trivial hc
  | write idx triples adjust => exact absurd trivial hc
  | checkProver choices ev =>
    obtain ⟨hlen, htotal⟩ := not_or.mp hc
    refine ⟨.proved (.err .sVole), gates.check.absorbed env t, ?_, hne htotal⟩
    simp only [Check.call, checkProver_of_ne env t hlen]
  | checkVerifier delta keys uv =>
    obtain ⟨hlen, htotal⟩ := not_or.mp hc
    refine ⟨.verified (.err .sVole), gates.check.absorbed env t, ?_, hne htotal⟩
    simp only [Check.call, checkVerifier_of_ne env t _ hlen]

end Calls

/-- The state behind served calls is the columns of the gates. -/
theorem Serves.eq {env : CheckEnv} {s : Check × Transcript} {g : Gates × Transcript}
    {cs : List Call} (h : Serves env s g cs) : s = (g.1.check, g.2) := by
  cases cs with
  | nil => exact h
  | cons c cs => exact h.1

/-- **Any number of calls.** -/
theorem serves_iff (env : CheckEnv) (gates : Gates) (t : Transcript) (cs : List Call) :
    Serves env (gates.check, t) (gates, t) cs ↔ CountedThrough env (gates.check, t) cs := by
  induction cs generalizing gates t with
  | nil => exact ⟨fun _ => trivial, fun _ => rfl⟩
  | cons c cs ih =>
    by_cases hc : c.Counted gates.check
    · have hcall := call_of_counted env gates t hc
      rw [Serves, CountedThrough, hcall]
      cases hg : Gates.call env (gates, t) c with
      | none => simp [hc]
      | some o =>
        obtain ⟨r, gates', t'⟩ := o
        simp only [Option.map_some, true_and, hc, ih gates' t']
        constructor
        · rintro h r' s' hs
          cases hs
          exact h
        · exact fun h => h _ _ rfl
    · obtain ⟨r, t', hcall, hne⟩ := call_of_not_counted env gates t hc
      rw [Serves, CountedThrough, hcall]
      refine ⟨fun h => ?_, fun h => absurd h.1 hc⟩
      cases hg : Gates.call env (gates, t) c with
      | none => simp [hg] at h
      | some o =>
        obtain ⟨r', gates', t''⟩ := o
        simp only [hg, true_and] at h
        have heq := (Prod.mk.inj h.2.eq).1
        have hnil : gates' = [] := by
          have htriples := congrArg Check.triples heq
          exact List.map_eq_nil_iff.mp htriples.symm
        have hadjust := congrArg Check.adjust heq
        rw [hnil] at hadjust
        exact absurd hadjust hne

/-! ### The order of the executions -/

/-- An order in which `n` executions are started, one after the other, and finished. -/
structure Order (n : ℕ) where
  /-- The calls. -/
  events : List Event
  schedule : Schedule n 0 [] events

/-- What the places hold determines the check. -/
theorem Side.Inv.shared_eq {X O : Type} {plan : Plan X O} {n : ℕ} {s s' : Side X O}
    (h : s.Inv plan n []) (h' : s'.Inv plan n []) : s.shared = s'.shared := by
  have htriples : s.shared.check.triples = s'.shared.check.triples := by
    refine List.ext_getElem? fun k => ?_
    by_cases hk : k < offset plan.size n
    · obtain ⟨i, hi, j, hj, rfl⟩ := exists_offset _ hk
      exact (h.holds i hi List.not_mem_nil j hj).1.trans
        (h'.holds i hi List.not_mem_nil j hj).1.symm
    · rw [List.getElem?_eq_none (by rw [h.length_triples]; omega),
        List.getElem?_eq_none (by rw [h'.length_triples]; omega)]
  have hadjust : s.shared.check.adjust = s'.shared.check.adjust := by
    refine List.ext_getElem? fun k => ?_
    by_cases hk : k < offset plan.size n
    · obtain ⟨i, hi, j, hj, rfl⟩ := exists_offset _ hk
      exact (h.holds i hi List.not_mem_nil j hj).2.trans
        (h'.holds i hi List.not_mem_nil j hj).2.symm
    · rw [List.getElem?_eq_none (by rw [h.length_adjust]; omega),
        List.getElem?_eq_none (by rw [h'.length_adjust]; omega)]
  have hclones : s.shared.clones = s'.shared.clones := h.clones.trans h'.clones.symm
  obtain ⟨⟨⟨triples, adjust⟩, clones⟩, started, active, outputs⟩ := s
  obtain ⟨⟨⟨triples', adjust'⟩, clones'⟩, started', active', outputs'⟩ := s'
  obtain rfl : triples = triples' := htriples
  obtain rfl : adjust = adjust' := hadjust
  obtain rfl : clones = clones' := hclones
  rfl

/-- Two orders of one plan: all calls succeed, and leave the same check. -/
theorem Party.Follows.orders {X O : Type} {P : Party X O} {plan : Plan X O} {n : ℕ}
    (hP : P.Follows plan n) (o o' : Order n) :
    ∃ s s', P.events .new o.events = some s ∧ P.events .new o'.events = some s' ∧
      s.shared = s'.shared := by
  obtain ⟨s, hs, h⟩ := P.events_of_schedule hP o.schedule (Side.Inv.new plan) (Nat.zero_le n)
  obtain ⟨s', hs', h'⟩ := P.events_of_schedule hP o'.schedule (Side.Inv.new plan) (Nat.zero_le n)
  exact ⟨s, s', hs, hs', h.shared_eq h'⟩

/-- The prover's calls on arbitrary inputs: every execution is drained and finished. -/
def proverCalls (inputs : ℕ → ProverInputs) : Party ProverExecute (List Bool × List Mac) where
  execute i shared :=
    match Prover.execute (inputs i).circ (inputs i).macs (inputs i).gateMasks
      (inputs i).gateMacs ⟨shared⟩ with
    | (.ok exec, prover) => some (exec, prover.shared)
    | _ => none
  run i exec shared :=
    match exec.run ((inputs i).circ.andCount + 1) shared with
    | (.ok o, shared) => some (o, shared)
    | _ => none

/-- The inputs of the verifier's execution, with the adjust bits it is fed. -/
structure VerifierFeed extends VerifierInputs where
  /-- The adjust bits. -/
  bits : List Bool
  length_bits : bits.length = circ.andCount

/-- The verifier's calls on arbitrary inputs: every execution is fed its bits and finished. -/
def verifierCalls (delta : Delta) (inputs : ℕ → VerifierFeed) :
    Party VerifierExecute (List Key) where
  execute i shared :=
    match Verifier.execute (inputs i).circ (inputs i).keys (inputs i).gateKeys ⟨delta, shared⟩ with
    | (.ok exec, verifier) => some (exec, verifier.shared)
    | _ => none
  run i exec shared :=
    match exec.run (inputs i).bits shared with
    | (.ok o, shared) => some (o, shared)
    | _ => none

/-- What an execution of the prover writes and returns, wherever its place is. -/
theorem ProverInputs.exists_run (inputs : ProverInputs) :
    ∃ triples bits macs, triples.length = inputs.circ.andCount ∧
      bits.length = inputs.circ.andCount ∧
      ∀ checkIdx shared check, shared.check.write checkIdx triples bits = some check →
        (inputs.execution checkIdx).run (inputs.circ.andCount + 1) shared =
          (.ok (bits, macs), ⟨check, shared.clones - 1⟩) := by
  obtain ⟨bits, it, triples, macs, hdrain, hts, hbits, hlt, hlb, hslice, -⟩ :=
    (inputs.between 0).run inputs.wellFormed
  refine ⟨triples, bits, macs, hlt, hlb, fun checkIdx shared check hwrite => ?_⟩
  obtain ⟨bits', it', triples', macs', hdrain', -, -, -, -, hslice', hrun⟩ :=
    (inputs.between checkIdx).run inputs.wellFormed
  -- The iterator does not depend on the place.
  obtain ⟨rfl, rfl⟩ := Prod.mk.inj (Option.some.inj (hdrain.symm.trans hdrain'))
  obtain rfl := Option.some.inj (hslice.symm.trans hslice')
  refine (hrun shared).1 check ?_
  rw [hts, hbits]
  exact hwrite

theorem VerifierFeed.exists_run (delta : Delta) (inputs : VerifierFeed) :
    ∃ triples keys, triples.length = inputs.circ.andCount ∧
      ∀ checkIdx shared check, shared.check.write checkIdx triples inputs.bits = some check →
        (inputs.execution delta checkIdx).run inputs.bits shared =
          (.ok keys, ⟨check, shared.clones - 1⟩) := by
  obtain ⟨c, c', triples, keys, hconsumer, hfeed, hts, hbits, hlt, hslice, -⟩ :=
    (inputs.between delta 0).run inputs.wellFormed inputs.length_bits
  refine ⟨triples, keys, hlt, fun checkIdx shared check hwrite => ?_⟩
  obtain ⟨d, d', triples', keys', hconsumer', hfeed', -, -, -, hslice', hrun⟩ :=
    (inputs.between delta checkIdx).run inputs.wellFormed inputs.length_bits
  -- The consumer does not depend on the place.
  obtain rfl := Option.some.inj (hconsumer.symm.trans hconsumer')
  obtain rfl := Option.some.inj (hfeed.symm.trans hfeed')
  obtain rfl := Option.some.inj (hslice.symm.trans hslice')
  refine (hrun shared).1 check ?_
  rw [hts, hbits]
  exact hwrite

theorem proverCalls_follows (inputs : ℕ → ProverInputs) (n : ℕ) :
    ∃ plan, (proverCalls inputs).Follows plan n := by
  choose triples bits macs hlt hlb hrun using fun i => (inputs i).exists_run
  exact ⟨⟨fun i => (inputs i).circ.andCount, fun i => (inputs i).execution, triples, bits,
      fun i => (bits i, macs i)⟩,
    { length_triples := fun i _ => hlt i
      length_adjust := fun i _ => hlb i
      execute := fun i _ shared => by
        simp only [proverCalls, (inputs i).execute_eq ⟨shared⟩]
      run := fun i _ checkIdx shared check hwrite => by
        simp only [proverCalls, hrun i checkIdx shared check hwrite] }⟩

theorem verifierCalls_follows (delta : Delta) (inputs : ℕ → VerifierFeed) (n : ℕ) :
    ∃ plan, (verifierCalls delta inputs).Follows plan n := by
  choose triples keys hlt hrun using fun i => (inputs i).exists_run delta
  exact ⟨⟨fun i => (inputs i).circ.andCount, fun i => (inputs i).execution delta, triples,
      fun i => (inputs i).bits, keys⟩,
    { length_triples := fun i _ => hlt i
      length_adjust := fun i _ => (inputs i).length_bits
      execute := fun i _ shared => by
        simp only [verifierCalls, (inputs i).execute_eq ⟨delta, shared⟩]
      run := fun i _ checkIdx shared check hwrite => by
        simp only [verifierCalls, hrun i checkIdx shared check hwrite] }⟩

/-- **The buffers of the check stay aligned** exactly when every check with pending gates is given
128 correlations: then every check absorbs the adjust bits of the gates it checks. And whatever the
orders in which executions are finished, on either side, the check that follows returns the same and
leaves the same state and transcript. -/
theorem check_aligned (env : CheckEnv) :
    (∀ t cs, Serves env (.empty, t) ([], t) cs ↔ CountedThrough env (.empty, t) cs) ∧
    (∀ (inputs : ℕ → ProverInputs) (n : ℕ) (o o' : Order n), ∃ s s',
      (proverCalls inputs).events .new o.events = some s ∧
      (proverCalls inputs).events .new o'.events = some s' ∧
      ∀ choices ev t, Prover.check env choices ev (⟨s.shared⟩, t) =
        Prover.check env choices ev (⟨s'.shared⟩, t)) ∧
    (∀ (delta : Delta) (inputs : ℕ → VerifierFeed) (n : ℕ) (o o' : Order n), ∃ s s',
      (verifierCalls delta inputs).events .new o.events = some s ∧
      (verifierCalls delta inputs).events .new o'.events = some s' ∧
      ∀ keys uv t, Verifier.check env keys uv (⟨delta, s.shared⟩, t) =
        Verifier.check env keys uv (⟨delta, s'.shared⟩, t)) := by
  refine ⟨fun t cs => serves_iff env [] t cs, fun inputs n o o' => ?_,
    fun delta inputs n o o' => ?_⟩
  · obtain ⟨plan, hfollows⟩ := proverCalls_follows inputs n
    obtain ⟨s, s', hs, hs', heq⟩ := hfollows.orders o o'
    exact ⟨s, s', hs, hs', fun choices ev t => by rw [heq]⟩
  · obtain ⟨plan, hfollows⟩ := verifierCalls_follows delta inputs n
    obtain ⟨s, s', hs, hs', heq⟩ := hfollows.orders o o'
    exact ⟨s, s', hs, hs', fun keys uv t => by rw [heq]⟩

/-- One gate, and a check without correlations: the triples are cleared, the adjust bits stay. -/
theorem failed_check_misaligned :
    ¬ Serves countingEnv (.empty, []) ([], []) [.reserve 1, .checkProver [] []] := by
  intro h
  have hcounted := (serves_iff countingEnv [] [] _).mp h
  rcases (hcounted.2 _ _ rfl).1 with hlen | htotal
  · exact absurd hlen.1 (by decide)
  · exact absurd htotal (by decide)

end Mpz.Zk
