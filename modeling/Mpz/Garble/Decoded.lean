import Mpz.Garble.GarblerStore

/-!
# What the garbler takes for decoded

A flush from the evaluator may say anything. Where it comes with a proof, the garbler stores what
the proof verifies to and counts it as decoded. Where it comes without one, the garbler counts the
same indices as decoded and stores nothing, so it has to be one that nothing is expected of.

## Main definitions

* `GarblerStore.Proves` — a flush comes with a proof, or none is expected
* `GarblerStore.LoggedStep` — an operation, with the bits that were verified so far
* `GarblerStore.Decoded` — what is decoded was verified
* `GarblerStore.AcceptsVerified` — a flush that is accepted decodes what is verified

## Main results

* `GarblerStore.accepts_verified_iff` — the flushes of which this holds
* `GarblerStore.accepts_nothing` — a flush of which it does not
-/

namespace Mpz.Garble.GarblerStore

variable {C E : Type}

/-- The flush comes with a proof, or none is expected. -/
def Proves (s : GarblerStore C) (flush : EvaluatorFlush) : Prop :=
  flush.macProof ≠ none ∨ s.view.flush.decode = ∅ ∨ s.pending = false

instance (s : GarblerStore C) (flush : EvaluatorFlush) : Decidable (s.Proves flush) :=
  inferInstanceAs (Decidable (_ ∨ _ ∨ _))

/-- The operations but for the flushes that lack a proof. -/
def Op.Proves (s : GarblerStore C) : Op C → Prop
  | receiveFlush flush => s.Proves flush
  | _ => True

instance (s : GarblerStore C) : ∀ op : Op C, Decidable (op.Proves s)
  | .receiveFlush flush => inferInstanceAs (Decidable (s.Proves flush))
  | .allocRaw _ | .allocOutput _ | .setOutput _ _ | .markOutputComplete _ | .markRaw _ _
  | .assignRaw _ _ | .commitRaw _ | .decodeRaw _ | .sendFlush | .acquireCot _ => isTrue trivial

/-- An operation that has returned, with a value or an error, and the bits verified so far. -/
def LoggedStep [COTSender C E] (blake3 : Blake3) (s : GarblerStore C × List (ℕ × Bool)) (op : Op C)
    (t : GarblerStore C × List (ℕ × Bool)) : Prop :=
  (op.run blake3).Returns s.1 t.1 ∧ t.2 = s.2 ++ op.verified blake3 s.1

/-- The step function of these runs. -/
def Op.logged [COTSender C E] (blake3 : Blake3) (s : GarblerStore C × List (ℕ × Bool)) (op : Op C) :
    Option (GarblerStore C × List (ℕ × Bool)) :=
  ((op.run blake3).returned s.1).map fun t => (t, s.2 ++ op.verified blake3 s.1)

theorem LoggedStep.of_logged [COTSender C E] {blake3 : Blake3}
    {s t : GarblerStore C × List (ℕ × Bool)} {op : Op C} (h : op.logged blake3 s = some t) :
    LoggedStep blake3 s op t := by
  obtain ⟨t', hrun, rfl⟩ := Option.map_eq_some_iff.mp h
  exact ⟨.of_returned hrun, rfl⟩

/-- Every index that counts as decoded holds a bit that was verified. -/
def Decoded (s : GarblerStore C) (log : List (ℕ × Bool)) : Prop :=
  ∀ i ∈ s.view.decode.complete, ∃ b, s.dataStore.cell i = some b ∧ (i, b) ∈ log

/-- What a flush decodes if it is accepted is verified, and a flush that proves nothing where
something is expected is refused. -/
structure AcceptsVerified [COTSender C E] (blake3 : Blake3) (s : GarblerStore C)
    (log : List (ℕ × Bool)) (flush : EvaluatorFlush) : Prop where
  decoded : ∀ t, receiveFlush (E := E) blake3 flush s = (.ok (), t) →
    t.Decoded (log ++ s.verified blake3 flush)
  refused : flush.macProof = none → s.view.flush.decode ≠ ∅ → ∃ e t,
    receiveFlush (E := E) blake3 flush s = (.err e, t) ∧
      t.view.decode.complete = s.view.decode.complete

/-- What holds behind every flush that proves something. -/
structure Verified (s : GarblerStore C) (log : List (ℕ × Bool)) : Prop where
  role : s.view.role = .garbler
  inv : s.view.Inv
  queue : s.queue.Open
  /-- What is stored is visible, or was verified. -/
  logged : ∀ i b, s.dataStore.cell i = some b → i ∈ s.view.vis.visibleRanges ∨ (i, b) ∈ log
  /-- What counts as decoded is stored. -/
  complete : s.view.decode.complete ⊆ s.dataStore.set

theorem Verified.new (prg : ℕ → Block) (delta : Delta) (cot : C) :
    (GarblerStore.new prg delta cot).Verified [] where
  role := rfl
  inv := View.inv_new .garbler
  queue := DecodeQueue.All.new
  logged := fun _ _ h => absurd (Store.cell_eq_some.mp h).1 (Finset.notMem_empty _)
  complete := Finset.empty_subset _

variable {blake3 : Blake3} {s t : GarblerStore C} {log : List (ℕ × Bool)}

theorem Verified.decoded (h : s.Verified log) : s.Decoded log := by
  intro i hi
  obtain ⟨b, hb⟩ := Option.isSome_iff_exists.mp (Store.cell_isSome.mpr (h.complete hi))
  have hvis := View.not_visible_of_decode h.inv h.role (.inl hi)
  exact ⟨b, hb, (h.logged i b hb).resolve_left hvis⟩

/-- The view keeps its invariant, and only a flush decodes. -/
theorem Op.run_inv [COTSender C E] {op : Op C} (hinv : s.view.Inv) (h : (op.run blake3 s).2 = t) :
    t.view.role = s.view.role ∧ t.view.Inv ∧
      s.view.vis.visibleRanges ⊆ t.view.vis.visibleRanges ∧
      (t.view.decode.complete = s.view.decode.complete ∨ op.view = some .completeFlush ∧
        t.view.decode.complete = s.view.decode.complete ∪ s.view.flush.decode) := by
  rcases h ▸ op.run_view blake3 s with heq | ⟨vop, hop, hrun⟩
  · rw [heq]
    exact ⟨rfl, hinv, fun _ hi => hi, .inl rfl⟩
  · obtain ⟨hrole, hstep⟩ := View.Op.refines hinv hrun
    obtain ⟨hvis, hcomplete⟩ := View.Op.run_eq_ok hrun
    refine ⟨hrole, fun i => ?_, hvis, ?_⟩
    · rcases hstep with ⟨-, heq⟩ | ⟨sop, -, hstep⟩
      · exact heq ▸ hinv i
      · exact (hinv i).step hstep
    · split at hcomplete
      case isTrue heq => exact .inr ⟨hop.trans (congrArg some heq), hcomplete⟩
      case isFalse => exact .inl hcomplete

/-- A flush that proves something stores what it completes. -/
theorem complete_subset_of_proves {o : Outcome (GarblerStoreError E) Unit} {flush : EvaluatorFlush}
    (hs : s.Verified log) (hflush : s.Proves flush)
    (h : receiveFlush blake3 flush s = (o, t)) (hset : s.dataStore.set ⊆ t.dataStore.set) :
    t.view.decode.complete ⊆ t.dataStore.set := by
  have hsub := hs.complete.trans hset
  rcases receiveFlush_cases h with ⟨-, -, rfl⟩ | ⟨hpending, ⟨-, hfail⟩ | ⟨s', hok, hdata, hview, -⟩⟩
  · exact hs.complete
  · have hview : t.view = s.view := ((receiveProof_keeps blake3 _).map Prod.fst).eq hfail
    exact hview ▸ hsub
  · have hview' : s'.view = s.view := ((receiveProof_keeps (E := E) blake3 _).map Prod.fst).eq hok
    rw [hview, hview']
    refine Finset.union_subset hsub ?_
    rcases receiveProof_cases hok with
      ⟨-, hnone⟩ | ⟨bits, hash, data, p, d, -, -, -, htry, hp, rfl⟩
    · have hempty : s.view.flush.decode = ∅ := by
        rcases hflush with hflush | hflush | hflush
        · exact absurd (hnone rfl) hflush
        · exact hflush
        · exact absurd (hpending.symm.trans hflush) nofun
      rw [hempty]
      exact Finset.empty_subset _
    · obtain rfl : p = .ok () := Outcome.mapErr_eq_ok.mp hp.symm
      rw [hdata]
      exact Store.subset_set_trySetRanges htry

/-- **One operation.** -/
theorem Verified.step [COTSender C E] {op : Op C} (h : s.Verified log) (hop : op.Proves s)
    (hstep : (op.run blake3).Returns s t) : t.Verified (log ++ op.verified blake3 s) := by
  obtain ⟨hrole, hinv, hvis, hcomplete⟩ := Op.run_inv h.inv hstep.eq
  obtain ⟨o, ho, hrun⟩ := hstep
  obtain ⟨hset, hfill⟩ := Op.run_data ho hrun
  refine ⟨hrole.trans h.role, hinv, ?_, fun i b hi => ?_, ?_⟩
  · have := op.run_queue (fun _ _ _ _ _ => rfl) blake3 s h.queue
    rwa [hrun] at this
  · rcases hfill i b hi with hold | hnew | hnew
    · exact (h.logged i b hold).imp (fun hi => hvis hi) fun hi => List.mem_append_left _ hi
    · exact .inl (hvis hnew)
    · exact .inr (List.mem_append_right _ hnew)
  · rcases hcomplete with heq | ⟨hop', -⟩
    · exact heq ▸ h.complete.trans hset
    · cases op with
      | receiveFlush flush => exact complete_subset_of_proves h hop hrun hset
      | _ => cases hop'

theorem Verified.of_run [COTSender C E] {prg : ℕ → Block} {delta : Delta} {cot : C}
    {ops : List (Op C)} (h : Run (fun s op t => op.Proves s.1 ∧ LoggedStep blake3 s op t)
      (GarblerStore.new prg delta cot, []) ops (s, log)) : s.Verified log :=
  h.invariant (P := fun s => s.1.Verified s.2) (.new prg delta cot) fun _ _ _ hs hstep =>
    hstep.2.2 ▸ hs.step hstep.1 hstep.2.1

/-- **A decode is completed with verified data**, in every run in which a flush comes with a proof
wherever one is expected, and of a further flush exactly where it does. -/
theorem accepts_verified_iff [COTSender C E] {prg : ℕ → Block} {delta : Delta} {cot : C}
    {ops : List (Op C)} (h : Run (fun s op t => op.Proves s.1 ∧ LoggedStep blake3 s op t)
      (new prg delta cot, []) ops (s, log)) :
    s.Decoded log ∧ ∀ flush, s.AcceptsVerified blake3 log flush ↔ s.Proves flush := by
  have hs := Verified.of_run h
  refine ⟨hs.decoded, fun flush => ⟨fun hacc => ?_, fun hflush => ⟨fun t ht => ?_, ?_⟩⟩⟩
  · by_contra hnot
    simp only [Proves, not_or, not_not, Bool.not_eq_false] at hnot
    obtain ⟨hnone, hdecode, hpending⟩ := hnot
    obtain ⟨e, t, hrun, -⟩ := hacc.refused hnone hdecode
    rcases receiveFlush_cases hrun with ⟨hpending', -⟩ | ⟨-, ⟨-, hfail⟩ | ⟨s', hok, -, -, herr⟩⟩
    · exact absurd (hpending'.symm.trans hpending) nofun
    · rw [hnone] at hfail
      cases hfail
    · obtain ⟨e', herr⟩ := herr e rfl
      have hqueue : s'.queue = s.queue :=
        ((receiveProof_keeps (E := E) blake3 _).map fun p => p.2.2).eq hok
      exact DecodeQueue.flush_ne_err (hqueue ▸ hs.queue) e' herr
  · have hop : (Op.receiveFlush flush : Op C).Proves s := hflush
    exact (hs.step hop ⟨.ok (), nofun, ht⟩).decoded
  · intro hnone hdecode
    have hpending : s.pending = false :=
      (hflush.resolve_left (not_not.mpr hnone)).resolve_left hdecode
    exact ⟨.unexpectedFlush, s, by simp [receiveFlush, hpending], rfl⟩

/-- An output is requested and proven. -/
theorem accepts_verified_iff_output : ∃ (s : GarblerStore IdealCOTSender) (log : List (ℕ × Bool)),
    Run (fun s op t => op.Proves s.1 ∧ LoggedStep (fun _ => 0) s op t)
      (new (fun i => i) (.new 5) (.new 5), [])
      [.allocOutput 1, .setOutput ⟨0, 1⟩ [⟨0⟩], .markOutputComplete ⟨0, 1⟩, .decodeRaw ⟨0, 1⟩,
        .sendFlush, .receiveFlush ⟨some ⟨[true], 0⟩⟩] (s, log) ∧
    s.view.decode.complete = {0} ∧ log = [(0, true)] ∧ s.Decoded log ∧
      ∀ flush, s.AcceptsVerified (fun _ => 0) log flush ↔ s.Proves flush :=
  have run : Run (fun s op t => op.Proves s.1 ∧ LoggedStep (fun _ => 0) s op t)
      (new (fun i => i) (.new 5) (IdealCOTSender.new 5), [])
      [.allocOutput 1, .setOutput ⟨0, 1⟩ [⟨0⟩], .markOutputComplete ⟨0, 1⟩, .decodeRaw ⟨0, 1⟩,
        .sendFlush, .receiveFlush ⟨some ⟨[true], 0⟩⟩] _ :=
    Run.of_isSome (fun s op => if op.Proves s.1 then op.logged (fun _ => 0) s else none)
      (fun _ _ _ h => (Option.ite_none_right_eq_some.mp h).imp_right .of_logged)
      (by decide +kernel)
  ⟨_, _, run, by decide +kernel, by decide +kernel, accepts_verified_iff run⟩

/-- **The flush that proves nothing.** One output is to be decoded. The flush is accepted, and the
output counts as decoded, with no bit stored. -/
theorem accepts_nothing : ∃ (s : GarblerStore IdealCOTSender) (log : List (ℕ × Bool)),
    Run (LoggedStep fun _ => 0) (new (fun i => i) (.new 5) (.new 5), [])
      [.allocOutput 1, .setOutput ⟨0, 1⟩ [⟨0⟩], .markOutputComplete ⟨0, 1⟩, .decodeRaw ⟨0, 1⟩,
        .sendFlush] (s, log) ∧
    (receiveFlush (E := IdealCOTError) (fun _ => 0) ⟨none⟩ s).1 = .ok () ∧
    0 ∈ (receiveFlush (E := IdealCOTError) (fun _ => 0) ⟨none⟩ s).2.view.decode.complete ∧
    (receiveFlush (E := IdealCOTError) (fun _ => 0) ⟨none⟩ s).2.dataStore.cell 0 = none :=
  have run : Run (LoggedStep fun _ => 0) (new (fun i => i) (.new 5) (IdealCOTSender.new 5), [])
      [.allocOutput 1, .setOutput ⟨0, 1⟩ [⟨0⟩], .markOutputComplete ⟨0, 1⟩, .decodeRaw ⟨0, 1⟩,
        .sendFlush] _ :=
    Run.of_isSome (fun s op => op.logged (fun _ => 0) s) (fun _ _ _ h => .of_logged h)
      (by decide +kernel)
  ⟨_, _, run, by decide +kernel, by decide +kernel, by decide +kernel⟩

end Mpz.Garble.GarblerStore
