import Mpz.Garble.EvaluatorStore
import Mpz.Garble.SharedView
import Mpz.Zk.VerifierStore

/-!
# A flush in flight

Between sending a flush and completing it a party goes on: it commits, executes and requests. A
message speaks of what was pending when it was sent, so completing it should complete that and leave
the rest pending. Three of the four stores read the pending sets again when they complete the flush,
and complete what they find. The verifier compares what it finds with the message first.

## Main definitions

* `CompletesSent` — the completion of a flush completes what was sent
* `InFlight` — the states between sending a flush and completing it

## Main results

* `in_flight_iff` — when each of the stores completes what was sent
-/

namespace Mpz

namespace Garble

/-- The sets that a flush is about. -/
def FlushView.sets (f : FlushView) : RangeSet × RangeSet × RangeSet × RangeSet :=
  (f.macs, f.ot, f.decodeInfo, f.decode)

theorem FlushView.sets_injective : Function.Injective sets := by
  rintro ⟨_, _, _, _⟩ ⟨_, _, _, _⟩ h
  cases h
  rfl

/-- What one flush is about, another is. -/
instance : PartialOrder FlushView := .lift FlushView.sets FlushView.sets_injective

/-- The indices of one flush that another is not about. -/
instance : SDiff FlushView where
  sdiff f g := ⟨f.macs \ g.macs, f.ot \ g.ot, f.decodeInfo \ g.decodeInfo, f.decode \ g.decode⟩

namespace View

/-- Completing the flush that was sent completes exactly what it was about, and what is pending
besides stays pending. -/
structure CompletesSent (sent : FlushView) (v w : View) : Prop where
  committed : w.input.complete = v.input.complete ∪ sent.macs ∪ sent.ot
  decodeInfo : w.decode.decodeInfo = v.decode.decodeInfo ∪ sent.decodeInfo
  decoded : w.decode.complete = v.decode.complete ∪ sent.decode
  pending : v.flush \ sent ≤ w.flush

variable {v w : View} {u : Unit}

/-- Only the completion of a flush takes anything from it. -/
theorem Op.run_flush_le {op : Op} (h : op.run v = (.ok u, w)) (hop : op ≠ .completeFlush) :
    v.flush ≤ w.flush := by
  cases op with
  | allocInput size => exact (Prod.mk.inj h).2 ▸ le_rfl
  | allocOutput size => exact (Prod.mk.inj h).2 ▸ le_rfl
  | mark visibility range =>
    obtain ⟨-, -, hlen, rfl⟩ := mark_eq_ok h
    exact le_rfl
  | assign range =>
    obtain ⟨-, -, rfl⟩ := assign_eq_ok h
    exact le_rfl
  | commit range =>
    obtain ⟨-, -, -, -, -, rfl⟩ := commit_eq_ok h
    exact ⟨Finset.subset_union_left, Finset.subset_union_left, fun _ h => h, fun _ h => h⟩
  | decode range =>
    rw [run, requestDecode, Method.get_bind, Method.ite_apply] at h
    split at h
    · exact (Prod.mk.inj h).2 ▸ le_rfl
    · obtain rfl := (Prod.mk.inj h).2
      exact ⟨fun _ h => h, fun _ h => h, Finset.subset_union_left, Finset.subset_union_left⟩
  | setPreprocessed range =>
    obtain ⟨-, rfl⟩ := setPreprocessed_eq_ok h
    exact ⟨fun _ h => h, fun _ h => h, Finset.subset_union_left, fun _ h => h⟩
  | setOutput range =>
    obtain ⟨-, rfl⟩ := setOutput_eq_ok h
    exact ⟨fun _ h => h, fun _ h => h, Finset.subset_union_left, Finset.subset_union_left⟩
  | completeFlush => exact absurd rfl hop

theorem Performs.flush_le {op : Option Op} (h : Performs op v w) (hop : op ≠ some .completeFlush) :
    v.flush ≤ w.flush := by
  rcases h with rfl | ⟨vop, rfl, hrun⟩
  · exact le_rfl
  · exact vop.run_flush_le hrun fun heq => hop (congrArg some heq)

/-- An index that is to be proven is not one whose MAC is still to be transferred. -/
theorem notMem_ot_of_mem_decode (hinv : v.Inv) {i : ℕ} (hi : i ∈ v.flush.decode) :
    i ∉ v.flush.ot := by
  intro hot
  obtain ⟨hinput, hcommitted⟩ := (hinv i).ot hot
  rcases ((hinv i).decode (.inr hi)).2 with ⟨-, hc⟩ | ⟨hexecuted, -⟩
  · exact hcommitted hc
  · have hout := (hinv i).preprocessed ((hinv i).executed hexecuted)
    exact (hinv i).inputs ((hinv i).marked (.inr (.inr hinput))) hout

/-- **The live flush is completed**, whatever was sent. -/
theorem completesSent_iff (hinv : v.Inv) {sent : FlushView} (hle : sent ≤ v.flush) :
    CompletesSent sent v (completeFlush v).2 ↔ v.flush = sent := by
  constructor
  · intro h
    have hmacs : v.flush.macs \ sent.macs ⊆ ∅ := h.pending.1
    have hot : v.flush.ot \ sent.ot ⊆ ∅ := h.pending.2.1
    have hinfo : v.flush.decodeInfo \ sent.decodeInfo ⊆ ∅ := h.pending.2.2.1
    have hdecode : v.flush.decode ⊆ sent.decode := by
      intro i hi
      by_contra hsent
      rcases Finset.mem_union.mp
        (h.pending.2.2.2 (Finset.mem_sdiff.mpr ⟨hi, hsent⟩)) with hi' | hi'
      · exact notMem_ot_of_mem_decode hinv hi (Finset.mem_inter.mp hi').1
      · exact (Finset.mem_sdiff.mp hi').2 (Finset.mem_union_right _ hi)
    rw [Finset.subset_empty, Finset.sdiff_eq_empty_iff_subset] at hmacs hot hinfo
    exact le_antisymm (And.intro hmacs ⟨hot, hinfo, hdecode⟩) hle
  · rintro rfl
    have hempty : ∀ s : RangeSet, s \ s ⊆ ∅ := fun s => by rw [Finset.sdiff_self]
    exact ⟨rfl, rfl, rfl, hempty _, hempty _, hempty _, (hempty _).trans (Finset.empty_subset _)⟩

end View

end Garble

namespace Zk

/-- The sets that a flush is about. -/
def FlushView.sets (f : FlushView) : RangeSet × RangeSet := (f.commit, f.prove)

theorem FlushView.sets_injective : Function.Injective sets := by
  rintro ⟨_, _⟩ ⟨_, _⟩ h
  cases h
  rfl

/-- What one flush is about, another is. -/
instance : PartialOrder FlushView := .lift FlushView.sets FlushView.sets_injective

/-- The indices of one flush that another is not about. -/
instance : SDiff FlushView where
  sdiff f g := ⟨f.commit \ g.commit, f.prove \ g.prove⟩

namespace View

/-- Completing the flush that was sent completes exactly what it was about, and what is pending
besides stays pending. -/
structure CompletesSent (sent : FlushView) (v w : View) : Prop where
  committed : w.input.complete = v.input.complete ∪ sent.commit
  decoded : w.decode.complete = v.decode.complete ∪ sent.prove
  pending : v.flush \ sent ≤ w.flush

variable {v w : View} {u : Unit}

/-- Only the completion of a flush takes anything from it. -/
theorem Op.run_flush_le {op : Op} (h : op.run v = (.ok u, w)) (hop : op ≠ .completeFlush) :
    v.flush ≤ w.flush := by
  cases op with
  | allocInput size => exact (Prod.mk.inj h).2 ▸ le_rfl
  | allocOutput size => exact (Prod.mk.inj h).2 ▸ le_rfl
  | mark visibility range =>
    obtain ⟨-, -, hlen, rfl⟩ := mark_eq_ok h
    exact le_rfl
  | assign range =>
    obtain ⟨-, -, rfl⟩ := assign_eq_ok h
    exact le_rfl
  | commit range =>
    obtain ⟨-, -, -, -, -, rfl⟩ := commit_eq_ok h
    exact ⟨Finset.subset_union_left, fun _ h => h⟩
  | decode range =>
    obtain ⟨-, rfl⟩ := Prod.mk.inj ((requestDecode_apply range v).symm.trans h)
    split
    · exact le_rfl
    · exact ⟨fun _ h => h, Finset.subset_union_left⟩
  | setOutput range =>
    obtain ⟨-, rfl⟩ := setOutput_eq_ok h
    exact ⟨fun _ h => h, Finset.subset_union_left⟩
  | completeFlush => exact absurd rfl hop

theorem Performs.flush_le {op : Option Op} (h : Performs op v w) (hop : op ≠ some .completeFlush) :
    v.flush ≤ w.flush := by
  rcases h with rfl | ⟨vop, rfl, hrun⟩
  · exact le_rfl
  · exact vop.run_flush_le hrun fun heq => hop (congrArg some heq)

theorem completesSent_self (sent : FlushView) (hflush : v.flush = sent) :
    CompletesSent sent v (completeFlush sent v).2 := by
  subst hflush
  have hempty : ∀ s : RangeSet, s \ s ⊆ ∅ := fun s => by rw [Finset.sdiff_self]
  exact ⟨rfl, rfl, hempty _, (hempty _).trans (Finset.empty_subset _)⟩

/-- **The live flush is completed**, whatever was sent. -/
theorem completesSent_iff (hinv : v.Inv) {sent : FlushView} (hle : sent ≤ v.flush) :
    CompletesSent sent v (completeFlush v.flush v).2 ↔ v.flush = sent := by
  constructor
  · intro h
    have hcommit : v.flush.commit \ sent.commit ⊆ ∅ := h.pending.1
    have hprove : v.flush.prove ⊆ sent.prove := by
      intro i hi
      by_contra hsent
      have hmem := h.pending.2 (Finset.mem_sdiff.mpr ⟨hi, hsent⟩)
      -- What becomes pending behind a flush was committed by it, and was not before.
      obtain ⟨howned, hcomplete⟩ := (hinv i).commit (Finset.mem_inter.mp hmem).1
      rcases ((hinv i).prove hi).2 with hp | hout
      · exact hcomplete hp.2
      · refine (hinv i).input_output ((hinv i).marked ?_) ((hinv i).executed hout)
        exact (mem_owned_iff.mp howned).imp (fun hp => (v.vis.visible_iff i).mpr (.inr hp.2))
          fun hb => hb.2
    rw [Finset.subset_empty, Finset.sdiff_eq_empty_iff_subset] at hcommit
    exact le_antisymm (And.intro hcommit hprove) hle
  · exact fun hflush => hflush ▸ completesSent_self _ rfl

end View

end Zk

/-! ### The four stores -/

namespace Garble.GarblerStore

variable {C E : Type} [COTSender C E] {blake3 : Blake3} {s s' t : GarblerStore C}

/-- `commit_raw`, `decode_raw` and the operations that set outputs. -/
def Op.Pends : Op C → Prop
  | commitRaw _ => True
  | decodeRaw _ => True
  | setOutput _ _ => True
  | markOutputComplete _ => True
  | _ => False

theorem Op.Pends.view_ne {op : Op C} (h : op.Pends) : op.view ≠ some .completeFlush := by
  cases op with
  | receiveFlush flush => exact absurd h id
  | _ => simp [Op.view]

/-- From `s`, a flush was sent, and what was done since led to `t`. -/
def InFlight (blake3 : Blake3) (s t : GarblerStore C) : Prop :=
  ∃ msg s' ops, sendFlush blake3 s = (.ok msg, s') ∧
    Run (fun s op t => op.Pends ∧ Step blake3 s op t) s' ops t

theorem Step.view {op : Op C} (h : Step blake3 s op t) : View.Performs op.view s.view t.view :=
  h ▸ op.run_view blake3 s

/-- The view of a reachable store is a reachable view. -/
theorem inv_of_run {prg : ℕ → Block} {delta : Delta} {cot : C} {ops : List (Op C)}
    (h : Run (Step blake3) (new prg delta cot) ops s) : s.view.Inv :=
  h.invariant (P := fun s : GarblerStore C => s.view.Inv) (View.inv_new .garbler)
    fun _ _ _ hs hstep => hstep.view.inv hs

theorem InFlight.view (h : InFlight blake3 s t) (hinv : s.view.Inv) :
    t.view.Inv ∧ s.view.flush ≤ t.view.flush := by
  obtain ⟨msg, s', ops, hsend, hrun⟩ := h
  have hview : s'.view = s.view := ((sendFlush_keeps blake3).map Prod.fst).eq hsend
  rw [← hview] at hinv ⊢
  constructor
  · exact hrun.invariant (P := fun s : GarblerStore C => s.view.Inv) hinv
      fun _ _ _ ih hs => hs.2.view.inv ih
  · exact hrun.related (r := fun s t => s.view.flush ≤ t.view.flush) (fun _ => le_rfl) le_trans
      fun s op t hs => hs.2.view.flush_le hs.1.view_ne

omit [COTSender C E] in
theorem receiveFlush_view {flush : EvaluatorFlush}
    (h : receiveFlush (E := E) blake3 flush s = (.ok (), t)) :
    t.view = (View.completeFlush s.view).2 := by
  rcases receiveFlush_cases h with ⟨-, ho, -⟩ | ⟨-, ⟨ho, -⟩ | ⟨s', hok, -, hview, -⟩⟩
  · cases ho
  · exact absurd rfl ho
  · have hview' : s'.view = s.view := ((receiveProof_keeps blake3 _).map Prod.fst).eq hok
    rw [hview, hview']

end Garble.GarblerStore

namespace Garble.EvaluatorStore

variable {C E F : Type} [COTReceiver C E F] {blake3 : Blake3} {s t : EvaluatorStore C F}

/-- `commit_raw`, `decode_raw` and the operations that set outputs. -/
def Op.Pends : Op C → Prop
  | commitRaw _ => True
  | decodeRaw _ => True
  | setOutput _ _ => True
  | markOutputPreprocessed _ => True
  | _ => False

theorem Op.Pends.view_ne {op : Op C} (h : op.Pends) : op.view ≠ some .completeFlush := by
  cases op with
  | receiveFlush flush => exact absurd h id
  | _ => simp [Op.view]

/-- From `s`, a flush was sent, and what was done since led to `t`. -/
def InFlight (blake3 : Blake3) (s t : EvaluatorStore C F) : Prop :=
  ∃ msg s' ops, sendFlush (E := E) blake3 s = (.ok msg, s') ∧
    Run (fun s op t => op.Pends ∧ Step blake3 s op t) s' ops t

theorem InFlight.view (h : InFlight blake3 s t) (hinv : s.view.Inv) :
    t.view.Inv ∧ s.view.flush ≤ t.view.flush := by
  obtain ⟨msg, s', ops, hsend, hrun⟩ := h
  have hview : s'.view = s.view := ((sendFlush_keeps blake3).map Prod.fst).eq hsend
  rw [← hview] at hinv ⊢
  constructor
  · exact hrun.invariant (P := fun s : EvaluatorStore C F => s.view.Inv) hinv
      fun _ _ _ ih hs => hs.2.view.inv ih
  · exact hrun.related (r := fun s t => s.view.flush ≤ t.view.flush) (fun _ => le_rfl) le_trans
      fun s op t hs => hs.2.view.flush_le hs.1.view_ne

theorem receiveFlush_view {flush : GarblerFlush}
    (h : receiveFlush (E := E) blake3 flush s = (.ok (), t)) :
    t.view = (View.completeFlush s.view).2 := by
  rcases receiveFlush_cases h with
    ⟨-, ho, -⟩ | ⟨pending, -, ⟨ho, -⟩ | ⟨s', -, hview, -, -, hfinish⟩⟩
  · cases ho
  · exact absurd rfl ho
  · have hcomplete : (onView View.completeFlush s' : Outcome (EvaluatorStoreError E) Unit × _) =
        (.ok (), { s' with view := (View.completeFlush s'.view).2 }) := rfl
    rw [finishFlush, Method.bind_apply_of_ok hcomplete] at hfinish
    have hkeeps : t.view = (View.completeFlush s'.view).2 :=
      ((flushDecode_keeps (E := E) blake3).map Prod.fst).eq hfinish
    rw [hkeeps, hview]

end Garble.EvaluatorStore

namespace Zk.ProverStore

variable {env : CheckEnv} {blake3 : Blake3} {s t : ProverStore}

/-- `commit_raw`, `decode_raw` and the operation that sets outputs. -/
def Op.Pends : Op → Prop
  | commitRaw _ => True
  | decodeRaw _ => True
  | setOutputMacs _ _ => True
  | _ => False

theorem Op.Pends.view_ne {op : Op} (h : op.Pends) : op.view ≠ some .completeFlush := by
  cases op with
  | completeFlush => exact absurd h id
  | _ => simp [Op.view]

/-- From `s`, the flush `msg` was sent, and what was done since led to `t`. -/
def InFlight (env : CheckEnv) (blake3 : Blake3) (msg : ProverFlush) (s t : ProverStore) : Prop :=
  ∃ s' ops, sendFlush env blake3 s = (.ok msg, s') ∧
    Run (fun s op t => op.Pends ∧ Step env blake3 s op t) s' ops t

/-- The message carries the view. -/
theorem sendFlush_eq_ok {msg : ProverFlush} (h : sendFlush env blake3 s = (.ok msg, t)) :
    s.pending = false ∧ ∃ adjust proof, s.adjustRanges s.view.flush.commit.iter = .ok adjust ∧
      s.macProof blake3 = .ok proof ∧ msg = ⟨s.view.flush, adjust, proof⟩ ∧
      t = { s with pending := true, transcript := s.transcript ++ adjustBytes env adjust } := by
  rw [sendFlush, Method.get_bind, Method.guard_eq_ok] at h
  obtain ⟨hpending, h⟩ := h
  rw [Method.modify_bind, Method.call_bind_eq_ok] at h
  obtain ⟨adjust, hadjust, h⟩ := h
  rw [Method.modify_bind, Method.call_bind_eq_ok] at h
  obtain ⟨proof, hproof, h⟩ := h
  obtain ⟨hmsg, rfl⟩ := Prod.mk.inj h
  exact ⟨by simpa using hpending, adjust, proof, hadjust, hproof, (Outcome.ok.inj hmsg).symm, rfl⟩

theorem InFlight.view {msg : ProverFlush} (h : InFlight env blake3 msg s t) (hinv : s.view.Inv) :
    t.view.Inv ∧ msg.view ≤ t.view.flush := by
  obtain ⟨s', ops, hsend, hrun⟩ := h
  obtain ⟨-, adjust, proof, -, -, rfl, -⟩ := sendFlush_eq_ok hsend
  have hview : s'.view = s.view := ((sendFlush_keeps env blake3).map Prod.fst).eq hsend
  show t.view.Inv ∧ s.view.flush ≤ t.view.flush
  rw [← hview] at hinv ⊢
  constructor
  · exact hrun.invariant (P := fun s => s.view.Inv) hinv fun _ _ _ ih hs => hs.2.view.inv ih
  · exact hrun.related (r := fun s t => s.view.flush ≤ t.view.flush) (fun _ => le_rfl) le_trans
      fun s op t hs => hs.2.view.flush_le hs.1.view_ne

theorem completeFlush_view (h : completeFlush s = (.ok (), t)) :
    t.view = (View.completeFlush s.view.flush s.view).2 := by
  rw [completeFlush, Method.get_bind, Method.guard_eq_ok] at h
  have hcomplete : onView (View.completeFlush s.view.flush) s =
      (.ok (), { s with view := (View.completeFlush s.view.flush s.view).2 }) := rfl
  rw [Method.bind_apply_of_ok hcomplete] at h
  have hkeeps : (do
      flushDecode
      Method.modify fun self => { self with pending := false } :
      Method ProverStore ProverStoreError Unit).Keeps ProverStore.view :=
    .bind (flushDecode_keeps.map Prod.fst) fun _ _ => rfl
  exact hkeeps.eq h.2

end Zk.ProverStore

namespace Zk.VerifierStore

variable {env : CheckEnv} {blake3 : Blake3} {s t : VerifierStore}

theorem receiveFlush_view {flush : ProverFlush}
    (h : receiveFlush env blake3 flush s = (.ok (), t)) :
    s.view.flush = flush.view ∧ t.view = (View.completeFlush flush.view s.view).2 := by
  rcases receiveFlush_cases h with ⟨-, ⟨e, he⟩, -⟩ | ⟨-, heq, ⟨ho, -⟩ | ⟨s', -, hview, -, hfinish⟩⟩
  · cases he
  · exact absurd rfl ho
  · have hkeeps : (do
        flushDecode
        Method.modify fun self => { self with pending := false } :
        Method VerifierStore VerifierStoreError Unit).Keeps VerifierStore.view :=
      .bind (flushDecode_keeps.map Prod.fst) fun _ _ => rfl
    have hcomplete : onView (View.completeFlush s.view.flush) s' =
        (.ok (), { s' with view := (View.completeFlush s.view.flush s'.view).2 }) := rfl
    rw [finishFlush, Method.bind_apply_of_ok hcomplete] at hfinish
    have hview' : t.view = (View.completeFlush s.view.flush s'.view).2 := hkeeps.eq hfinish
    exact ⟨heq.symm, by rw [hview', hview, heq]⟩

end Zk.VerifierStore

/-- **When a store completes what it sent.** Garbler, evaluator and prover do exactly when nothing
became pending while the flush was in flight. The verifier always does: it refuses a flush that is
not about what is pending. -/
theorem in_flight_iff (blake3 : Blake3) :
    (∀ {C E : Type} [COTSender C E] (prg : ℕ → Block) (delta : Delta) (cot : C)
      (ops : List (Garble.GarblerStore.Op C)) (s t u : Garble.GarblerStore C)
      (flush : Garble.EvaluatorFlush),
      Run (Garble.GarblerStore.Step blake3) (.new prg delta cot) ops s →
      Garble.GarblerStore.InFlight blake3 s t →
      Garble.GarblerStore.receiveFlush (E := E) blake3 flush t = (.ok (), u) →
      (Garble.View.CompletesSent s.view.flush t.view u.view ↔ t.view.flush = s.view.flush)) ∧
    (∀ {C E F : Type} [COTReceiver C E F] (cot : C)
      (ops : List (Garble.EvaluatorStore.Op C)) (s t u : Garble.EvaluatorStore C F)
      (flush : Garble.GarblerFlush),
      Run (Garble.EvaluatorStore.Step blake3) (.new cot) ops s →
      Garble.EvaluatorStore.InFlight blake3 s t →
      Garble.EvaluatorStore.receiveFlush (E := E) blake3 flush t = (.ok (), u) →
      (Garble.View.CompletesSent s.view.flush t.view u.view ↔ t.view.flush = s.view.flush)) ∧
    (∀ (env : Zk.CheckEnv) (ops : List Zk.ProverStore.Op)
      (s t u : Zk.ProverStore) (msg : Zk.ProverFlush),
      Run (Zk.ProverStore.Step env blake3) .new ops s →
      Zk.ProverStore.InFlight env blake3 msg s t →
      Zk.ProverStore.completeFlush t = (.ok (), u) →
      (Zk.View.CompletesSent msg.view t.view u.view ↔ t.view.flush = msg.view)) ∧
    ∀ (env : Zk.CheckEnv) (t u : Zk.VerifierStore) (msg : Zk.ProverFlush),
      Zk.VerifierStore.receiveFlush env blake3 msg t = (.ok (), u) →
      Zk.View.CompletesSent msg.view t.view u.view := by
  refine ⟨?garbler, ?evaluator, ?prover, ?verifier⟩
  case garbler =>
    intro C E _ prg delta cot ops s t u flush hrun hflight hreceive
    obtain ⟨hinv, hle⟩ := hflight.view (Garble.GarblerStore.inv_of_run hrun)
    rw [Garble.GarblerStore.receiveFlush_view hreceive]
    exact Garble.View.completesSent_iff hinv hle
  case evaluator =>
    intro C E F _ cot ops s t u flush hrun hflight hreceive
    obtain ⟨hinv, hle⟩ := hflight.view (Garble.EvaluatorStore.inv_of_run hrun)
    rw [Garble.EvaluatorStore.receiveFlush_view hreceive]
    exact Garble.View.completesSent_iff hinv hle
  case prover =>
    intro env ops s t u msg hrun hflight hcomplete
    obtain ⟨hinv, hle⟩ := hflight.view (Zk.ProverStore.inv_of_run hrun)
    rw [Zk.ProverStore.completeFlush_view hcomplete]
    exact Zk.View.completesSent_iff hinv hle
  case verifier =>
    intro env t u msg hreceive
    obtain ⟨hflush, hview⟩ := Zk.VerifierStore.receiveFlush_view hreceive
    rw [hview]
    exact Zk.View.completesSent_self _ hflush

/-- The environment of the runs below, whose transcripts nothing reads. -/
def Zk.CheckEnv.silent : Zk.CheckEnv := ⟨fun _ => [], fun _ => 0, fun _ _ _ => 0⟩

/-- Operations lead somewhere, whatever they return. -/
theorem Zk.ProverStore.run_silent (ops : List Zk.ProverStore.Op) :
    Run (Zk.ProverStore.Step .silent fun _ => 0) .new ops
      (ops.foldl (fun s op => (op.run .silent (fun _ => 0) s).2) .new) := by
  refine ops.reverseRecOn .nil fun ops op ih => ?_
  rw [List.foldl_append]
  exact ih.snoc rfl

/-- A private input is committed, and requested while the flush is in flight. -/
theorem in_flight_iff_request : ∃ (s t u : Zk.ProverStore) (msg : Zk.ProverFlush),
    Run (Zk.ProverStore.Step .silent fun _ => 0) .new
      [.allocRaw 1, .markRaw .priv ⟨0, 1⟩, .assignRaw ⟨0, 1⟩ [true], .commitRaw ⟨0, 1⟩,
        .setMacs [false] [⟨8⟩]] s ∧
    Zk.ProverStore.InFlight .silent (fun _ => 0) msg s t ∧
    Zk.ProverStore.completeFlush t = (.ok (), u) ∧ u.view.flush.prove = {0} ∧
    (Zk.View.CompletesSent msg.view t.view u.view ↔ t.view.flush = msg.view) := by
  obtain ⟨s, t, u, msg, hrun, hflight, hcomplete, hprove⟩ : ∃ (s t u : Zk.ProverStore)
      (msg : Zk.ProverFlush), Run (Zk.ProverStore.Step .silent fun _ => 0) .new
        [.allocRaw 1, .markRaw .priv ⟨0, 1⟩, .assignRaw ⟨0, 1⟩ [true], .commitRaw ⟨0, 1⟩,
          .setMacs [false] [⟨8⟩]] s ∧
      Zk.ProverStore.InFlight .silent (fun _ => 0) msg s t ∧
      Zk.ProverStore.completeFlush t = (.ok (), u) ∧ u.view.flush.prove = {0} :=
    ⟨_, _, _, ⟨{ commit := {0} }, [true], none⟩, Zk.ProverStore.run_silent _,
      ⟨_, [.decodeRaw ⟨0, 1⟩], Prod.ext (by decide +kernel) rfl, .single ⟨trivial, rfl⟩⟩,
      Prod.ext (by decide +kernel) rfl, by decide +kernel⟩
  exact ⟨s, t, u, msg, hrun, hflight, hcomplete, hprove,
    (in_flight_iff _).2.2.1 _ _ _ _ _ _ hrun hflight hcomplete⟩

/-- **A swallowed commitment.** The second input is committed while the flush of the first is in
flight. The completion counts both as committed, and nothing is left to flush. -/
theorem in_flight_swallowed : ∃ (s t u : Zk.ProverStore) (msg : Zk.ProverFlush),
    Run (Zk.ProverStore.Step .silent fun _ => 0) .new
      [.allocRaw 2, .markRaw .priv ⟨0, 2⟩, .assignRaw ⟨0, 2⟩ [true, true], .commitRaw ⟨0, 1⟩,
        .setMacs [false] [⟨8⟩]] s ∧
    Zk.ProverStore.InFlight .silent (fun _ => 0) msg s t ∧
    Zk.ProverStore.completeFlush t = (.ok (), u) ∧ msg.view = { commit := {0} } ∧
    u.view.input.complete = {0, 1} ∧ u.wantsFlush = false ∧ u.macStore.setRanges = {0} ∧
    ¬ Zk.View.CompletesSent msg.view t.view u.view := by
  refine ⟨_, _, _, ⟨{ commit := {0} }, [true], none⟩, Zk.ProverStore.run_silent _,
    ⟨_, [.commitRaw ⟨1, 1⟩], Prod.ext (by decide +kernel) rfl, .single ⟨trivial, rfl⟩⟩,
    Prod.ext (by decide +kernel) rfl, rfl, by decide +kernel, by decide +kernel, by decide +kernel,
    fun h => ?_⟩
  have hcommitted := h.committed
  revert hcommitted
  decide +kernel

end Mpz
