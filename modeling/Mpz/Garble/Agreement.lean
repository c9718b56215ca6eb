import Mpz.Garble.SharedView

/-!
# The two views agree

Both parties perform the same operations, each on its own view: what one marks private, the other
marks blind, and a value is assigned where it is known. As both views refine one shared view, they
agree on the flush at every point.

A request to decode is followed up where the range is marked, committed, preprocessed, executed or
flushed. One order is missed: where the garbler marks an input as its own after the request, no one
asks for its decode info.

## Main definitions

* `Mirrored`, `MirroredStep` — the operations of both parties
* `SharedView.NoneLostAt` — the requests that are followed up

## Main results

* `views_agree` — the views agree on the flush
* `no_decode_lost` — no request is lost, unless the garbler marks an input that is requested
* `decode_lost` — such a run
-/

namespace Mpz.Garble

/-- The operations that both parties perform. -/
inductive Mirrored where
  /-- Both allocate inputs. -/
  | allocInput (size : ℕ)
  /-- Both allocate outputs. -/
  | allocOutput (size : ℕ)
  /-- Both mark inputs as public. -/
  | markPublic (range : Range)
  /-- The owner marks inputs as private, and the other party as blind. -/
  | markPrivate (owner : Role) (range : Range)
  /-- One party assigns inputs. -/
  | assign (owner : Role) (range : Range)
  /-- Both commit inputs. -/
  | commit (range : Range)
  /-- Both request a range to be decoded. -/
  | decode (range : Range)
  /-- Both preprocess outputs. -/
  | setPreprocessed (range : Range)
  /-- Both execute outputs. -/
  | setOutput (range : Range)
  /-- Both complete the flush. -/
  | completeFlush
  deriving DecidableEq, Repr

namespace Mirrored

/-- What a party does. -/
def on (role : Role) : Mirrored → Option View.Op
  | allocInput size => some (.allocInput size)
  | allocOutput size => some (.allocOutput size)
  | markPublic range => some (.mark .pub range)
  | markPrivate owner range => some (.mark (if role = owner then .priv else .blind) range)
  | assign owner range => if role = owner then some (.assign range) else none
  | commit range => some (.commit range)
  | decode range => some (.decode range)
  | setPreprocessed range => some (.setPreprocessed range)
  | setOutput range => some (.setOutput range)
  | completeFlush => some .completeFlush

/-- What both of them do to the shared view. -/
def shared : Mirrored → Option SharedView.Op
  | allocInput size => some (.allocInput size)
  | allocOutput size => some (.allocOutput size)
  | markPublic range => some (.mark none range)
  | markPrivate owner range => some (.mark (some owner) range)
  | assign _ _ => none
  | commit range => some (.commit range)
  | decode range => some (.decode range)
  | setPreprocessed range => some (.setPreprocessed range)
  | setOutput range => some (.setOutput range)
  | completeFlush => some .completeFlush

theorem on_shared (role : Role) (op : Mirrored) :
    (op.on role).bind (View.Op.shared role) = op.shared := by
  cases op with
  | markPrivate owner range => cases role <;> cases owner <;> rfl
  | assign owner range => cases role <;> cases owner <;> rfl
  | _ => rfl

end Mirrored

/-- A party performs an operation with success, if it has one to perform. -/
def perform (v : View) : Option View.Op → Option View
  | none => some v
  | some op => match op.run v with
    | (.ok _, w) => some w
    | _ => none

/-- An operation that succeeds on the garbler's view and on the evaluator's. -/
def mirror (s : View × View) (op : Mirrored) : Option (View × View) := do
  let gb ← perform s.1 (op.on .garbler)
  let ev ← perform s.2 (op.on .evaluator)
  return (gb, ev)

/-- A mirrored operation, and the views behind it. -/
def MirroredStep (s : View × View) (op : Mirrored) (t : View × View) : Prop :=
  mirror s op = some t

theorem MirroredStep.iff {s t : View × View} {op : Mirrored} : MirroredStep s op t ↔
    perform s.1 (op.on .garbler) = some t.1 ∧ perform s.2 (op.on .evaluator) = some t.2 := by
  simp [MirroredStep, mirror, Option.bind_eq_some_iff, Prod.ext_iff]

theorem perform_some {v w : View} {op : View.Op} :
    perform v (some op) = some w ↔ op.run v = (.ok (), w) := by
  rw [perform]
  rcases op.run v with ⟨_ | _ | _, t⟩ <;> simp

/-- The two views before the first operation. -/
def newViews : View × View := (.newGarbler, .newEvaluator)

/-- What a mirrored operation does to the shared view. -/
def SharedView.MirroredStep (s : SharedView) (op : Mirrored) (t : SharedView) : Prop :=
  match op.shared with
  | none => t = s
  | some op => s.Step op t

theorem refines_of_perform {v w : View} {op : Mirrored} (hinv : v.Inv)
    (h : perform v (op.on v.role) = some w) :
    w.role = v.role ∧ v.shared.MirroredStep op w.shared := by
  have hshared := op.on_shared v.role
  unfold SharedView.MirroredStep
  cases hop : op.on v.role with
  | none =>
    rw [hop] at h hshared
    obtain rfl : v = w := Option.some.inj h
    rw [← hshared]
    exact ⟨rfl, rfl⟩
  | some vop =>
    rw [hop] at h hshared
    obtain ⟨hrole, ⟨hnone, hw⟩ | ⟨sop, hsome, hw⟩⟩ := View.Op.refines hinv (perform_some.mp h)
    · rw [← hshared, Option.bind_some, hnone]
      exact ⟨hrole, hw⟩
    · rw [← hshared, Option.bind_some, hsome]
      exact ⟨hrole, hw⟩

theorem SharedView.MirroredStep.inv {s t : SharedView} {op : Mirrored} (h : s.MirroredStep op t)
    {i : ℕ} (hinv : s.InvAt i) : t.InvAt i := by
  unfold SharedView.MirroredStep at h
  split at h
  · exact h ▸ hinv
  · exact hinv.step h

theorem SharedView.MirroredStep.eq {s t t' : SharedView} {op : Mirrored} (h : s.MirroredStep op t)
    (h' : s.MirroredStep op t') : t = t' := by
  unfold SharedView.MirroredStep at h h'
  cases hop : op.shared with
  | none =>
    rw [hop] at h h'
    exact h.trans h'.symm
  | some sop =>
    rw [hop] at h h'
    exact h.2.trans h'.2.symm

/-- **What the views of a run have in common.** -/
structure Agreed (s : View × View) : Prop where
  garbler : s.1.role = .garbler
  evaluator : s.2.role = .evaluator
  inv : s.1.Inv
  shared : s.2.shared = s.1.shared

theorem Agreed.new : Agreed newViews where
  garbler := rfl
  evaluator := rfl
  inv := View.inv_new .garbler
  shared := rfl

/-- A mirrored operation is one operation of the shared view. -/
theorem Agreed.step {s t : View × View} {op : Mirrored} (h : Agreed s)
    (hstep : MirroredStep s op t) :
    Agreed t ∧ s.1.shared.MirroredStep op t.1.shared := by
  have hinv' : s.2.Inv := fun i => h.shared ▸ h.inv i
  obtain ⟨hstep, hstep'⟩ := MirroredStep.iff.mp hstep
  obtain ⟨hrole, hgb⟩ := refines_of_perform h.inv (h.garbler ▸ hstep)
  obtain ⟨hrole', hev⟩ := refines_of_perform hinv' (h.evaluator ▸ hstep')
  rw [h.shared] at hev
  exact ⟨⟨hrole.trans h.garbler, hrole'.trans h.evaluator, fun i => hgb.inv (h.inv i), hev.eq hgb⟩,
    hgb⟩

theorem Agreed.of_run {ops : List Mirrored} {s : View × View}
    (h : Run MirroredStep newViews ops s) :
    Agreed s :=
  h.invariant .new fun _ _ _ hs hstep => (hs.step hstep).1

/-- **The views agree on the flush**, and on what is committed, at every point of every run of
mirrored operations. -/
theorem views_agree {ops : List Mirrored} {gb ev : View}
    (h : Run MirroredStep newViews ops (gb, ev)) :
    gb.flush = ev.flush ∧ gb.wantsFlush = ev.wantsFlush ∧
      ∀ range, gb.isCommitted range = ev.isCommitted range := by
  have hshared := (Agreed.of_run h).shared
  have hflush : ev.flush = gb.flush := congrArg SharedView.flush hshared
  have hinput : ev.input.complete = gb.input.complete := congrArg SharedView.committed hshared
  have houtput : ev.output.complete = gb.output.complete := congrArg SharedView.executed hshared
  refine ⟨hflush.symm, ?_, fun range => ?_⟩
  · rw [View.wantsFlush, View.wantsFlush, hflush]
  · rw [View.isCommitted, View.isCommitted, hinput, houtput]

/-- An input of the garbler and one of the evaluator, of which the second is requested. -/
theorem views_agree_inputs : ∃ gb ev, Run MirroredStep newViews
    [.allocInput 2, .markPrivate .garbler ⟨0, 1⟩, .markPrivate .evaluator ⟨1, 2⟩,
      .assign .garbler ⟨0, 1⟩, .assign .evaluator ⟨1, 2⟩, .commit ⟨0, 2⟩, .decode ⟨1, 2⟩,
      .completeFlush] (gb, ev) ∧
    gb.flush = ev.flush ∧ gb.wantsFlush = ev.wantsFlush ∧
      ∀ range, gb.isCommitted range = ev.isCommitted range :=
  have run : Run MirroredStep newViews
    [.allocInput 2, .markPrivate .garbler ⟨0, 1⟩, .markPrivate .evaluator ⟨1, 2⟩,
      .assign .garbler ⟨0, 1⟩, .assign .evaluator ⟨1, 2⟩, .commit ⟨0, 2⟩, .decode ⟨1, 2⟩,
      .completeFlush] (_, _) := Run.of_exec (fun _ _ _ h => h) rfl
  ⟨_, _, run, views_agree run⟩

/-! ### Requests to decode -/

namespace SharedView

/-- The requests that are followed up at an index. -/
structure NoneLostAt (s : SharedView) (i : ℕ) : Prop where
  /-- The decode info of a preprocessed output is sent, or about to be. -/
  info : i ∈ s.decode.all → i ∈ s.preprocessed →
    i ∈ s.decode.decodeInfo ∨ i ∈ s.flush.decodeInfo
  /-- The MAC of an executed output is proven, or about to be, or its decode info comes first. -/
  output : i ∈ s.decode.all → i ∈ s.executed →
    i ∈ s.flush.decodeInfo ∨ i ∈ s.decode.complete ∨ i ∈ s.flush.decode
  /-- The MAC of a committed input of the evaluator is proven, or about to be. -/
  evaluator : i ∈ s.decode.all → i ∈ s.evaluatorInputs → i ∈ s.committed →
    i ∈ s.decode.complete ∨ i ∈ s.flush.decode
  /-- The decode info of an input of the garbler is sent, or about to be. -/
  garbler : i ∈ s.decode.all → i ∈ s.garblerInputs →
    i ∈ s.decode.decodeInfo ∨ i ∈ s.flush.decodeInfo

/-- The garbler marks no input as its own that is already requested. -/
def Unrequested (s : SharedView) : Op → Prop
  | .mark (some .garbler) range => Disjoint range.toSet s.decode.all
  | _ => True

variable {s t : SharedView} {i : ℕ}

/-- **An operation loses no request**, unless it marks a requested input as the garbler's. -/
theorem NoneLostAt.step {op : Op} (hinv : s.InvAt i) (h : s.NoneLostAt i) (hop : s.Unrequested op)
    (hstep : s.Step op t) : t.NoneLostAt i := by
  obtain ⟨hacc, rfl⟩ := hstep
  cases op with
  | mark owner range =>
    have hi : i ∈ range.toSet → ¬ s.Marked i := fun hi => (hacc.2 i hi).1
    rcases owner with _ | _ | _
    · cases h
      constructor <;> grind [apply]
    · have hall : i ∈ range.toSet → i ∉ s.decode.all := fun hi => Finset.disjoint_left.mp hop hi
      cases h
      constructor <;> grind [apply]
    · cases hinv
      cases h
      constructor <;> grind [apply, Marked]
  | decode range =>
    by_cases hc : range.toSet ⊆ s.decode.complete
    · simpa [apply, hc] using h
    · cases hinv
      cases h
      constructor <;> grind [apply]
  | setPreprocessed range =>
    have hi : i ∈ range.toSet → i ∈ s.outputs := fun hi => hacc hi
    cases hinv
    cases h
    constructor <;> grind [apply, Marked]
  | setOutput range =>
    have hi : i ∈ range.toSet → i ∈ s.outputs := fun hi => hacc hi
    cases hinv
    cases h
    constructor <;> grind [apply, Marked]
  | completeFlush =>
    cases hinv
    cases h
    constructor <;> grind [apply]
  | _ =>
    cases h
    constructor <;> grind [apply]

end SharedView

/-- The index is requested by one of the operations. -/
def Requested (ops : List Mirrored) (i : ℕ) : Prop := ∃ range, .decode range ∈ ops ∧ i ∈ range.toSet

/-- The garbler marks no input as private that is already requested. -/
def Unrequested (s : View × View) : Mirrored → Prop
  | .markPrivate .garbler range => Disjoint range.toSet s.1.decode.all
  | _ => True

instance (s : View × View) : ∀ op, Decidable (Unrequested s op)
  | .markPrivate .garbler range => inferInstanceAs (Decidable (Disjoint range.toSet s.1.decode.all))
  | .markPrivate .evaluator _ => isTrue trivial
  | .allocInput _ | .allocOutput _ | .markPublic _ | .assign _ _ | .commit _ | .decode _
  | .setPreprocessed _ | .setOutput _ | .completeFlush => isTrue trivial

/-- Every request is recorded, and none is lost. -/
structure Recorded (ops : List Mirrored) (s : View × View) : Prop extends Agreed s where
  requested : ∀ i, Requested ops i → i ∈ s.1.decode.all
  noneLost : ∀ i, s.1.shared.NoneLostAt i

theorem Requested.snoc {ops : List Mirrored} {op : Mirrored} {i : ℕ} :
    Requested (ops ++ [op]) i ↔ Requested ops i ∨ ∃ range, op = .decode range ∧
      i ∈ range.toSet := by
  simp only [Requested, List.mem_append, List.mem_singleton]
  constructor
  · rintro ⟨range, h | h, hi⟩
    · exact .inl ⟨range, h, hi⟩
    · exact .inr ⟨range, h.symm, hi⟩
  · rintro (⟨range, h, hi⟩ | ⟨range, rfl, hi⟩)
    · exact ⟨range, .inl h, hi⟩
    · exact ⟨range, .inr rfl, hi⟩

/-- What is recorded stays recorded. -/
theorem SharedView.Step.mem_all {s t : SharedView} {op : SharedView.Op} (h : s.Step op t) {i : ℕ}
    (hi : i ∈ s.decode.all) : i ∈ t.decode.all := by
  obtain ⟨-, rfl⟩ := h
  rcases op with _ | _ | ⟨_ | _ | _, _⟩ | _ | range | _ | _ | _ <;> grind [apply]

theorem SharedView.MirroredStep.mem_all {s t : SharedView} {op : Mirrored}
    (h : s.MirroredStep op t) {i : ℕ} (hi : i ∈ s.decode.all) : i ∈ t.decode.all := by
  unfold SharedView.MirroredStep at h
  split at h
  · exact h ▸ hi
  · exact h.mem_all hi

/-- A request is recorded. -/
theorem SharedView.Step.mem_all_of_request {s t : SharedView} {range : Range}
    (h : s.Step (.decode range) t) {i : ℕ} (hinv : s.InvAt i) (hi : i ∈ range.toSet) :
    i ∈ t.decode.all := by
  have hcomplete := fun hi => (hinv.decode (.inl hi)).1
  obtain ⟨-, rfl⟩ := h
  by_cases hc : range.toSet ⊆ s.decode.complete <;> grind [apply]

theorem Unrequested.shared {s : View × View} {op : Mirrored} {sop : SharedView.Op}
    (h : Unrequested s op) (hop : op.shared = some sop) : s.1.shared.Unrequested sop := by
  cases op with
  | markPrivate owner range =>
    cases hop
    cases owner with
    | garbler => exact h
    | evaluator => trivial
  | _ => cases hop <;> trivial

theorem Recorded.step {ops : List Mirrored} {s t : View × View} {op : Mirrored} (h : Recorded ops s)
    (hop : Unrequested s op) (hstep : MirroredStep s op t) : Recorded (ops ++ [op]) t := by
  obtain ⟨hagreed, hshared⟩ := h.toAgreed.step hstep
  refine ⟨hagreed, fun i hi => ?_, fun i => ?_⟩
  · rcases Requested.snoc.mp hi with hold | ⟨range, rfl, hnew⟩
    · exact hshared.mem_all (h.requested i hold)
    · exact SharedView.Step.mem_all_of_request hshared (h.inv i) hnew
  · unfold SharedView.MirroredStep at hshared
    cases hsop : op.shared with
    | none =>
      rw [hsop] at hshared
      exact hshared ▸ h.noneLost i
    | some sop =>
      rw [hsop] at hshared
      exact (h.noneLost i).step (h.inv i) (hop.shared hsop) hshared

theorem FlushView.eq_empty {flush : FlushView} (h : flush.isEmpty = true) :
    flush.macs = ∅ ∧ flush.ot = ∅ ∧ flush.decodeInfo = ∅ ∧ flush.decode = ∅ := by
  simpa [FlushView.isEmpty, and_assoc] using h

theorem Recorded.new : Recorded [] newViews where
  toAgreed := .new
  requested := fun _ ⟨_, hmem, _⟩ => absurd hmem List.not_mem_nil
  noneLost := fun i => by
    constructor <;> simp [newViews, View.newGarbler, View.new, View.shared]

/-- **No request is lost.** In a run in which the garbler marks no input as private that is already
requested, where neither view wants a flush, every requested output that is executed has its decode
info transferred and its MAC proven, every requested and committed input of the garbler has its
decode info transferred, and every requested and committed input of the evaluator is proven. -/
theorem no_decode_lost {ops : List Mirrored} {gb ev : View}
    (h : Run (fun s op t => Unrequested s op ∧ MirroredStep s op t) newViews ops (gb, ev))
    (hgb : gb.wantsFlush = false) (_hev : ev.wantsFlush = false) {i : ℕ} (hi : Requested ops i) :
    (i ∈ gb.output.complete →
      (i ∈ gb.decode.decodeInfo ∧ i ∈ gb.decode.complete) ∧
        i ∈ ev.decode.decodeInfo ∧ i ∈ ev.decode.complete) ∧
    (i ∈ gb.vis.privateRanges → i ∈ gb.input.complete →
      i ∈ gb.decode.decodeInfo ∧ i ∈ ev.decode.decodeInfo) ∧
    (i ∈ ev.vis.privateRanges → i ∈ ev.input.complete →
      i ∈ gb.decode.complete ∧ i ∈ ev.decode.complete) := by
  have hrec : Recorded ops (gb, ev) := h.invariant_labels Recorded.new fun _ _ _ _ hs hstep =>
    hs.step hstep.1 hstep.2
  have hall : i ∈ gb.decode.all := hrec.requested i hi
  have hinv := hrec.inv i
  have hlost := hrec.noneLost i
  have hdecode : ev.decode = gb.decode := congrArg SharedView.decode hrec.shared
  have hcommitted : ev.input.complete = gb.input.complete :=
    congrArg SharedView.committed hrec.shared
  have hgarbler : gb.shared.garblerInputs = gb.vis.privateRanges := by
    have hrole : gb.role = .garbler := hrec.garbler
    simp only [View.shared, hrole]
  have hevaluator : gb.shared.evaluatorInputs = ev.vis.privateRanges := by
    have hrole : ev.role = .evaluator := hrec.evaluator
    rw [← congrArg SharedView.evaluatorInputs hrec.shared]
    simp only [View.shared, hrole]
  obtain ⟨-, -, hinfo, hmacs⟩ := FlushView.eq_empty (by simpa [View.wantsFlush] using hgb)
  have hinfo : i ∉ gb.shared.flush.decodeInfo := by simp [View.shared, hinfo]
  have hmacs : i ∉ gb.shared.flush.decode := by simp [View.shared, hmacs]
  rw [hdecode, hcommitted, ← hgarbler, ← hevaluator]
  refine ⟨fun hexe => ?_, fun hown _ => ?_, fun hown hcom => ?_⟩
  · have hsent := (hlost.info hall (hinv.executed hexe)).resolve_right hinfo
    have hproven := ((hlost.output hall hexe).resolve_left hinfo).resolve_right hmacs
    exact ⟨⟨hsent, hproven⟩, hsent, hproven⟩
  · have hsent := (hlost.garbler hall hown).resolve_right hinfo
    exact ⟨hsent, hsent⟩
  · have hproven := (hlost.evaluator hall hown hcom).resolve_right hmacs
    exact ⟨hproven, hproven⟩

/-- An output that is requested before it is preprocessed, and executed between two flushes. -/
theorem no_decode_lost_output : ∃ gb ev, Run (fun s op t => Unrequested s op ∧ MirroredStep s op t)
    newViews [.allocOutput 1, .decode ⟨0, 1⟩, .setPreprocessed ⟨0, 1⟩, .completeFlush,
      .setOutput ⟨0, 1⟩, .completeFlush] (gb, ev) ∧
    (0 ∈ gb.output.complete →
      (0 ∈ gb.decode.decodeInfo ∧ 0 ∈ gb.decode.complete) ∧
        0 ∈ ev.decode.decodeInfo ∧ 0 ∈ ev.decode.complete) ∧
    (0 ∈ gb.vis.privateRanges → 0 ∈ gb.input.complete →
      0 ∈ gb.decode.decodeInfo ∧ 0 ∈ ev.decode.decodeInfo) ∧
    (0 ∈ ev.vis.privateRanges → 0 ∈ ev.input.complete →
      0 ∈ gb.decode.complete ∧ 0 ∈ ev.decode.complete) :=
  have run : Run (fun s op t => Unrequested s op ∧ MirroredStep s op t)
    newViews [.allocOutput 1, .decode ⟨0, 1⟩, .setPreprocessed ⟨0, 1⟩, .completeFlush,
      .setOutput ⟨0, 1⟩, .completeFlush] (_, _) :=
    Run.of_isSome (fun s op => if Unrequested s op then mirror s op else none)
      (fun _ _ _ h => Option.ite_none_right_eq_some.mp h) rfl
  ⟨_, _, run, no_decode_lost run rfl rfl (i := 0) ⟨⟨0, 1⟩, by decide, by decide⟩⟩

/-- **The order that is missed.** The garbler's input is requested, then marked, assigned and
committed. Nothing is left to flush, and its decode info was never sent. -/
theorem decode_lost : ∃ gb ev, Run MirroredStep newViews
    [.allocInput 1, .decode ⟨0, 1⟩, .markPrivate .garbler ⟨0, 1⟩, .assign .garbler ⟨0, 1⟩,
      .commit ⟨0, 1⟩, .completeFlush] (gb, ev) ∧
    gb.wantsFlush = false ∧ ev.wantsFlush = false ∧
    0 ∈ gb.vis.privateRanges ∧ 0 ∈ gb.input.complete ∧ 0 ∉ gb.decode.decodeInfo ∧
      0 ∉ ev.decode.decodeInfo :=
  have run : Run MirroredStep newViews
    [.allocInput 1, .decode ⟨0, 1⟩, .markPrivate .garbler ⟨0, 1⟩, .assign .garbler ⟨0, 1⟩,
      .commit ⟨0, 1⟩, .completeFlush] (_, _) := Run.of_exec (fun _ _ _ h => h) rfl
  ⟨_, _, run, rfl, rfl, by decide, by decide, by decide, by decide⟩

end Mpz.Garble
