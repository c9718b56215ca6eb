import Mpz.Lib.Run
import Mpz.Memory.Visibility

/-!
# The memory view of a garbling party

A view records what is allocated, assigned, committed, executed and to be decoded, and which ranges
the next flush is about. Garbler and evaluator run the same code on mirrored visibilities, and
compute the flush from different sets of it.

## Main definitions

* `FlushView`, `View`
* `View.commit`, `View.requestDecode`, `View.setPreprocessed`, `View.setOutput`,
  `View.completeFlush`
* `View.Op`, `View.Op.run` — the operations

## Main results

* `View.Op.run_eq` — a refused operation changes nothing
-/

namespace Mpz.Garble

/-- The two parties. -/
inductive Role where
  /-- The garbler. -/
  | garbler
  /-- The evaluator. -/
  | evaluator
  deriving DecidableEq, Repr

/-- The inputs. -/
structure InputView where
  /-- Ranges which have been assigned. -/
  assigned : RangeSet := ∅
  /-- Ranges which are fully committed in both parties views. -/
  complete : RangeSet := ∅
  /-- All input ranges. -/
  all : RangeSet := ∅

/-- The outputs. -/
structure OutputView where
  /-- Output ranges which are preprocessed but not executed. -/
  preprocessed : RangeSet := ∅
  /-- Output ranges which are executed. -/
  complete : RangeSet := ∅
  /-- All output ranges. -/
  all : RangeSet := ∅

/-- The decoded ranges. -/
structure DecodeView where
  /-- Ranges which have decode info sent. -/
  decodeInfo : RangeSet := ∅
  /-- Ranges which have already been decoded. -/
  complete : RangeSet := ∅
  /-- All ranges which are to be decoded. -/
  all : RangeSet := ∅

/-- Information on the content of the expected flushes. -/
structure FlushView where
  /-- Ranges for which the garbler is to send MACs. -/
  macs : RangeSet := ∅
  /-- Ranges for which the garbler is to send MACs using oblivious transfer. -/
  ot : RangeSet := ∅
  /-- Ranges for which the garbler is to send key bits for decoding. -/
  decodeInfo : RangeSet := ∅
  /-- Ranges for which the evaluator is to prove MACs for decoding. -/
  decode : RangeSet := ∅
  deriving DecidableEq

/-- Returns `true` if the flush state is empty. -/
def FlushView.isEmpty (self : FlushView) : Bool :=
  decide (self.macs = ∅) && decide (self.ot = ∅) && decide (self.decodeInfo = ∅) &&
    decide (self.decode = ∅)

/-- Error of a view. -/
inductive ViewError where
  /-- visibility not set -/
  | visibilityNotSet (range : Range)
  /-- visibility already set -/
  | visibilityAlreadySet (range : Range)
  /-- assigning blind data is not allowed -/
  | visibilityAssign (range : Range)
  /-- setting visibility of output is not allowed -/
  | visibilityOutput (range : Range)
  /-- must assign visible data -/
  | notAssigned (range : Range)
  /-- already committed -/
  | alreadyCommitted (range : Range)
  /-- assigning to output is not allowed -/
  | outputAssign (range : Range)
  /-- committing output is not allowed -/
  | outputCommit (range : Range)
  /-- attempted to treat input as output -/
  | notOutput (range : Range)
  deriving DecidableEq, Repr

/-- A party's view. -/
structure View where
  /-- The party. -/
  role : Role
  /-- The number of allocated indices. -/
  len : ℕ
  /-- The inputs. -/
  input : InputView
  /-- The outputs. -/
  output : OutputView
  /-- The visibilities. -/
  vis : VisibilityView
  /-- The decoded ranges. -/
  decode : DecodeView
  /-- The next flush. -/
  flush : FlushView
  len_vis : vis.len = len

namespace View

/-- A view of nothing. -/
def new (role : Role) : View where
  role := role
  len := 0
  input := {}
  output := {}
  vis := .new
  decode := {}
  flush := {}
  len_vis := VisibilityView.len_new

/-- `View::new_garbler` -/
def newGarbler : View := new .garbler

/-- `View::new_evaluator` -/
def newEvaluator : View := new .evaluator

/-- Whether the range is allocated. -/
def isAlloc (self : View) (range : Range) : Bool := decide (range.stop ≤ self.len)

/-- Whether the next flush has something to do. -/
def wantsFlush (self : View) : Bool := !self.flush.isEmpty

/-- Whether the range is committed, as input or as output. -/
def isCommitted (self : View) (range : Range) : Bool :=
  decide (range.toSet ⊆ self.input.complete) || decide (range.toSet ⊆ self.output.complete)

/-- The range that the next allocation returns. -/
def nextRange (self : View) (size : ℕ) : Range := ⟨self.len, self.len + size⟩

/-- `View::alloc` -/
def alloc (self : View) (size : ℕ) : View :=
  { self with
    len := self.len + size
    vis := self.vis.alloc size
    len_vis := congrArg (· + size) self.len_vis }

/-- Allocates input memory. -/
def allocInput (size : ℕ) : Method View ViewError Unit :=
  Method.modify fun self =>
    { self.alloc size with
      input := { self.input with all := self.input.all ∪ (self.nextRange size).toSet } }

/-- Allocates output memory. -/
def allocOutput (size : ℕ) : Method View ViewError Unit :=
  Method.modify fun self =>
    { self.alloc size with
      output := { self.output with all := self.output.all ∪ (self.nextRange size).toSet } }

/-- `mark_public`, `mark_private` and `mark_blind`. -/
def mark (visibility : Visibility) (range : Range) : Method View ViewError Unit := do
  let self ← Method.get
  if self.vis.isSetAny range then
    Method.throw (.visibilityAlreadySet range)
  else if ¬ Disjoint range.toSet self.output.all then
    Method.throw (.visibilityOutput range)
  -- The setter asserts that the range is allocated.
  else if h : range.stop ≤ self.vis.len then
    Method.modify fun _ =>
      { self with vis := self.vis.set visibility range h, len_vis := self.len_vis }
  else
    Method.panic

/-- `View::mark_public` -/
def markPublic (range : Range) : Method View ViewError Unit := mark .pub range

/-- `View::mark_private` -/
def markPrivate (range : Range) : Method View ViewError Unit := mark .priv range

/-- `View::mark_blind` -/
def markBlind (range : Range) : Method View ViewError Unit := mark .blind range

/-- Records that a range is assigned. -/
def assign (range : Range) : Method View ViewError Unit := do
  let self ← Method.get
  if ¬ self.vis.isVisible range then
    Method.throw (.visibilityAssign range)
  else if ¬ Disjoint range.toSet self.output.all then
    Method.throw (.outputAssign range)
  else
    Method.modify fun self =>
      { self with input := { self.input with assigned := self.input.assigned ∪ range.toSet } }

/-- Marks an output range as preprocessed. -/
def setPreprocessed (range : Range) : Method View ViewError Unit := do
  let self ← Method.get
  -- Assert is output.
  if ¬ range.toSet ⊆ self.output.all then
    Method.throw (.notOutput range)
  else
    Method.modify fun self =>
      { self with
        output := { self.output with preprocessed := self.output.preprocessed ∪ range.toSet }
        -- If marked for decoding, transfer decode info.
        flush := { self.flush with
          decodeInfo := self.flush.decodeInfo ∪
            ((range.toSet ∩ self.decode.all) \ self.decode.complete) } }

/-- Marks an output range as complete. -/
def setOutput (range : Range) : Method View ViewError Unit := do
  let self ← Method.get
  -- Assert is output.
  if ¬ range.toSet ⊆ self.output.all then
    Method.throw (.notOutput range)
  else
    Method.modify fun self =>
      { self with
        output := { self.output with
          preprocessed := self.output.preprocessed ∪ range.toSet
          complete := self.output.complete ∪ range.toSet }
        flush := { self.flush with
          -- If marked for decoding, transfer decode info.
          decodeInfo := self.flush.decodeInfo ∪
            ((range.toSet ∩ self.decode.all) \ self.decode.decodeInfo)
          -- If decoding info transferred, prove MACs.
          decode := self.flush.decode ∪
            ((range.toSet ∩ self.decode.decodeInfo) \ self.decode.complete) } }

/-- Commits an input range. -/
def commit (range : Range) : Method View ViewError Unit := do
  let self ← Method.get
  -- Assert visibility is set.
  if ¬ self.vis.isSet range then
    Method.throw (.visibilityNotSet range)
  -- Assert not output data.
  else if ¬ Disjoint range.toSet self.output.all then
    Method.throw (.outputCommit range)
  -- Assert not committed.
  else if ¬ Disjoint range.toSet self.input.complete then
    Method.throw (.alreadyCommitted range)
  else
    let blind := range.toSet ∩ self.vis.blindRanges
    let priv := range.toSet ∩ self.vis.privateRanges
    let pub := range.toSet ∩ self.vis.publicRanges
    -- Assert visible data is assigned.
    if ¬ pub ⊆ self.input.assigned ∨ ¬ priv ⊆ self.input.assigned then
      Method.throw (.notAssigned range)
    else
      Method.modify fun self => match self.role with
        | .garbler =>
          { self with flush := { self.flush with
              -- Send MACs for visible data.
              macs := self.flush.macs ∪ (pub ∪ priv)
              -- Send MACs with OT for blind data.
              ot := self.flush.ot ∪ blind } }
        | .evaluator =>
          { self with flush := { self.flush with
              -- Receive MACs for public and blind data.
              macs := self.flush.macs ∪ (pub ∪ blind)
              -- Receive MACs with OT for private data.
              ot := self.flush.ot ∪ priv } }

/-- `View::decode`: requests a range to be decoded. -/
def requestDecode (range : Range) : Method View ViewError Unit := do
  let self ← Method.get
  -- Ignore already decoded data.
  let undecoded := range.toSet \ self.decode.complete
  if undecoded = ∅ then
    return ()
  else
    let input := range.toSet ∩ self.input.all
    let output := range.toSet ∩ self.output.all
    -- Only send decode info for output data and garbler's inputs.
    let decodableInput := match self.role with
      | .garbler => input ∩ self.vis.privateRanges
      | .evaluator => input ∩ self.vis.blindRanges
    let decodable := decodableInput ∪ (output ∩ self.output.preprocessed)
    -- Only prove MACs for output data and evaluator's inputs.
    let provable := match self.role with
      | .garbler => ((input \ self.vis.visibleRanges) ∩ self.input.complete) ∪
          (output ∩ self.output.complete)
      | .evaluator => ((input ∩ self.vis.privateRanges) ∩ self.input.complete) ∪
          (output ∩ self.output.complete)
    Method.modify fun self =>
      { self with
        decode := { self.decode with all := self.decode.all ∪ undecoded }
        flush := { self.flush with
          -- Only send decode info if it hasn't been sent already.
          decodeInfo := self.flush.decodeInfo ∪ (decodable \ self.decode.decodeInfo)
          decode := self.flush.decode ∪ provable } }

/-- Records that the flush is complete, and starts the next one. -/
def completeFlush : Method View ViewError Unit :=
  Method.modify fun self =>
    let input := { self.input with
      complete := self.input.complete ∪ self.flush.macs ∪ self.flush.ot }
    let decode := { self.decode with
      decodeInfo := self.decode.decodeInfo ∪ self.flush.decodeInfo
      complete := self.decode.complete ∪ self.flush.decode }
    let readyInputs := self.flush.ot ∩ decode.all
    let readyOutputs := (self.flush.decodeInfo ∩ self.output.complete) \ decode.complete
    -- Decode evaluator inputs and outputs if they are ready.
    { self with input, decode, flush := { decode := readyInputs ∪ readyOutputs } }

/-- The operations of a view. -/
inductive Op where
  /-- `alloc_input` -/
  | allocInput (size : ℕ)
  /-- `alloc_output` -/
  | allocOutput (size : ℕ)
  /-- `mark_public`, `mark_private` or `mark_blind` -/
  | mark (visibility : Visibility) (range : Range)
  /-- `assign` -/
  | assign (range : Range)
  /-- `commit` -/
  | commit (range : Range)
  /-- `decode` -/
  | decode (range : Range)
  /-- `set_preprocessed` -/
  | setPreprocessed (range : Range)
  /-- `set_output` -/
  | setOutput (range : Range)
  /-- `complete_flush` -/
  | completeFlush
  deriving DecidableEq, Repr

/-- The operation, as a call. -/
def Op.run : Op → Method View ViewError Unit
  | allocInput size => View.allocInput size
  | allocOutput size => View.allocOutput size
  | mark visibility range => View.mark visibility range
  | assign range => View.assign range
  | commit range => View.commit range
  | decode range => View.requestDecode range
  | setPreprocessed range => View.setPreprocessed range
  | setOutput range => View.setOutput range
  | completeFlush => View.completeFlush

/-! ### What an accepted operation has checked -/

variable {v w : View} {u : Unit} {range : Range}

theorem mark_eq_ok {visibility : Visibility} (h : mark visibility range v = (.ok u, w)) :
    v.vis.isSetAny range = false ∧ Disjoint range.toSet v.output.all ∧
      ∃ hlen : range.stop ≤ v.vis.len,
        w = { v with vis := v.vis.set visibility range hlen, len_vis := v.len_vis } := by
  rw [mark, Method.get_bind, Method.guard_eq_ok, Method.guard_eq_ok] at h
  obtain ⟨hset, hdisj, h⟩ := h
  by_cases hlen : range.stop ≤ v.vis.len
  · rw [dif_pos hlen] at h
    exact ⟨by simpa using hset, not_not.mp hdisj, hlen, (Prod.mk.inj h).2.symm⟩
  · rw [dif_neg hlen] at h
    exact absurd (Prod.mk.inj h).1 nofun

theorem assign_eq_ok (h : assign range v = (.ok u, w)) :
    range.toSet ⊆ v.vis.visibleRanges ∧ Disjoint range.toSet v.output.all ∧
      w = { v with input := { v.input with assigned := v.input.assigned ∪ range.toSet } } := by
  rw [assign, Method.get_bind, Method.guard_eq_ok, Method.guard_eq_ok] at h
  obtain ⟨hvis, hdisj, h⟩ := h
  exact ⟨by simpa [VisibilityView.isVisible] using hvis, not_not.mp hdisj,
    (Prod.mk.inj h).2.symm⟩

theorem setPreprocessed_eq_ok (h : setPreprocessed range v = (.ok u, w)) :
    range.toSet ⊆ v.output.all ∧ w =
      { v with
        output := { v.output with preprocessed := v.output.preprocessed ∪ range.toSet }
        flush := { v.flush with
          decodeInfo := v.flush.decodeInfo ∪
            ((range.toSet ∩ v.decode.all) \ v.decode.complete) } } := by
  rw [setPreprocessed, Method.get_bind, Method.guard_eq_ok] at h
  exact ⟨not_not.mp h.1, (Prod.mk.inj h.2).2.symm⟩

theorem setOutput_eq_ok (h : setOutput range v = (.ok u, w)) :
    range.toSet ⊆ v.output.all ∧ w =
      { v with
        output := { v.output with
          preprocessed := v.output.preprocessed ∪ range.toSet
          complete := v.output.complete ∪ range.toSet }
        flush := { v.flush with
          decodeInfo := v.flush.decodeInfo ∪
            ((range.toSet ∩ v.decode.all) \ v.decode.decodeInfo)
          decode := v.flush.decode ∪
            ((range.toSet ∩ v.decode.decodeInfo) \ v.decode.complete) } } := by
  rw [setOutput, Method.get_bind, Method.guard_eq_ok] at h
  exact ⟨not_not.mp h.1, (Prod.mk.inj h.2).2.symm⟩

theorem requestDecode_eq_ok (h : requestDecode range v = (.ok u, w)) :
    ∃ decode flush, w = { v with decode, flush } ∧ decode.complete = v.decode.complete := by
  rw [requestDecode, Method.get_bind, Method.ite_apply] at h
  split at h
  · exact ⟨v.decode, v.flush, (Prod.mk.inj h).2.symm, rfl⟩
  · exact ⟨_, _, (Prod.mk.inj h).2.symm, rfl⟩

theorem commit_eq_ok (h : commit range v = (.ok u, w)) :
    v.vis.isSet range = true ∧ Disjoint range.toSet v.output.all ∧
      Disjoint range.toSet v.input.complete ∧
      range.toSet ∩ v.vis.publicRanges ⊆ v.input.assigned ∧
      range.toSet ∩ v.vis.privateRanges ⊆ v.input.assigned ∧
      w = { v with flush := { v.flush with
        macs := v.flush.macs ∪ (range.toSet ∩ v.vis.publicRanges ∪ range.toSet ∩
          match v.role with | .garbler => v.vis.privateRanges | .evaluator => v.vis.blindRanges)
        ot := v.flush.ot ∪ range.toSet ∩
          match v.role with
          | .garbler => v.vis.blindRanges
          | .evaluator => v.vis.privateRanges } } := by
  rw [commit, Method.get_bind, Method.guard_eq_ok, Method.guard_eq_ok, Method.guard_eq_ok,
    Method.guard_eq_ok] at h
  obtain ⟨hset, hout, hin, hass, h⟩ := h
  rw [not_or, not_not, not_not] at hass
  refine ⟨by simpa using hset, not_not.mp hout, not_not.mp hin, hass.1, hass.2, ?_⟩
  rw [← (Prod.mk.inj h).2]
  rcases v with ⟨role⟩
  cases role <;> rfl

/-- **A refused operation changes nothing.** -/
theorem Op.run_eq {op : Op} {o : Outcome ViewError Unit} (ho : o ≠ .ok ())
    (h : op.run v = (o, w)) : w = v := by
  have hok : ∀ {f : View → View}, Method.modify f v = (o, w) → w = v := fun h =>
    absurd (Prod.mk.inj h).1.symm ho
  cases op with
  | allocInput size => exact absurd (congrArg Prod.fst h).symm ho
  | allocOutput size => exact absurd (congrArg Prod.fst h).symm ho
  | mark visibility range =>
    refine Method.guard_unchanged (Method.guard_unchanged fun h => ?_) h
    split at h
    · exact hok h
    · exact (Prod.mk.inj h).2.symm
  | assign range => exact Method.guard_unchanged (Method.guard_unchanged hok) h
  | commit range =>
    exact Method.guard_unchanged (Method.guard_unchanged (Method.guard_unchanged
      (Method.guard_unchanged hok))) h
  | decode range =>
    rw [run, requestDecode, Method.get_bind, Method.ite_apply] at h
    split at h
    · exact absurd (Prod.mk.inj h).1.symm ho
    · exact hok h
  | setPreprocessed range => exact Method.guard_unchanged hok h
  | setOutput range => exact Method.guard_unchanged hok h
  | completeFlush => exact absurd (congrArg Prod.fst h).symm ho

/-- What is visible stays visible, and only a flush decodes. -/
theorem Op.run_eq_ok {op : Op} (h : op.run v = (.ok u, w)) :
    v.vis.visibleRanges ⊆ w.vis.visibleRanges ∧ w.decode.complete =
      if op = .completeFlush then v.decode.complete ∪ v.flush.decode else v.decode.complete := by
  cases op with
  | allocInput size =>
    obtain rfl := (Prod.mk.inj h).2
    exact ⟨fun _ hi => hi, rfl⟩
  | allocOutput size =>
    obtain rfl := (Prod.mk.inj h).2
    exact ⟨fun _ hi => hi, rfl⟩
  | mark visibility range =>
    obtain ⟨hset, -, hlen, rfl⟩ := mark_eq_ok h
    exact ⟨fun i hi => VisibilityView.mem_visible_set (h := hlen) hset hi, rfl⟩
  | assign range =>
    obtain ⟨-, -, rfl⟩ := assign_eq_ok h
    exact ⟨fun _ hi => hi, rfl⟩
  | commit range =>
    obtain ⟨-, -, -, -, -, rfl⟩ := commit_eq_ok h
    exact ⟨fun _ hi => hi, rfl⟩
  | decode range =>
    obtain ⟨decode, flush, rfl, hcomplete⟩ := requestDecode_eq_ok h
    exact ⟨fun _ hi => hi, hcomplete⟩
  | setPreprocessed range =>
    obtain ⟨-, rfl⟩ := setPreprocessed_eq_ok h
    exact ⟨fun _ hi => hi, rfl⟩
  | setOutput range =>
    obtain ⟨-, rfl⟩ := setOutput_eq_ok h
    exact ⟨fun _ hi => hi, rfl⟩
  | completeFlush =>
    obtain rfl := (Prod.mk.inj h).2
    exact ⟨fun _ hi => hi, rfl⟩

/-- The view performs the operation, or none. -/
def Performs (op : Option Op) (v w : View) : Prop :=
  w = v ∨ ∃ vop, op = some vop ∧ vop.run v = (.ok (), w)

theorem Performs.refl (op : Option Op) (v : View) : Performs op v v := .inl rfl

/-- An operation is performed, or refused. -/
theorem Op.run_performs (op : Op) : op.run.Moves id (Performs (some op)) := by
  intro v
  rcases h : op.run v with ⟨o, w⟩
  by_cases ho : o = .ok ()
  · subst ho
    exact .inr ⟨op, rfl, h⟩
  · exact .inl (run_eq ho h)

end View

end Mpz.Garble
