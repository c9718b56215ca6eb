import Mpz.Lib.Run
import Mpz.Memory.Visibility

/-!
# The memory view of a party of the zero-knowledge protocol

A view records what is allocated, assigned, committed, executed and to be decoded, and which inputs
the next flush commits and which values it proves. Prover and verifier run the same code on mirrored
visibilities.

## Main definitions

* `FlushView`, `View`
* `View.commit`, `View.requestDecode`, `View.setOutput`, `View.completeFlush`
* `View.Op`, `View.Op.run` — the operations

## Main results

* `View.Op.run_eq` — a refused operation changes nothing
* `View.Inv.run` — how the sets of a reachable view lie to each other
-/

namespace Mpz.Zk

/-- The two parties. -/
inductive Role where
  /-- The prover. -/
  | prover
  /-- The verifier. -/
  | verifier
  deriving DecidableEq, Repr

/-- The inputs. -/
structure InputView where
  /-- Ranges which have been assigned. -/
  assigned : RangeSet := ∅
  /-- Ranges which are fully committed in both parties' views. -/
  complete : RangeSet := ∅
  /-- All input ranges. -/
  all : RangeSet := ∅
  deriving DecidableEq

/-- The outputs. -/
structure OutputView where
  /-- Ranges which have been computed and thus are fully committed in both parties' views. -/
  complete : RangeSet := ∅
  /-- All output ranges. -/
  all : RangeSet := ∅
  deriving DecidableEq

/-- A view into the decoded ranges. A range is considered decoded when its value becomes known to
both parties. -/
structure DecodeView where
  /-- Ranges which have already been decoded. -/
  complete : RangeSet := ∅
  /-- All ranges which are to be decoded. -/
  all : RangeSet := ∅
  deriving DecidableEq

/-- What the next flush is about. -/
structure FlushView where
  /-- Ranges which the Prover is to commit. -/
  commit : RangeSet := ∅
  /-- Ranges which the Prover is to prove. -/
  prove : RangeSet := ∅
  deriving DecidableEq

/-- Returns `true` if the state is empty. -/
def FlushView.isEmpty (self : FlushView) : Bool :=
  decide (self.commit = ∅) && decide (self.prove = ∅)

/-- Error of a view. -/
inductive ViewError where
  /-- visibility not set -/
  | visibilityNotSet (range : Range)
  /-- visibility already set -/
  | visibilityAlreadySet (range : Range)
  /-- assigning blind data is not allowed -/
  | visibilityAssign (range : Range)
  /-- setting visibility of output is not allowed -/
  | visibilityOutput (range : Range)
  /-- must assign visible data -/
  | notAssigned (range : Range)
  /-- already committed -/
  | alreadyCommitted (range : Range)
  /-- assigning to output is not allowed -/
  | outputAssign (range : Range)
  /-- committing output is not allowed -/
  | outputCommit (range : Range)
  /-- attempted to treat input as output -/
  | notOutput (range : Range)
  deriving DecidableEq, Repr

/-- A party's view. -/
structure View where
  /-- The party. -/
  role : Role
  /-- The number of allocated indices. -/
  len : ℕ
  /-- The inputs. -/
  input : InputView
  /-- The outputs. -/
  output : OutputView
  /-- The visibilities. -/
  vis : VisibilityView
  /-- The decoded ranges. -/
  decode : DecodeView
  /-- The next flush. -/
  flush : FlushView
  len_vis : vis.len = len

namespace View

/-- A view of nothing. -/
def new (role : Role) : View where
  role := role
  len := 0
  input := {}
  output := {}
  vis := .new
  decode := {}
  flush := {}
  len_vis := VisibilityView.len_new

/-- `View::new_prover` -/
def newProver : View := new .prover

/-- `View::new_verifier` -/
def newVerifier : View := new .verifier

/-- Whether the range is allocated. -/
def isAlloc (self : View) (range : Range) : Bool := decide (range.stop ≤ self.len)

/-- Whether the next flush has something to do. -/
def wantsFlush (self : View) : Bool := !self.flush.isEmpty

/-- Whether the range is committed, as input or as output. -/
def isCommitted (self : View) (range : Range) : Bool :=
  decide (range.toSet ⊆ self.input.complete) || decide (range.toSet ⊆ self.output.complete)

/-- The range that the next allocation returns. -/
def nextRange (self : View) (size : ℕ) : Range := ⟨self.len, self.len + size⟩

/-- `View::alloc` -/
def alloc (self : View) (size : ℕ) : View :=
  { self with
    len := self.len + size
    vis := self.vis.alloc size
    len_vis := congrArg (· + size) self.len_vis }

/-- Allocates input memory. -/
def allocInput (size : ℕ) : Method View ViewError Unit :=
  Method.modify fun self =>
    { self.alloc size with
      input := { self.input with all := self.input.all ∪ (self.nextRange size).toSet } }

/-- Allocates output memory. -/
def allocOutput (size : ℕ) : Method View ViewError Unit :=
  Method.modify fun self =>
    { self.alloc size with
      output := { self.output with all := self.output.all ∪ (self.nextRange size).toSet } }

/-- `mark_public`, `mark_private` and `mark_blind`. -/
def mark (visibility : Visibility) (range : Range) : Method View ViewError Unit := do
  let self ← Method.get
  if self.vis.isSetAny range then
    Method.throw (.visibilityAlreadySet range)
  else if ¬ Disjoint range.toSet self.output.all then
    Method.throw (.visibilityOutput range)
  -- The setter asserts that the range is allocated.
  else if h : range.stop ≤ self.vis.len then
    Method.modify fun _ =>
      { self with vis := self.vis.set visibility range h, len_vis := self.len_vis }
  else
    Method.panic

/-- `View::mark_public` -/
def markPublic (range : Range) : Method View ViewError Unit := mark .pub range

/-- `View::mark_private` -/
def markPrivate (range : Range) : Method View ViewError Unit := mark .priv range

/-- `View::mark_blind` -/
def markBlind (range : Range) : Method View ViewError Unit := mark .blind range

/-- Records that a range is assigned. -/
def assign (range : Range) : Method View ViewError Unit := do
  let self ← Method.get
  if ¬ self.vis.isVisible range then
    Method.throw (.visibilityAssign range)
  else if ¬ Disjoint range.toSet self.output.all then
    Method.throw (.outputAssign range)
  else
    Method.modify fun self =>
      { self with input := { self.input with assigned := self.input.assigned ∪ range.toSet } }

/-- Marks an output range as complete. -/
def setOutput (range : Range) : Method View ViewError Unit := do
  let self ← Method.get
  -- Assert is output.
  if ¬ range.toSet ⊆ self.output.all then
    Method.throw (.notOutput range)
  else
    Method.modify fun self =>
      { self with
        output := { self.output with complete := self.output.complete ∪ range.toSet }
        -- If marked for decoding, prove MACs.
        flush := { self.flush with
          prove := self.flush.prove ∪ (range.toSet ∩ self.decode.all) } }

/-- Commits an input range. -/
def commit (range : Range) : Method View ViewError Unit := do
  let self ← Method.get
  -- Assert visibility is set.
  if ¬ self.vis.isSet range then
    Method.throw (.visibilityNotSet range)
  -- Assert not output data.
  else if ¬ Disjoint range.toSet self.output.all then
    Method.throw (.outputCommit range)
  -- Assert not committed.
  else if ¬ Disjoint range.toSet self.input.complete then
    Method.throw (.alreadyCommitted range)
  else
    let blind := range.toSet ∩ self.vis.blindRanges
    let priv := range.toSet ∩ self.vis.privateRanges
    let pub := range.toSet ∩ self.vis.publicRanges
    -- Assert data is assigned.
    if ¬ pub ⊆ self.input.assigned ∨ ¬ priv ⊆ self.input.assigned then
      Method.throw (.notAssigned range)
    else
      Method.modify fun self =>
        { self with
          -- Mark as complete if public.
          input := { self.input with complete := self.input.complete ∪ pub }
          flush := { self.flush with
            commit := self.flush.commit ∪
              match self.role with
              | .prover => priv
              | .verifier => blind } }

/-- `View::decode`: stages a to-be-decoded range for proving. -/
def requestDecode (range : Range) : Method View ViewError Unit := do
  let self ← Method.get
  -- Ignore already decoded data.
  let undecoded := range.toSet \ self.decode.complete
  if undecoded = ∅ then
    return ()
  else
    let input := undecoded ∩ self.input.all
    let output := undecoded ∩ self.output.all
    let decodableInput := match self.role with
      | .prover => input ∩ self.vis.privateRanges
      | .verifier => input \ self.vis.visibleRanges
    Method.modify fun self =>
      { self with
        decode := { self.decode with all := self.decode.all ∪ undecoded }
        flush := { self.flush with
          prove := self.flush.prove ∪
            ((decodableInput ∩ self.input.complete) ∪ (output ∩ self.output.complete)) } }

/-- Records that the flush `view` is complete, and starts the next one. -/
def completeFlush (view : FlushView) : Method View ViewError Unit :=
  Method.modify fun self =>
    { self with
      -- We don't allow outputs to be explicitely committed, only inputs.
      input := { self.input with complete := self.input.complete ∪ view.commit }
      -- Since the verifier learned the plaintext of the proven ranges, those ranges are now
      -- decoded.
      decode := { self.decode with complete := self.decode.complete ∪ view.prove }
      -- Those to-be-decoded inputs which were committed can be proven now.
      flush := { prove := view.commit ∩ self.decode.all } }

/-- The operations of a view. -/
inductive Op where
  /-- `alloc_input` -/
  | allocInput (size : ℕ)
  /-- `alloc_output` -/
  | allocOutput (size : ℕ)
  /-- `mark_public`, `mark_private` or `mark_blind` -/
  | mark (visibility : Visibility) (range : Range)
  /-- `assign` -/
  | assign (range : Range)
  /-- `commit` -/
  | commit (range : Range)
  /-- `decode` -/
  | decode (range : Range)
  /-- `set_output` -/
  | setOutput (range : Range)
  /-- `complete_flush`, of the view's own flush -/
  | completeFlush
  deriving DecidableEq, Repr

/-- The operation, as a call. Both stores complete the flush that the view is about. -/
def Op.run : Op → Method View ViewError Unit
  | allocInput size => View.allocInput size
  | allocOutput size => View.allocOutput size
  | mark visibility range => View.mark visibility range
  | assign range => View.assign range
  | commit range => View.commit range
  | decode range => View.requestDecode range
  | setOutput range => View.setOutput range
  | completeFlush => do
    let self ← Method.get
    View.completeFlush self.flush

/-! ### What an accepted operation has checked -/

variable {v w : View} {u : Unit} {range : Range}

theorem mark_eq_ok {visibility : Visibility} (h : mark visibility range v = (.ok u, w)) :
    v.vis.isSetAny range = false ∧ Disjoint range.toSet v.output.all ∧
      ∃ hlen : range.stop ≤ v.vis.len,
        w = { v with vis := v.vis.set visibility range hlen, len_vis := v.len_vis } := by
  rw [mark, Method.get_bind, Method.guard_eq_ok, Method.guard_eq_ok] at h
  obtain ⟨hset, hdisj, h⟩ := h
  by_cases hlen : range.stop ≤ v.vis.len
  · rw [dif_pos hlen] at h
    exact ⟨by simpa using hset, not_not.mp hdisj, hlen, (Prod.mk.inj h).2.symm⟩
  · rw [dif_neg hlen] at h
    exact absurd (Prod.mk.inj h).1 nofun

theorem assign_eq_ok (h : assign range v = (.ok u, w)) :
    range.toSet ⊆ v.vis.visibleRanges ∧ Disjoint range.toSet v.output.all ∧
      w = { v with input := { v.input with assigned := v.input.assigned ∪ range.toSet } } := by
  rw [assign, Method.get_bind, Method.guard_eq_ok, Method.guard_eq_ok] at h
  obtain ⟨hvis, hdisj, h⟩ := h
  exact ⟨by simpa [VisibilityView.isVisible] using hvis, not_not.mp hdisj,
    (Prod.mk.inj h).2.symm⟩

theorem setOutput_eq_ok (h : setOutput range v = (.ok u, w)) :
    range.toSet ⊆ v.output.all ∧ w =
      { v with
        output := { v.output with complete := v.output.complete ∪ range.toSet }
        flush := { v.flush with prove := v.flush.prove ∪ (range.toSet ∩ v.decode.all) } } := by
  rw [setOutput, Method.get_bind, Method.guard_eq_ok] at h
  exact ⟨not_not.mp h.1, (Prod.mk.inj h.2).2.symm⟩

/-- The inputs of a party that its flush commits. -/
def owned (v : View) : RangeSet :=
  match v.role with
  | .prover => v.vis.privateRanges
  | .verifier => v.vis.blindRanges

theorem commit_eq_ok (h : commit range v = (.ok u, w)) :
    v.vis.isSet range = true ∧ Disjoint range.toSet v.output.all ∧
      Disjoint range.toSet v.input.complete ∧
      range.toSet ∩ v.vis.publicRanges ⊆ v.input.assigned ∧
      range.toSet ∩ v.vis.privateRanges ⊆ v.input.assigned ∧
      w = { v with
        input := { v.input with
          complete := v.input.complete ∪ (range.toSet ∩ v.vis.publicRanges) }
        flush := { v.flush with commit := v.flush.commit ∪ (range.toSet ∩ v.owned) } } := by
  rw [commit, Method.get_bind, Method.guard_eq_ok, Method.guard_eq_ok, Method.guard_eq_ok,
    Method.guard_eq_ok] at h
  obtain ⟨hset, hout, hin, hass, h⟩ := h
  rw [not_or, not_not, not_not] at hass
  refine ⟨by simpa using hset, not_not.mp hout, not_not.mp hin, hass.1, hass.2, ?_⟩
  rw [← (Prod.mk.inj h).2]
  rcases v with ⟨role⟩
  cases role <;> rfl

/-- The undecoded indices that can be proven. -/
def provable (v : View) (undecoded : RangeSet) : RangeSet :=
  ((match v.role with
    | .prover => undecoded ∩ v.input.all ∩ v.vis.privateRanges
    | .verifier => (undecoded ∩ v.input.all) \ v.vis.visibleRanges) ∩ v.input.complete) ∪
    (undecoded ∩ v.output.all ∩ v.output.complete)

/-- A request is always accepted. -/
theorem requestDecode_apply (range : Range) (v : View) : requestDecode range v =
    (.ok (), if range.toSet \ v.decode.complete = ∅ then v else
      { v with
        decode := { v.decode with all := v.decode.all ∪ (range.toSet \ v.decode.complete) }
        flush := { v.flush with
          prove := v.flush.prove ∪ v.provable (range.toSet \ v.decode.complete) } }) := by
  rw [requestDecode, Method.get_bind, Method.ite_apply]
  by_cases h : range.toSet \ v.decode.complete = ∅
  · rw [if_pos h, if_pos h]
    rfl
  · rw [if_neg h, if_neg h]
    rcases v with ⟨role⟩
    cases role <;> rfl

/-- **A refused operation changes nothing.** -/
theorem Op.run_eq {op : Op} {o : Outcome ViewError Unit} (ho : o ≠ .ok ())
    (h : op.run v = (o, w)) : w = v := by
  have hok : ∀ {f : View → View}, Method.modify f v = (o, w) → w = v := fun h =>
    absurd (Prod.mk.inj h).1.symm ho
  cases op with
  | allocInput size => exact absurd (congrArg Prod.fst h).symm ho
  | allocOutput size => exact absurd (congrArg Prod.fst h).symm ho
  | mark visibility range =>
    refine Method.guard_unchanged (Method.guard_unchanged fun h => ?_) h
    split at h
    · exact hok h
    · exact (Prod.mk.inj h).2.symm
  | assign range => exact Method.guard_unchanged (Method.guard_unchanged hok) h
  | commit range =>
    exact Method.guard_unchanged (Method.guard_unchanged (Method.guard_unchanged
      (Method.guard_unchanged hok))) h
  | decode range =>
    rw [run, requestDecode_apply] at h
    exact absurd (Prod.mk.inj h).1.symm ho
  | setOutput range => exact Method.guard_unchanged hok h
  | completeFlush => exact absurd (congrArg Prod.fst h).symm ho

/-- The view performs the operation, or none. -/
def Performs (op : Option Op) (v w : View) : Prop :=
  w = v ∨ ∃ vop, op = some vop ∧ vop.run v = (.ok (), w)

theorem Performs.refl (op : Option Op) (v : View) : Performs op v v := .inl rfl

/-- An operation is performed, or refused. -/
theorem Op.run_performs (op : Op) : op.run.Moves id (Performs (some op)) := by
  intro v
  rcases h : op.run v with ⟨o, w⟩
  by_cases ho : o = .ok ()
  · subst ho
    exact .inr ⟨op, rfl, h⟩
  · exact .inl (run_eq ho h)

/-! ### How the sets of a view lie to each other -/

/-- An index whose value is authenticated and not public. -/
def Provable (v : View) (i : ℕ) : Prop :=
  i ∈ v.owned ∧ i ∈ v.input.complete ∨ i ∈ v.output.complete

/-- How the sets of a reachable view lie to each other at an index. -/
structure InvAt (v : View) (i : ℕ) : Prop where
  alloc : i < v.len ↔ i ∈ v.input.all ∨ i ∈ v.output.all
  input_output : i ∈ v.input.all → i ∉ v.output.all
  marked : i ∈ v.vis.visibleRanges ∨ i ∈ v.vis.blindRanges → i ∈ v.input.all
  assigned : i ∈ v.input.assigned → i ∈ v.vis.visibleRanges
  complete : i ∈ v.input.complete →
    i ∈ v.vis.publicRanges ∧ i ∈ v.input.assigned ∨ i ∈ v.owned
  executed : i ∈ v.output.complete → i ∈ v.output.all
  /-- What is to be committed is not. -/
  commit : i ∈ v.flush.commit → i ∈ v.owned ∧ i ∉ v.input.complete
  /-- What is to be proven is requested, and can be. -/
  prove : i ∈ v.flush.prove → i ∈ v.decode.all ∧ v.Provable i
  decoded : i ∈ v.decode.complete → i ∈ v.decode.all ∧ v.Provable i
  /-- What is requested is proven as soon as it can be. -/
  requested : i ∈ v.decode.all → v.Provable i → i ∈ v.flush.prove ∨ i ∈ v.decode.complete

/-- The invariant of a view. -/
def Inv (v : View) : Prop := ∀ i, v.InvAt i

theorem inv_new (role : Role) : (new role).Inv := by
  intro i
  constructor <;> simp [new, VisibilityView.new, owned, Provable]

theorem mem_owned_iff {i : ℕ} : i ∈ v.owned ↔
    v.role = .prover ∧ i ∈ v.vis.privateRanges ∨ v.role = .verifier ∧ i ∈ v.vis.blindRanges := by
  rcases v with ⟨role⟩
  cases role <;> simp [owned]

/-- Public data is owned by no party. -/
theorem not_owned_of_public {i : ℕ} (h : i ∈ v.vis.publicRanges) : i ∉ v.owned := by
  have := v.vis.public_exclusive i h
  rw [mem_owned_iff]
  tauto

/-- What a request proves at once. -/
theorem mem_provable_iff {s : RangeSet} {i : ℕ} (h : v.InvAt i) :
    i ∈ v.provable s ↔ i ∈ s ∧ v.Provable i := by
  have hmarked := h.marked
  have hcomplete := h.complete
  have hexecuted := h.executed
  have hvis := v.vis.visible_iff i
  have hblind : i ∈ v.vis.blindRanges → i ∉ v.vis.visibleRanges := fun hb hv =>
    (hvis.mp hv).elim (fun hp => (v.vis.public_exclusive i hp).2 hb)
      fun hp => v.vis.private_exclusive i hp hb
  have hpub := v.vis.public_exclusive i
  rcases v with ⟨role⟩
  cases role with
  | prover =>
    simp only [provable, Provable, owned, Finset.mem_union, Finset.mem_inter] at *
    grind
  | verifier =>
    simp only [provable, Provable, owned, Finset.mem_union, Finset.mem_inter, Finset.mem_sdiff] at *
    grind

/-- What setting a visibility does to an index: it is in the range and was in no set, or nothing
changes for it. -/
theorem mark_cases (visibility : Visibility) (hset : v.vis.isSetAny range = false)
    (hlen : range.stop ≤ v.vis.len) (i : ℕ) :
    (i ∈ range.toSet ∧ i < v.len ∧ i ∉ v.vis.visibleRanges ∧ i ∉ v.vis.blindRanges) ∨
      (i ∉ range.toSet ∧
        (i ∈ (v.vis.set visibility range hlen).publicRanges ↔ i ∈ v.vis.publicRanges) ∧
        (i ∈ (v.vis.set visibility range hlen).privateRanges ↔ i ∈ v.vis.privateRanges) ∧
        (i ∈ (v.vis.set visibility range hlen).blindRanges ↔ i ∈ v.vis.blindRanges) ∧
        (i ∈ (v.vis.set visibility range hlen).visibleRanges ↔ i ∈ v.vis.visibleRanges)) := by
  by_cases hi : i ∈ range.toSet
  · left
    have hlt : i < v.vis.len := lt_of_lt_of_le (Range.mem_toSet.mp hi).2 hlen
    have huninit : i ∈ v.vis.uninit := by
      by_contra hu
      exact VisibilityView.notMem_of_isSetAny hset hlt hu hi
    have hnot := v.vis.uninit_exclusive i huninit
    have hvis := v.vis.visible_iff i
    exact ⟨hi, v.len_vis ▸ hlt, fun h => (hvis.mp h).elim hnot.1 hnot.2.1, hnot.2.2⟩
  · right
    refine ⟨hi, ?_⟩
    cases visibility <;> simp [VisibilityView.set, hi, -Range.mem_toSet]

theorem InvAt.allocInput {i : ℕ} (h : v.InvAt i) (size : ℕ) :
    (View.allocInput size v).2.InvAt i := by
  have halloc := h.alloc
  have hlt : i ∈ v.input.all ∨ i ∈ v.output.all → i < v.len := h.alloc.mpr
  have hnew : i ∈ (v.nextRange size).toSet ↔ v.len ≤ i ∧ i < v.len + size := Range.mem_toSet
  refine ⟨?_, ?_, fun hi => Finset.mem_union_left _ (h.marked hi), h.assigned, h.complete,
    h.executed, h.commit, h.prove, h.decoded, h.requested⟩
  · show i < v.len + size ↔ i ∈ v.input.all ∪ (v.nextRange size).toSet ∨ i ∈ v.output.all
    rw [Finset.mem_union, hnew]
    constructor
    · intro hi
      by_cases hi' : i < v.len
      · exact (halloc.mp hi').imp_left .inl
      · exact .inl (.inr ⟨not_lt.mp hi', hi⟩)
    · rintro ((hi | hi) | hi)
      · exact Nat.lt_add_right _ (hlt (.inl hi))
      · exact hi.2
      · exact Nat.lt_add_right _ (hlt (.inr hi))
  · intro hi hout
    rcases Finset.mem_union.mp hi with hi | hi
    · exact h.input_output hi hout
    · exact absurd (hlt (.inr hout)) (not_lt.mpr (hnew.mp hi).1)

theorem InvAt.allocOutput {i : ℕ} (h : v.InvAt i) (size : ℕ) :
    (View.allocOutput size v).2.InvAt i := by
  have halloc := h.alloc
  have hlt : i ∈ v.input.all ∨ i ∈ v.output.all → i < v.len := h.alloc.mpr
  have hnew : i ∈ (v.nextRange size).toSet ↔ v.len ≤ i ∧ i < v.len + size := Range.mem_toSet
  refine ⟨?_, ?_, h.marked, h.assigned, h.complete, fun hi =>
    Finset.mem_union_left _ (h.executed hi), h.commit, h.prove, h.decoded, h.requested⟩
  · show i < v.len + size ↔ i ∈ v.input.all ∨ i ∈ v.output.all ∪ (v.nextRange size).toSet
    rw [Finset.mem_union, hnew]
    constructor
    · intro hi
      by_cases hi' : i < v.len
      · exact (halloc.mp hi').imp_right .inl
      · exact .inr (.inr ⟨not_lt.mp hi', hi⟩)
    · rintro (hi | hi | hi)
      · exact Nat.lt_add_right _ (hlt (.inl hi))
      · exact Nat.lt_add_right _ (hlt (.inr hi))
      · exact hi.2
  · intro hi hout
    rcases Finset.mem_union.mp hout with hout | hout
    · exact h.input_output hi hout
    · exact absurd (hlt (.inl hi)) (not_lt.mpr (hnew.mp hout).1)

/-- A range of which nothing is set joins one set. Nothing there is complete. -/
theorem InvAt.mark {visibility : Visibility} {i : ℕ} (h : v.InvAt i)
    (hset : v.vis.isSetAny range = false) (hdisj : Disjoint range.toSet v.output.all)
    (hlen : range.stop ≤ v.vis.len) :
    View.InvAt { v with vis := v.vis.set visibility range hlen, len_vis := v.len_vis } i := by
  have hvis := v.vis.visible_iff i
  have hout : i ∈ range.toSet → i ∉ v.output.all := fun hi => Finset.disjoint_left.mp hdisj hi
  have howned := mem_owned_iff (v := v) (i := i)
  have howned' := mem_owned_iff (i := i)
    (v := { v with vis := v.vis.set visibility range hlen, len_vis := v.len_vis })
  obtain ⟨halloc, hio, hmarked, hassigned, hcomplete, hexecuted, hcommit, hprove, hdecoded,
    hrequested⟩ := id h
  rcases mark_cases visibility hset hlen i with
    ⟨hi, hlt, hnvis, hnblind⟩ | ⟨hi, hpub, hpriv, hblind, hvisible⟩
  · have hnowned : i ∉ v.owned := by
      rw [howned, not_or]
      exact ⟨fun hp => hnvis (hvis.mpr (.inr hp.2)), fun hb => hnblind hb.2⟩
    have hncomplete : i ∉ v.input.complete := fun hc =>
      (hcomplete hc).elim (fun hp => hnvis (hvis.mpr (.inl hp.1))) hnowned
    refine ⟨halloc, hio, fun _ => (halloc.mp hlt).resolve_right (hout hi),
      fun ha => absurd (hassigned ha) hnvis, fun hc => absurd hc hncomplete, hexecuted,
      fun hc => absurd (hcommit hc).1 hnowned, fun hp => ⟨(hprove hp).1, ?_⟩,
      fun hd => ⟨(hdecoded hd).1, ?_⟩, fun ha hp => hrequested ha ?_⟩
    · exact .inr ((hprove hp).2.resolve_left fun hp => hnowned hp.1)
    · exact .inr ((hdecoded hd).2.resolve_left fun hp => hnowned hp.1)
    · exact .inr (hp.resolve_left fun hp => hncomplete hp.2)
  · rw [hpriv, hblind, ← howned] at howned'
    refine ⟨halloc, hio, fun hm => hmarked ?_, fun ha => hvisible.mpr (hassigned ha), fun hc => ?_,
      hexecuted, fun hc => ?_, fun hp => ?_, fun hd => ?_, fun ha hp => hrequested ha ?_⟩
    · exact hm.imp hvisible.mp hblind.mp
    · exact (hcomplete hc).imp (fun hp => ⟨hpub.mpr hp.1, hp.2⟩) howned'.mpr
    · exact ⟨howned'.mpr (hcommit hc).1, (hcommit hc).2⟩
    · exact ⟨(hprove hp).1, (hprove hp).2.imp_left fun hp => ⟨howned'.mpr hp.1, hp.2⟩⟩
    · exact ⟨(hdecoded hd).1, (hdecoded hd).2.imp_left fun hp => ⟨howned'.mpr hp.1, hp.2⟩⟩
    · exact hp.imp_left fun hp => ⟨howned'.mp hp.1, hp.2⟩

/-- **Every operation keeps the invariant.** -/
theorem InvAt.run {op : Op} {i : ℕ} (hi : v.InvAt i) (h : op.run v = (.ok u, w)) : w.InvAt i := by
  obtain ⟨halloc, hio, hmarked, hassigned, hcomplete, hexecuted, hcommit, hprove, hdecoded,
    hrequested⟩ := id hi
  cases op with
  | allocInput size => exact (Prod.mk.inj h).2 ▸ hi.allocInput size
  | allocOutput size => exact (Prod.mk.inj h).2 ▸ hi.allocOutput size
  | mark visibility range =>
    obtain ⟨hset, hdisj, hlen, rfl⟩ := mark_eq_ok h
    exact hi.mark hset hdisj hlen
  | assign range =>
    obtain ⟨hvis, -, rfl⟩ := assign_eq_ok h
    constructor <;> simp only [Provable, owned, Finset.mem_union] at * <;> grind
  | commit range =>
    obtain ⟨hset, hout, hin, hpub, hpriv, rfl⟩ := commit_eq_ok h
    have hnot := not_owned_of_public (v := v) (i := i)
    have hin : i ∈ range.toSet → i ∉ v.input.complete := fun hi => Finset.disjoint_left.mp hin hi
    have hpub := @hpub i
    constructor <;> simp only [Provable, owned, Finset.mem_union, Finset.mem_inter] at * <;> grind
  | decode range =>
    obtain ⟨-, rfl⟩ := Prod.mk.inj ((requestDecode_apply range v).symm.trans h)
    split
    case isTrue => exact hi
    case isFalse =>
      have hmem := mem_provable_iff (s := range.toSet \ v.decode.complete) hi
      constructor <;> simp only [Provable, owned, Finset.mem_union, Finset.mem_sdiff] at * <;> grind
  | setOutput range =>
    obtain ⟨hsub, rfl⟩ := setOutput_eq_ok h
    have hsub := @hsub i
    constructor <;> simp only [Provable, owned, Finset.mem_union, Finset.mem_inter] at * <;> grind
  | completeFlush =>
    obtain rfl := (Prod.mk.inj h).2
    constructor <;> simp only [Provable, owned, Finset.mem_union, Finset.mem_inter] at * <;> grind

/-- The invariant of a whole view. -/
theorem Inv.run {op : Op} (hv : v.Inv) (h : op.run v = (.ok u, w)) : w.Inv :=
  fun i => (hv i).run h

/-- What a store's view performs keeps the invariant. -/
theorem Performs.inv {op : Option Op} (h : Performs op v w) (hv : v.Inv) : w.Inv := by
  rcases h with rfl | ⟨vop, -, hrun⟩
  · exact hv
  · exact hv.run hrun

end View

end Mpz.Zk
