import Mpz.Garble.View

/-!
# What the two views agree on

Which inputs are public, which are the garbler's and which the evaluator's, what is committed,
executed and requested, and what the next flush is about: none of it depends on the party one asks.
A `SharedView` is that part of a view, and its operations say what a view's operations do to it.

## Main definitions

* `SharedView`, `SharedView.Op`, `SharedView.Step`
* `SharedView.InvAt` — how the sets of a reachable view lie to each other
* `View.shared` — the shared part of a view

## Main results

* `SharedView.InvAt.step` — every operation keeps the invariant
* `View.Op.refines` — a view's operation is an operation of the shared view
-/

namespace Mpz.Garble

/-- The other party. -/
def Role.other : Role → Role
  | .garbler => .evaluator
  | .evaluator => .garbler

/-- The part of a view that does not depend on the party. -/
structure SharedView where
  /-- The number of allocated indices. -/
  len : ℕ
  /-- All inputs. -/
  inputs : RangeSet
  /-- All outputs. -/
  outputs : RangeSet
  /-- The inputs that both parties know. -/
  publicInputs : RangeSet
  /-- The inputs that the garbler knows. -/
  garblerInputs : RangeSet
  /-- The inputs that the evaluator knows. -/
  evaluatorInputs : RangeSet
  /-- The inputs that are committed. -/
  committed : RangeSet
  /-- The outputs that are preprocessed. -/
  preprocessed : RangeSet
  /-- The outputs that are executed. -/
  executed : RangeSet
  /-- The decoded ranges. -/
  decode : DecodeView
  /-- The next flush. -/
  flush : FlushView

namespace SharedView

/-- The operations on a shared view. An input is marked as known to one party, or to both. -/
inductive Op where
  /-- Allocate inputs. -/
  | allocInput (size : ℕ)
  /-- Allocate outputs. -/
  | allocOutput (size : ℕ)
  /-- Mark inputs as known to a party, or to both. -/
  | mark (owner : Option Role) (range : Range)
  /-- Commit inputs. -/
  | commit (range : Range)
  /-- Request a range to be decoded. -/
  | decode (range : Range)
  /-- Preprocess outputs. -/
  | setPreprocessed (range : Range)
  /-- Execute outputs. -/
  | setOutput (range : Range)
  /-- Complete the flush. -/
  | completeFlush

/-- The index is an input whose visibility is set. -/
def Marked (s : SharedView) (i : ℕ) : Prop :=
  i ∈ s.publicInputs ∨ i ∈ s.garblerInputs ∨ i ∈ s.evaluatorInputs

/-- The range that the next allocation returns. -/
def nextRange (s : SharedView) (size : ℕ) : Range := ⟨s.len, s.len + size⟩

/-- When an operation is accepted. -/
def Accepts (s : SharedView) : Op → Prop
  | .mark _ range =>
    range.stop ≤ s.len ∧ ∀ i ∈ range.toSet, ¬ s.Marked i ∧ i ∉ s.outputs
  | .commit range =>
    ∀ i ∈ range.toSet, s.Marked i ∧ i ∉ s.outputs ∧ i ∉ s.committed
  | .setPreprocessed range => range.toSet ⊆ s.outputs
  | .setOutput range => range.toSet ⊆ s.outputs
  | _ => True

/-- What an accepted operation does. -/
def apply (s : SharedView) : Op → SharedView
  | .allocInput size =>
    { s with len := s.len + size, inputs := s.inputs ∪ (s.nextRange size).toSet }
  | .allocOutput size =>
    { s with len := s.len + size, outputs := s.outputs ∪ (s.nextRange size).toSet }
  | .mark none range => { s with publicInputs := s.publicInputs ∪ range.toSet }
  | .mark (some .garbler) range => { s with garblerInputs := s.garblerInputs ∪ range.toSet }
  | .mark (some .evaluator) range =>
    { s with evaluatorInputs := s.evaluatorInputs ∪ range.toSet }
  | .commit range =>
    { s with flush := { s.flush with
        macs := s.flush.macs ∪ (range.toSet ∩ (s.publicInputs ∪ s.garblerInputs))
        ot := s.flush.ot ∪ (range.toSet ∩ s.evaluatorInputs) } }
  | .decode range =>
    if range.toSet ⊆ s.decode.complete then s else
      { s with
        decode := { s.decode with all := s.decode.all ∪ range.toSet \ s.decode.complete }
        flush := { s.flush with
          decodeInfo := s.flush.decodeInfo ∪
            (range.toSet ∩ (s.garblerInputs ∪ s.preprocessed)) \ s.decode.decodeInfo
          decode := s.flush.decode ∪
            (range.toSet ∩ ((s.evaluatorInputs ∩ s.committed) ∪ s.executed)) } }
  | .setPreprocessed range =>
    { s with
      preprocessed := s.preprocessed ∪ range.toSet
      flush := { s.flush with
        decodeInfo := s.flush.decodeInfo ∪ (range.toSet ∩ s.decode.all) \ s.decode.complete } }
  | .setOutput range =>
    { s with
      preprocessed := s.preprocessed ∪ range.toSet
      executed := s.executed ∪ range.toSet
      flush := { s.flush with
        decodeInfo := s.flush.decodeInfo ∪ (range.toSet ∩ s.decode.all) \ s.decode.decodeInfo
        decode := s.flush.decode ∪
          (range.toSet ∩ s.decode.decodeInfo) \ s.decode.complete } }
  | .completeFlush =>
    { s with
      committed := s.committed ∪ s.flush.macs ∪ s.flush.ot
      decode := { s.decode with
        decodeInfo := s.decode.decodeInfo ∪ s.flush.decodeInfo
        complete := s.decode.complete ∪ s.flush.decode }
      flush := { decode := (s.flush.ot ∩ s.decode.all) ∪
        (s.flush.decodeInfo ∩ s.executed) \ (s.decode.complete ∪ s.flush.decode) } }

/-- An accepted operation, and the view behind it. -/
def Step (s : SharedView) (op : Op) (t : SharedView) : Prop := s.Accepts op ∧ t = s.apply op

/-- How the sets of a reachable view lie to each other at an index. -/
structure InvAt (s : SharedView) (i : ℕ) : Prop where
  allocated : i < s.len ↔ i ∈ s.inputs ∨ i ∈ s.outputs
  inputs : i ∈ s.inputs → i ∉ s.outputs
  marked : s.Marked i → i ∈ s.inputs
  publicInputs : i ∈ s.publicInputs → i ∉ s.garblerInputs ∧ i ∉ s.evaluatorInputs
  garblerInputs : i ∈ s.garblerInputs → i ∉ s.evaluatorInputs
  committed : i ∈ s.committed → s.Marked i
  executed : i ∈ s.executed → i ∈ s.preprocessed
  preprocessed : i ∈ s.preprocessed → i ∈ s.outputs
  /-- MACs are sent for the inputs that the garbler knows. -/
  macs : i ∈ s.flush.macs → (i ∈ s.publicInputs ∨ i ∈ s.garblerInputs) ∧ i ∉ s.committed
  /-- MACs are transferred obliviously for the inputs of the evaluator. -/
  ot : i ∈ s.flush.ot → i ∈ s.evaluatorInputs ∧ i ∉ s.committed
  /-- Decode info is sent for what the evaluator is to learn. -/
  decodeInfo : i ∈ s.decode.decodeInfo ∨ i ∈ s.flush.decodeInfo →
    i ∈ s.decode.all ∧ (i ∈ s.garblerInputs ∨ i ∈ s.preprocessed)
  /-- MACs are proven of what the garbler is to learn, of outputs not before their decode info. -/
  decode : i ∈ s.decode.complete ∨ i ∈ s.flush.decode →
    i ∈ s.decode.all ∧ (i ∈ s.evaluatorInputs ∧ i ∈ s.committed ∨
      i ∈ s.executed ∧ (i ∈ s.decode.decodeInfo ∨ i ∈ s.flush.decodeInfo))

variable {s t : SharedView} {i : ℕ} {range : Range}

theorem InvAt.allocInput (size : ℕ) (h : s.InvAt i) : (s.apply (.allocInput size)).InvAt i := by
  cases h
  constructor <;> grind [apply, Marked, nextRange, Range.mem_toSet]

theorem InvAt.allocOutput (size : ℕ) (h : s.InvAt i) : (s.apply (.allocOutput size)).InvAt i := by
  cases h
  constructor <;> grind [apply, Marked, nextRange, Range.mem_toSet]

theorem InvAt.mark {owner : Option Role} (h : s.InvAt i) (hacc : s.Accepts (.mark owner range)) :
    (s.apply (.mark owner range)).InvAt i := by
  have hi : i ∈ range.toSet → i < s.len ∧ ¬ s.Marked i ∧ i ∉ s.outputs := fun hi =>
    ⟨lt_of_lt_of_le (Range.mem_toSet.mp hi).2 hacc.1, hacc.2 i hi⟩
  cases h
  rcases owner with _ | _ | _ <;> constructor <;> grind [apply, Marked]

theorem InvAt.commit (h : s.InvAt i) (hacc : s.Accepts (.commit range)) :
    (s.apply (.commit range)).InvAt i := by
  have hi : i ∈ range.toSet → s.Marked i ∧ i ∉ s.outputs ∧ i ∉ s.committed := hacc i
  cases h
  constructor <;> grind [apply, Marked]

theorem InvAt.requestDecode (h : s.InvAt i) : (s.apply (.decode range)).InvAt i := by
  by_cases hc : range.toSet ⊆ s.decode.complete
  · simpa [apply, hc] using h
  · cases h
    constructor <;> grind [apply, Marked]

theorem InvAt.setPreprocessed (h : s.InvAt i) (hacc : s.Accepts (.setPreprocessed range)) :
    (s.apply (.setPreprocessed range)).InvAt i := by
  have hi : i ∈ range.toSet → i ∈ s.outputs := fun hi => hacc hi
  cases h
  constructor <;> grind [apply, Marked]

theorem InvAt.setOutput (h : s.InvAt i) (hacc : s.Accepts (.setOutput range)) :
    (s.apply (.setOutput range)).InvAt i := by
  have hi : i ∈ range.toSet → i ∈ s.outputs := fun hi => hacc hi
  cases h
  constructor <;> grind [apply, Marked]

theorem InvAt.completeFlush (h : s.InvAt i) : (s.apply .completeFlush).InvAt i := by
  cases h
  constructor <;> grind [apply, Marked]

/-- **Every operation keeps the invariant.** -/
theorem InvAt.step {op : Op} (h : s.InvAt i) (hstep : s.Step op t) : t.InvAt i := by
  obtain ⟨hacc, rfl⟩ := hstep
  cases op with
  | allocInput size => exact h.allocInput size
  | allocOutput size => exact h.allocOutput size
  | mark owner range => exact h.mark hacc
  | commit range => exact h.commit hacc
  | decode range => exact h.requestDecode
  | setPreprocessed range => exact h.setPreprocessed hacc
  | setOutput range => exact h.setOutput hacc
  | completeFlush => exact h.completeFlush

end SharedView

/-! ### A view refines a shared view -/

namespace View

/-- The shared part of a view. -/
def shared (v : View) : SharedView where
  len := v.len
  inputs := v.input.all
  outputs := v.output.all
  publicInputs := v.vis.publicRanges
  garblerInputs := match v.role with
    | .garbler => v.vis.privateRanges
    | .evaluator => v.vis.blindRanges
  evaluatorInputs := match v.role with
    | .garbler => v.vis.blindRanges
    | .evaluator => v.vis.privateRanges
  committed := v.input.complete
  preprocessed := v.output.preprocessed
  executed := v.output.complete
  decode := v.decode
  flush := v.flush

/-- What an operation of a party is to the shared view. An assignment is not seen there. -/
def Op.shared (role : Role) : Op → Option SharedView.Op
  | .allocInput size => some (.allocInput size)
  | .allocOutput size => some (.allocOutput size)
  | .mark .pub range => some (.mark none range)
  | .mark .priv range => some (.mark (some role) range)
  | .mark .blind range => some (.mark (some role.other) range)
  | .assign _ => none
  | .commit range => some (.commit range)
  | .decode range => some (.decode range)
  | .setPreprocessed range => some (.setPreprocessed range)
  | .setOutput range => some (.setOutput range)
  | .completeFlush => some .completeFlush

/-- The invariant of a view. -/
def Inv (v : View) : Prop := ∀ i, v.shared.InvAt i

variable {v w : View} {u : Unit} {range : Range} {i : ℕ}

theorem inv_new (role : Role) : (new role).Inv := by
  intro i
  cases role <;> constructor <;> simp [shared, new, VisibilityView.new, SharedView.Marked]

/-- An index is marked when it is allocated and its visibility is set. -/
theorem marked_iff : v.shared.Marked i ↔ i < v.len ∧ i ∉ v.vis.uninit := by
  have hcover := v.vis.cover i
  have hexcl := v.vis.uninit_exclusive i
  rw [v.len_vis] at hcover
  rcases v with ⟨role⟩
  cases role <;> simp only [SharedView.Marked, shared] <;> tauto

/-- What is not visible and marked is blind. -/
theorem mem_blind (h : v.shared.Marked i) : i ∉ v.vis.visibleRanges ↔ i ∈ v.vis.blindRanges := by
  have hvis := v.vis.visible_iff i
  have hpub := v.vis.public_exclusive i
  have hpriv := v.vis.private_exclusive i
  rcases v with ⟨role⟩
  cases role <;> simp only [SharedView.Marked, shared] at h <;> tauto

theorem not_marked_of_isSetAny (h : v.vis.isSetAny range = false) (hi : i ∈ range.toSet) :
    ¬ v.shared.Marked i := by
  rw [marked_iff, ← v.len_vis]
  rintro ⟨hlt, hset⟩
  exact VisibilityView.notMem_of_isSetAny h hlt hset hi

theorem marked_of_isSet (h : v.vis.isSet range = true) (hi : i ∈ range.toSet) :
    v.shared.Marked i := by
  simp only [VisibilityView.isSet, Bool.and_eq_true, decide_eq_true_eq] at h
  rw [marked_iff, ← v.len_vis]
  exact ⟨lt_of_lt_of_le (Range.mem_toSet.mp hi).2 h.1, Finset.disjoint_left.mp h.2 hi⟩

/-- What the garbler is to learn, it does not know. -/
theorem not_visible_of_decode (hinv : v.Inv) (hrole : v.role = .garbler)
    (hi : i ∈ v.decode.complete ∨ i ∈ v.flush.decode) : i ∉ v.vis.visibleRanges := by
  obtain ⟨-, ⟨hev, -⟩ | ⟨hexe, -⟩⟩ := (hinv i).decode hi
  · have hblind : i ∈ v.vis.blindRanges := by simpa only [shared, hrole] using hev
    exact (mem_blind (show v.shared.Marked i from .inr (.inr hev))).mpr hblind
  · intro hvis
    have hmarked : v.shared.Marked i := by
      have := (v.vis.visible_iff i).mp hvis
      simp only [SharedView.Marked, shared, hrole]
      tauto
    exact (hinv i).inputs ((hinv i).marked hmarked) ((hinv i).preprocessed ((hinv i).executed hexe))

/-- Marking is seen as marking for the party that is to know the input. -/
theorem mark_refines {visibility : Visibility} (h : mark visibility range v = (.ok u, w)) :
    ∃ op, (Op.mark visibility range).shared v.role = some op ∧ v.shared.Step op w.shared := by
  obtain ⟨hset, hdisj, hlen, rfl⟩ := mark_eq_ok h
  have hmark : ∀ i ∈ range.toSet, ¬ v.shared.Marked i := fun i hi =>
    not_marked_of_isSetAny hset hi
  have hguard : range.stop ≤ v.shared.len ∧
      ∀ i ∈ range.toSet, ¬ v.shared.Marked i ∧ i ∉ v.shared.outputs :=
    ⟨hlen.trans v.len_vis.le, fun i hi => ⟨hmark i hi, Finset.disjoint_left.mp hdisj hi⟩⟩
  have hsdiff : ∀ s : RangeSet, (∀ i ∈ s, v.shared.Marked i) → s \ range.toSet = s := by
    intro s hs
    exact Finset.sdiff_eq_self_of_disjoint
      (Finset.disjoint_left.mpr fun i hi hi' => hmark i hi' (hs i hi))
  have hpub := hsdiff v.vis.publicRanges fun i hi => .inl hi
  have hpriv := hsdiff v.vis.privateRanges fun i hi => by
    rcases v with ⟨role⟩
    cases role <;> simp_all [SharedView.Marked, shared]
  have hblind := hsdiff v.vis.blindRanges fun i hi => by
    rcases v with ⟨role⟩
    cases role <;> simp_all [SharedView.Marked, shared]
  rcases v with ⟨role⟩
  cases visibility <;> cases role <;> refine ⟨_, rfl, hguard, ?_⟩ <;>
    simp_all [SharedView.apply, shared, VisibilityView.set, Role.other]

theorem commit_refines (h : commit range v = (.ok u, w)) :
    v.shared.Step (.commit range) w.shared := by
  obtain ⟨hset, hout, hin, -, -, rfl⟩ := commit_eq_ok h
  refine ⟨fun i hi => ⟨marked_of_isSet hset hi, Finset.disjoint_left.mp hout hi,
    Finset.disjoint_left.mp hin hi⟩, ?_⟩
  rcases v with ⟨role⟩
  cases role <;> simp only [SharedView.apply, shared, Finset.inter_union_distrib_left]

/-- The two parties compute what is to be decoded from different sets. -/
theorem requestDecode_refines (hinv : v.Inv) (h : requestDecode range v = (.ok u, w)) :
    v.shared.Step (.decode range) w.shared := by
  refine ⟨trivial, ?_⟩
  rw [requestDecode, Method.get_bind, Method.ite_apply] at h
  by_cases hempty : range.toSet \ v.decode.complete = ∅
  · rw [if_pos hempty] at h
    have hsub : range.toSet ⊆ v.shared.decode.complete := Finset.sdiff_eq_empty_iff_subset.mp hempty
    simp only [SharedView.apply, if_pos hsub]
    rw [← (Prod.mk.inj h).2]
  · rw [if_neg hempty] at h
    have hsub : ¬ range.toSet ⊆ v.shared.decode.complete := fun hsub =>
      hempty (Finset.sdiff_eq_empty_iff_subset.mpr hsub)
    simp only [SharedView.apply, if_neg hsub]
    rw [← (Prod.mk.inj h).2]
    have hblind : ∀ i ∈ v.input.complete, (i ∉ v.vis.visibleRanges ↔ i ∈ v.vis.blindRanges) :=
      fun i hi => mem_blind ((hinv i).committed hi)
    have hpre := fun i => (hinv i).preprocessed
    have hexe := fun i => (hinv i).executed
    have hmarked := fun i => (hinv i).marked
    rcases v with ⟨role⟩
    cases role <;> simp only [shared, SharedView.Marked] at * <;> congr 2 <;> ext i <;> grind

/-- **A view's operation is an operation of the shared view.** -/
theorem Op.refines {op : Op} (hinv : v.Inv) (h : op.run v = (.ok u, w)) :
    w.role = v.role ∧ (op.shared v.role = none ∧ w.shared = v.shared ∨
      ∃ sop, op.shared v.role = some sop ∧ v.shared.Step sop w.shared) := by
  cases op with
  | allocInput size =>
    obtain rfl := (Prod.mk.inj h).2
    exact ⟨rfl, .inr ⟨_, rfl, trivial, rfl⟩⟩
  | allocOutput size =>
    obtain rfl := (Prod.mk.inj h).2
    exact ⟨rfl, .inr ⟨_, rfl, trivial, rfl⟩⟩
  | mark visibility range =>
    refine ⟨?_, .inr (mark_refines h)⟩
    obtain ⟨-, -, -, rfl⟩ := mark_eq_ok h
    rfl
  | assign range =>
    obtain ⟨-, -, rfl⟩ := assign_eq_ok h
    exact ⟨rfl, .inl ⟨rfl, rfl⟩⟩
  | commit range =>
    refine ⟨?_, .inr ⟨_, rfl, commit_refines h⟩⟩
    obtain ⟨-, -, -, -, -, rfl⟩ := commit_eq_ok h
    rfl
  | decode range =>
    refine ⟨?_, .inr ⟨_, rfl, requestDecode_refines hinv h⟩⟩
    rw [run, requestDecode, Method.get_bind, Method.ite_apply] at h
    split at h <;> exact (congrArg View.role (Prod.mk.inj h).2).symm
  | setPreprocessed range =>
    obtain ⟨hsub, rfl⟩ := setPreprocessed_eq_ok h
    exact ⟨rfl, .inr ⟨_, rfl, hsub, rfl⟩⟩
  | setOutput range =>
    obtain ⟨hsub, rfl⟩ := setOutput_eq_ok h
    exact ⟨rfl, .inr ⟨_, rfl, hsub, rfl⟩⟩
  | completeFlush =>
    obtain rfl := (Prod.mk.inj h).2
    exact ⟨rfl, .inr ⟨_, rfl, trivial, rfl⟩⟩

/-- What a store's view performs keeps the invariant. -/
theorem Performs.inv {op : Option Op} (h : Performs op v w) (hinv : v.Inv) : w.Inv := by
  rcases h with rfl | ⟨vop, -, hrun⟩
  · exact hinv
  · intro i
    rcases (Op.refines hinv hrun).2 with ⟨-, heq⟩ | ⟨sop, -, hstep⟩
    · exact heq ▸ hinv i
    · exact (hinv i).step hstep

end View

end Mpz.Garble
