import Mpz.Garble.SharedView
import Mpz.Lib.Run

/-!
# Flushes that repeat nothing

A flush is about decode info that was not sent and MACs that were not proven. Two operations may put
it otherwise: a request to decode a range of which a part is decoded, and preprocessing an output
whose decode info is under way.

## Main definitions

* `View.NothingTwice` — the flush repeats nothing
* `View.Op.Fresh` — the operations that make it repeat nothing

## Main results

* `SharedView.nothingTwiceAt_iff`, `View.nothingTwice_iff` — one operation
* `View.nothingTwice_of_run` — a run of such operations
-/

namespace Mpz.Garble

namespace SharedView

/-- The next flush repeats nothing at an index. -/
structure NothingTwiceAt (s : SharedView) (i : ℕ) : Prop where
  decode : i ∈ s.flush.decode → i ∉ s.decode.complete
  info : i ∈ s.flush.decodeInfo → i ∉ s.decode.decodeInfo

/-- The operation makes the flush repeat nothing. -/
def Fresh (s : SharedView) : Op → Prop
  | .decode range => range.toSet ⊆ s.decode.complete ∨ Disjoint range.toSet s.decode.complete
  | .setPreprocessed range => range.toSet ∩ s.decode.decodeInfo ⊆ s.decode.complete
  | _ => True

variable {s t : SharedView} {i : ℕ} {op : Op}

theorem NothingTwiceAt.requestDecode {range : Range} (hinv : s.InvAt i) (h : s.NothingTwiceAt i)
    (hfresh : s.Fresh (.decode range)) : (s.apply (.decode range)).NothingTwiceAt i := by
  by_cases hc : range.toSet ⊆ s.decode.complete
  · simpa [apply, hc] using h
  · have hdisj : i ∈ range.toSet → i ∉ s.decode.complete := fun hi =>
      Finset.disjoint_left.mp (hfresh.resolve_left hc) hi
    cases hinv
    cases h
    constructor <;> grind [apply]

/-- **A fresh operation makes the flush repeat nothing.** -/
theorem NothingTwiceAt.step (hinv : s.InvAt i) (h : s.NothingTwiceAt i) (hfresh : s.Fresh op)
    (hstep : s.Step op t) : t.NothingTwiceAt i := by
  obtain ⟨-, rfl⟩ := hstep
  cases op with
  | mark owner range =>
    cases h
    rcases owner with _ | _ | _ <;> constructor <;> grind [apply]
  | decode range => exact h.requestDecode hinv hfresh
  | setPreprocessed range =>
    have hsent : i ∈ range.toSet → i ∈ s.decode.decodeInfo → i ∈ s.decode.complete := fun hi hi' =>
      hfresh (Finset.mem_inter.mpr ⟨hi, hi'⟩)
    cases h
    constructor <;> grind [apply]
  | completeFlush =>
    cases hinv
    cases h
    constructor <;> grind [apply, Marked]
  | _ =>
    cases h
    constructor <;> grind [apply]

/-- **An operation that is not fresh makes the flush repeat something**: what it asks for again was
decoded, or has its decode info sent. -/
theorem fresh_of_nothingTwiceAt (hinv : ∀ i, s.InvAt i) (hstep : s.Step op t)
    (h : ∀ i, t.NothingTwiceAt i) : s.Fresh op := by
  obtain ⟨-, rfl⟩ := hstep
  cases op with
  | decode range =>
    rw [Fresh, or_iff_not_imp_left]
    intro hc
    rw [Finset.disjoint_left]
    intro i hi hdone
    have hprovable := ((hinv i).decode (.inl hdone)).2
    have hexe := (h i).decode
    simp only [apply, if_neg hc] at hexe
    grind
  | setPreprocessed range =>
    intro i hi
    obtain ⟨hi, hsent⟩ := Finset.mem_inter.mp hi
    by_contra hnot
    have hall := ((hinv i).decodeInfo (.inl hsent)).1
    have hinfo := (h i).info
    simp only [apply] at hinfo
    grind
  | _ => trivial

theorem nothingTwiceAt_iff (hinv : ∀ i, s.InvAt i) (h : ∀ i, s.NothingTwiceAt i)
    (hstep : s.Step op t) : (∀ i, t.NothingTwiceAt i) ↔ s.Fresh op :=
  ⟨fresh_of_nothingTwiceAt hinv hstep, fun hfresh i => (h i).step (hinv i) hfresh hstep⟩

/-- What is committed, what is an output, and what has its decode info sent stays so. -/
theorem Step.mono (hstep : s.Step op t) :
    s.committed ⊆ t.committed ∧ s.outputs ⊆ t.outputs ∧
      s.decode.decodeInfo ⊆ t.decode.decodeInfo := by
  obtain ⟨-, rfl⟩ := hstep
  rcases op with _ | _ | ⟨_ | _ | _, _⟩ | _ | range | _ | _ | _ <;> simp only [apply]
  case decode => split <;> exact ⟨fun _ h => h, fun _ h => h, fun _ h => h⟩
  all_goals refine ⟨?_, ?_, ?_⟩ <;> intro i hi <;> grind

end SharedView

namespace View

/-- The next flush repeats nothing. -/
structure NothingTwice (v : View) : Prop where
  decode : Disjoint v.flush.decode v.decode.complete
  info : Disjoint v.flush.decodeInfo v.decode.decodeInfo

/-- The operation makes the flush repeat nothing: a range is requested that is decoded, or of which
nothing is decoded, and an output is preprocessed whose decode info is not under way. -/
def Op.Fresh (v : View) : Op → Prop
  | .decode range => range.toSet ⊆ v.decode.complete ∨ Disjoint range.toSet v.decode.complete
  | .setPreprocessed range => range.toSet ∩ v.decode.decodeInfo ⊆ v.decode.complete
  | _ => True

instance (v : View) : ∀ op : Op, Decidable (op.Fresh v)
  | .decode range => inferInstanceAs (Decidable (_ ∨ Disjoint range.toSet v.decode.complete))
  | .setPreprocessed range =>
    inferInstanceAs (Decidable (range.toSet ∩ v.decode.decodeInfo ⊆ v.decode.complete))
  | .allocInput _ | .allocOutput _ | .mark _ _ | .assign _ | .commit _ | .setOutput _
  | .completeFlush => isTrue trivial

/-- An accepted operation, and the view behind it. -/
def Step (v : View) (op : Op) (w : View) : Prop := op.run v = (.ok (), w)

variable {v w : View} {op : Op}

theorem nothingTwice_iff_shared : v.NothingTwice ↔ ∀ i, v.shared.NothingTwiceAt i := by
  constructor
  · intro h i
    exact ⟨fun hi => Finset.disjoint_left.mp h.decode hi,
      fun hi => Finset.disjoint_left.mp h.info hi⟩
  · intro h
    exact ⟨Finset.disjoint_left.mpr fun i => (h i).decode,
      Finset.disjoint_left.mpr fun i => (h i).info⟩

theorem Op.fresh_shared {role : Role} {sop : SharedView.Op} (h : op.shared role = some sop) :
    op.Fresh v ↔ v.shared.Fresh sop := by
  cases op with
  | mark visibility range => cases visibility <;> cases h <;> exact Iff.rfl
  | assign range => cases h
  | _ => cases h; exact Iff.rfl

theorem Op.fresh_of_unshared {role : Role} (h : op.shared role = none) : op.Fresh v := by
  cases op with
  | mark visibility range => trivial
  | assign range => trivial
  | _ => cases h

theorem Step.inv (hinv : v.Inv) (hstep : Step v op w) : w.Inv :=
  Performs.inv (.inr ⟨op, rfl, hstep⟩) hinv

/-- **One operation of a view.** -/
theorem nothingTwice_iff (hinv : v.Inv) (h : v.NothingTwice) (hstep : Step v op w) :
    w.NothingTwice ↔ op.Fresh v := by
  rw [nothingTwice_iff_shared] at h ⊢
  rcases (Op.refines hinv hstep).2 with ⟨hnone, heq⟩ | ⟨sop, hsome, hshared⟩
  · exact iff_of_true (heq ▸ h) (Op.fresh_of_unshared hnone)
  · rw [Op.fresh_shared hsome]
    exact SharedView.nothingTwiceAt_iff hinv h hshared

theorem nothingTwice_new (role : Role) : (new role).NothingTwice :=
  ⟨Finset.disjoint_empty_left _, Finset.disjoint_empty_left _⟩

/-- What is committed, what is an output, and what has its decode info sent stays so. -/
theorem Step.mono (hinv : v.Inv) (hstep : Step v op w) :
    v.input.complete ⊆ w.input.complete ∧ v.output.all ⊆ w.output.all ∧
      v.decode.decodeInfo ⊆ w.decode.decodeInfo := by
  rcases (Op.refines hinv hstep).2 with ⟨-, heq⟩ | ⟨sop, -, hshared⟩
  · have hcommitted : w.input.complete = v.input.complete := congrArg SharedView.committed heq
    have houtputs : w.output.all = v.output.all := congrArg SharedView.outputs heq
    have hdecode : w.decode = v.decode := congrArg SharedView.decode heq
    rw [hcommitted, houtputs, hdecode]
    exact ⟨fun _ h => h, fun _ h => h, fun _ h => h⟩
  · exact hshared.mono

end View

/-- The operation of the view, if any, makes the flush repeat nothing. -/
def View.FreshIn (v : View) : Option View.Op → Prop
  | none => True
  | some op => op.Fresh v

instance (v : View) : ∀ op, Decidable (v.FreshIn op)
  | none => isTrue trivial
  | some op => inferInstanceAs (Decidable (op.Fresh v))

/-- What the store's view performs. -/
theorem View.Performs.nothingTwice {op : Option View.Op} {v w : View} (h : View.Performs op v w)
    (hinv : v.Inv) (hnothing : v.NothingTwice) (hfresh : v.FreshIn op) :
    w.NothingTwice ∧ v.input.complete ⊆ w.input.complete ∧ v.output.all ⊆ w.output.all ∧
      v.decode.decodeInfo ⊆ w.decode.decodeInfo := by
  rcases h with rfl | ⟨vop, rfl, hstep⟩
  · exact ⟨hnothing, fun _ h => h, fun _ h => h, fun _ h => h⟩
  · exact ⟨(View.nothingTwice_iff hinv hnothing hstep).mpr hfresh, View.Step.mono hinv hstep⟩

/-- An accepted operation of a view that makes the flush repeat nothing. -/
def View.FreshStep (v : View) (op : View.Op) (w : View) : Prop := op.Fresh v ∧ View.Step v op w

/-- The flush of a run of such operations repeats nothing. -/
theorem View.nothingTwice_of_run {role : Role} {ops : List View.Op} {v : View}
    (h : Run View.FreshStep (View.new role) ops v) : v.Inv ∧ v.NothingTwice := by
  refine h.invariant (P := fun v => v.Inv ∧ v.NothingTwice)
    ⟨View.inv_new role, View.nothingTwice_new role⟩ fun v op w hv hstep => ?_
  exact ⟨View.Step.inv hv.1 hstep.2, (View.nothingTwice_iff hv.1 hv.2 hstep.2).mpr hstep.1⟩

end Mpz.Garble
