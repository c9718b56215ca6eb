import Mpz.IdealVm.Vm

/-!
# What holds of one ideal store

An output has no visibility, and its bits are there exactly when it is complete. An input is
complete only when its bits are there, and a blind one has no bits before.

## Main definitions

* `VmStore.At` — how the sets of a store lie to each other at an index, and to the bits
* `View.CanCommit` — what a commitment checks

## Main results

* `VmStore.At.mark`, `VmStore.At.commit`, `VmStore.At.assign`, `VmStore.At.alloc` — the operations
  keep it
-/

namespace Mpz.IdealVm

namespace View

variable {v w : View} {range : Range} {u : Unit}

/-- What a commitment checks. -/
structure CanCommit (v : View) (range : Range) : Prop where
  isSet : v.vis.isSet range = true
  output : Disjoint range.toSet v.output.all
  complete : Disjoint range.toSet v.input.complete
  pub : range.toSet ∩ v.vis.publicRanges ⊆ v.input.assigned
  priv : range.toSet ∩ v.vis.privateRanges ⊆ v.input.assigned

/-- The view with the range committed. -/
def committed (v : View) (range : Range) : View :=
  { v with
    input := { v.input with complete := v.input.complete ∪ range.toSet ∩ v.vis.publicRanges }
    flush :=
      { peerInput := v.flush.peerInput ∪ range.toSet ∩ v.vis.blindRanges
        input := v.flush.input ∪ range.toSet ∩ v.vis.privateRanges } }

theorem commit_of_canCommit (h : v.CanCommit range) :
    commit range v = (.ok (), v.committed range) := by
  have hnot : ¬ (¬ range.toSet ∩ v.vis.publicRanges ⊆ v.input.assigned ∨
      ¬ range.toSet ∩ v.vis.privateRanges ⊆ v.input.assigned) := by
    rw [not_or, not_not, not_not]
    exact ⟨h.pub, h.priv⟩
  rw [commit, Method.get_bind, Method.ite_apply, if_neg (by simpa using h.isSet), Method.ite_apply,
    if_neg (not_not.mpr h.output), Method.ite_apply, if_neg (not_not.mpr h.complete)]
  simp only [Method.ite_apply, if_neg hnot]
  rfl

theorem commit_of_not_canCommit (h : ¬ v.CanCommit range) : ∃ e, commit range v = (.err e, v) := by
  rw [commit, Method.get_bind, Method.ite_apply]
  split
  case isTrue => exact ⟨_, rfl⟩
  case isFalse hset =>
    rw [Method.ite_apply]
    split
    case isTrue => exact ⟨_, rfl⟩
    case isFalse hout =>
      rw [Method.ite_apply]
      split
      case isTrue => exact ⟨_, rfl⟩
      case isFalse hcomplete =>
        simp only [Method.ite_apply]
        split
        case isTrue => exact ⟨_, rfl⟩
        case isFalse hassigned =>
          rw [not_or, not_not, not_not] at hassigned
          exact absurd ⟨by simpa using hset, not_not.mp hout, not_not.mp hcomplete, hassigned.1,
            hassigned.2⟩ h

/-- A mark is refused, or the range joins a set. -/
theorem mark_cases (visibility : Visibility) (hlen : range.stop ≤ v.len) :
    ((∃ e, mark visibility range v = (.err e, v)) ∧
      ¬ (v.vis.isSetAny range = false ∧ Disjoint range.toSet v.output.all)) ∨
      v.vis.isSetAny range = false ∧ Disjoint range.toSet v.output.all ∧
        ∃ h : range.stop ≤ v.vis.len, mark visibility range v =
          (.ok (), { v with vis := v.vis.set visibility range h, len_vis := v.len_vis }) := by
  have hvis : range.stop ≤ v.vis.len := v.len_vis ▸ hlen
  rw [mark, Method.get_bind, Method.ite_apply]
  split
  case isTrue hset => exact .inl ⟨⟨_, rfl⟩, fun h => by simp [hset] at h⟩
  case isFalse hset =>
    rw [Method.ite_apply]
    split
    case isTrue hout => exact .inl ⟨⟨_, rfl⟩, fun h => hout h.2⟩
    case isFalse hout =>
      exact .inr ⟨by simpa using hset, not_not.mp hout, hvis, rfl⟩

/-- An assignment is refused, or recorded. -/
theorem assign_cases (v : View) (range : Range) :
    ((∃ e, assign range v = (.err e, v)) ∧
      ¬ (range.toSet ⊆ v.vis.visibleRanges ∧ Disjoint range.toSet v.output.all)) ∨
      range.toSet ⊆ v.vis.visibleRanges ∧ Disjoint range.toSet v.output.all ∧
        assign range v = (.ok (),
          { v with input := { v.input with assigned := v.input.assigned ∪ range.toSet } }) := by
  rw [assign, Method.get_bind, Method.ite_apply]
  split
  case isTrue hvis =>
    exact .inl ⟨⟨_, rfl⟩, fun h => hvis (by simpa [VisibilityView.isVisible] using h.1)⟩
  case isFalse hvis =>
    rw [Method.ite_apply]
    split
    case isTrue hout => exact .inl ⟨⟨_, rfl⟩, fun h => hout h.2⟩
    case isFalse hout =>
      exact .inr ⟨by simpa [VisibilityView.isVisible] using hvis, not_not.mp hout, rfl⟩

theorem setOutput_of_subset (h : range.toSet ⊆ v.output.all) :
    setOutput range v = (.ok (),
      { v with output := { v.output with complete := v.output.complete ∪ range.toSet } }) := by
  rw [setOutput, Method.get_bind, Method.ite_apply, if_neg (not_not.mpr h)]
  rfl

/-- Where a range is set of which nothing was, nothing had a visibility. -/
theorem mem_uninit_of_isSetAny (hset : v.vis.isSetAny range = false) (hlen : range.stop ≤ v.vis.len)
    {i : ℕ} (hi : i ∈ range.toSet) : i ∈ v.vis.uninit := by
  by_contra hu
  exact VisibilityView.notMem_of_isSetAny hset ((Range.mem_toSet.mp hi).2.trans_le hlen) hu hi

end View

namespace VmStore

/-- How the sets of a store lie to each other at an index, and to the bits. -/
structure At (s : VmStore) (i : ℕ) : Prop where
  out : i ∈ s.view.output.all → i ∈ s.view.vis.uninit
  uninit : i ∈ s.view.vis.uninit → i ∈ s.dataStore.set → i ∈ s.view.output.all
  out_complete : i ∈ s.view.output.complete → i ∈ s.view.output.all
  out_set : i ∈ s.view.output.all → (i ∈ s.view.output.complete ↔ i ∈ s.dataStore.set)
  assigned : i ∈ s.view.input.assigned → i ∈ s.view.vis.visibleRanges ∧ i ∈ s.dataStore.set
  complete : i ∈ s.view.input.complete → i ∉ s.view.vis.uninit ∧ i ∈ s.dataStore.set
  blind : i ∈ s.view.vis.blindRanges → i ∈ s.dataStore.set → i ∈ s.view.input.complete
  input : i ∈ s.view.flush.input → i ∈ s.view.vis.privateRanges ∧ i ∈ s.view.input.assigned
  peerInput : i ∈ s.view.flush.peerInput → i ∈ s.view.vis.blindRanges ∧ i ∉ s.view.input.complete

variable {s : VmStore} {range : Range} {slice : Slice} {i : ℕ}

/-- A range of which nothing was set joins a set. -/
theorem At.mark {visibility : Visibility} (h : s.At i) (hset : s.view.vis.isSetAny range = false)
    (hdisj : Disjoint range.toSet s.view.output.all) (hlen : range.stop ≤ s.view.vis.len) :
    VmStore.At { s with view := { s.view with
      vis := s.view.vis.set visibility range hlen, len_vis := s.view.len_vis } } i := by
  have huninit := View.mem_uninit_of_isSetAny hset hlen (i := i)
  have hout : i ∈ range.toSet → i ∉ s.view.output.all := fun hi => Finset.disjoint_left.mp hdisj hi
  have hexcl := s.view.vis.uninit_exclusive i
  have hvis := s.view.vis.visible_iff i
  obtain ⟨h1, h2, h3, h4, h5, h6, h7, h8, h9⟩ := h
  cases visibility <;> constructor <;>
    simp only [VisibilityView.set, if_pos, reduceCtorEq, if_false, Finset.mem_union,
      Finset.mem_sdiff] at * <;> grind

theorem At.commit (h : s.At i) (hcan : s.view.CanCommit range) :
    VmStore.At { s with view := s.view.committed range } i := by
  have hout : i ∈ range.toSet → i ∉ s.view.output.all := fun hi =>
    Finset.disjoint_left.mp hcan.output hi
  have hcomplete : i ∈ range.toSet → i ∉ s.view.input.complete := fun hi =>
    Finset.disjoint_left.mp hcan.complete hi
  have hpub := @hcan.pub i
  have hpriv := @hcan.priv i
  have hexcl := s.view.vis.uninit_exclusive i
  have hpubex := s.view.vis.public_exclusive i
  obtain ⟨h1, h2, h3, h4, h5, h6, h7, h8, h9⟩ := h
  constructor <;> simp only [View.committed, Finset.mem_union, Finset.mem_inter] at * <;> grind

/-- What is assigned is visible, and there. -/
theorem At.assign {dataStore : BitStore} (h : s.At i)
    (hvis : range.toSet ⊆ s.view.vis.visibleRanges)
    (hset : ∀ i, i ∈ dataStore.set ↔ i ∈ s.dataStore.set ∨ i ∈ range.toSet) :
    VmStore.At { s with
      dataStore
      view := { s.view with
        input := { s.view.input with assigned := s.view.input.assigned ∪ range.toSet } } } i := by
  have hvis := @hvis i
  have hset := hset i
  have hexcl := s.view.vis.uninit_exclusive i
  have hpubex := s.view.vis.public_exclusive i
  have hprivex := s.view.vis.private_exclusive i
  have hvisible := s.view.vis.visible_iff i
  obtain ⟨h1, h2, h3, h4, h5, h6, h7, h8, h9⟩ := h
  constructor <;> simp only [Finset.mem_union] at * <;> grind

/-- An output is written, and complete. -/
theorem At.output {dataStore : BitStore} (h : s.At i) (hsub : range.toSet ⊆ s.view.output.all)
    (hset : ∀ i, i ∈ dataStore.set ↔ i ∈ s.dataStore.set ∨ i ∈ range.toSet) :
    VmStore.At { s with
      dataStore
      view := { s.view with output := { s.view.output with
        complete := s.view.output.complete ∪ range.toSet } } } i := by
  have hsub := @hsub i
  have hset := hset i
  have hexcl := s.view.vis.uninit_exclusive i
  have hvisible := s.view.vis.visible_iff i
  obtain ⟨h1, h2, h3, h4, h5, h6, h7, h8, h9⟩ := h
  constructor <;> simp only [Finset.mem_union] at * <;> grind

/-- What the peer sent is written, and the flush is complete. -/
theorem At.completeFlush {dataStore : BitStore} (h : s.At i)
    (hset : ∀ i, i ∈ dataStore.set ↔ i ∈ s.dataStore.set ∨ i ∈ s.view.flush.peerInput) :
    VmStore.At { s with dataStore, view := s.view.completeFlush } i := by
  have hset := hset i
  have hexcl := s.view.vis.uninit_exclusive i
  have hvisible := s.view.vis.visible_iff i
  obtain ⟨h1, h2, h3, h4, h5, h6, h7, h8, h9⟩ := h
  constructor <;>
    simp only [View.completeFlush, Finset.mem_union, Finset.notMem_empty, false_implies] at * <;>
    grind

/-- Memory is allocated, for inputs or for outputs. -/
theorem At.alloc {dataStore : BitStore} {view : View} {size : ℕ} (h : s.At i)
    (hlen : s.dataStore.items.length = s.view.len) (hset : dataStore.set = s.dataStore.set)
    (hvis : view.vis = s.view.vis.alloc size)
    (hassigned : view.input.assigned = s.view.input.assigned)
    (hcomplete : view.input.complete = s.view.input.complete)
    (hout : i ∈ view.output.all → i ∈ s.view.output.all ∨ i ∈ (s.view.nextRange size).toSet)
    (hout' : i ∈ s.view.output.all → i ∈ view.output.all)
    (houtput : view.output.complete = s.view.output.complete) (hflush : view.flush = s.view.flush) :
    VmStore.At { s with dataStore, view } i := by
  have hlt : i ∈ s.dataStore.set → i < s.view.len := fun hi => hlen ▸ s.dataStore.lt_length i hi
  have hnew : i ∈ (s.view.nextRange size).toSet ↔ s.view.len ≤ i ∧ i < s.view.len + size :=
    Range.mem_toSet
  have hrange : (⟨s.view.vis.len, s.view.vis.len + size⟩ : Range) = s.view.nextRange size := by
    rw [View.nextRange, s.view.len_vis]
  have hexcl := s.view.vis.uninit_exclusive i
  have hcover := s.view.vis.cover i
  have hvislen := s.view.len_vis
  have hvisible := s.view.vis.visible_iff i
  obtain ⟨h1, h2, h3, h4, h5, h6, h7, h8, h9⟩ := h
  constructor <;>
    simp only [hset, hvis, hassigned, hcomplete, houtput, hflush, VisibilityView.alloc, hrange,
      Finset.mem_union] at * <;> grind

end VmStore

end Mpz.IdealVm
