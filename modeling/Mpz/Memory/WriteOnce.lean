import Mpz.Memory.Store

/-!
# Write-once runs of a store

`trySet` refuses a slice whose cells are all set. A slice of which only some are set it accepts,
and overwrites them. Where no call of a run has such a slice, the store is write-once: a cell keeps
its value, and was written by exactly one call.

## Main definitions

* `Store.Call` — the calls that allocate and write, and what they return
* `Store.Whole` — a slice that does not meet the set cells in part
* `Store.Extends` — every cell that is set keeps its value
* `Store.Fills` — the values that calls may fill in

## Main results

* `Store.Extends.trySet` — a write of such a slice
* `Store.trySet_refused_iff`, `Store.extends_trySet_iff` — of which slices this holds
* `Store.extends_of_run`, `Store.unique_writer` — a run of such writes
* `Store.trySet_overwrites` — a write of another slice
-/

namespace Mpz.Store

variable {T : Type}

/-- A call that allocates or writes cells. -/
inductive Call (T : Type) where
  /-- `alloc` -/
  | alloc (len : ℕ)
  /-- `alloc_with` -/
  | allocWith (data : List T)
  /-- `try_set` -/
  | trySet (slice : Slice) (data : List T)

/-- The call, which returns the slice it is about. -/
def Call.run [Inhabited T] : Call T → Method (Store T) StoreError Slice
  | .alloc len => Store.alloc len
  | .allocWith data => Store.allocWith data
  | .trySet slice data => do
    Store.trySet slice data
    return slice

/-- The cells that a call has written, by what it returned. -/
def Call.written : Call T → Outcome StoreError Slice → RangeSet
  | .alloc _, _ => ∅
  | _, .ok slice => slice.toRange.toSet
  | _, _ => ∅

/-- A call of a run, with what it returned. It has returned, so it has not panicked. -/
def Step [Inhabited T] (s : Store T) (e : Call T × Outcome StoreError Slice) (t : Store T) : Prop :=
  e.1.run s = (e.2, t) ∧ e.2 ≠ .panic

/-- The slice meets the set cells in none of its indices or in all of them, or it is out of
bounds. -/
def Whole (self : Store T) (slice : Slice) : Prop :=
  slice.toRange.toSet ⊆ self.set ∨ Disjoint slice.toRange.toSet self.set ∨
    self.items.length < slice.toRange.stop

instance (self : Store T) (slice : Slice) : Decidable (self.Whole slice) :=
  inferInstanceAs (Decidable (_ ∨ _ ∨ _))

/-- The calls whose slices are whole. -/
def Call.Whole (self : Store T) : Call T → Prop
  | .trySet slice _ => self.Whole slice
  | _ => True

instance (self : Store T) : ∀ call : Call T, Decidable (call.Whole self)
  | .trySet slice _ => inferInstanceAs (Decidable (self.Whole slice))
  | .alloc _ | .allocWith _ => isTrue trivial

/-- A step that writes whole slices only. -/
def WholeStep [Inhabited T] (s : Store T) (e : Call T × Outcome StoreError Slice) (t : Store T) :
    Prop :=
  e.1.Whole s ∧ Step s e t

/-- Every cell that is set keeps its value. -/
def Extends (s t : Store T) : Prop := ∀ i a, s.cell i = some a → t.cell i = some a

variable {s t u : Store T} {slice : Slice} {data : List T}

theorem Extends.refl (s : Store T) : s.Extends s := fun _ _ h => h

theorem Extends.trans (h : s.Extends t) (h' : t.Extends u) : s.Extends u :=
  fun i a hi => h' i a (h i a hi)

/-! ### One call -/

/-- **A write of a whole slice changes no cell that is set.** -/
theorem Extends.trySet {o : Outcome StoreError Unit} (hwhole : s.Whole slice) (ho : o ≠ .panic)
    (h : Store.trySet slice data s = (o, t)) : s.Extends t := by
  cases o with
  | panic => exact absurd rfl ho
  | err e =>
    obtain ⟨rfl, -⟩ := trySet_eq_err h
    exact Extends.refl _
  | ok u =>
    obtain ⟨hsub, -, hle, -⟩ := trySet_eq_ok h
    have hdisj : Disjoint slice.toRange.toSet s.set := by
      rcases hwhole with hwhole | hwhole | hwhole
      · exact absurd hwhole hsub
      · exact hwhole
      · exact absurd hle (not_le.mpr hwhole)
    intro i a hi
    have hi' : i ∉ slice.toRange.toSet := fun hi' =>
      Finset.disjoint_left.mp hdisj hi' (cell_eq_some.mp hi).1
    rw [cell_trySet h, if_neg hi', hi]

/-- A write that touches a set cell is refused, and changes nothing. -/
theorem trySet_refused (hwhole : s.Whole slice) {i : ℕ} (hi : i ∈ slice.toRange.toSet)
    (hs : i ∈ s.set) (data : List T) : ∃ e, trySet slice data s = (.err e, s) := by
  rcases trySet_cases s slice data with ⟨-, h⟩ | ⟨-, -, h⟩ | ⟨hsub, hle, -⟩
  · exact ⟨_, h⟩
  · exact ⟨_, h⟩
  · exfalso
    rcases hwhole with hwhole | hwhole | hwhole
    · exact hsub hwhole
    · exact Finset.disjoint_left.mp hwhole hi hs
    · exact not_lt.mpr hle hwhole

/-- **A write is refused where it touches a set cell, exactly if its slice is whole.** -/
theorem trySet_refused_iff : (∀ i ∈ slice.toRange.toSet, i ∈ s.set →
    ∃ e, trySet slice data s = (.err e, s)) ↔ s.Whole slice := by
  refine ⟨fun h => ?_, fun hwhole i hi hs => trySet_refused hwhole hi hs data⟩
  rw [Whole, or_iff_not_imp_left, or_iff_not_imp_left]
  intro hsub hmeets
  obtain ⟨i, hi, hs⟩ := Finset.not_disjoint_iff.mp hmeets
  obtain ⟨e, he⟩ := h i hi hs
  rcases (trySet_eq_err he).2 with ⟨hsub', -⟩ | ⟨hlen, -⟩
  · exact absurd hsub' hsub
  · exact hlen

/-- Data that differs from what is stored in every cell of a slice. -/
def flipped (s : BitStore) (slice : Slice) : List Bool :=
  List.ofFn fun j : Fin slice.size => !(s.cell (slice.ptr + j)).getD false

/-- **Bits that are set keep their values, whatever is written, exactly if the slice is whole.** -/
theorem extends_trySet_iff {s : BitStore} :
    (∀ data, s.Extends (trySet slice data s).2) ↔ s.Whole slice := by
  constructor
  · intro h
    rw [Whole, or_iff_not_imp_left, or_iff_not_imp_left, ← not_le]
    intro hsub hmeets hlen
    obtain ⟨i, hi, hs⟩ := Finset.not_disjoint_iff.mp hmeets
    obtain ⟨b, hb⟩ := Option.isSome_iff_exists.mp (cell_isSome.mpr hs)
    have hdata : (flipped s slice).length = slice.size := List.length_ofFn
    have hset : trySet slice (flipped s slice) s = _ := trySet_of_le hsub hlen
    rw [if_pos hdata] at hset
    have hkept := h (flipped s slice) i b hb
    rw [hset, cell_trySet hset, if_pos hi] at hkept
    rw [Slice.mem_toRange] at hi
    have hptr : slice.ptr + (i - slice.ptr) = i := by omega
    have hflip : (flipped s slice)[i - slice.ptr]? = some !b := by
      have hlt : i - slice.ptr < slice.size := by omega
      simp [flipped, hlt, hptr, hb]
    rw [hflip] at hkept
    simp at hkept
  · intro hwhole data
    rcases htry : trySet slice data s with ⟨u | e | _, t⟩
    · exact Extends.trySet (o := .ok u) hwhole nofun htry
    · exact Extends.trySet (o := .err e) hwhole nofun htry
    · rcases trySet_cases s slice data with ⟨-, h⟩ | ⟨-, -, h⟩ | ⟨-, hlen, h⟩
      · cases h ▸ htry
      · cases h ▸ htry
      · rw [h] at htry
        split at htry <;> cases htry
        -- The slice is marked, and nothing is written.
        intro i b hi
        obtain ⟨hs, hitem⟩ := cell_eq_some.mp hi
        exact cell_eq_some.mpr ⟨Finset.mem_union_left _ hs, hitem⟩

theorem cell_extend (i : ℕ) : (s.extend data).cell i = s.cell i := by
  unfold cell
  by_cases hi : i ∈ s.set
  · have hlt := s.lt_length i hi
    simp only [extend, hi, if_true, List.getElem?_append_left hlt]
  · simp only [extend, hi, if_false]

theorem cell_allocWith {o : Outcome StoreError Slice} (h : allocWith data s = (o, t)) (i : ℕ) :
    t.cell i = if s.items.length ≤ i then data[i - s.items.length]? else s.cell i := by
  cases h
  by_cases hi : s.items.length ≤ i
  · rw [if_pos hi]
    have hs : i ∉ s.set := fun hs => absurd (s.lt_length i hs) (not_lt.mpr hi)
    by_cases hlt : i < s.items.length + data.length
    · simp [cell, mark, extend, hi, hlt]
    · simp only [cell, mark, extend, Finset.mem_union, hs, Range.mem_toSet, Slice.stop_toRange, hlt,
        and_false, or_self, if_false]
      exact (List.getElem?_eq_none (by omega)).symm
  · rw [if_neg hi]
    have hlt : i < s.items.length := by omega
    simp [cell, mark, extend, hi, List.getElem?_append_left hlt]

/-- A step of a run of whole writes: which cells are set behind it, and what the set ones hold. -/
theorem WholeStep.spec [Inhabited T] {e : Call T × Outcome StoreError Slice} (h : WholeStep s e t) :
    s.Extends t ∧ t.set = s.set ∪ e.1.written e.2 ∧ Disjoint s.set (e.1.written e.2) := by
  obtain ⟨hwhole, hrun, ho⟩ := h
  rcases e with ⟨call, o⟩
  cases call with
  | alloc len =>
    cases hrun
    exact ⟨fun i a hi => (cell_extend i).trans hi, by simp [Call.written, extend],
      by simp [Call.written]⟩
  | allocWith data =>
    have hcell := cell_allocWith hrun
    cases hrun
    refine ⟨fun i a hi => ?_, rfl, Finset.disjoint_left.mpr fun i hi hi' => ?_⟩
    · have hlt := s.lt_length i (cell_eq_some.mp hi).1
      rw [hcell, if_neg (not_le.mpr hlt), hi]
    · exact absurd (s.lt_length i hi) (not_lt.mpr (Range.mem_toSet.mp hi').1)
  | trySet slice data =>
    simp only [Call.run, Method.bind_apply] at hrun
    rcases hset : Store.trySet slice data s with ⟨o', s'⟩
    rw [hset] at hrun
    cases o' with
    | panic => exact absurd (Prod.mk.inj hrun).1.symm ho
    | err e =>
      cases hrun
      obtain ⟨rfl, -⟩ := trySet_eq_err hset
      exact ⟨Extends.refl _, by simp [Call.written], by simp [Call.written]⟩
    | ok u =>
      cases hrun
      refine ⟨Extends.trySet (o := .ok u) hwhole nofun hset, set_trySet hset, ?_⟩
      refine Finset.disjoint_left.mpr fun i hs hi => ?_
      obtain ⟨e, he⟩ := trySet_refused hwhole hi hs data
      rw [hset] at he
      cases he

/-! ### What calls may fill in -/

/-- No cell is unset, and a cell holds what it held before or a value that is allowed there. -/
def Fills (allowed : ℕ → T → Prop) (s t : Store T) : Prop :=
  s.set ⊆ t.set ∧ ∀ i a, t.cell i = some a → s.cell i = some a ∨ allowed i a

section Fills

variable {allowed allowed' : ℕ → T → Prop}

theorem Fills.refl (allowed : ℕ → T → Prop) (s : Store T) : s.Fills allowed s :=
  ⟨fun _ h => h, fun _ _ h => .inl h⟩

theorem Fills.extend (allowed : ℕ → T → Prop) (s : Store T) (data : List T) :
    s.Fills allowed (s.extend data) :=
  ⟨fun _ h => h, fun i _ h => .inl ((cell_extend i).symm.trans h)⟩

theorem Fills.mono (h : s.Fills allowed t) (hle : ∀ i a, allowed i a → allowed' i a) :
    s.Fills allowed' t :=
  ⟨h.1, fun i a hi => (h.2 i a hi).imp_right (hle i a)⟩

/-- A write fills in its slice. -/
theorem Fills.trySet {o : Outcome StoreError Unit} (ho : o ≠ .panic)
    (h : Store.trySet slice data s = (o, t)) :
    s.Fills (fun i _ => i ∈ slice.toRange.toSet) t := by
  cases o with
  | panic => exact absurd rfl ho
  | err e =>
    obtain ⟨rfl, -⟩ := trySet_eq_err h
    exact .refl _ _
  | ok u =>
    refine ⟨set_trySet h ▸ Finset.subset_union_left, fun i a hi => ?_⟩
    rw [cell_trySet h] at hi
    split at hi
    case isTrue hmem => exact .inr hmem
    case isFalse => exact .inl hi

/-- The loop over the ranges of a set fills in the data of their indices. -/
theorem Fills.trySetRanges {ranges : RangeSet} {o : Outcome StoreError Unit} (ho : o ≠ .panic)
    (h : Store.trySetRanges ranges.iter data s = (o, t)) :
    s.Fills (fun i a => (i, a) ∈ ranges.indices.zip data) t := by
  have hle : ∀ r ∈ ranges.iter, r.start ≤ r.stop := fun r hr => (RangeSet.lt_of_mem_iter hr).le
  refine ⟨fun i hi => (set_trySetRanges ho hle h i).1 hi, fun i a hi => ?_⟩
  rw [← RangeSet.flatMap_indices_iter]
  exact mem_zip_of_trySetRanges ho hle h hi

/-- A loop that goes through has set all indices. -/
theorem subset_set_trySetRanges {ranges : RangeSet} {u : Unit}
    (h : Store.trySetRanges ranges.iter data s = (.ok u, t)) : ranges ⊆ t.set := by
  have hle : ∀ r ∈ ranges.iter, r.start ≤ r.stop := fun r hr => (RangeSet.lt_of_mem_iter hr).le
  exact fun i hi => (set_trySetRanges (o := .ok u) nofun hle h i).2.2 rfl
    (RangeSet.exists_mem_iter hi)

end Fills

/-! ### Runs -/

variable [Inhabited T] {es : List (Call T × Outcome StoreError Slice)}

/-- A run of whole writes changes no cell that is set. -/
theorem extends_of_run (h : Run WholeStep s es t) : s.Extends t :=
  h.invariant (Extends.refl s) fun _ _ _ ih hstep => ih.trans hstep.spec.1

/-- **A set cell has exactly one writer.** -/
theorem unique_writer (h : Run WholeStep new es t) (i : ℕ) :
    (es.filter fun e => decide (i ∈ e.1.written e.2)).length = if i ∈ t.set then 1 else 0 := by
  refine h.invariant_labels (P := fun es (t : Store T) =>
    (es.filter fun e => decide (i ∈ e.1.written e.2)).length = if i ∈ t.set then 1 else 0)
    rfl fun es t e u ih hstep => ?_
  obtain ⟨-, hset, hdisj⟩ := hstep.spec
  rw [List.filter_append, List.length_append, ih, hset]
  have hdisj : i ∈ t.set → i ∉ e.1.written e.2 := fun hi => Finset.disjoint_left.mp hdisj hi
  by_cases ht : i ∈ t.set
  · simp [ht, hdisj ht]
  · by_cases hw : i ∈ e.1.written e.2 <;> simp [ht, hw]

/-- A slice of two cells, the first of which is set: the call is accepted, and the cell changes. -/
theorem trySet_overwrites : ∃ s t : BitStore,
    Run Step new [(.alloc 2, .ok ⟨0, 2⟩), (.trySet ⟨0, 1⟩ [true], .ok ⟨0, 1⟩)] s ∧
      s.cell 0 = some true ∧
      Step s (.trySet ⟨0, 2⟩ [false, true], .ok ⟨0, 2⟩) t ∧ t.cell 0 = some false :=
  ⟨_, _, (Run.nil.snoc ⟨rfl, nofun⟩).snoc ⟨rfl, nofun⟩, rfl, ⟨rfl, nofun⟩, rfl⟩

end Mpz.Store
