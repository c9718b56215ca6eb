import Mathlib.Data.Finset.Lattice.Fold
import Mathlib.Order.Interval.Finset.Nat
import Mathlib.Order.Lattice.Nat

/-!
# Sets of indices kept as ranges

A range set is a finite set of natural numbers that its owner keeps as sorted, disjoint,
non-adjacent half-open ranges. The representation is canonical, so two range sets are equal
exactly when they hold the same indices, and everything one can observe of a range set is a
function of the indices it holds. `RangeSet` is therefore the set of indices itself, and the
sorted ranges are recovered from it by `RangeSet.iter`.

## Main definitions

* `Range` — a half-open range, and the set of its indices
* `RangeSet.indices` — the indices of a range set in ascending order
* `RangeSet.iter` — its maximal ranges in ascending order

## Main results

* `flatMap_indices_iter` — the ranges of a set, read one after the other, are its indices
-/

namespace Mpz

/-- A half-open range of indices. -/
structure Range where
  /-- The first index. -/
  start : ℕ
  /-- The first index past the range. -/
  stop : ℕ
  deriving DecidableEq, Repr

/-- A finite set of indices. -/
abbrev RangeSet := Finset ℕ

namespace Range

/-- The indices of a range, as a set. -/
def toSet (r : Range) : RangeSet := Finset.Ico r.start r.stop

/-- The indices of a range, in ascending order. -/
def indices (r : Range) : List ℕ := List.range' r.start (r.stop - r.start)

/-- The number of indices. -/
def len (r : Range) : ℕ := r.stop - r.start

@[simp] theorem mem_toSet {r : Range} {i : ℕ} : i ∈ r.toSet ↔ r.start ≤ i ∧ i < r.stop :=
  Finset.mem_Ico

@[simp] theorem mem_indices {r : Range} {i : ℕ} : i ∈ r.indices ↔ r.start ≤ i ∧ i < r.stop := by
  rw [indices, List.mem_range'_1]
  omega

@[simp] theorem length_indices (r : Range) : r.indices.length = r.len := List.length_range'

theorem indices_cons {a b : ℕ} (h : a < b) :
    (⟨a, b⟩ : Range).indices = a :: (⟨a + 1, b⟩ : Range).indices := by
  simp only [indices]
  rw [show b - a = (b - (a + 1)) + 1 by omega, List.range'_succ]

end Range

namespace RangeSet

/-- The indices of a range set in ascending order. -/
def indices (s : RangeSet) : List ℕ := (List.range (s.sup Nat.succ)).filter (· ∈ s)

/-- The maximal ranges of consecutive entries of a list. -/
def runs : List ℕ → List Range
  | [] => []
  | i :: l =>
    match runs l with
    | [] => [⟨i, i + 1⟩]
    | r :: rs => if i + 1 = r.start then ⟨i, r.stop⟩ :: rs else ⟨i, i + 1⟩ :: r :: rs

/-- The maximal ranges of a range set, in ascending order. -/
def iter (s : RangeSet) : List Range := runs s.indices

/-! ### The ascending indices -/

@[simp] theorem mem_indices {s : RangeSet} {i : ℕ} : i ∈ s.indices ↔ i ∈ s := by
  simp only [indices, List.mem_filter, List.mem_range, decide_eq_true_eq, and_iff_right_iff_imp]
  exact fun h => Finset.lt_sup_iff.mpr ⟨i, h, Nat.lt_succ_self i⟩

theorem nodup_indices (s : RangeSet) : s.indices.Nodup := List.nodup_range.filter _

@[simp] theorem length_indices (s : RangeSet) : s.indices.length = s.card := by
  rw [← List.toFinset_card_of_nodup s.nodup_indices]
  congr 1
  ext i
  simp

@[simp] theorem indices_empty : indices ∅ = [] := rfl

/-! ### The maximal ranges -/

theorem lt_of_mem_runs {l : List ℕ} {r : Range} (h : r ∈ runs l) : r.start < r.stop := by
  induction l generalizing r with
  | nil => simp [runs] at h
  | cons i l ih =>
    rw [runs] at h
    rcases hl : runs l with _ | ⟨q, rs⟩
    · simp only [hl, List.mem_singleton] at h
      simp [h]
    · have hq : q.start < q.stop := ih (by simp [hl])
      have hrs : ∀ r ∈ rs, r.start < r.stop := fun r hr => ih (by simp [hl, hr])
      simp only [hl] at h
      split at h
      · rcases List.mem_cons.mp h with rfl | h
        · simp only; omega
        · exact hrs r h
      · rcases List.mem_cons.mp h with rfl | h
        · simp
        · rcases List.mem_cons.mp h with rfl | h
          · exact hq
          · exact hrs r h

theorem flatMap_indices_runs (l : List ℕ) : (runs l).flatMap Range.indices = l := by
  induction l with
  | nil => rfl
  | cons i l ih =>
    have single : (⟨i, i + 1⟩ : Range).indices = [i] := by simp [Range.indices]
    rw [runs]
    rcases hl : runs l with _ | ⟨q, rs⟩
    · rw [hl, List.flatMap_nil] at ih
      simp [single, ← ih]
    · have hq : q.start < q.stop := lt_of_mem_runs (l := l) (by simp [hl])
      rw [hl, List.flatMap_cons] at ih
      dsimp only
      split
      case isTrue h =>
        rw [List.flatMap_cons, Range.indices_cons (by omega), h, List.cons_append]
        exact congrArg _ ih
      case isFalse h =>
        rw [List.flatMap_cons, single, List.flatMap_cons, ih, List.singleton_append]

/-- Every range of a range set holds at least one index. -/
theorem lt_of_mem_iter {s : RangeSet} {r : Range} (h : r ∈ s.iter) : r.start < r.stop :=
  lt_of_mem_runs h

/-- **Reading a set range by range reads its indices in order.** -/
theorem flatMap_indices_iter (s : RangeSet) : s.iter.flatMap Range.indices = s.indices :=
  flatMap_indices_runs _

theorem toSet_subset_of_mem_iter {s : RangeSet} {r : Range} (h : r ∈ s.iter) : r.toSet ⊆ s := by
  intro i hi
  rw [← mem_indices, ← flatMap_indices_iter, List.mem_flatMap]
  exact ⟨r, h, Range.mem_indices.mpr (Range.mem_toSet.mp hi)⟩

theorem exists_mem_iter {s : RangeSet} {i : ℕ} (h : i ∈ s) : ∃ r ∈ s.iter, i ∈ r.toSet := by
  rw [← mem_indices, ← flatMap_indices_iter, List.mem_flatMap] at h
  obtain ⟨r, hr, hi⟩ := h
  exact ⟨r, hr, Range.mem_toSet.mpr (Range.mem_indices.mp hi)⟩

/-- The ranges of a range set do not overlap. -/
theorem pairwise_disjoint_iter (s : RangeSet) :
    s.iter.Pairwise fun q r => Disjoint q.toSet r.toSet := by
  have h := s.nodup_indices
  rw [← flatMap_indices_iter, List.nodup_flatMap] at h
  refine h.2.imp fun {q r} hqr => Finset.disjoint_left.mpr fun i hi hi' => ?_
  exact hqr (Range.mem_indices.mpr (Range.mem_toSet.mp hi))
    (Range.mem_indices.mpr (Range.mem_toSet.mp hi'))

@[simp] theorem iter_empty : iter ∅ = [] := rfl

example : iter {1, 2, 3, 7, 9, 10} = [⟨1, 4⟩, ⟨7, 8⟩, ⟨9, 11⟩] := by decide

end RangeSet

end Mpz
