import Mathlib.Tactic.Tauto
import Mpz.Lib.Method
import Mpz.Lib.RangeSet

/-!
# Visibility of memory

Every allocated index is uninitialized, public, private or blind, and in exactly one of the four.
The visible indices are the public and the private ones. A `VisibilityView` carries these facts.

## Main definitions

* `Visibility`, `VisibilityView`
* `VisibilityView.set` — the three setters, which differ in the set that the range joins
-/

namespace Mpz

/-- What a party knows about a value. -/
inductive Visibility where
  /-- Both parties know it. -/
  | pub
  /-- This party knows it. -/
  | priv
  /-- The other party knows it. -/
  | blind
  deriving DecidableEq, Repr

/-- Visibility of memory. -/
structure VisibilityView where
  /-- The number of allocated indices. -/
  len : ℕ
  /-- The indices whose visibility is not set. -/
  uninit : RangeSet
  /-- The public ranges. -/
  publicRanges : RangeSet
  /-- The private ranges. -/
  privateRanges : RangeSet
  /-- The blind ranges. -/
  blindRanges : RangeSet
  /-- The visible ranges (i.e. all the ranges except for the blind ones). -/
  visibleRanges : RangeSet
  cover : ∀ i, i < len ↔
    i ∈ uninit ∨ i ∈ publicRanges ∨ i ∈ privateRanges ∨ i ∈ blindRanges
  uninit_exclusive : ∀ i ∈ uninit, i ∉ publicRanges ∧ i ∉ privateRanges ∧ i ∉ blindRanges
  public_exclusive : ∀ i ∈ publicRanges, i ∉ privateRanges ∧ i ∉ blindRanges
  private_exclusive : ∀ i ∈ privateRanges, i ∉ blindRanges
  visible_iff : ∀ i, i ∈ visibleRanges ↔ i ∈ publicRanges ∨ i ∈ privateRanges

namespace VisibilityView

/-- Creates a new view. -/
def new : VisibilityView where
  len := 0
  uninit := ∅
  publicRanges := ∅
  privateRanges := ∅
  blindRanges := ∅
  visibleRanges := ∅
  cover := by simp
  uninit_exclusive := by simp
  public_exclusive := by simp
  private_exclusive := by simp
  visible_iff := by simp

theorem len_new : new.len = 0 := rfl

theorem cover_alloc (self : VisibilityView) (len i : ℕ) : i < self.len + len ↔
    i ∈ self.uninit ∪ (⟨self.len, self.len + len⟩ : Range).toSet ∨ i ∈ self.publicRanges ∨
      i ∈ self.privateRanges ∨ i ∈ self.blindRanges := by
  have := self.cover i
  simp only [Finset.mem_union, Range.mem_toSet]
  constructor
  · intro hi
    by_cases hlt : i < self.len
    · tauto
    · exact .inl (.inr ⟨not_lt.mp hlt, hi⟩)
  · rintro ((hi | hi) | hi)
    · have hlt : i < self.len := this.mpr (.inl hi)
      omega
    · exact hi.2
    · have hlt : i < self.len := this.mpr (.inr hi)
      omega

theorem uninit_exclusive_alloc (self : VisibilityView) (len : ℕ) :
    ∀ i ∈ self.uninit ∪ (⟨self.len, self.len + len⟩ : Range).toSet,
      i ∉ self.publicRanges ∧ i ∉ self.privateRanges ∧ i ∉ self.blindRanges := by
  intro i hi
  rcases Finset.mem_union.mp hi with hi | hi
  · exact self.uninit_exclusive i hi
  · have := self.cover i
    have hlt : ¬ i < self.len := not_lt.mpr (Range.mem_toSet.mp hi).1
    tauto

/-- Allocates memory. -/
def alloc (self : VisibilityView) (len : ℕ) : VisibilityView where
  len := self.len + len
  uninit := self.uninit ∪ (⟨self.len, self.len + len⟩ : Range).toSet
  publicRanges := self.publicRanges
  privateRanges := self.privateRanges
  blindRanges := self.blindRanges
  visibleRanges := self.visibleRanges
  cover := cover_alloc self len
  uninit_exclusive := uninit_exclusive_alloc self len
  public_exclusive := self.public_exclusive
  private_exclusive := self.private_exclusive
  visible_iff := self.visible_iff

/-- Returns `true` if all data in the range is allocated and set. -/
def isSet (self : VisibilityView) (range : Range) : Bool :=
  decide (range.stop ≤ self.len) && decide (Disjoint range.toSet self.uninit)

/-- Returns `true` if any allocated data in the range is set. -/
def isSetAny (self : VisibilityView) (range : Range) : Bool :=
  let start := min range.start self.len
  let stop := min range.stop self.len
  decide (start < stop) && decide ((⟨start, stop⟩ : Range).toSet \ self.uninit).Nonempty

/-- Returns `true` if all data in the range is visible. -/
def isVisible (self : VisibilityView) (range : Range) : Bool :=
  decide (range.toSet ⊆ self.visibleRanges)

/-- Moves a range of allocated indices into the set of a visibility, and out of the others. -/
def set (self : VisibilityView) (visibility : Visibility) (range : Range)
    (h : range.stop ≤ self.len) : VisibilityView where
  len := self.len
  uninit := self.uninit \ range.toSet
  publicRanges := if visibility = .pub then self.publicRanges ∪ range.toSet
    else self.publicRanges \ range.toSet
  privateRanges := if visibility = .priv then self.privateRanges ∪ range.toSet
    else self.privateRanges \ range.toSet
  blindRanges := if visibility = .blind then self.blindRanges ∪ range.toSet
    else self.blindRanges \ range.toSet
  visibleRanges := if visibility = .blind then self.visibleRanges \ range.toSet
    else self.visibleRanges ∪ range.toSet
  cover i := by
    have hcover := self.cover i
    have hlt : i ∈ range.toSet → i < self.len := fun hi =>
      lt_of_lt_of_le (Range.mem_toSet.mp hi).2 h
    cases visibility <;> simp [-Range.mem_toSet] <;> tauto
  uninit_exclusive i hi := by
    have := self.uninit_exclusive i (Finset.mem_sdiff.mp hi).1
    have := (Finset.mem_sdiff.mp hi).2
    cases visibility <;> simp [-Range.mem_toSet] <;> tauto
  public_exclusive i hi := by
    have := self.public_exclusive i
    cases visibility <;> simp [-Range.mem_toSet] at hi ⊢ <;> tauto
  private_exclusive i hi := by
    have := self.private_exclusive i
    cases visibility <;> simp [-Range.mem_toSet] at hi ⊢ <;> tauto
  visible_iff i := by
    have := self.visible_iff i
    cases visibility <;> simp [-Range.mem_toSet] <;> tauto

variable {v : VisibilityView} {range : Range} {i : ℕ}

/-- An index whose visibility is set is in no range of which none is set. -/
theorem notMem_of_isSetAny (hset : v.isSetAny range = false) (hlt : i < v.len)
    (hi : i ∉ v.uninit) : i ∉ range.toSet := by
  intro hmem
  rw [Range.mem_toSet] at hmem
  have hmem : i ∈ (⟨min range.start v.len, min range.stop v.len⟩ : Range).toSet := by
    rw [Range.mem_toSet]
    exact ⟨(min_le_left _ _).trans hmem.1, lt_min hmem.2 hlt⟩
  simp only [isSetAny, Bool.and_eq_false_iff, decide_eq_false_iff_not] at hset
  rcases hset with hset | hset
  · have := Range.mem_toSet.mp hmem
    omega
  · exact hset ⟨i, Finset.mem_sdiff.mpr ⟨hmem, hi⟩⟩

/-- What is visible stays visible where a range is set of which none was. -/
theorem mem_visible_set {visibility : Visibility} {h : range.stop ≤ v.len}
    (hset : v.isSetAny range = false) (hi : i ∈ v.visibleRanges) :
    i ∈ (v.set visibility range h).visibleRanges := by
  have hvis := (v.visible_iff i).mp hi
  have hlt := (v.cover i).mpr (.inr (hvis.imp_right .inl))
  have huninit : i ∉ v.uninit := fun hu => by
    have := v.uninit_exclusive i hu
    tauto
  have hmem := notMem_of_isSetAny hset hlt huninit
  cases visibility <;> simp [set, hi, hmem, -Range.mem_toSet]

end VisibilityView

end Mpz
