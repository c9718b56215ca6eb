import Mathlib.Algebra.GroupWithZero.Nat
import Mathlib.Data.List.Count
import Mpz.Lib.Buffer
import Mpz.Lib.Run

/-!
# Linear stores

A store is a row of cells and the set of those that are set. Cells are allocated at the end, read
only where they are set, and written by `trySet`. The bit store is the same store, of bits.

`trySet` marks the slice before it copies the data, and the copy panics where the data has not the
length of the slice.

## Main definitions

* `Slice`, `Store`, `BitStore`
* `Store.alloc`, `Store.allocWith`, `Store.trySet`, `Store.tryGet`
* `Store.cell` — what a store holds at an index, if it is set
* `Store.trySetRanges` — the loop that writes consecutive data to the ranges of a set
* `Store.Writable`, `Store.RunsShort` — what lets a write through, and what makes the loop panic

## Main results

* `Store.trySet_eq_ok`, `Store.trySet_eq_err` — what a call does
* `Store.cell_trySet` — what a successful call leaves in each cell
* `Store.trySetRanges_ne_alreadySet`, `Store.mem_zip_of_trySetRanges` — the same of the loop
* `Store.trySetRanges_ok_iff`, `Store.trySetRanges_panic_iff` — how the loop ends
-/

namespace Mpz

/-- A slice of contiguous memory. -/
structure Slice where
  /-- The first index. -/
  ptr : ℕ
  /-- The number of indices. -/
  size : ℕ
  deriving DecidableEq, Repr

namespace Slice

/-- Creates a new slice from a range. -/
def fromRange (range : Range) : Slice := ⟨range.start, range.len⟩

/-- Returns the memory range of the slice. -/
def toRange (self : Slice) : Range := ⟨self.ptr, self.ptr + self.size⟩

@[simp] theorem start_toRange (slice : Slice) : slice.toRange.start = slice.ptr := rfl

@[simp] theorem stop_toRange (slice : Slice) : slice.toRange.stop = slice.ptr + slice.size := rfl

theorem mem_toRange {slice : Slice} {i : ℕ} :
    i ∈ slice.toRange.toSet ↔ slice.ptr ≤ i ∧ i < slice.ptr + slice.size :=
  Range.mem_toSet

@[simp] theorem len_toRange (slice : Slice) : slice.toRange.len = slice.size :=
  Nat.add_sub_cancel_left _ _

theorem toRange_fromRange {range : Range} (h : range.start ≤ range.stop) :
    (fromRange range).toRange = range := by
  rcases range with ⟨a, b⟩
  simp only [fromRange, toRange, Range.len, Range.mk.injEq, true_and]
  exact Nat.add_sub_cancel' h

end Slice

/-- Error for a store. -/
inductive StoreError where
  /-- invalid slice -/
  | invalidSlice (slice : Slice)
  /-- data is not initialized -/
  | uninit (slice : Slice)
  /-- data is already set -/
  | alreadySet (slice : Slice)
  deriving DecidableEq, Repr

/-- A linear store. -/
structure Store (T : Type) where
  /-- The cells. -/
  items : List T
  /-- The cells that are set. -/
  set : RangeSet
  lt_length : ∀ i ∈ set, i < items.length

/-- A linear bit store. -/
abbrev BitStore := Store Bool

namespace Store

variable {T : Type}

/-- Creates a new store. -/
def new : Store T := ⟨[], ∅, nofun⟩

/-- Returns the length of the store. -/
def len (self : Store T) : ℕ := self.items.length

/-- Returns whether the given range is set. -/
def isSet (self : Store T) (slice : Slice) : Bool := decide (slice.toRange.toSet ⊆ self.set)

/-- Returns a slice if it is set, otherwise returns an error. -/
def tryGet (self : Store T) (slice : Slice) : Outcome StoreError (List T) :=
  if slice.toRange.toSet ⊆ self.set then
    .ofOption (Mpz.slice self.items slice.toRange)
  else
    .err (.uninit slice)

/-- `self.set |= range`, for a range of allocated cells. -/
def mark (self : Store T) (range : Range) (h : range.stop ≤ self.items.length) : Store T where
  items := self.items
  set := self.set ∪ range.toSet
  lt_length i hi := by
    rcases Finset.mem_union.mp hi with hi | hi
    · exact self.lt_length i hi
    · exact lt_of_lt_of_le (Range.mem_toSet.mp hi).2 h

/-- `self.items[range].copy_from_slice(data)`, for data of the length of the range. -/
def copy (self : Store T) (start : ℕ) (data : List T) : Store T where
  items := (copyFrom self.items start data).getD self.items
  set := self.set
  lt_length i hi := by
    cases h : copyFrom self.items start data with
    | none => exact self.lt_length i hi
    | some items => exact (length_of_copyFrom h).symm ▸ self.lt_length i hi

/-- `self.items.extend(data)` -/
def extend (self : Store T) (data : List T) : Store T where
  items := self.items ++ data
  set := self.set
  lt_length i hi := by
    rw [List.length_append]
    exact Nat.lt_add_right _ (self.lt_length i hi)

/-- Allocates uninitialized memory with the given length. -/
def alloc [Inhabited T] (len : ℕ) : Method (Store T) StoreError Slice := do
  let self ← Method.get
  Method.modify fun self => self.extend (List.replicate len default)
  return ⟨self.items.length, len⟩

/-- Allocates memory with the given data. -/
def allocWith (data : List T) : Method (Store T) StoreError Slice := do
  let self ← Method.get
  let slice : Slice := ⟨self.items.length, data.length⟩
  Method.modify fun _ => (self.extend data).mark slice.toRange (by simp [extend, slice])
  return slice

/-- Attempts to set data, returning an error if it is already set. -/
def trySet (slice : Slice) (data : List T) : Method (Store T) StoreError Unit := do
  let self ← Method.get
  let range := slice.toRange
  if range.toSet ⊆ self.set then
    Method.throw (.alreadySet slice)
  else if h : range.stop > self.items.length then
    Method.throw (.invalidSlice slice)
  else do
    Method.modify fun _ => self.mark range (not_lt.mp h)
    if data.length = slice.size then
      Method.modify fun self => self.copy range.start data
    else
      Method.panic

/-- `for range in ranges { store.try_set(range, &data[i..i + range.len()])?; i += range.len() }` -/
def trySetRanges : List Range → List T → Method (Store T) StoreError Unit
  | [], _ => pure ()
  | range :: ranges, data => do
    let slice := Slice.fromRange range
    let part ← Method.call (.ofOption (Mpz.slice data ⟨0, slice.size⟩))
    trySet slice part
    trySetRanges ranges (data.drop slice.size)

/-- What the store holds at an index, if it is set. -/
def cell (self : Store T) (i : ℕ) : Option T := if i ∈ self.set then self.items[i]? else none

/-! ### One write -/

variable {s t : Store T} {slice : Slice} {data : List T}

@[simp] theorem isSet_iff : s.isSet slice = true ↔ slice.toRange.toSet ⊆ s.set :=
  decide_eq_true_iff

theorem cell_isSome {i : ℕ} : (s.cell i).isSome ↔ i ∈ s.set := by
  unfold cell
  split
  case isTrue h => simp [h, s.lt_length i h]
  case isFalse h => simp [h]

theorem cell_eq_some {i : ℕ} {a : T} : s.cell i = some a ↔ i ∈ s.set ∧ s.items[i]? = some a := by
  unfold cell
  split <;> simp_all

/-- The store after a slice is marked and written. -/
def put (s : Store T) (slice : Slice) (data : List T)
    (h : slice.toRange.stop ≤ s.items.length) : Store T :=
  (s.mark slice.toRange h).copy slice.ptr data

@[simp] theorem set_put (h : slice.toRange.stop ≤ s.items.length) :
    (s.put slice data h).set = s.set ∪ slice.toRange.toSet := rfl

theorem getElem?_put (h : slice.toRange.stop ≤ s.items.length) (hdata : data.length = slice.size)
    (i : ℕ) : (s.put slice data h).items[i]? =
      if i ∈ slice.toRange.toSet then data[i - slice.ptr]? else s.items[i]? := by
  obtain ⟨items, hcopy⟩ : ∃ items, copyFrom s.items slice.ptr data = some items :=
    ⟨_, copyFrom_of_le (by rwa [hdata])⟩
  have hitems : (s.put slice data h).items = items := by simp only [put, copy, mark, hcopy]; rfl
  rw [hitems, getElem?_copyFrom hcopy, hdata]
  simp

@[simp] theorem length_put (h : slice.toRange.stop ≤ s.items.length) :
    (s.put slice data h).items.length = s.items.length := by
  simp only [put, copy, mark]
  cases hc : copyFrom s.items slice.ptr data with
  | none => rfl
  | some items => exact length_of_copyFrom hc

theorem trySet_of_subset (h : slice.toRange.toSet ⊆ s.set) :
    trySet slice data s = (.err (.alreadySet slice), s) := by
  rw [trySet, Method.get_bind, Method.ite_apply, if_pos h, Method.throw_apply]

theorem trySet_of_lt (h : ¬ slice.toRange.toSet ⊆ s.set)
    (hlen : s.items.length < slice.toRange.stop) :
    trySet slice data s = (.err (.invalidSlice slice), s) := by
  rw [trySet, Method.get_bind, Method.ite_apply, if_neg h, dif_pos hlen, Method.throw_apply]

theorem trySet_of_le (h : ¬ slice.toRange.toSet ⊆ s.set)
    (hlen : slice.toRange.stop ≤ s.items.length) : trySet slice data s =
      if data.length = slice.size then (.ok (), s.put slice data hlen)
      else (.panic, s.mark slice.toRange hlen) := by
  rw [trySet, Method.get_bind, Method.ite_apply, if_neg h, dif_neg (not_lt.mpr hlen),
    Method.modify_bind, Method.ite_apply]
  rfl

/-- What the three branches of a write return, and where they lead. -/
theorem trySet_cases (s : Store T) (slice : Slice) (data : List T) :
    slice.toRange.toSet ⊆ s.set ∧ trySet slice data s = (.err (.alreadySet slice), s) ∨
    ¬ slice.toRange.toSet ⊆ s.set ∧ s.items.length < slice.toRange.stop ∧
      trySet slice data s = (.err (.invalidSlice slice), s) ∨
    ¬ slice.toRange.toSet ⊆ s.set ∧ ∃ h : slice.toRange.stop ≤ s.items.length,
      trySet slice data s = if data.length = slice.size then (.ok (), s.put slice data h)
        else (.panic, s.mark slice.toRange h) := by
  by_cases hsub : slice.toRange.toSet ⊆ s.set
  · exact .inl ⟨hsub, trySet_of_subset hsub⟩
  rcases lt_or_ge s.items.length slice.toRange.stop with hlen | hlen
  · exact .inr (.inl ⟨hsub, hlen, trySet_of_lt hsub hlen⟩)
  · exact .inr (.inr ⟨hsub, hlen, trySet_of_le hsub hlen⟩)

/-- An accepted write leaves the store with the slice written. -/
theorem trySet_eq_ok {u : Unit} (h : trySet slice data s = (.ok u, t)) :
    ¬ slice.toRange.toSet ⊆ s.set ∧ data.length = slice.size ∧
      ∃ hlen : slice.toRange.stop ≤ s.items.length, t = s.put slice data hlen := by
  rcases trySet_cases s slice data with ⟨-, h'⟩ | ⟨-, -, h'⟩ | ⟨hsub, hlen, h'⟩
  · simp [h'] at h
  · simp [h'] at h
  · rw [h'] at h
    split at h
    case isTrue hdata => exact ⟨hsub, hdata, hlen, (Prod.mk.inj h).2.symm⟩
    case isFalse => simp at h

/-- A refused write changes nothing. -/
theorem trySet_eq_err {e : StoreError} (h : trySet slice data s = (.err e, t)) :
    t = s ∧ (slice.toRange.toSet ⊆ s.set ∧ e = .alreadySet slice ∨
      s.items.length < slice.toRange.stop ∧ e = .invalidSlice slice) := by
  rcases trySet_cases s slice data with ⟨hsub, h'⟩ | ⟨-, hlen, h'⟩ | ⟨-, hlen, h'⟩
  · rw [h'] at h
    cases h
    exact ⟨rfl, .inl ⟨hsub, rfl⟩⟩
  · rw [h'] at h
    cases h
    exact ⟨rfl, .inr ⟨hlen, rfl⟩⟩
  · rw [h'] at h
    split at h <;> simp at h

/-- **A write and the cells behind it.** -/
theorem cell_trySet {u : Unit} (h : trySet slice data s = (.ok u, t)) (i : ℕ) :
    t.cell i = if i ∈ slice.toRange.toSet then data[i - slice.ptr]? else s.cell i := by
  obtain ⟨-, hdata, hle, rfl⟩ := trySet_eq_ok h
  unfold cell
  rw [getElem?_put hle hdata]
  by_cases hi : i ∈ slice.toRange.toSet
  · simp only [set_put, Finset.mem_union, hi, or_true, if_true]
  · simp only [set_put, Finset.mem_union, hi, or_false, if_false]

theorem set_trySet {u : Unit} (h : trySet slice data s = (.ok u, t)) :
    t.set = s.set ∪ slice.toRange.toSet := by
  obtain ⟨-, -, hle, rfl⟩ := trySet_eq_ok h
  rfl

theorem length_trySet {u : Unit} (h : trySet slice data s = (.ok u, t)) :
    t.items.length = s.items.length := by
  obtain ⟨-, -, hle, rfl⟩ := trySet_eq_ok h
  exact length_put hle

/-- An accepted write leaves no cell of its slice without a value of the data. -/
theorem mem_zip_of_trySet {u : Unit} (h : trySet slice data s = (.ok u, t)) {i : ℕ} {a : T}
    (ht : t.cell i = some a) : s.cell i = some a ∨ (i, a) ∈ slice.toRange.indices.zip data := by
  rw [cell_trySet h] at ht
  split at ht
  case isFalse => exact .inl ht
  case isTrue hi =>
    right
    rw [Slice.mem_toRange] at hi
    refine List.mem_of_getElem? (i := i - slice.ptr) (List.getElem?_zip_eq_some.mpr ⟨?_, ht⟩)
    rw [Range.indices, List.getElem?_range' (by simp; omega)]
    simp [Nat.add_sub_cancel' hi.1]

/-! ### Writing the ranges of a set -/

section Ranges

variable {ranges : List Range}

theorem slice_zero {n : ℕ} {part : List T} (h : Mpz.slice data ⟨0, n⟩ = some part) :
    n ≤ data.length ∧ part = data.take n := by
  obtain ⟨⟨-, hle⟩, rfl⟩ := slice_eq_some.mp h
  exact ⟨hle, by simp [Range.len]⟩

/-- One turn of the loop. -/
theorem trySetRanges_cons {range : Range} {o : Outcome StoreError Unit}
    (h : trySetRanges (range :: ranges) data s = (o, t)) :
    o = .panic ∨ range.len ≤ data.length ∧
      ((∃ e, o = .err e ∧
          trySet (Slice.fromRange range) (data.take range.len) s = (.err e, t)) ∨
        ∃ s', trySet (Slice.fromRange range) (data.take range.len) s = (.ok (), s') ∧
          trySetRanges ranges (data.drop range.len) s' = (o, t)) := by
  simp only [trySetRanges, Slice.fromRange] at h
  cases hpart : Mpz.slice data ⟨0, range.len⟩ with
  | none =>
    rw [hpart] at h
    exact .inl (Prod.mk.inj h).1.symm
  | some part =>
    obtain ⟨hle, rfl⟩ := slice_zero hpart
    rw [hpart, Outcome.ofOption_some, Method.call_ok_bind, Method.bind_apply] at h
    rcases hset : trySet ⟨range.start, range.len⟩ (data.take range.len) s with ⟨o', s'⟩
    rw [hset] at h
    cases o' with
    | ok u => exact .inr ⟨hle, .inr ⟨s', hset, h⟩⟩
    | err e =>
      obtain ⟨rfl, rfl⟩ := Prod.mk.inj h
      exact .inr ⟨hle, .inl ⟨e, rfl, hset⟩⟩
    | panic => exact .inl (Prod.mk.inj h).1.symm

/-- Ranges that overlap neither each other nor the cells that are set are never already set. -/
theorem trySetRanges_ne_alreadySet (hlt : ∀ r ∈ ranges, r.start < r.stop)
    (hranges : ranges.Pairwise fun q r => Disjoint q.toSet r.toSet)
    (hset : ∀ r ∈ ranges, Disjoint r.toSet s.set) (slice : Slice) :
    (trySetRanges ranges data s).1 ≠ .err (.alreadySet slice) := by
  induction ranges generalizing s data with
  | nil => exact nofun
  | cons range ranges ih =>
    intro herr
    obtain ⟨hdisj, hranges⟩ := List.pairwise_cons.mp hranges
    have hrange : (Slice.fromRange range).toRange = range :=
      Slice.toRange_fromRange (hlt range List.mem_cons_self).le
    have hne : ¬ range.toSet ⊆ s.set := by
      intro hsub
      have hmem : range.start ∈ range.toSet := by simp [hlt range List.mem_cons_self]
      exact Finset.disjoint_left.mp (hset range List.mem_cons_self) hmem (hsub hmem)
    rcases trySetRanges_cons (Prod.ext herr rfl) with h | ⟨-, ⟨e, he, h⟩ | ⟨s', h, h'⟩⟩
    · cases h
    · cases he
      rcases (trySet_eq_err h).2 with ⟨hsub, -⟩ | ⟨-, he⟩
      · exact hne (hrange ▸ hsub)
      · cases he
    · have herr' : (trySetRanges ranges (data.drop range.len) s').1 = .err (.alreadySet slice) :=
        congrArg Prod.fst h'
      refine ih (s := s') (fun r hr => hlt r (List.mem_cons_of_mem _ hr)) hranges (fun r hr => ?_)
        herr'
      rw [set_trySet h, hrange, Finset.disjoint_union_right]
      exact ⟨hset r (List.mem_cons_of_mem _ hr), (hdisj r hr).symm⟩

/-- The cells that are set behind the loop, however it ends. -/
theorem set_trySetRanges {o : Outcome StoreError Unit} (ho : o ≠ .panic)
    (hlt : ∀ r ∈ ranges, r.start ≤ r.stop) (h : trySetRanges ranges data s = (o, t)) (i : ℕ) :
    (i ∈ s.set → i ∈ t.set) ∧ (i ∈ t.set → i ∈ s.set ∨ ∃ r ∈ ranges, i ∈ r.toSet) ∧
      (o = .ok () → (∃ r ∈ ranges, i ∈ r.toSet) → i ∈ t.set) := by
  induction ranges generalizing s data with
  | nil =>
    cases h
    exact ⟨id, .inl, fun _ ⟨_, hr, _⟩ => absurd hr List.not_mem_nil⟩
  | cons range ranges ih =>
    have hrange : (Slice.fromRange range).toRange = range :=
      Slice.toRange_fromRange (hlt range List.mem_cons_self)
    rcases trySetRanges_cons h with h | ⟨-, ⟨e, rfl, herr⟩ | ⟨s', h, h'⟩⟩
    · exact absurd h ho
    · obtain ⟨rfl, -⟩ := trySet_eq_err herr
      exact ⟨id, .inl, nofun⟩
    · obtain ⟨hmono, hsub, hok⟩ := ih (fun r hr => hlt r (List.mem_cons_of_mem _ hr)) h'
      have hs' : i ∈ s'.set ↔ i ∈ s.set ∨ i ∈ range.toSet := by
        rw [set_trySet h, Finset.mem_union, hrange]
      refine ⟨fun hi => hmono (hs'.mpr (.inl hi)), fun hi => ?_, fun ho' hi => ?_⟩
      · rcases hsub hi with hi | ⟨r, hr, hi⟩
        · rcases hs'.mp hi with hi | hi
          · exact .inl hi
          · exact .inr ⟨range, List.mem_cons_self, hi⟩
        · exact .inr ⟨r, List.mem_cons_of_mem _ hr, hi⟩
      · obtain ⟨r, hr, hi⟩ := hi
        rcases List.mem_cons.mp hr with rfl | hr
        · exact hmono (hs'.mpr (.inr hi))
        · exact hok ho' ⟨r, hr, hi⟩

/-- **The loop and the cells behind it.** However it ends, a cell holds what it held before or the
datum of its index. -/
theorem mem_zip_of_trySetRanges {o : Outcome StoreError Unit} (ho : o ≠ .panic)
    (hlt : ∀ r ∈ ranges, r.start ≤ r.stop) (h : trySetRanges ranges data s = (o, t)) {i : ℕ}
    {a : T} (ht : t.cell i = some a) :
    s.cell i = some a ∨ (i, a) ∈ (ranges.flatMap Range.indices).zip data := by
  induction ranges generalizing s data with
  | nil =>
    cases h
    exact .inl ht
  | cons range ranges ih =>
    have hrange : (Slice.fromRange range).toRange = range :=
      Slice.toRange_fromRange (hlt range List.mem_cons_self)
    rcases trySetRanges_cons h with h | ⟨hle, ⟨e, rfl, herr⟩ | ⟨s', h, h'⟩⟩
    · exact absurd h ho
    · obtain ⟨rfl, -⟩ := trySet_eq_err herr
      exact .inl ht
    · have hzip : ((range :: ranges).flatMap Range.indices).zip data =
          range.indices.zip (data.take range.len) ++
            (ranges.flatMap Range.indices).zip (data.drop range.len) := by
        conv_lhs => rw [List.flatMap_cons, ← List.take_append_drop range.len data]
        exact List.zip_append (by simp [hle])
      rw [hzip, List.mem_append]
      rcases ih (fun r hr => hlt r (List.mem_cons_of_mem _ hr)) h' with h'' | h''
      · rcases mem_zip_of_trySet h h'' with h'' | h''
        · exact .inl h''
        · exact .inr (.inl (by rwa [hrange] at h''))
      · exact .inr (.inr h'')

/-! ### When the loop comes back -/

theorem slice_take (data : List T) (n : ℕ) (h : n ≤ data.length) :
    Mpz.slice data ⟨0, n⟩ = some (data.take n) :=
  slice_eq_some.mpr ⟨⟨Nat.zero_le _, h⟩, by simp [Range.len]⟩

/-- Data of the right length is written to the range. -/
def Writable (self : Store T) (range : Range) : Prop :=
  ¬ range.toSet ⊆ self.set ∧ range.stop ≤ self.items.length

instance (self : Store T) (range : Range) : Decidable (self.Writable range) :=
  inferInstanceAs (Decidable (_ ∧ _))

/-- There is too little data for a range that the loop comes to. -/
def RunsShort (self : Store T) : List Range → ℕ → Prop
  | [], _ => False
  | range :: ranges, n =>
    n < range.len ∨ self.Writable range ∧ self.RunsShort ranges (n - range.len)

theorem not_runsShort {n : ℕ} (h : (ranges.map Range.len).sum ≤ n) : ¬ s.RunsShort ranges n := by
  induction ranges generalizing n with
  | nil => exact id
  | cons range ranges ih =>
    rw [List.map_cons, List.sum_cons] at h
    rintro (hshort | ⟨-, hrest⟩)
    · omega
    · exact ih (by omega) hrest

theorem Writable.congr {range : Range} (hlen : t.items.length = s.items.length)
    (hset : ∀ i ∈ range.toSet, i ∈ t.set ↔ i ∈ s.set) : t.Writable range ↔ s.Writable range := by
  rw [Writable, Writable, hlen, Finset.subset_iff, Finset.subset_iff]
  have : (∀ i, i ∈ range.toSet → i ∈ t.set) ↔ ∀ i, i ∈ range.toSet → i ∈ s.set :=
    forall₂_congr hset
  rw [this]

theorem RunsShort.congr {n : ℕ} (hlen : t.items.length = s.items.length)
    (hset : ∀ r ∈ ranges, ∀ i ∈ r.toSet, i ∈ t.set ↔ i ∈ s.set) :
    t.RunsShort ranges n ↔ s.RunsShort ranges n := by
  induction ranges generalizing n with
  | nil => exact Iff.rfl
  | cons range ranges ih =>
    rw [RunsShort, RunsShort, Writable.congr hlen (hset range List.mem_cons_self),
      ih fun r hr => hset r (List.mem_cons_of_mem _ hr)]

/-- A write of data of the right length goes through where the slice is writable, and is refused
elsewhere. -/
theorem trySet_of_length (h : data.length = slice.size) :
    (s.Writable slice.toRange ∧ ∃ t, trySet slice data s = (.ok (), t)) ∨
      ¬ s.Writable slice.toRange ∧ ∃ e, trySet slice data s = (.err e, s) := by
  rcases trySet_cases s slice data with ⟨hsub, h'⟩ | ⟨-, hlen, h'⟩ | ⟨hsub, hlen, h'⟩
  · exact .inr ⟨fun hw => hw.1 hsub, _, h'⟩
  · exact .inr ⟨fun hw => absurd hw.2 (not_le.mpr hlen), _, h'⟩
  · rw [if_pos h] at h'
    exact .inl ⟨⟨hsub, hlen⟩, _, h'⟩

/-- One turn of the loop finds too little data, has its write refused, or goes on. -/
theorem trySetRanges_turn (s : Store T) (data : List T) (ranges : List Range) {range : Range}
    (hlt : range.start ≤ range.stop) :
    data.length < range.len ∧ (trySetRanges (range :: ranges) data s).1 = .panic ∨
    range.len ≤ data.length ∧ ¬ s.Writable range ∧
      (∃ e, trySetRanges (range :: ranges) data s = (.err e, s)) ∨
    range.len ≤ data.length ∧ s.Writable range ∧
      ∃ s', trySet (Slice.fromRange range) (data.take range.len) s = (.ok (), s') ∧
        trySetRanges (range :: ranges) data s = trySetRanges ranges (data.drop range.len) s' := by
  have hrange := Slice.toRange_fromRange hlt
  rcases lt_or_ge data.length range.len with hshort | hle
  · refine .inl ⟨hshort, ?_⟩
    have hnone : Mpz.slice data ⟨0, range.len⟩ = none := by
      cases hpart : Mpz.slice data ⟨0, range.len⟩ with
      | none => rfl
      | some part => exact absurd (slice_zero hpart).1 (not_le.mpr hshort)
    rw [trySetRanges, Slice.fromRange]
    simp only [hnone]
    rfl
  · have hsome : Mpz.slice data ⟨0, range.len⟩ = some (data.take range.len) :=
      slice_eq_some.mpr ⟨⟨Nat.zero_le _, hle⟩, by simp [Range.len]⟩
    have hturn : trySetRanges (range :: ranges) data s =
        (do
          trySet (Slice.fromRange range) (data.take range.len)
          trySetRanges ranges (data.drop range.len)) s := by
      rw [trySetRanges]
      simp only [Slice.fromRange, hsome]
      rfl
    have hlen : (data.take range.len).length = (Slice.fromRange range).size :=
      List.length_take_of_le hle
    rcases trySet_of_length (s := s) hlen with ⟨hw, s', h⟩ | ⟨hw, e, h⟩
    · refine .inr (.inr ⟨hle, hrange ▸ hw, s', h, ?_⟩)
      rw [hturn, Method.bind_apply_of_ok h]
    · refine .inr (.inl ⟨hle, hrange ▸ hw, e, ?_⟩)
      rw [hturn, Method.bind_apply, h]

/-- **When the loop panics.** -/
theorem trySetRanges_panic_iff (hlt : ∀ r ∈ ranges, r.start ≤ r.stop)
    (hdisj : ranges.Pairwise fun q r => Disjoint q.toSet r.toSet) :
    (trySetRanges ranges data s).1 = .panic ↔ s.RunsShort ranges data.length := by
  induction ranges generalizing s data with
  | nil => exact ⟨nofun, False.elim⟩
  | cons range ranges ih =>
    obtain ⟨hhead, hdisj⟩ := List.pairwise_cons.mp hdisj
    have hle := hlt range List.mem_cons_self
    rw [RunsShort]
    rcases trySetRanges_turn s data ranges hle with
      ⟨hshort, hpanic⟩ | ⟨hge, hw, e, herr⟩ | ⟨hge, hw, s', hset, hrest⟩
    · exact iff_of_true hpanic (.inl hshort)
    · rw [herr]
      refine iff_of_false nofun ?_
      rintro (hshort | ⟨hw', -⟩)
      · omega
      · exact hw hw'
    · have hs' := set_trySet hset
      rw [Slice.toRange_fromRange hle] at hs'
      have hcongr : s'.RunsShort ranges (data.length - range.len) ↔
          s.RunsShort ranges (data.length - range.len) :=
        RunsShort.congr (length_trySet hset) fun r hr i hi => by
          rw [hs', Finset.mem_union, or_iff_left]
          exact fun hi' => Finset.disjoint_left.mp (hhead r hr) hi' hi
      rw [hrest, ih (fun r hr => hlt r (List.mem_cons_of_mem _ hr)) hdisj, List.length_drop,
        hcongr]
      constructor
      · exact fun h => .inr ⟨hw, h⟩
      · rintro (hshort | ⟨-, h⟩)
        · omega
        · exact h

/-- **When the loop goes through**, where there is enough data. -/
theorem trySetRanges_ok_iff (hlt : ∀ r ∈ ranges, r.start ≤ r.stop)
    (hdisj : ranges.Pairwise fun q r => Disjoint q.toSet r.toSet)
    (hdata : (ranges.map Range.len).sum ≤ data.length) :
    (∃ t, trySetRanges ranges data s = (.ok (), t)) ↔ ∀ r ∈ ranges, s.Writable r := by
  induction ranges generalizing s data with
  | nil => exact ⟨fun _ => nofun, fun _ => ⟨s, rfl⟩⟩
  | cons range ranges ih =>
    obtain ⟨hhead, hdisj⟩ := List.pairwise_cons.mp hdisj
    have hle := hlt range List.mem_cons_self
    rw [List.map_cons, List.sum_cons] at hdata
    rw [List.forall_mem_cons]
    rcases trySetRanges_turn s data ranges hle with
      ⟨hshort, -⟩ | ⟨-, hw, e, herr⟩ | ⟨-, hw, s', hset, hrest⟩
    · omega
    · refine iff_of_false ?_ fun h => hw h.1
      rintro ⟨t, h⟩
      rw [herr] at h
      cases h
    · have hs' := set_trySet hset
      rw [Slice.toRange_fromRange hle] at hs'
      have hcongr : ∀ r ∈ ranges, s'.Writable r ↔ s.Writable r := fun r hr =>
        Writable.congr (length_trySet hset) fun i hi => by
          rw [hs', Finset.mem_union, or_iff_left]
          exact fun hi' => Finset.disjoint_left.mp (hhead r hr) hi' hi
      rw [hrest, ih (fun r hr => hlt r (List.mem_cons_of_mem _ hr)) hdisj
        (by rw [List.length_drop]; omega), forall₂_congr hcongr, and_iff_right hw]

theorem length_trySetRanges {u : Unit} (h : trySetRanges ranges data s = (.ok u, t)) :
    t.items.length = s.items.length := by
  induction ranges generalizing s data with
  | nil =>
    cases h
    rfl
  | cons range ranges ih =>
    rcases trySetRanges_cons h with h | ⟨-, ⟨e, he, -⟩ | ⟨s', h, h'⟩⟩
    · cases h
    · cases he
    · rw [ih h', length_trySet h]

/-- The ranges of a set together have as many indices as the set. -/
theorem sum_len_iter (set : RangeSet) : (set.iter.map Range.len).sum = set.card := by
  rw [← RangeSet.length_indices, ← RangeSet.flatMap_indices_iter, List.length_flatMap]
  simp

/-- Writing a set panics where the data runs short. -/
theorem trySetRanges_iter_panic_iff {set : RangeSet} :
    (trySetRanges set.iter data s).1 = .panic ↔ s.RunsShort set.iter data.length :=
  trySetRanges_panic_iff (fun _ hr => (RangeSet.lt_of_mem_iter hr).le) set.pairwise_disjoint_iter

/-- Writing a set with enough data comes back. -/
theorem trySetRanges_iter_ne_panic {set : RangeSet} (h : set.card ≤ data.length) :
    (trySetRanges set.iter data s).1 ≠ .panic := fun hpanic =>
  not_runsShort (by rwa [sum_len_iter]) (trySetRanges_iter_panic_iff.mp hpanic)

end Ranges

end Store

end Mpz
