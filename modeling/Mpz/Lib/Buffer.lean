import Mathlib.Data.List.Range
import Mpz.Lib.RangeSet

/-!
# Buffers

The indexing operations of a growable array, on lists. An index out of bounds is a panic, which is
`none` here; nothing else fails.

## Main definitions

* `writeAt`, `slice`, `copyFrom` — `buf[i] = a`, `buf[r]`, `buf[i..i + n].copy_from_slice(src)`
* `resize`, `expand` — `Vec::resize`, and the same where the buffer is too short

## Main results

* `getElem?_slice`, `getElem?_copyFrom` — what is read from a slice, and after a copy
-/

namespace Mpz

variable {α : Type}

/-- `buf[i] = a`. -/
def writeAt (buf : List α) (i : ℕ) (a : α) : Option (List α) :=
  if i < buf.length then some (buf.set i a) else none

/-- `buf[r]`, as a slice. -/
def slice (buf : List α) (r : Range) : Option (List α) :=
  if r.start ≤ r.stop ∧ r.stop ≤ buf.length then some ((buf.drop r.start).take r.len) else none

/-- `buf[start..start + src.len()].copy_from_slice(src)`. -/
def copyFrom (buf : List α) (start : ℕ) (src : List α) : Option (List α) :=
  if start + src.length ≤ buf.length then
    some (buf.take start ++ src ++ buf.drop (start + src.length))
  else none

/-- `buf.resize(n, a)`. -/
def resize (buf : List α) (n : ℕ) (a : α) : List α :=
  buf.take n ++ List.replicate (n - buf.length) a

/-- `if n > buf.len() { buf.resize(n, a) }` -/
def expand (buf : List α) (n : ℕ) (a : α) : List α :=
  if n > buf.length then resize buf n a else buf

theorem writeAt_of_lt {buf : List α} {i : ℕ} (h : i < buf.length) (a : α) :
    writeAt buf i a = some (buf.set i a) := if_pos h

theorem slice_eq_some {buf s : List α} {r : Range} :
    slice buf r = some s ↔
      (r.start ≤ r.stop ∧ r.stop ≤ buf.length) ∧ (buf.drop r.start).take r.len = s := by
  unfold slice
  split <;> simp_all

theorem length_of_slice {buf s : List α} {r : Range} (h : slice buf r = some s) :
    s.length = r.len := by
  obtain ⟨⟨h1, h2⟩, rfl⟩ := slice_eq_some.mp h
  rw [List.length_take, List.length_drop, Range.len]
  omega

theorem getElem?_slice {buf s : List α} {r : Range} (h : slice buf r = some s) {j : ℕ}
    (hj : j < r.len) : s[j]? = buf[r.start + j]? := by
  obtain ⟨-, rfl⟩ := slice_eq_some.mp h
  rw [List.getElem?_take_of_lt hj, List.getElem?_drop]

theorem copyFrom_of_le {buf src : List α} {start : ℕ} (h : start + src.length ≤ buf.length) :
    copyFrom buf start src = some (buf.take start ++ src ++ buf.drop (start + src.length)) :=
  if_pos h

theorem copyFrom_eq_some {buf src buf' : List α} {start : ℕ} :
    copyFrom buf start src = some buf' ↔ start + src.length ≤ buf.length ∧
      buf.take start ++ src ++ buf.drop (start + src.length) = buf' := by
  unfold copyFrom
  split <;> simp_all

theorem length_of_copyFrom {buf src buf' : List α} {start : ℕ}
    (h : copyFrom buf start src = some buf') : buf'.length = buf.length := by
  obtain ⟨hle, rfl⟩ := copyFrom_eq_some.mp h
  simp only [List.length_append, List.length_take, List.length_drop]
  omega

theorem getElem?_copyFrom {buf src buf' : List α} {start : ℕ}
    (h : copyFrom buf start src = some buf') (j : ℕ) :
    buf'[j]? = if start ≤ j ∧ j < start + src.length then src[j - start]? else buf[j]? := by
  obtain ⟨hle, rfl⟩ := copyFrom_eq_some.mp h
  rw [List.append_assoc]
  by_cases h1 : j < start
  · rw [List.getElem?_append_left (by simp; omega), List.getElem?_take_of_lt h1,
      if_neg (by omega)]
  · have hlen : (buf.take start).length = start := by simp; omega
    rw [List.getElem?_append_right (by omega), hlen]
    by_cases h2 : j < start + src.length
    · rw [List.getElem?_append_left (by omega), if_pos ⟨by omega, h2⟩]
    · rw [List.getElem?_append_right (by omega), List.getElem?_drop, if_neg (by omega)]
      congr 1
      omega

@[simp] theorem length_resize (buf : List α) (n : ℕ) (a : α) : (resize buf n a).length = n := by
  simp only [resize, List.length_append, List.length_take, List.length_replicate]
  omega

theorem le_length_expand (buf : List α) (n : ℕ) (a : α) : n ≤ (expand buf n a).length := by
  unfold expand
  split
  · rw [length_resize]
  · omega

theorem getElem?_resize {buf : List α} {n : ℕ} (a : α) {j : ℕ} (hj : j < n) (hb : j < buf.length) :
    (resize buf n a)[j]? = buf[j]? := by
  rw [resize, List.getElem?_append_left (by simp; omega), List.getElem?_take_of_lt hj]

/-- Copying a prefix onto its own extension changes nothing. -/
theorem copyFrom_resize {src : List α} {n : ℕ} (h : src.length ≤ n) (a : α) :
    copyFrom (resize src n a) 0 src = some (resize src n a) := by
  have hcopy : copyFrom (resize src n a) 0 src = some _ :=
    copyFrom_of_le (by rw [length_resize]; omega)
  rw [hcopy, resize, List.take_of_length_le h]
  simp

end Mpz
