import Mathlib.Data.List.Basic
import Mathlib.Data.List.GetD
import Mathlib.Data.Nat.ModEq
import Mathlib.Logic.Function.Iterate
import Mathlib.Tactic.Ring

/-!
# Perfect shuffles

A perfect shuffle takes the halves of a list by turns. A matrix whose number of rows is a power of
two is transposed by as many shuffles as the exponent says.

## Main definitions

* `shuffleIndex` — where the element at an index comes from
* `copyPair` — the elements that one step of a shuffle writes

## Main results

* `iterate_shuffleIndex` — where the element at an index comes from after some rounds
* `getD_foldl_copyPair` — the steps write the shuffle
* `getD_flatMap_range` — the elements of parts of one length
-/

namespace Mpz

/-- Where the element at an index comes from. -/
def shuffleIndex (half i : ℕ) : ℕ := i / 2 + half * (i % 2)

theorem shuffleIndex_lt {half i : ℕ} (hi : i < 2 * half) : shuffleIndex half i < 2 * half := by
  rw [shuffleIndex]
  rcases Nat.mod_two_eq_zero_or_one i with h | h <;> rw [h] <;> omega

/-- **Rounds of shuffles**, on a list that splits into `2 ^ n` parts. -/
theorem iterate_shuffleIndex {n t : ℕ} (ht : t ≤ n) (c i : ℕ) :
    (shuffleIndex (2 ^ n * c / 2))^[t] i = i / 2 ^ t + 2 ^ (n - t) * c * (i % 2 ^ t) := by
  induction t generalizing i with
  | zero => rw [Function.iterate_zero, id_eq, Nat.pow_zero, Nat.div_one, Nat.mod_one, Nat.mul_zero,
      Nat.add_zero]
  | succ t ih =>
    have hexp : n = n - (t + 1) + (t + 1) := by omega
    have hhalf : 2 ^ n * c / 2 = 2 ^ t * (2 ^ (n - (t + 1)) * c) := by
      conv_lhs => rw [hexp, Nat.pow_add, Nat.pow_succ]
      rw [← Nat.mul_div_cancel (2 ^ t * (2 ^ (n - (t + 1)) * c)) (show 0 < 2 by decide)]
      congr 1
      ring
    have hstep : 2 ^ (n - t) = 2 * 2 ^ (n - (t + 1)) := by
      rw [show n - t = n - (t + 1) + 1 by omega, Nat.pow_succ, Nat.mul_comm]
    have hmod : i % 2 ^ (t + 1) = i % 2 + 2 * (i / 2 % 2 ^ t) := by
      rw [Nat.pow_succ, Nat.mul_comm, Nat.mod_mul]
    rw [Function.iterate_succ_apply, ih (by omega), shuffleIndex, hhalf, Nat.mul_assoc,
      Nat.add_mul_div_left _ _ (Nat.two_pow_pos t), Nat.add_mul_mod_self_left, hstep, hmod,
      Nat.div_div_eq_div_mul, Nat.pow_succ, Nat.mul_comm 2]
    ring

section Copy

variable {α : Type} (half : ℕ) (read : List α) (d : α)

/-- The elements that one step of a shuffle writes. -/
def copyPair (write : List α) (k : ℕ) : List α :=
  (write.set (2 * k) (read.getD k d)).set (2 * k + 1) (read.getD (half + k) d)

theorem length_foldl_copyPair (l : List ℕ) (write : List α) :
    (l.foldl (copyPair half read d) write).length = write.length := by
  induction l generalizing write with
  | nil => rfl
  | cons k l ih => rw [List.foldl_cons, ih, copyPair, List.length_set, List.length_set]

theorem getD_set_of_lt {l : List α} {k : ℕ} (hk : k < l.length) (x : α) (i : ℕ) :
    (l.set k x).getD i d = if i = k then x else l.getD i d := by
  rw [List.getD_eq_getElem?_getD, List.getElem?_set, List.getD_eq_getElem?_getD]
  by_cases h : k = i
  · subst h
    simp [hk]
  · simp [h, Ne.symm h]

/-- **The steps write the shuffle.** -/
theorem getD_foldl_copyPair {write : List α} (hlen : write.length = 2 * half) {j : ℕ}
    (hj : j ≤ half) (i : ℕ) : ((List.range j).foldl (copyPair half read d) write).getD i d =
      if i < 2 * j then read.getD (shuffleIndex half i) d else write.getD i d := by
  induction j with
  | zero => rfl
  | succ j ih =>
    have hlength := length_foldl_copyPair half read d (List.range j) write
    rw [List.range_succ, List.foldl_append, List.foldl_cons, List.foldl_nil, copyPair,
      getD_set_of_lt d (by rw [List.length_set]; omega), getD_set_of_lt d (by omega), ih (by omega),
      shuffleIndex]
    by_cases h1 : i = 2 * j + 1
    · rw [if_pos h1, if_pos (by omega)]
      congr 1
      rw [show i % 2 = 1 by omega, show i / 2 = j by omega, Nat.mul_one, Nat.add_comm]
    · rw [if_neg h1]
      by_cases h0 : i = 2 * j
      · rw [if_pos h0, if_pos (by omega)]
        congr 1
        rw [show i % 2 = 0 by omega, show i / 2 = j by omega, Nat.mul_zero, Nat.add_zero]
      · rw [if_neg h0]
        by_cases hlt : i < 2 * j
        · rw [if_pos hlt, if_pos (by omega)]
        · rw [if_neg hlt, if_neg (by omega)]

end Copy

/-- The elements of parts of one length. -/
theorem getD_flatMap_range {α : Type} {f : ℕ → List α} {n size : ℕ}
    (hf : ∀ s < n, (f s).length = size) {s q : ℕ} (hs : s < n) (hq : q < size) (d : α) :
    ((List.range n).flatMap f).getD (s * size + q) d = (f s).getD q d := by
  induction n with
  | zero => omega
  | succ n ih =>
    have hlen : ((List.range n).flatMap f).length = n * size := by
      rw [List.length_flatMap, List.map_congr_left (g := fun _ => size)
        fun s hs => hf s (Nat.lt_succ_of_lt (List.mem_range.mp hs))]
      simp
    rw [List.range_succ, List.flatMap_append, List.flatMap_singleton]
    rcases Nat.lt_or_ge s n with hlt | hge
    · have hbound : s * size + q < n * size := by
        have := Nat.mul_le_mul_right size (Nat.succ_le_of_lt hlt)
        rw [Nat.succ_mul] at this
        omega
      rw [List.getD_append _ _ _ _ (by omega), ih (fun s hs => hf s (by omega)) hlt]
    · have hsn : s = n := by omega
      subst hsn
      rw [List.getD_append_right _ _ _ _ (by omega), hlen, Nat.add_sub_cancel_left]

end Mpz
