import Mathlib.Data.List.Basic
import Mathlib.Tactic.Common

/-!
# Blocks of a list

A list is cut into blocks of a length, of which the last may be shorter.

## Main definitions

* `blocks` — the blocks of a list

## Main results

* `blocks_flatten_append` — the blocks of a list that begins with whole blocks
* `flatten_blocks`, `length_of_mem_blocks` — what the blocks of a list are
* `exists_blocks_eq` — all blocks but the last one are whole
-/

namespace Mpz

variable {α : Type} {n : ℕ} {l b k : List α}

/-- The blocks of `n` elements of a list. -/
def blocks (n : ℕ) (l : List α) : List (List α) :=
  if _h : 0 < n ∧ l ≠ [] then l.take n :: blocks n (l.drop n) else []
termination_by l.length
decreasing_by
  have := List.length_pos_iff.mpr _h.2
  rw [List.length_drop]
  omega

@[simp] theorem blocks_nil (n : ℕ) : blocks n ([] : List α) = [] := by
  rw [blocks, dif_neg (by simp)]

theorem blocks_of_ne_nil (hn : 0 < n) (hl : l ≠ []) :
    blocks n l = l.take n :: blocks n (l.drop n) := by
  rw [blocks, dif_pos ⟨hn, hl⟩]

theorem blocks_of_length_le (hn : 0 < n) (hl : l ≠ []) (hle : l.length ≤ n) : blocks n l = [l] := by
  rw [blocks_of_ne_nil hn hl, List.take_of_length_le hle, List.drop_of_length_le hle, blocks_nil]

theorem blocks_append (hn : 0 < n) (hb : b.length = n) (k : List α) :
    blocks n (b ++ k) = b :: blocks n k := by
  have hne : b ++ k ≠ [] := by
    intro h
    rw [(List.append_eq_nil_iff.mp h).1, List.length_nil] at hb
    omega
  rw [blocks_of_ne_nil hn hne, List.take_left' hb, List.drop_left' hb]

theorem length_flatten_of_forall {bs : List (List α)} (hbs : ∀ b ∈ bs, b.length = n) :
    bs.flatten.length = bs.length * n := by
  induction bs with
  | nil => rw [List.flatten_nil, List.length_nil, List.length_nil, Nat.zero_mul]
  | cons b bs ih =>
    rw [List.flatten_cons, List.length_append, hbs b List.mem_cons_self,
      ih fun b hb => hbs b (List.mem_cons_of_mem _ hb), List.length_cons, Nat.succ_mul,
      Nat.add_comm]

/-- **Whole blocks in front are blocks.** -/
theorem blocks_flatten_append (hn : 0 < n) {bs : List (List α)} (hbs : ∀ b ∈ bs, b.length = n)
    (k : List α) : blocks n (bs.flatten ++ k) = bs ++ blocks n k := by
  induction bs with
  | nil => rfl
  | cons b bs ih =>
    rw [List.flatten_cons, List.append_assoc, blocks_append hn (hbs b List.mem_cons_self),
      ih fun b hb => hbs b (List.mem_cons_of_mem _ hb), List.cons_append]

@[simp] theorem flatten_blocks (hn : 0 < n) (l : List α) : (blocks n l).flatten = l := by
  induction hlen : l.length using Nat.strongRecOn generalizing l with
  | ind k ih =>
  by_cases hl : l = []
  · rw [hl, blocks_nil, List.flatten_nil]
  · have hpos := List.length_pos_iff.mpr hl
    have hlt : (l.drop n).length < k := by
      rw [List.length_drop]
      omega
    rw [blocks_of_ne_nil hn hl, List.flatten_cons, ih _ hlt _ rfl, List.take_append_drop]

/-- The blocks of a list of whole blocks. -/
theorem length_of_mem_blocks (hdvd : n ∣ l.length) : ∀ b ∈ blocks n l, b.length = n := by
  induction hlen : l.length using Nat.strongRecOn generalizing l with
  | ind k ih =>
  intro b hb
  rw [blocks] at hb
  split at hb
  case isTrue h =>
    have hpos := List.length_pos_iff.mpr h.2
    have hle := Nat.le_of_dvd hpos hdvd
    have hdrop : (l.drop n).length = l.length - n := List.length_drop
    rcases List.mem_cons.mp hb with rfl | hb
    · rw [List.length_take, Nat.min_eq_left hle]
    · exact ih _ (by omega) (hdrop ▸ Nat.dvd_sub hdvd (Nat.dvd_refl n)) rfl b hb
  case isFalse => cases hb

theorem blocks_append_of_dvd (hn : 0 < n) (hdvd : n ∣ l.length) (k : List α) :
    blocks n (l ++ k) = blocks n l ++ blocks n k := by
  have h := blocks_flatten_append hn (length_of_mem_blocks hdvd) k
  rwa [flatten_blocks hn] at h

theorem take_blocks (hn : 0 < n) (k : ℕ) (l : List α) :
    (blocks n l).take k = blocks n (l.take (n * k)) := by
  induction k generalizing l with
  | zero => rw [Nat.mul_zero, List.take_zero, List.take_zero, blocks_nil]
  | succ k ih =>
    by_cases hl : l = []
    · rw [hl, List.take_nil, blocks_nil, List.take_nil]
    · have hne : l.take (n * (k + 1)) ≠ [] := by
        rw [ne_eq, List.take_eq_nil_iff, not_or]
        exact ⟨Nat.ne_of_gt (Nat.mul_pos hn k.succ_pos), hl⟩
      have hle : n ≤ n * (k + 1) := Nat.le_mul_of_pos_right n k.succ_pos
      rw [blocks_of_ne_nil hn hl, List.take_succ_cons, ih, blocks_of_ne_nil hn hne, List.take_take,
        Nat.min_eq_left hle, List.drop_take, Nat.mul_succ, Nat.add_sub_cancel]

theorem drop_blocks (hn : 0 < n) (k : ℕ) (l : List α) :
    (blocks n l).drop k = blocks n (l.drop (n * k)) := by
  induction k generalizing l with
  | zero => rw [Nat.mul_zero, List.drop_zero, List.drop_zero]
  | succ k ih =>
    by_cases hl : l = []
    · rw [hl, List.drop_nil, blocks_nil, List.drop_nil]
    · rw [blocks_of_ne_nil hn hl, List.drop_succ_cons, ih, List.drop_drop, Nat.mul_succ,
        Nat.add_comm]

/-- The blocks of a list of whole blocks, one by one. -/
theorem blocks_eq_map (hn : 0 < n) {k : ℕ} (hl : l.length = n * k) :
    blocks n l = (List.range k).map fun i => (l.drop (n * i)).take n := by
  induction k generalizing l with
  | zero =>
    rw [List.length_eq_zero_iff.mp hl, blocks_nil]
    rfl
  | succ k ih =>
    have hne : l ≠ [] := by
      rintro rfl
      exact Nat.ne_of_lt (Nat.mul_pos hn k.succ_pos) hl
    have hdrop : (l.drop n).length = n * k := by
      rw [List.length_drop, hl, Nat.mul_succ, Nat.add_sub_cancel]
    rw [blocks_of_ne_nil hn hne, ih hdrop, List.range_succ_eq_map, List.map_cons, List.map_map,
      Nat.mul_zero, List.drop_zero]
    congr 2
    funext i
    rw [Function.comp_apply, List.drop_drop, Nat.succ_eq_add_one, Nat.mul_succ, Nat.add_comm n]

/-- All blocks but the last one are whole. -/
theorem exists_blocks_eq (hn : 0 < n) (hl : l ≠ []) : ∃ bs last, blocks n l = bs ++ [last] ∧
    (∀ b ∈ bs, b.length = n) ∧ last ≠ [] ∧ last.length ≤ n := by
  induction hlen : l.length using Nat.strongRecOn generalizing l with
  | ind k ih =>
  by_cases hle : l.length ≤ n
  · exact ⟨[], l, blocks_of_length_le hn hl hle, nofun, hl, hle⟩
  · have hdrop : l.drop n ≠ [] := by
      rw [ne_eq, List.drop_eq_nil_iff]
      exact hle
    have hlt : (l.drop n).length < k := by
      rw [List.length_drop]
      omega
    obtain ⟨bs, last, hbs, hwhole, hlast⟩ := ih _ hlt hdrop rfl
    refine ⟨l.take n :: bs, last, ?_, ?_, hlast⟩
    · rw [blocks_of_ne_nil hn hl, hbs, List.cons_append]
    · rintro b (_ | ⟨_, hb⟩)
      · rw [List.length_take, Nat.min_eq_left (by omega)]
      · exact hwhole b hb

/-- The first block that is not whole is behind the whole ones. -/
theorem findIdx_blocks (hn : 0 < n) (l : List α) :
    (blocks n l).findIdx (·.length != n) = l.length / n := by
  induction hlen : l.length using Nat.strongRecOn generalizing l with
  | ind k ih =>
  by_cases hl : l = []
  · rw [hl, List.length_nil] at hlen
    rw [hl, blocks_nil, ← hlen, Nat.zero_div, List.findIdx_nil]
  · have hpos := List.length_pos_iff.mpr hl
    rw [blocks_of_ne_nil hn hl, List.findIdx_cons]
    by_cases hle : n ≤ l.length
    · have hfull : ((l.take n).length != n) = false := by
        rw [List.length_take, Nat.min_eq_left hle, bne_self_eq_false]
      have hdrop : (l.drop n).length = k - n := by rw [List.length_drop, hlen]
      have hdiv : k / n = (k - n) / n + 1 := Nat.div_eq_sub_div hn (hlen ▸ hle)
      rw [hfull, cond_false, ih _ (by omega) _ hdrop, hdiv]
    · have hshort : ((l.take n).length != n) = true := by
        rw [List.length_take, bne_iff_ne]
        omega
      rw [hshort, cond_true, Nat.div_eq_of_lt (by omega)]

/-! ### Cutting off at most what is there -/

theorem take_min_length {size : ℕ} (h : size = l.length) :
    l.take (min n size) = l.take n := by
  rw [h, ← List.take_take, List.take_length]

theorem drop_min_length {size : ℕ} (h : size = l.length) :
    l.drop (min n size) = l.drop n := by
  rcases Nat.le_total n size with hle | hle
  · rw [Nat.min_eq_left hle]
  · rw [Nat.min_eq_right hle, List.drop_of_length_le (by omega), List.drop_of_length_le (by omega)]

/-- The blocks of two lists that are zipped. -/
theorem blocks_zip {β : Type} (hn : 0 < n) {k : List β} (hlen : l.length = k.length) :
    blocks n (l.zip k) = ((blocks n l).zip (blocks n k)).map fun p => p.1.zip p.2 := by
  induction hl : l.length using Nat.strongRecOn generalizing l k with
  | ind m ih =>
  by_cases hnil : l = []
  · have hk : k = [] := List.length_eq_zero_iff.mp (by rw [← hlen, hnil, List.length_nil])
    rw [hnil, hk, List.zip_nil_left, blocks_nil, blocks_nil, blocks_nil]
    rfl
  · have hpos := List.length_pos_iff.mpr hnil
    have hk : k ≠ [] := List.length_pos_iff.mp (by omega)
    have hzip : l.zip k ≠ [] := List.length_pos_iff.mp (by rw [List.length_zip]; omega)
    have hdrop : (l.drop n).length = (k.drop n).length := by
      rw [List.length_drop, List.length_drop, hlen]
    have hlt : (l.drop n).length < m := by
      rw [List.length_drop]
      omega
    have htail := ih _ hlt hdrop rfl
    rw [blocks_of_ne_nil hn hnil, blocks_of_ne_nil hn hk, blocks_of_ne_nil hn hzip,
      List.zip_cons_cons, List.map_cons, ← htail, List.zip, List.take_zipWith, List.drop_zipWith]

end Mpz
