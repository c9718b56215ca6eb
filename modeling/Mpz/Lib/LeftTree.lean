import Mathlib.Algebra.Ring.Parity
import Mathlib.Tactic.Ring

/-!
# Left-balanced trees

A left-balanced tree has on its left the largest power of two of leaves that is below the number of
all of them, so every left subtree is perfect. Where leaves come one after the other, it is enough
to keep the perfect subtrees of the leaves so far, one for each bit of their number: a new leaf
merges with as many of them as a counter carries, and the tree is what remains merged from the
right.

## Main definitions

* `leftLen`, `leftTree` — the leaves on the left, and the value of the tree
* `rootTree` — the value of the tree, where its root merges in its own way
* `forest` — the perfect subtrees of some leaves, the last one first
* `mergeForest` — what remains, merged from the right

## Main results

* `forest_succ_of_even`, `forest_bit_true` — a leaf more
* `forest_eq_map` — there is one subtree for each bit of the number of leaves
* `mergeForest_forest` — the perfect subtrees and the last leaves merge to the tree of all leaves
-/

namespace Mpz

/-- The number of leaves on the left of `n`: the largest power of two below it. -/
def leftLen (n : ℕ) : ℕ := 2 ^ (n - 1).log2

theorem leftLen_pos (n : ℕ) : 0 < leftLen n := Nat.two_pow_pos _

theorem leftLen_lt {n : ℕ} (h : 1 < n) : leftLen n < n := by
  have hle := Nat.log2_self_le (n := n - 1) (by omega)
  unfold leftLen
  omega

theorem leftLen_eq {d n : ℕ} (hlt : 2 ^ d < n) (hle : n ≤ 2 ^ (d + 1)) : leftLen n = 2 ^ d := by
  have hpos := Nat.two_pow_pos d
  have hlog : (n - 1).log2 = d := (Nat.log2_eq_iff (by omega)).mpr ⟨by omega, by omega⟩
  rw [leftLen, hlog]

variable {α : Type} (merge : α → α → α) (leaf : ℕ → α)

/-- The value of the left-balanced tree of `n` leaves, from one of them on. -/
def leftTree (start n : ℕ) : α :=
  if _h : 1 < n then
    merge (leftTree start (leftLen n)) (leftTree (start + leftLen n) (n - leftLen n))
  else leaf start
termination_by n
decreasing_by
  · exact leftLen_lt _h
  · have := leftLen_pos n
    omega

/-- The value of the left-balanced tree of `n` leaves, of which there are two, with a root that
merges in its own way. -/
def rootTree (rootMerge : α → α → α) (n : ℕ) : α :=
  rootMerge (leftTree merge leaf 0 (leftLen n)) (leftTree merge leaf (leftLen n) (n - leftLen n))

/-- The perfect subtrees of `m * 2 ^ j` leaves that have at least `2 ^ j` leaves each, the last one
first. -/
def forest (j m : ℕ) : List α :=
  if _h : m = 0 then []
  else if m % 2 = 1 then leftTree merge leaf ((m - 1) * 2 ^ j) (2 ^ j) :: forest (j + 1) (m / 2)
  else forest (j + 1) (m / 2)
termination_by m

/-- The subtrees merged with what comes behind them, the root in its own way. -/
def mergeForest (rootMerge : α → α → α) : α → List α → α
  | out, [] => out
  | out, [x] => rootMerge x out
  | out, x :: y :: rest => mergeForest rootMerge (merge x out) (y :: rest)

variable {merge leaf} {rootMerge : α → α → α} {leaf' : ℕ → α} {d j k m n start : ℕ}

theorem leftTree_of_lt (start : ℕ) (h : 1 < n) : leftTree merge leaf start n =
    merge (leftTree merge leaf start (leftLen n))
      (leftTree merge leaf (start + leftLen n) (n - leftLen n)) := by
  rw [leftTree, dif_pos h]

theorem leftTree_one (start : ℕ) : leftTree merge leaf start 1 = leaf start := by
  rw [leftTree, dif_neg (by omega)]

/-- A tree with a perfect subtree on the left. -/
theorem leftTree_split (start : ℕ) (hk : 0 < k) (hle : k ≤ 2 ^ d) :
    leftTree merge leaf start (2 ^ d + k) =
      merge (leftTree merge leaf start (2 ^ d)) (leftTree merge leaf (start + 2 ^ d) k) := by
  have hpos := Nat.two_pow_pos d
  have hlen : leftLen (2 ^ d + k) = 2 ^ d := leftLen_eq (by omega) (by rw [Nat.pow_succ]; omega)
  rw [leftTree_of_lt _ (by omega), hlen, Nat.add_sub_cancel_left]

theorem leftTree_congr (hn : 0 < n) (h : ∀ i, start ≤ i → i < start + n → leaf i = leaf' i) :
    leftTree merge leaf start n = leftTree merge leaf' start n := by
  induction n using Nat.strong_induction_on generalizing start with
  | _ n ih =>
  by_cases hone : 1 < n
  · have hlt := leftLen_lt hone
    have hpos := leftLen_pos n
    rw [leftTree_of_lt _ hone, leftTree_of_lt _ hone,
      ih _ hlt hpos fun i hi hi' => h i hi (by omega),
      ih (n - leftLen n) (by omega) (by omega) fun i hi hi' => h i (by omega) (by omega)]
  · rw [leftTree, dif_neg hone, leftTree, dif_neg hone, h start le_rfl (by omega)]

theorem rootTree_eq (hk : 0 < k) (hle : k ≤ 2 ^ d) : rootTree merge leaf rootMerge (2 ^ d + k) =
    rootMerge (leftTree merge leaf 0 (2 ^ d)) (leftTree merge leaf (2 ^ d) k) := by
  have hlen : leftLen (2 ^ d + k) = 2 ^ d := leftLen_eq (by omega) (by rw [Nat.pow_succ]; omega)
  rw [rootTree, hlen, Nat.add_sub_cancel_left]

/-! ### A leaf more -/

@[simp] theorem forest_zero (j : ℕ) : forest merge leaf j 0 = [] := by
  rw [forest, dif_pos rfl]

/-- An even number of subtrees has none of the smallest. -/
theorem forest_bit_false (j m : ℕ) : forest merge leaf j (2 * m) = forest merge leaf (j + 1) m := by
  rcases Nat.eq_zero_or_pos m with rfl | hm
  · rw [Nat.mul_zero, forest_zero, forest_zero]
  · rw [forest, dif_neg (by omega), if_neg (by omega), Nat.mul_div_cancel_left m (by decide)]

/-- An odd number of subtrees ends with one of the smallest. -/
theorem forest_bit_true (j m : ℕ) : forest merge leaf j (2 * m + 1) =
    leftTree merge leaf (m * 2 ^ (j + 1)) (2 ^ j) :: forest merge leaf (j + 1) m := by
  have hdiv : (2 * m + 1) / 2 = m := by omega
  have hstart : 2 * m * 2 ^ j = m * 2 ^ (j + 1) := by ring
  rw [forest, dif_neg (by omega), if_pos (by omega), hdiv, Nat.add_sub_cancel, hstart]

/-- Behind an even number of subtrees, a new one stays as it is. -/
theorem forest_succ_of_even (j m : ℕ) : forest merge leaf j (2 * m + 1) =
    leftTree merge leaf (2 * m * 2 ^ j) (2 ^ j) :: forest merge leaf j (2 * m) := by
  have hstart : 2 * m * 2 ^ j = m * 2 ^ (j + 1) := by ring
  rw [forest_bit_true, forest_bit_false, hstart]

/-- Behind an odd number of subtrees, a new one merges with the last one. -/
theorem leftTree_carry (j m : ℕ) :
    merge (leftTree merge leaf (m * 2 ^ (j + 1)) (2 ^ j))
      (leftTree merge leaf ((2 * m + 1) * 2 ^ j) (2 ^ j)) =
      leftTree merge leaf (m * 2 ^ (j + 1)) (2 ^ (j + 1)) := by
  have hstart : (2 * m + 1) * 2 ^ j = m * 2 ^ (j + 1) + 2 ^ j := by ring
  have hsize : 2 ^ (j + 1) = 2 ^ j + 2 ^ j := by ring
  conv_rhs => rw [hsize, leftTree_split _ (Nat.two_pow_pos j) le_rfl]
  rw [hstart, hsize]

theorem forest_mul_two_pow (j m : ℕ) : forest merge leaf 0 (m * 2 ^ j) = forest merge leaf j m := by
  induction j generalizing m with
  | zero => rw [Nat.pow_zero, Nat.mul_one]
  | succ j ih =>
    have hmul : m * 2 ^ (j + 1) = 2 * m * 2 ^ j := by ring
    rw [hmul, ih, forest_bit_false]

/-- The bits of a number, above its lowest one, are those of its half. -/
theorem filter_testBit (k m : ℕ) : (List.range (k + 1)).filter m.testBit =
    (if m % 2 = 1 then [0] else []) ++ ((List.range k).filter (m / 2).testBit).map Nat.succ := by
  have hbit : m.testBit ∘ Nat.succ = (m / 2).testBit := funext fun i => Nat.testBit_succ m i
  rw [List.range_succ_eq_map, List.filter_cons, Nat.testBit_zero, List.filter_map, hbit]
  by_cases h : m % 2 = 1 <;> simp [h]

/-- **There is one subtree for each bit** of the number of leaves, the smallest one first. -/
theorem forest_eq_map (h : m < 2 ^ k) (j : ℕ) : forest merge leaf j m =
    ((List.range k).filter m.testBit).map fun i =>
      leftTree merge leaf (m / 2 ^ (i + 1) * 2 ^ (i + 1 + j)) (2 ^ (i + j)) := by
  induction k generalizing m j with
  | zero =>
    obtain rfl : m = 0 := by omega
    rw [forest_zero]
    rfl
  | succ k ih =>
    have hhalf : m / 2 < 2 ^ k := by
      rw [Nat.pow_succ] at h
      omega
    have hrest : (((List.range k).filter (m / 2).testBit).map Nat.succ).map (fun i =>
        leftTree merge leaf (m / 2 ^ (i + 1) * 2 ^ (i + 1 + j)) (2 ^ (i + j))) =
        forest merge leaf (j + 1) (m / 2) := by
      rw [ih hhalf, List.map_map]
      refine List.map_congr_left fun i _ => ?_
      have hdiv : m / 2 ^ (i + 1 + 1) = m / 2 / 2 ^ (i + 1) := by
        rw [Nat.pow_succ', ← Nat.div_div_eq_div_mul]
      have hexp : i + 1 + 1 + j = i + 1 + (j + 1) := by omega
      have hexp' : i + 1 + j = i + (j + 1) := by omega
      rw [Function.comp_apply, Nat.succ_eq_add_one, hdiv, hexp, hexp']
    rw [filter_testBit, List.map_append, hrest]
    obtain ⟨n, rfl | rfl⟩ := Nat.even_or_odd' m
    · rw [if_neg (by omega), Nat.mul_div_cancel_left n (by decide), forest_bit_false]
      rfl
    · have hdiv : (2 * n + 1) / 2 = n := by omega
      rw [if_pos (by omega), hdiv, forest_bit_true, List.map_singleton, Nat.zero_add, Nat.pow_one,
        hdiv, Nat.zero_add, Nat.add_comm 1 j]
      rfl
/-- The subtrees are at most as many as the bits of their number. -/
theorem length_forest_le (h : m < 2 ^ d) (j : ℕ) : (forest merge leaf j m).length ≤ d := by
  rw [forest_eq_map h, List.length_map]
  exact (List.length_filter_le _ _).trans List.length_range.le

theorem forest_congr (h : ∀ i < m * 2 ^ j, leaf i = leaf' i) :
    forest merge leaf j m = forest merge leaf' j m := by
  induction m using Nat.strong_induction_on generalizing j with
  | _ m ih =>
  rcases Nat.eq_zero_or_pos m with rfl | hm
  · rw [forest_zero, forest_zero]
  obtain ⟨n, rfl | rfl⟩ := Nat.even_or_odd' m
  · have hmul : n * 2 ^ (j + 1) = 2 * n * 2 ^ j := by ring
    rw [forest_bit_false, forest_bit_false, ih n (by omega) fun i hi => h i (hmul ▸ hi)]
  · have hmul : (2 * n + 1) * 2 ^ j = n * 2 ^ (j + 1) + 2 ^ j := by ring
    rw [hmul] at h
    rw [forest_bit_true, forest_bit_true,
      leftTree_congr (Nat.two_pow_pos j) fun i _ hi => h i hi,
      ih n (by omega) fun i hi => h i (Nat.lt_add_right _ hi)]

theorem forest_ne_nil (hm : 0 < m) (j : ℕ) : forest merge leaf j m ≠ [] := by
  induction m using Nat.strong_induction_on generalizing j with
  | _ m ih =>
  obtain ⟨n, rfl | rfl⟩ := Nat.even_or_odd' m
  · rw [forest_bit_false]
    exact ih n (by omega) (by omega) (j + 1)
  · rw [forest_bit_true]
    exact List.cons_ne_nil _ _

/-! ### The tree of all leaves -/

/-- **The tree of all leaves** is what the perfect subtrees and the tree of the leaves behind them
merge to. -/
theorem mergeForest_forest (hm : 0 < m) (hk : 0 < k) (hle : k ≤ 2 ^ j) :
    mergeForest merge rootMerge (leftTree merge leaf (m * 2 ^ j) k) (forest merge leaf j m) =
      rootTree merge leaf rootMerge (m * 2 ^ j + k) := by
  induction m using Nat.strong_induction_on generalizing j k with
  | _ m ih =>
  have hsize : 2 ^ (j + 1) = 2 ^ j + 2 ^ j := by ring
  obtain ⟨n, rfl | rfl⟩ := Nat.even_or_odd' m
  · have hmul : 2 * n * 2 ^ j = n * 2 ^ (j + 1) := by ring
    rw [forest_bit_false, hmul]
    exact ih n (by omega) (by omega) hk (by omega)
  · have hmul : (2 * n + 1) * 2 ^ j = n * 2 ^ (j + 1) + 2 ^ j := by ring
    rw [forest_bit_true, hmul]
    rcases Nat.eq_zero_or_pos n with rfl | hn
    · rw [forest_zero, mergeForest, Nat.zero_mul, Nat.zero_add, rootTree_eq hk hle]
    · have hne : forest merge leaf (j + 1) n ≠ [] := forest_ne_nil hn (j + 1)
      obtain ⟨y, rest, hrest⟩ := List.exists_cons_of_ne_nil hne
      have hsplit : leftTree merge leaf (n * 2 ^ (j + 1)) (2 ^ j + k) =
          merge (leftTree merge leaf (n * 2 ^ (j + 1)) (2 ^ j))
            (leftTree merge leaf (n * 2 ^ (j + 1) + 2 ^ j) k) := leftTree_split _ hk hle
      rw [hrest, mergeForest, ← hrest, ← hsplit, Nat.add_assoc]
      exact ih n (by omega) hn (by omega) (by omega)

end Mpz
