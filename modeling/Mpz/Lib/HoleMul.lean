import Mathlib.Algebra.Polynomial.Reverse
import Mathlib.Data.Nat.Bitwise
import Mpz.Lib.BinaryPolynomial

/-!
# Carry-less products from integer products with holes

Where only every fourth bit of two words is set, each column of their integer product is a small
number, and its carries fall into the three columns behind it that are empty. So the bits at the
columns of the product are those of the carry-less product, as long as there are at most fifteen
summands in the columns before. The product of two words is put together from sixteen such products,
and its high half is the low half of the product of the reversed words, reversed.

## Main definitions

* `Sparse` — a word whose bits are four apart
* `holeMul` — the low half of the carry-less product, from sixteen integer products
* `IsReverse` — a word and its reversal
* `swapBits` — one round of a reversal

## Main results

* `coeff_holeMul` — the low half, bit by bit
* `toPoly_holeMul_add` — the whole product, from the words and from their reversals
* `getLsbD_swapBits` — a round of a reversal, bit by bit
-/

open Polynomial

namespace Mpz

/-! ### Columns of integer products -/

/-- The sum of the first `n` columns. -/
def columnSum (f : ℕ → ℕ) (n : ℕ) : ℕ := ∑ s ∈ Finset.range n, f s * 2 ^ s

variable {f : ℕ → ℕ} {k n r : ℕ}

theorem columnSum_succ (f : ℕ → ℕ) (n : ℕ) : columnSum f (n + 1) = columnSum f n + f n * 2 ^ n :=
  Finset.sum_range_succ _ n

/-- **The columns before one of them** do not reach it, if they are four apart and have at most
fifteen summands each. -/
theorem columnSum_lt (hr : r < 4) (hf : ∀ s, s % 4 ≠ r → f s = 0)
    (hle : ∀ s, s < 4 * n + r → f s ≤ 15) : columnSum f (4 * n + r) < 2 ^ (4 * n + r) := by
  induction n with
  | zero =>
    have hzero : columnSum f (4 * 0 + r) = 0 := by
      refine Finset.sum_eq_zero fun s hs => ?_
      have := Finset.mem_range.mp hs
      rw [hf s (by omega), Nat.zero_mul]
    rw [hzero]
    exact Nat.two_pow_pos _
  | succ n ih =>
    have hlow := ih fun s hs => hle s (by omega)
    have hcol := hle (4 * n + r) (by omega)
    have hindex : 4 * (n + 1) + r = 4 * n + r + 1 + 1 + 1 + 1 := by omega
    rw [hindex, columnSum_succ, columnSum_succ, columnSum_succ, columnSum_succ,
      hf (4 * n + r + 1) (by omega), hf (4 * n + r + 1 + 1) (by omega),
      hf (4 * n + r + 1 + 1 + 1) (by omega), Nat.zero_mul, Nat.zero_mul, Nat.zero_mul, Nat.add_zero,
      Nat.add_zero, Nat.add_zero, Nat.pow_succ, Nat.pow_succ, Nat.pow_succ, Nat.pow_succ]
    have hmul : f (4 * n + r) * 2 ^ (4 * n + r) ≤ 15 * 2 ^ (4 * n + r) :=
      Nat.mul_le_mul_right _ hcol
    omega

/-- The columns from one on. -/
theorem exists_columnSum_eq (hk : k < n) :
    ∃ rest, columnSum f n = columnSum f k + 2 ^ k * (f k + 2 * rest) := by
  obtain ⟨d, rfl⟩ := Nat.exists_eq_add_of_lt hk
  induction d with
  | zero =>
      exact ⟨0, by rw [Nat.add_zero, columnSum_succ, Nat.mul_zero, Nat.add_zero, Nat.mul_comm]⟩
  | succ d ih =>
    obtain ⟨rest, hrest⟩ := ih (by omega)
    refine ⟨rest + f (k + d + 1) * 2 ^ d, ?_⟩
    have hpow : 2 ^ (k + d + 1) = 2 ^ k * (2 * 2 ^ d) := by
      rw [Nat.pow_succ, Nat.pow_add, Nat.mul_assoc, Nat.mul_comm (2 ^ d)]
    rw [← Nat.add_assoc, columnSum_succ, hrest, hpow]
    ring

/-- **The bit at a column** is the parity of its summands. -/
theorem testBit_columnSum (hk : k < n) (hf : ∀ s, s % 4 ≠ k % 4 → f s = 0)
    (hle : ∀ s < k, f s ≤ 15) : (columnSum f n).testBit k = decide (f k % 2 = 1) := by
  have hlow : columnSum f k < 2 ^ k := by
    have hindex : 4 * (k / 4) + k % 4 = k := Nat.div_add_mod k 4
    have h := columnSum_lt (n := k / 4) (Nat.mod_lt k (by decide)) hf fun s hs => hle s (by omega)
    rwa [hindex] at h
  obtain ⟨rest, hrest⟩ := exists_columnSum_eq (f := f) hk
  rw [hrest, Nat.add_comm, Nat.testBit_two_pow_mul_add _ hlow, if_neg (lt_irrefl k), Nat.sub_self,
    Nat.testBit_zero, Nat.add_mul_mod_self_left]

/-! ### Words with holes -/

variable {w : ℕ}

/-- The bits of the word are at positions of one class modulo four. -/
def Sparse (i : ℕ) (x : BitVec w) : Prop := ∀ p, x.getLsbD p = true → p % 4 = i

theorem mod_two_pow_eq_columnSum (x n : ℕ) :
    x % 2 ^ n = columnSum (fun p => (x.testBit p).toNat) n := by
  induction n with
  | zero => rw [Nat.pow_zero, Nat.mod_one, columnSum, Finset.sum_range_zero]
  | succ n ih => rw [Nat.mod_pow_succ, ih, columnSum_succ, Nat.toNat_testBit, Nat.mul_comm (2 ^ n)]

/-- The word as a polynomial over the natural numbers. -/
noncomputable def natPoly (x : BitVec w) : ℕ[X] :=
  ∑ p ∈ Finset.range w, monomial p (x.getLsbD p).toNat

@[simp] theorem coeff_natPoly (x : BitVec w) (p : ℕ) :
    (natPoly x).coeff p = (x.getLsbD p).toNat := by
  simp only [natPoly, finsetSum_coeff, coeff_monomial, Finset.sum_ite_eq', Finset.mem_range]
  split
  · rfl
  · rw [BitVec.getLsbD_of_ge x p (by omega)]
    rfl

theorem natDegree_natPoly_le (x : BitVec w) : (natPoly x).natDegree ≤ w := by
  refine natDegree_le_iff_coeff_eq_zero.mpr fun p hp => ?_
  rw [coeff_natPoly, BitVec.getLsbD_of_ge x p hp.le]
  rfl

theorem eval_natPoly (x : BitVec w) : (natPoly x).eval 2 = x.toNat := by
  have hmod := mod_two_pow_eq_columnSum x.toNat (w + 1)
  have hlt : x.toNat < 2 ^ (w + 1) := x.isLt.trans (Nat.pow_lt_pow_right (by decide) w.lt_succ_self)
  rw [Nat.mod_eq_of_lt hlt] at hmod
  rw [hmod, eval_eq_sum_range' (Nat.lt_succ_of_le (natDegree_natPoly_le x)), columnSum]
  simp only [coeff_natPoly, BitVec.testBit_toNat]

/-- The summands in a column of the product of two words. -/
def column (x y : BitVec w) (k : ℕ) : ℕ :=
  ∑ p ∈ Finset.HasAntidiagonal.antidiagonal k, (x.getLsbD p.1).toNat * (y.getLsbD p.2).toNat

theorem coeff_natPoly_mul (x y : BitVec w) (k : ℕ) :
    (natPoly x * natPoly y).coeff k = column x y k := by
  rw [coeff_mul, column]
  simp only [coeff_natPoly]

theorem toNat_mul_eq (x y : BitVec w) :
    x.toNat * y.toNat = columnSum (column x y) (w + w + 1) := by
  have hdeg : (natPoly x * natPoly y).natDegree < w + w + 1 :=
    Nat.lt_succ_of_le (natDegree_mul_le.trans
      (Nat.add_le_add (natDegree_natPoly_le x) (natDegree_natPoly_le y)))
  rw [← eval_natPoly, ← eval_natPoly, ← eval_mul, eval_eq_sum_range' hdeg, columnSum]
  simp only [coeff_natPoly_mul]

/-- The column of the polynomials over the two-element field. -/
theorem coeff_toPoly_mul (x y : BitVec w) (k : ℕ) :
    (toPoly x * toPoly y).coeff k = (column x y k : ℕ) := by
  have hbit : ∀ a : Bool, ofBit a = (a.toNat : ℕ) := by decide
  rw [coeff_mul, column, Nat.cast_sum]
  refine Finset.sum_congr rfl fun p _ => ?_
  rw [coeff_toPoly, coeff_toPoly, Nat.cast_mul, hbit, hbit]

theorem column_eq_zero {i j : ℕ} {x y : BitVec w} (hx : Sparse i x) (hy : Sparse j y)
    (hk : k % 4 ≠ (i + j) % 4) : column x y k = 0 := by
  refine Finset.sum_eq_zero fun p hp => ?_
  have hsum := Finset.HasAntidiagonal.mem_antidiagonal.mp hp
  by_contra hne
  obtain ⟨hxp, hyp⟩ := Nat.mul_ne_zero_iff.mp hne
  have hi := hx p.1 (by simpa using hxp)
  have hj := hy p.2 (by simpa using hyp)
  omega

/-- The number of positions of a class. -/
theorem card_class (i n : ℕ) (hi : i < 4) :
    ∑ p ∈ Finset.range n, (if p % 4 = i then 1 else 0) = (n + 3 - i) / 4 := by
  induction n with
  | zero => rw [Finset.sum_range_zero, Nat.div_eq_of_lt (by omega)]
  | succ n ih =>
    rw [Finset.sum_range_succ, ih]
    split <;> omega

/-- A column has at most as many summands as there are positions of the class before it. -/
theorem column_le {i : ℕ} {x y : BitVec w} (hi : i < 4) (hx : Sparse i x) :
    column x y k ≤ (k + 4 - i) / 4 := by
  have hle : column x y k ≤ ∑ p ∈ Finset.range (k + 1), if p % 4 = i then 1 else 0 := by
    rw [column, Finset.Nat.sum_antidiagonal_eq_sum_range_succ_mk]
    refine Finset.sum_le_sum fun p _ => ?_
    have hyp := Bool.toNat_le (y.getLsbD (k - p))
    cases hxp : x.getLsbD p with
    | false => exact Nat.zero_le _ |>.trans' (by simp)
    | true =>
      rw [if_pos (hx p hxp), Bool.toNat_true, Nat.one_mul]
      exact hyp
  rw [card_class i (k + 1) hi] at hle
  exact hle

/-- **A product with holes**, at its columns. -/
theorem ofBit_getLsbD_mul {i j : ℕ} {x y : BitVec w} (hw : w ≤ 64) (hi : i < 4) (hx : Sparse i x)
    (hy : Sparse j y) (hk : k < w) (hclass : k % 4 = (i + j) % 4) :
    ofBit ((x * y).getLsbD k) = (toPoly x * toPoly y).coeff k := by
  have hbit : (x * y).getLsbD k = decide (column x y k % 2 = 1) := by
    rw [BitVec.getLsbD, BitVec.toNat_mul, Nat.testBit_mod_two_pow, decide_eq_true hk, Bool.true_and,
      toNat_mul_eq]
    refine testBit_columnSum (by omega) (fun s hs => ?_) fun s hs => ?_
    · exact column_eq_zero hx hy (by omega)
    · by_cases hcl : s % 4 = (i + j) % 4
      · -- A column before this one is at least four before it.
        refine (column_le hi hx).trans ?_
        omega
      · rw [column_eq_zero hx hy hcl]
        exact Nat.zero_le _
  have hcast : ∀ c : ℕ, ofBit (decide (c % 2 = 1)) = (c : ZMod 2) := by
    intro c
    rw [← ZMod.natCast_mod c 2]
    rcases Nat.mod_two_eq_zero_or_one c with h | h <;> rw [h] <;> rfl
  rw [hbit, hcast, coeff_toPoly_mul]

/-- The coefficient is there at the columns, and zero elsewhere. -/
theorem coeff_toPoly_mul_of_sparse {i j : ℕ} {x y : BitVec w} (hw : w ≤ 64) (hi : i < 4)
    (hx : Sparse i x) (hy : Sparse j y) (hk : k < w) : (toPoly x * toPoly y).coeff k =
      if k % 4 = (i + j) % 4 then ofBit ((x * y).getLsbD k) else 0 := by
  split
  case isTrue h => exact (ofBit_getLsbD_mul hw hi hx hy hk h).symm
  case isFalse h => rw [coeff_toPoly_mul, column_eq_zero hx hy h, Nat.cast_zero]

/-! ### The low half -/

/-- Multiplication in GF(2)[X], truncated to the low half. The masks select the positions of the
four classes. -/
def holeMul (m0 m1 m2 m3 x y : BitVec w) : BitVec w :=
  let x0 := x &&& m0
  let x1 := x &&& m1
  let x2 := x &&& m2
  let x3 := x &&& m3
  let y0 := y &&& m0
  let y1 := y &&& m1
  let y2 := y &&& m2
  let y3 := y &&& m3
  let z0 := x0 * y0 ^^^ x1 * y3 ^^^ x2 * y2 ^^^ x3 * y1
  let z1 := x0 * y1 ^^^ x1 * y0 ^^^ x2 * y3 ^^^ x3 * y2
  let z2 := x0 * y2 ^^^ x1 * y1 ^^^ x2 * y0 ^^^ x3 * y3
  let z3 := x0 * y3 ^^^ x1 * y2 ^^^ x2 * y1 ^^^ x3 * y0
  z0 &&& m0 ||| z1 &&& m1 ||| z2 &&& m2 ||| z3 &&& m3

/-- The mask selects the positions of a class. -/
def IsMask (i : ℕ) (m : BitVec w) : Prop := ∀ k < w, m.getLsbD k = decide (k % 4 = i)

instance (i : ℕ) (m : BitVec w) : Decidable (IsMask i m) :=
  inferInstanceAs (Decidable (∀ k < w, m.getLsbD k = decide (k % 4 = i)))

theorem IsMask.sparse {i : ℕ} {m : BitVec w} (h : IsMask i m) (x : BitVec w) :
    Sparse i (x &&& m) := by
  intro p hp
  have hlt := BitVec.lt_of_getLsbD hp
  rw [BitVec.getLsbD_and, h p hlt, Bool.and_eq_true, decide_eq_true_iff] at hp
  exact hp.2

variable {m0 m1 m2 m3 : BitVec w}

/-- A word is the sum of its classes. -/
theorem toPoly_eq_add (h0 : IsMask 0 m0) (h1 : IsMask 1 m1) (h2 : IsMask 2 m2) (h3 : IsMask 3 m3)
    (x : BitVec w) : toPoly x =
      toPoly (x &&& m0) + toPoly (x &&& m1) + toPoly (x &&& m2) + toPoly (x &&& m3) := by
  rw [← toPoly_xor, ← toPoly_xor, ← toPoly_xor]
  congr 1
  refine BitVec.eq_of_getLsbD_eq fun k hk => ?_
  simp only [BitVec.getLsbD_xor, BitVec.getLsbD_and, h0 k hk, h1 k hk, h2 k hk, h3 k hk]
  rcases (show k % 4 = 0 ∨ k % 4 = 1 ∨ k % 4 = 2 ∨ k % 4 = 3 by omega) with h | h | h | h <;>
    simp [h]

/-- **The low half**, bit by bit. -/
theorem coeff_holeMul (hw : w ≤ 64) (h0 : IsMask 0 m0) (h1 : IsMask 1 m1) (h2 : IsMask 2 m2)
    (h3 : IsMask 3 m3) (x y : BitVec w) (hk : k < w) :
    (toPoly (holeMul m0 m1 m2 m3 x y)).coeff k = (toPoly x * toPoly y).coeff k := by
  have hx0 := h0.sparse x
  have hx1 := h1.sparse x
  have hx2 := h2.sparse x
  have hx3 := h3.sparse x
  have hy0 := h0.sparse y
  have hy1 := h1.sparse y
  have hy2 := h2.sparse y
  have hy3 := h3.sparse y
  have hclass := fun {i j : ℕ} {a b : BitVec w} (hi : i < 4) (ha : Sparse i a) (hb : Sparse j b) =>
    coeff_toPoly_mul_of_sparse hw hi ha hb hk
  rw [toPoly_eq_add h0 h1 h2 h3 x, toPoly_eq_add h0 h1 h2 h3 y, coeff_toPoly]
  simp only [add_mul, mul_add, coeff_add, hclass (by decide) hx0 hy0, hclass (by decide) hx0 hy1,
    hclass (by decide) hx0 hy2, hclass (by decide) hx0 hy3, hclass (by decide) hx1 hy0,
    hclass (by decide) hx1 hy1, hclass (by decide) hx1 hy2, hclass (by decide) hx1 hy3,
    hclass (by decide) hx2 hy0, hclass (by decide) hx2 hy1, hclass (by decide) hx2 hy2,
    hclass (by decide) hx2 hy3, hclass (by decide) hx3 hy0, hclass (by decide) hx3 hy1,
    hclass (by decide) hx3 hy2, hclass (by decide) hx3 hy3, holeMul, BitVec.getLsbD_or,
    BitVec.getLsbD_and, h0 k hk, h1 k hk, h2 k hk, h3 k hk, BitVec.getLsbD_xor]
  rcases (show k % 4 = 0 ∨ k % 4 = 1 ∨ k % 4 = 2 ∨ k % 4 = 3 by omega) with h | h | h | h <;>
    simp [h, ofBit_xor] <;> ring

/-! ### The whole product -/

/-- The second word has the bits of the first one in reverse. -/
def IsReverse (x x' : BitVec w) : Prop := ∀ k < w, x'.getLsbD k = x.getLsbD (w - 1 - k)

theorem natDegree_toPoly_le (x : BitVec w) : (toPoly x).natDegree ≤ w - 1 := by
  refine natDegree_le_iff_coeff_eq_zero.mpr fun p hp => ?_
  rw [coeff_toPoly, BitVec.getLsbD_of_ge x p (by omega)]
  rfl

theorem IsReverse.toPoly_eq {x x' : BitVec w} (hw : 0 < w) (h : IsReverse x x') :
    toPoly x' = reflect (w - 1) (toPoly x) := by
  ext k
  rw [coeff_reflect, coeff_toPoly]
  by_cases hk : k < w
  · rw [revAt_le (by omega), coeff_toPoly, h k hk]
  · rw [revAt_eq_self_of_lt (by omega), coeff_toPoly, BitVec.getLsbD_of_ge x' k (by omega),
      BitVec.getLsbD_of_ge x k (by omega)]

theorem IsReverse.xor {x x' y y' : BitVec w} (hx : IsReverse x x') (hy : IsReverse y y') :
    IsReverse (x ^^^ y) (x' ^^^ y') := by
  intro k hk
  rw [BitVec.getLsbD_xor, BitVec.getLsbD_xor, hx k hk, hy k hk]

theorem IsReverse.unique {x x' y : BitVec w} (hx : IsReverse x x') (hy : IsReverse x y) : x' = y :=
  BitVec.eq_of_getLsbD_eq fun k hk => (hx k hk).trans (hy k hk).symm

/-- **The whole product.** The high half is the low half of the product of the reversed words,
reversed and without its first bit. -/
theorem toPoly_holeMul_add (hw : w ≤ 64) (hpos : 0 < w) (h0 : IsMask 0 m0) (h1 : IsMask 1 m1)
    (h2 : IsMask 2 m2) (h3 : IsMask 3 m3) {x y x' y' z : BitVec w} (hx : IsReverse x x')
    (hy : IsReverse y y') (hz : IsReverse (holeMul m0 m1 m2 m3 x' y') z) :
    toPoly (holeMul m0 m1 m2 m3 x y) + X ^ w * toPoly (z >>> 1) = toPoly x * toPoly y := by
  ext k
  rw [coeff_add, coeff_X_pow_mul']
  by_cases hk : k < w
  · rw [coeff_holeMul hw h0 h1 h2 h3 x y hk, if_neg (by omega), add_zero]
  rw [if_pos (by omega), coeff_toPoly, BitVec.getLsbD_of_ge _ k (by omega), coeff_toPoly,
    BitVec.getLsbD_ushiftRight]
  by_cases hlt : 1 + (k - w) < w
  · have hindex : w - 1 - (1 + (k - w)) = w - 1 + (w - 1) - k := by omega
    have hcoeff : (toPoly x' * toPoly y').coeff (w - 1 + (w - 1) - k) =
        (toPoly x * toPoly y).coeff k := by
      rw [hx.toPoly_eq hpos, hy.toPoly_eq hpos,
        ← reflect_mul _ _ (natDegree_toPoly_le x) (natDegree_toPoly_le y), coeff_reflect,
        revAt_le (Nat.sub_le _ _)]
      congr 1
      omega
    rw [hz _ hlt, ← coeff_toPoly, hindex, coeff_holeMul hw h0 h1 h2 h3 x' y' (by omega), hcoeff]
    exact zero_add _
  · have hdeg : (toPoly x * toPoly y).natDegree ≤ w - 1 + (w - 1) := natDegree_mul_le.trans
      (Nat.add_le_add (natDegree_toPoly_le x) (natDegree_toPoly_le y))
    rw [BitVec.getLsbD_of_ge z _ (by omega), coeff_eq_zero_of_natDegree_lt (by omega)]
    exact zero_add _

/-! ### Reversals -/

/-- The blocks of `s` bits that the mask selects change places with those behind them. -/
def swapBits (m : BitVec w) (s : ℕ) (x : BitVec w) : BitVec w := (x &&& m) <<< s ||| x >>> s &&& m

/-- Where the bit at an index comes from. -/
def swapIndex (s i : ℕ) : ℕ := if i / s % 2 = 1 then i - s else i + s

theorem getLsbD_swapBits {m : BitVec w} {s i : ℕ} (hs : 0 < s)
    (hm : ∀ k < w, m.getLsbD k = decide (k / s % 2 = 0)) (x : BitVec w) (hi : i < w) :
    (swapBits m s x).getLsbD i = x.getLsbD (swapIndex s i) := by
  have hback : ∀ k, s ≤ k → k / s = (k - s) / s + 1 := fun k hk => Nat.div_eq_sub_div hs hk
  rw [swapBits, BitVec.getLsbD_or, BitVec.getLsbD_shiftLeft, BitVec.getLsbD_and, BitVec.getLsbD_and,
    BitVec.getLsbD_ushiftRight, hm i hi, hm (i - s) (by omega), swapIndex, decide_eq_true hi,
    Bool.true_and]
  split
  case isTrue hodd =>
    have hle : s ≤ i := by
      by_contra hlt
      rw [Nat.div_eq_of_lt (by omega)] at hodd
      omega
    have := hback i hle
    simp [show ¬ i < s by omega, show (i - s) / s % 2 = 0 by omega, show ¬ i / s % 2 = 0 by omega]
  case isFalse heven =>
    have hzero : i / s % 2 = 0 := by omega
    by_cases hlt : i < s
    · simp [hlt, hzero, Nat.add_comm]
    · have := hback i (by omega)
      simp [hzero, show ¬ (i - s) / s % 2 = 0 by omega, Nat.add_comm]

end Mpz
