import Mathlib.FieldTheory.Finite.Basic
import Mpz.Lib.BinaryField
import Mpz.Lib.HoleMul

/-!
# Portable carry-less multiplication

The product of two 64-bit words is computed from integer products of words with holes, and its high
half from the reversed words. The product of two 128-bit words takes four of these. A square needs
no product: its bits are those of the word, with a zero behind each of them.

## Main definitions

* `Fields.bmul64Full`, `Fields.bmul128Full` — the products
* `Fields.bitSpreadU32` — the square of a 32-bit word

## Main results

* `Fields.toPoly_bmul64Full`, `Fields.toPoly_bmul128Full` — they are the products of the polynomials
* `Fields.toPoly_bitSpreadU32` — a word whose bits are spread is the square
-/

open Polynomial

namespace Mpz

namespace Fields

/-- Returns the low 64 bits of the carry-less product `x · y`. -/
def bmul64Lo (x y : BitVec 64) : BitVec 64 :=
  holeMul 0x1111111111111111 0x2222222222222222 0x4444444444444444 0x8888888888888888 x y

/-- `u64::swap_bytes` -/
def swapBytes (x : BitVec 64) : BitVec 64 :=
  x.extractLsb' 0 8 ++ x.extractLsb' 8 8 ++ x.extractLsb' 16 8 ++ x.extractLsb' 24 8 ++
    x.extractLsb' 32 8 ++ x.extractLsb' 40 8 ++ x.extractLsb' 48 8 ++ x.extractLsb' 56 8

/-- Bit-reverses a `u64` in constant time. -/
def rev64 (x : BitVec 64) : BitVec 64 :=
  let x := swapBits 0x5555555555555555 1 x
  let x := swapBits 0x3333333333333333 2 x
  let x := swapBits 0x0f0f0f0f0f0f0f0f 4 x
  swapBytes x

/-- Full 64×64 → 128 bit carry-less product of `x` and `y`: the low half and the high one. -/
def bmul64Full (x y : BitVec 64) : BitVec 64 × BitVec 64 :=
  (bmul64Lo x y, rev64 (bmul64Lo (rev64 x) (rev64 y)) >>> 1)

/-- The low and the high half of a 128-bit word, as casts and a shift take them. -/
def halves (x : BitVec 128) : BitVec 64 × BitVec 64 := (x.setWidth 64, (x >>> 64).setWidth 64)

/-- `((hi as u128) << 64) | (lo as u128)` -/
def joinHalves (lo hi : BitVec 64) : BitVec 128 := hi.setWidth 128 <<< 64 ||| lo.setWidth 128

/-- Full 128×128 → 256 bit carry-less product of `a` and `b`. -/
def bmul128Full (a b : BitVec 128) : BitVec 128 × BitVec 128 :=
  let (aLo, aHi) := halves a
  let (bLo, bHi) := halves b
  let (p00Lo, p00Hi) := bmul64Full aLo bLo
  let (p11Lo, p11Hi) := bmul64Full aHi bHi
  let (p01Lo, p01Hi) := bmul64Full aLo bHi
  let (p10Lo, p10Hi) := bmul64Full aHi bLo
  let midLo := p01Lo ^^^ p10Lo
  let midHi := p01Hi ^^^ p10Hi
  let p00 := joinHalves p00Lo p00Hi
  let p11 := joinHalves p11Lo p11Hi
  (p00 ^^^ midLo.setWidth 128 <<< 64, p11 ^^^ midHi.setWidth 128)

/-- One round of a spread. -/
def spreadBits (m : BitVec 64) (s : ℕ) (x : BitVec 64) : BitVec 64 := (x ||| x <<< s) &&& m

/-- Spreads a `u32`'s bits into a `u64` with one zero between each bit. -/
def bitSpreadU32 (x : BitVec 32) : BitVec 64 :=
  let x := x.setWidth 64
  let x := spreadBits 0x0000ffff0000ffff 16 x
  let x := spreadBits 0x00ff00ff00ff00ff 8 x
  let x := spreadBits 0x0f0f0f0f0f0f0f0f 4 x
  let x := spreadBits 0x3333333333333333 2 x
  spreadBits 0x5555555555555555 1 x

/-! ### Reversals -/

theorem getLsbD_swapBytes (x : BitVec 64) {i : ℕ} (hi : i < 64) :
    (swapBytes x).getLsbD i = x.getLsbD (8 * (7 - i / 8) + i % 8) := by
  simp only [swapBytes, BitVec.getLsbD_append, BitVec.getLsbD_extractLsb']
  rcases (show i / 8 = 0 ∨ i / 8 = 1 ∨ i / 8 = 2 ∨ i / 8 = 3 ∨ i / 8 = 4 ∨ i / 8 = 5 ∨ i / 8 = 6 ∨
    i / 8 = 7 by omega) with h | h | h | h | h | h | h | h <;>
  · rw [h]
    grind

/-- Where a bit of the reversed word comes from. -/
theorem rev64_index : ∀ k < 64, 8 * (7 - k / 8) + k % 8 < 64 ∧
    swapIndex 4 (8 * (7 - k / 8) + k % 8) < 64 ∧
    swapIndex 2 (swapIndex 4 (8 * (7 - k / 8) + k % 8)) < 64 ∧
    swapIndex 1 (swapIndex 2 (swapIndex 4 (8 * (7 - k / 8) + k % 8))) = 64 - 1 - k := by
  decide +kernel

theorem isReverse_rev64 (x : BitVec 64) : IsReverse x (rev64 x) := by
  intro k hk
  obtain ⟨h0, h4, h2, h1⟩ := rev64_index k hk
  rw [rev64, getLsbD_swapBytes _ hk, getLsbD_swapBits (by decide) (by decide +kernel) _ h0,
    getLsbD_swapBits (by decide) (by decide +kernel) _ h4,
    getLsbD_swapBits (by decide) (by decide +kernel) _ h2, h1]

/-! ### Products -/

theorem isMask_one : IsMask 0 (0x1111111111111111 : BitVec 64) := by decide +kernel

theorem isMask_two : IsMask 1 (0x2222222222222222 : BitVec 64) := by decide +kernel

theorem isMask_four : IsMask 2 (0x4444444444444444 : BitVec 64) := by decide +kernel

theorem isMask_eight : IsMask 3 (0x8888888888888888 : BitVec 64) := by decide +kernel

/-- **The product of 64-bit words.** -/
theorem toPoly_bmul64Full (x y : BitVec 64) :
    toPoly (bmul64Full x y).1 + X ^ 64 * toPoly (bmul64Full x y).2 = toPoly x * toPoly y := by
  simp only [bmul64Full, bmul64Lo]
  exact toPoly_holeMul_add le_rfl (by decide) isMask_one isMask_two isMask_four isMask_eight
    (isReverse_rev64 x) (isReverse_rev64 y) (isReverse_rev64 _)

theorem joinHalves_eq (lo hi : BitVec 64) : joinHalves lo hi = hi ++ lo := by
  refine BitVec.eq_of_getLsbD_eq fun k hk => ?_
  simp only [joinHalves, BitVec.getLsbD_or, BitVec.getLsbD_shiftLeft, BitVec.getLsbD_setWidth,
    BitVec.getLsbD_append]
  by_cases h : k < 64
  · simp [h, hk]
  · simp [h, hk, show k - 64 < 128 by omega, BitVec.getLsbD_of_ge lo k (by omega)]

theorem toPoly_joinHalves (lo hi : BitVec 64) :
    toPoly (joinHalves lo hi) = toPoly lo + X ^ 64 * toPoly hi := by
  rw [joinHalves_eq, toPoly_append]

theorem joinHalves_halves (x : BitVec 128) : joinHalves (halves x).1 (halves x).2 = x := by
  refine BitVec.eq_of_getLsbD_eq fun k hk => ?_
  simp only [joinHalves_eq, halves, BitVec.getLsbD_append, BitVec.getLsbD_setWidth,
    BitVec.getLsbD_ushiftRight]
  by_cases h : k < 64
  · simp [h]
  · simp [h, show k - 64 < 64 by omega, show 64 + (k - 64) = k by omega]

theorem toPoly_halves (x : BitVec 128) :
    toPoly x = toPoly (halves x).1 + X ^ 64 * toPoly (halves x).2 := by
  rw [← toPoly_joinHalves, joinHalves_halves]

/-- A half in the upper half of a word. -/
theorem toPoly_setWidth_shiftLeft (x : BitVec 64) :
    toPoly (x.setWidth 128 <<< 64) = X ^ 64 * toPoly x := by
  have hjoin : x.setWidth 128 <<< 64 = joinHalves 0#64 x := by simp [joinHalves]
  rw [hjoin, toPoly_joinHalves, toPoly_zero, zero_add]

/-- **The product of 128-bit words.** -/
theorem toPoly_bmul128Full (a b : BitVec 128) :
    toPoly (bmul128Full a b).1 + X ^ 128 * toPoly (bmul128Full a b).2 = toPoly a * toPoly b := by
  have h00 := toPoly_bmul64Full (halves a).1 (halves b).1
  have h11 := toPoly_bmul64Full (halves a).2 (halves b).2
  have h01 := toPoly_bmul64Full (halves a).1 (halves b).2
  have h10 := toPoly_bmul64Full (halves a).2 (halves b).1
  have hpow : (X ^ 128 : (ZMod 2)[X]) = X ^ 64 * X ^ 64 := by rw [← pow_add]
  simp only [bmul128Full, toPoly_xor, toPoly_joinHalves, toPoly_setWidth_shiftLeft, hpow,
    toPoly_setWidth _ (show 64 ≤ 128 by decide)]
  rw [toPoly_halves a, toPoly_halves b]
  generalize (X ^ 64 : (ZMod 2)[X]) = p at *
  linear_combination h00 + p * h01 + p * h10 + p * p * h11

/-! ### Squares -/

/-- The blocks of `d` bits of the word, with a block of zeros behind each of them. -/
def IsSpread (d : ℕ) (x : BitVec 32) (y : BitVec 64) : Prop :=
  ∀ j < 64, y.getLsbD j = (decide (j / d % 2 = 0) && x.getLsbD (d * (j / (2 * d)) + j % d))

theorem isSpread_setWidth (x : BitVec 32) : IsSpread 32 x (x.setWidth 64) := by
  intro j hj
  rw [BitVec.getLsbD_setWidth, decide_eq_true hj, Bool.true_and]
  by_cases h : j < 32
  · rw [show j / (2 * 32) = 0 by omega, Nat.mod_eq_of_lt h, Nat.div_eq_of_lt h]
    simp
  · rw [BitVec.getLsbD_of_ge x j (by omega), show j / 32 = 1 by omega]
    rfl

/-- **A round halves the blocks.** -/
theorem IsSpread.spreadBits {s : ℕ} {m : BitVec 64} {x : BitVec 32} {y : BitVec 64}
    (hs : s = 1 ∨ s = 2 ∨ s = 4 ∨ s = 8 ∨ s = 16)
    (hm : ∀ k < 64, m.getLsbD k = decide (k / s % 2 = 0)) (h : IsSpread (2 * s) x y) :
    IsSpread s x (spreadBits m s y) := by
  intro j hj
  -- A block of the word was in its place before the round, or it is shifted into it.
  have hplace : j / s % 2 = 0 → (j / (2 * s) % 2 = 0 ∧
      2 * s * (j / (2 * (2 * s))) + j % (2 * s) = s * (j / (2 * s)) + j % s ∧
        (s ≤ j → (j - s) / (2 * s) % 2 = 1)) ∨ (s ≤ j ∧ j / (2 * s) % 2 = 1 ∧
      (j - s) / (2 * s) % 2 = 0 ∧
        2 * s * ((j - s) / (2 * (2 * s))) + (j - s) % (2 * s) = s * (j / (2 * s)) + j % s) := by
    rcases hs with rfl | rfl | rfl | rfl | rfl <;> omega
  rw [Fields.spreadBits, BitVec.getLsbD_and, BitVec.getLsbD_or, BitVec.getLsbD_shiftLeft, hm j hj,
    h j hj, h (j - s) (by omega), decide_eq_true hj, Bool.true_and]
  by_cases heven : j / s % 2 = 0
  · rcases hplace heven with ⟨h1, h2, h3⟩ | ⟨h1, h2, h3, h4⟩
    · rw [h2]
      by_cases hle : s ≤ j
      · simp [heven, h1, h3 hle]
      · simp [heven, h1, show j < s by omega]
    · rw [h4]
      simp [heven, h2, h3, show ¬ j < s by omega]
  · simp [heven]

theorem isSpread_bitSpreadU32 (x : BitVec 32) : IsSpread 1 x (bitSpreadU32 x) := by
  have h16 := (isSpread_setWidth x).spreadBits (s := 16) (m := 0x0000ffff0000ffff) (by simp)
    (by decide +kernel)
  have h8 := h16.spreadBits (s := 8) (m := 0x00ff00ff00ff00ff) (by simp) (by decide +kernel)
  have h4 := h8.spreadBits (s := 4) (m := 0x0f0f0f0f0f0f0f0f) (by simp) (by decide +kernel)
  have h2 := h4.spreadBits (s := 2) (m := 0x3333333333333333) (by simp) (by decide +kernel)
  exact h2.spreadBits (s := 1) (m := 0x5555555555555555) (by simp) (by decide +kernel)

/-- **The word with its bits spread is the square.** -/
theorem toPoly_bitSpreadU32 (x : BitVec 32) : toPoly (bitSpreadU32 x) = toPoly x ^ 2 := by
  rw [← ZMod.expand_card]
  ext j
  rw [coeff_expand (by decide), coeff_toPoly, coeff_toPoly]
  by_cases hj : j < 64
  · rw [isSpread_bitSpreadU32 x j hj, Nat.div_one, Nat.one_mul, Nat.mod_one, Nat.add_zero,
      Nat.mul_one]
    by_cases hdvd : 2 ∣ j
    · simp [hdvd, Nat.mod_eq_zero_of_dvd hdvd]
    · simp [hdvd, show ¬ j % 2 = 0 by omega, ofBit]
  · rw [BitVec.getLsbD_of_ge _ j (by omega), BitVec.getLsbD_of_ge x (j / 2) (by omega)]
    simp [ofBit]

end Fields

end Mpz
