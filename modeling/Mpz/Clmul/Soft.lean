import Mpz.Core.Gf128
import Mpz.Fields.Field

/-!
# The software carry-less multipliers

Both take the product of 128-bit operands apart by Karatsuba's method, one of them into words of 64
bits, and the other one twice, into words of 32 bits. The low half of a product of words is a
product with holes, and the high half that of the reversed words, reversed.

## Main definitions

* `Soft64.U64x2`, `Soft64.clmul` — the backend for 64-bit architectures
* `Soft32.U32x4`, `Soft32.clmul` — the backend for 32-bit architectures

## Main results

* `Soft64.toPoly_clmul`, `Soft32.toPoly_clmul` — both compute the product of the polynomials
* `soft_clmul_agree` — they agree, and their product, reduced, is the one of the field
-/

open Polynomial

namespace Mpz

namespace Clmul

/-! ### Karatsuba's method -/

section Karatsuba

variable {R : Type} [CommRing R]

/-- Two words. -/
theorem karatsuba_two (two : (2 : R) = 0) {p x0 x1 y0 y1 l0 l1 l2 h0 h1 h2 : R}
    (e0 : l0 + p * h0 = x0 * y0) (e1 : l1 + p * h1 = x1 * y1)
    (e2 : l2 + p * h2 = (x0 + x1) * (y0 + y1)) :
    l0 + p * (h0 + (l2 + (l0 + l1))) + p ^ 2 * (l1 + (h2 + (h0 + h1)) + p * h1) =
      (x0 + p * x1) * (y0 + p * y1) := by
  linear_combination (1 + p) * e0 + (p + p ^ 2) * e1 + p * e2 + p * (x0 * y0 + x1 * y1) * two

/-- Four words, by the method for the halves and once more for the words of a half. -/
theorem karatsuba_four (two : (2 : R) = 0) {p x0 x1 x2 x3 y0 y1 y2 y3 : R} {l h : ℕ → R}
    (e0 : l 0 + p * h 0 = x0 * y0) (e1 : l 1 + p * h 1 = x1 * y1) (e2 : l 2 + p * h 2 = x2 * y2)
    (e3 : l 3 + p * h 3 = x3 * y3) (e4 : l 4 + p * h 4 = (x0 + x1) * (y0 + y1))
    (e5 : l 5 + p * h 5 = (x2 + x3) * (y2 + y3)) (e6 : l 6 + p * h 6 = (x0 + x2) * (y0 + y2))
    (e7 : l 7 + p * h 7 = (x1 + x3) * (y1 + y3))
    (e8 : l 8 + p * h 8 = (x0 + x2 + (x1 + x3)) * (y0 + y2 + (y1 + y3))) :
    l 0 + p * (l 4 + (l 0 + l 1) + h 0) +
        p ^ 2 * (l 1 + l 0 + l 2 + l 6 + (h 4 + (h 0 + h 1))) +
        p ^ 3 * (l 4 + (l 0 + l 1) + (l 5 + (l 2 + l 3)) + (l 8 + (l 6 + l 7)) +
          (h 1 + h 0 + h 2 + h 6)) +
        p ^ 4 * (l 2 + l 1 + l 3 + l 7 +
          (h 4 + (h 0 + h 1) + (h 5 + (h 2 + h 3)) + (h 8 + (h 6 + h 7))) +
          p * (l 5 + (l 2 + l 3) + (h 2 + h 1 + h 3 + h 7)) +
          p ^ 2 * (l 3 + (h 5 + (h 2 + h 3))) + p ^ 3 * h 3) =
      (x0 + p * x1 + p ^ 2 * x2 + p ^ 3 * x3) * (y0 + p * y1 + p ^ 2 * y2 + p ^ 3 * y3) := by
  linear_combination (1 + p + p ^ 2 + p ^ 3) * e0 + (p + p ^ 2 + p ^ 3 + p ^ 4) * e1 +
    (p ^ 2 + p ^ 3 + p ^ 4 + p ^ 5) * e2 + (p ^ 3 + p ^ 4 + p ^ 5 + p ^ 6) * e3 + (p + p ^ 3) * e4 +
    (p ^ 3 + p ^ 5) * e5 + (p ^ 2 + p ^ 3) * e6 + (p ^ 3 + p ^ 4) * e7 + p ^ 3 * e8 +
    (p * (x0 * y0 + x1 * y1) + p ^ 2 * (x0 * y0 + x2 * y2) +
      p ^ 3 * (2 * (x0 * y0 + x1 * y1 + x2 * y2 + x3 * y3) + x0 * y1 + x1 * y0 + x2 * y3 + x3 * y2 +
        x0 * y2 + x2 * y0 + x1 * y3 + x3 * y1) +
      p ^ 4 * (x1 * y1 + x3 * y3) + p ^ 5 * (x2 * y2 + x3 * y3)) * two

end Karatsuba

/-- A rotation by half of the word. -/
theorem getLsbD_rotateRight_half {w : ℕ} (x : BitVec w) (n : ℕ) {k : ℕ} (hk : k < w)
    (hw : w = 2 * n := by decide) : (x.rotateRight n).getLsbD k = x.getLsbD ((k + n) % w) := by
  have hn : n % w = n := Nat.mod_eq_of_lt (by omega)
  rw [BitVec.getLsbD_rotateRight, hn, decide_eq_true hk, Bool.true_and]
  by_cases hlt : k < w - n
  · rw [decide_eq_true hlt, cond_true, Nat.mod_eq_of_lt (by omega), Nat.add_comm]
  · rw [decide_eq_false hlt, cond_false, show (k + n) % w = k - (w - n) by
      rw [Nat.mod_eq_sub_mod (by omega), Nat.mod_eq_of_lt (by omega)]
      omega]

/-! ### 64-bit architectures -/

namespace Soft64

/-- 2 x `u64` values -/
structure U64x2 where
  w0 : BitVec 64
  w1 : BitVec 64
deriving DecidableEq

/-- `U64x2::new`: the words of sixteen bytes, little-endian. -/
def U64x2.new (bytes : Block) : U64x2 := ⟨bytes.extractLsb' 0 64, bytes.extractLsb' 64 64⟩

/-- `From<U64x2> for [u8; 16]`, which is also the layout in memory. -/
def U64x2.toBytes (m : U64x2) : Block := m.w1 ++ m.w0

/-- Multiplication in GF(2)[X], truncated to the low 64-bits, with “holes”. -/
def bmul64 (x y : BitVec 64) : BitVec 64 :=
  holeMul 0x1111111111111111 0x2222222222222222 0x4444444444444444 0x8888888888888888 x y

/-- Bit-reverse a `u64` in constant time. -/
def rev64 (x : BitVec 64) : BitVec 64 :=
  let x := swapBits 0x5555555555555555 1 x
  let x := swapBits 0x3333333333333333 2 x
  let x := swapBits 0x0f0f0f0f0f0f0f0f 4 x
  let x := swapBits 0x00ff00ff00ff00ff 8 x
  let x := swapBits 0xffff0000ffff 16 x
  x.rotateRight 32

def clmul (a rhs : U64x2) : U64x2 × U64x2 :=
  let h0 := a.w0
  let h1 := a.w1
  let h0r := rev64 h0
  let h1r := rev64 h1
  let h2 := h0 ^^^ h1
  let h2r := h0r ^^^ h1r
  let y0 := rhs.w0
  let y1 := rhs.w1
  let y0r := rev64 y0
  let y1r := rev64 y1
  let y2 := y0 ^^^ y1
  let y2r := y0r ^^^ y1r
  let z0 := bmul64 y0 h0
  let z1 := bmul64 y1 h1
  let z2 := bmul64 y2 h2
  let z0h := bmul64 y0r h0r
  let z1h := bmul64 y1r h1r
  let z2h := bmul64 y2r h2r
  let z2 := z2 ^^^ (z0 ^^^ z1)
  let z2h := z2h ^^^ (z0h ^^^ z1h)
  let z0h := rev64 z0h >>> 1
  let z1h := rev64 z1h >>> 1
  let z2h := rev64 z2h >>> 1
  (⟨z0, z0h ^^^ z2⟩, ⟨z1 ^^^ z2h, z1h⟩)

/-- Where a bit of the reversed word comes from. -/
theorem rev64_index : ∀ k < 64, (k + 32) % 64 < 64 ∧ swapIndex 16 ((k + 32) % 64) < 64 ∧
    swapIndex 8 (swapIndex 16 ((k + 32) % 64)) < 64 ∧
    swapIndex 4 (swapIndex 8 (swapIndex 16 ((k + 32) % 64))) < 64 ∧
    swapIndex 2 (swapIndex 4 (swapIndex 8 (swapIndex 16 ((k + 32) % 64)))) < 64 ∧
    swapIndex 1 (swapIndex 2 (swapIndex 4 (swapIndex 8 (swapIndex 16 ((k + 32) % 64))))) =
      64 - 1 - k := by
  decide +kernel

theorem isReverse_rev64 (x : BitVec 64) : IsReverse x (rev64 x) := by
  intro k hk
  obtain ⟨h0, h16, h8, h4, h2, h1⟩ := rev64_index k hk
  rw [rev64, getLsbD_rotateRight_half _ 32 hk,
    getLsbD_swapBits (by decide) (by decide +kernel) _ h0, getLsbD_swapBits (by decide)
    (by decide +kernel) _ h16,
    getLsbD_swapBits (by decide) (by decide +kernel) _ h8,
    getLsbD_swapBits (by decide) (by decide +kernel) _ h4,
    getLsbD_swapBits (by decide) (by decide +kernel) _ h2, h1]

/-- The high half of a product of words, from the product of the reversed words. -/
theorem toPoly_bmul64 {x y x' y' : BitVec 64} (hx : IsReverse x x') (hy : IsReverse y y') :
    toPoly (bmul64 x y) + X ^ 64 * toPoly (rev64 (bmul64 x' y') >>> 1) = toPoly x * toPoly y := by
  rw [bmul64, bmul64]
  exact toPoly_holeMul_add le_rfl (by decide) Fields.isMask_one Fields.isMask_two Fields.isMask_four
    Fields.isMask_eight hx hy (isReverse_rev64 _)

theorem toPoly_rev64_xor (x y : BitVec 64) :
    toPoly (rev64 (x ^^^ y) >>> 1) = toPoly (rev64 x >>> 1) + toPoly (rev64 y >>> 1) := by
  rw [(isReverse_rev64 (x ^^^ y)).unique ((isReverse_rev64 x).xor (isReverse_rev64 y)),
    BitVec.ushiftRight_xor_distrib, toPoly_xor]

theorem toPoly_toBytes (m : U64x2) : toPoly m.toBytes = toPoly m.w0 + X ^ 64 * toPoly m.w1 := by
  rw [U64x2.toBytes, toPoly_append]

/-- **The product of the polynomials.** -/
theorem toPoly_clmul (a rhs : U64x2) :
    toPoly (clmul a rhs).1.toBytes + X ^ 128 * toPoly (clmul a rhs).2.toBytes =
      toPoly a.toBytes * toPoly rhs.toBytes := by
  have e0 := toPoly_bmul64 (isReverse_rev64 rhs.w0) (isReverse_rev64 a.w0)
  have e1 := toPoly_bmul64 (isReverse_rev64 rhs.w1) (isReverse_rev64 a.w1)
  have e2 := toPoly_bmul64 ((isReverse_rev64 rhs.w0).xor (isReverse_rev64 rhs.w1))
    ((isReverse_rev64 a.w0).xor (isReverse_rev64 a.w1))
  have hpow : (X ^ 128 : (ZMod 2)[X]) = (X ^ 64) ^ 2 := by rw [← pow_mul]
  rw [toPoly_xor, toPoly_xor] at e2
  have hkaratsuba := karatsuba_two CharTwo.two_eq_zero e0 e1 e2
  simp only [toPoly_toBytes, clmul, toPoly_xor, toPoly_rev64_xor, hpow]
  rw [mul_comm (_ + _) (toPoly rhs.w0 + _), ← hkaratsuba]

end Soft64

/-! ### 32-bit architectures -/

namespace Soft32

/-- 4 x `u32` values -/
structure U32x4 where
  w0 : BitVec 32
  w1 : BitVec 32
  w2 : BitVec 32
  w3 : BitVec 32
deriving DecidableEq

/-- `U32x4::new`: the words of sixteen bytes, little-endian. -/
def U32x4.new (bytes : Block) : U32x4 :=
  ⟨bytes.extractLsb' 0 32, bytes.extractLsb' 32 32, bytes.extractLsb' 64 32,
    bytes.extractLsb' 96 32⟩

/-- `From<U32x4> for [u8; 16]`, which is also the layout in memory. -/
def U32x4.toBytes (m : U32x4) : Block := m.w3 ++ (m.w2 ++ (m.w1 ++ m.w0))

/-- Multiplication in GF(2)[X], truncated to the low 32-bits, with “holes”. -/
def bmul32 (x y : BitVec 32) : BitVec 32 := holeMul 0x11111111 0x22222222 0x44444444 0x88888888 x y

/-- Bit-reverse a 32-bit word in constant time. -/
def rev32 (x : BitVec 32) : BitVec 32 :=
  let x := swapBits 0x55555555 1 x
  let x := swapBits 0x33333333 2 x
  let x := swapBits 0x0f0f0f0f 4 x
  let x := swapBits 0x00ff00ff 8 x
  x.rotateRight 16

/-- The factors of the nine products of words: the words of an operand, and their sums. -/
def factors (w0 w1 w2 w3 : BitVec 32) : List (BitVec 32) :=
  [w0, w1, w2, w3, w0 ^^^ w1, w2 ^^^ w3, w0 ^^^ w2, w1 ^^^ w3, (w0 ^^^ w2) ^^^ (w1 ^^^ w3)]

/-- The 18 factors of an operand: `a[0]` to `a[8]`, and the same of the reversed words. -/
def allFactors (m : U32x4) : List (BitVec 32) :=
  factors m.w0 m.w1 m.w2 m.w3 ++ factors (rev32 m.w0) (rev32 m.w1) (rev32 m.w2) (rev32 m.w3)

/-- The products of the factors. -/
def products (h rhs : U32x4) (i : ℕ) : BitVec 32 :=
  bmul32 ((allFactors rhs).getD i 0) ((allFactors h).getD i 0)

def clmul (h rhs : U32x4) : U32x4 × U32x4 :=
  let c := products h rhs
  let c4 := c 4 ^^^ (c 0 ^^^ c 1)
  let c5 := c 5 ^^^ (c 2 ^^^ c 3)
  let c8 := c 8 ^^^ (c 6 ^^^ c 7)
  let c13 := c 13 ^^^ (c 9 ^^^ c 10)
  let c14 := c 14 ^^^ (c 11 ^^^ c 12)
  let c17 := c 17 ^^^ (c 15 ^^^ c 16)
  let zw0 := c 0
  let zw1 := c4 ^^^ rev32 (c 9) >>> 1
  let zw2 := c 1 ^^^ c 0 ^^^ c 2 ^^^ c 6 ^^^ rev32 c13 >>> 1
  let zw3 := c4 ^^^ c5 ^^^ c8 ^^^ rev32 (c 10 ^^^ c 9 ^^^ c 11 ^^^ c 15) >>> 1
  let zw4 := c 2 ^^^ c 1 ^^^ c 3 ^^^ c 7 ^^^ rev32 (c13 ^^^ c14 ^^^ c17) >>> 1
  let zw5 := c5 ^^^ rev32 (c 11 ^^^ c 10 ^^^ c 12 ^^^ c 16) >>> 1
  let zw6 := c 3 ^^^ rev32 c14 >>> 1
  let zw7 := rev32 (c 12) >>> 1
  (⟨zw0, zw1, zw2, zw3⟩, ⟨zw4, zw5, zw6, zw7⟩)

/-- Where a bit of the reversed word comes from. -/
theorem rev32_index : ∀ k < 32, (k + 16) % 32 < 32 ∧ swapIndex 8 ((k + 16) % 32) < 32 ∧
    swapIndex 4 (swapIndex 8 ((k + 16) % 32)) < 32 ∧
    swapIndex 2 (swapIndex 4 (swapIndex 8 ((k + 16) % 32))) < 32 ∧
    swapIndex 1 (swapIndex 2 (swapIndex 4 (swapIndex 8 ((k + 16) % 32)))) = 32 - 1 - k := by
  decide +kernel

theorem isReverse_rev32 (x : BitVec 32) : IsReverse x (rev32 x) := by
  intro k hk
  obtain ⟨h0, h8, h4, h2, h1⟩ := rev32_index k hk
  rw [rev32, getLsbD_rotateRight_half _ 16 hk,
    getLsbD_swapBits (by decide) (by decide +kernel) _ h0, getLsbD_swapBits (by decide)
    (by decide +kernel) _ h8,
    getLsbD_swapBits (by decide) (by decide +kernel) _ h4,
    getLsbD_swapBits (by decide) (by decide +kernel) _ h2, h1]

/-- The high half of a product of words, from the product of the reversed words. -/
theorem toPoly_bmul32 {x y x' y' : BitVec 32} (hx : IsReverse x x') (hy : IsReverse y y') :
    toPoly (bmul32 x y) + X ^ 32 * toPoly (rev32 (bmul32 x' y') >>> 1) = toPoly x * toPoly y := by
  rw [bmul32, bmul32]
  exact toPoly_holeMul_add (by decide) (by decide) (by decide +kernel) (by decide +kernel)
    (by decide +kernel) (by decide +kernel) hx hy (isReverse_rev32 _)

theorem toPoly_rev32_xor (x y : BitVec 32) :
    toPoly (rev32 (x ^^^ y) >>> 1) = toPoly (rev32 x >>> 1) + toPoly (rev32 y >>> 1) := by
  rw [(isReverse_rev32 (x ^^^ y)).unique ((isReverse_rev32 x).xor (isReverse_rev32 y)),
    BitVec.ushiftRight_xor_distrib, toPoly_xor]

theorem toPoly_toBytes (m : U32x4) : toPoly m.toBytes = toPoly m.w0 + X ^ 32 * toPoly m.w1 +
    (X ^ 32) ^ 2 * toPoly m.w2 + (X ^ 32) ^ 3 * toPoly m.w3 := by
  rw [U32x4.toBytes, toPoly_append, toPoly_append, toPoly_append]
  ring

/-- **The product of the polynomials.** -/
theorem toPoly_clmul (h rhs : U32x4) :
    toPoly (clmul h rhs).1.toBytes + X ^ 128 * toPoly (clmul h rhs).2.toBytes =
      toPoly h.toBytes * toPoly rhs.toBytes := by
  have a0 := isReverse_rev32 rhs.w0
  have a1 := isReverse_rev32 rhs.w1
  have a2 := isReverse_rev32 rhs.w2
  have a3 := isReverse_rev32 rhs.w3
  have b0 := isReverse_rev32 h.w0
  have b1 := isReverse_rev32 h.w1
  have b2 := isReverse_rev32 h.w2
  have b3 := isReverse_rev32 h.w3
  have hpow : (X ^ 128 : (ZMod 2)[X]) = (X ^ 32) ^ 4 := by rw [← pow_mul]
  have e0 := toPoly_bmul32 a0 b0
  have e1 := toPoly_bmul32 a1 b1
  have e2 := toPoly_bmul32 a2 b2
  have e3 := toPoly_bmul32 a3 b3
  have e4 := toPoly_bmul32 (a0.xor a1) (b0.xor b1)
  have e5 := toPoly_bmul32 (a2.xor a3) (b2.xor b3)
  have e6 := toPoly_bmul32 (a0.xor a2) (b0.xor b2)
  have e7 := toPoly_bmul32 (a1.xor a3) (b1.xor b3)
  have e8 := toPoly_bmul32 ((a0.xor a2).xor (a1.xor a3)) ((b0.xor b2).xor (b1.xor b3))
  simp only [toPoly_xor _ (_ ^^^ _), toPoly_xor rhs.w0, toPoly_xor rhs.w1, toPoly_xor rhs.w2,
    toPoly_xor h.w0, toPoly_xor h.w1, toPoly_xor h.w2] at e4 e5 e6 e7 e8
  have hkaratsuba := karatsuba_four (l := fun i => toPoly (products h rhs i))
    (h := fun i => toPoly (rev32 (products h rhs (i + 9)) >>> 1)) CharTwo.two_eq_zero e0 e1 e2
    e3 e4 e5
    e6 e7 e8
  simp only [toPoly_toBytes, clmul, toPoly_xor, toPoly_rev32_xor, hpow]
  rw [mul_comm (_ + _) (toPoly rhs.w0 + _ + _ + _), ← hkaratsuba]

end Soft32

/-! ### The backends agree -/

theorem Soft64.toBytes_new (x : Block) : (Soft64.U64x2.new x).toBytes = x := by
  refine BitVec.eq_of_getLsbD_eq fun k hk => ?_
  simp only [Soft64.U64x2.new, Soft64.U64x2.toBytes, BitVec.getLsbD_append,
    BitVec.getLsbD_extractLsb']
  by_cases h : k < 64
  · simp [h]
  · simp [h, show k - 64 < 64 by omega, show 64 + (k - 64) = k by omega]

theorem Soft32.toBytes_new (x : Block) : (Soft32.U32x4.new x).toBytes = x := by
  refine BitVec.eq_of_getLsbD_eq fun k hk => ?_
  simp only [Soft32.U32x4.new, Soft32.U32x4.toBytes, BitVec.getLsbD_append,
    BitVec.getLsbD_extractLsb']
  by_cases h1 : k < 32
  · simp [h1, show k < 64 by omega, show k < 96 by omega]
  · by_cases h2 : k < 64
    · simp [h1, h2, show k < 96 by omega, show k - 32 < 32 by omega, show 32 + (k - 32) =
        k by omega]
    · by_cases h3 : k < 96
      · simp [h2, h3, show k - 64 < 32 by omega, show 64 + (k - 64) = k by omega]
      · simp [h3, show k - 96 < 32 by omega, show 96 + (k - 96) = k by omega]

/-- `Clmul::reduce_gcm` of the 64-bit backend, whose halves are read from memory. -/
def Soft64.reduceGcm (x y : Soft64.U64x2) :
    Soft64.U64x2 := .new (Block.reduceGcm x.toBytes y.toBytes)

/-- `Clmul::reduce_gcm` of the 32-bit backend, whose halves are read from memory. -/
def Soft32.reduceGcm (x y : Soft32.U32x4) :
    Soft32.U32x4 := .new (Block.reduceGcm x.toBytes y.toBytes)

/-- The halves are those of the polynomial. -/
theorem halves_unique {lo hi lo' hi' : Block}
    (h : toPoly lo + X ^ 128 * toPoly hi = toPoly lo' + X ^ 128 * toPoly hi') : lo = lo' ∧ hi =
      hi' := by
  rw [← toPoly_append, ← toPoly_append] at h
  have heq := toPoly_injective h
  constructor
  · refine BitVec.eq_of_getLsbD_eq fun k hk => ?_
    have hbit := congrArg (BitVec.getLsbD · k) heq
    simp only [BitVec.getLsbD_append, hk, if_true] at hbit
    exact hbit
  · refine BitVec.eq_of_getLsbD_eq fun k hk => ?_
    have hbit := congrArg (BitVec.getLsbD · (128 + k)) heq
    have hge : ¬ 128 + k < 128 := by omega
    simp only [BitVec.getLsbD_append, hge, if_false, Nat.add_sub_cancel_left] at hbit
    exact hbit

/-- **The reduction is the remainder.** -/
theorem toPoly_reduceGcm_eq (x y : Block) : toPoly (Block.reduceGcm x y) =
    (toPoly x + X ^ 128 * toPoly y) %ₘ (X ^ 128 + X ^ 7 + X ^ 2 + X + 1) := by
  have hpoly : (X ^ 128 + X ^ 7 + X ^ 2 + X + 1 : (ZMod 2)[X]) = ghashPoly := by
    unfold ghashPoly ghashTail
    simp only [add_assoc]
  have hmonic : ghashPoly.Monic := by
    unfold ghashPoly
    refine monic_X_pow_add ?_
    rw [degree_ghashTail]
    exact Nat.cast_lt.mpr (by decide)
  have hdeg : (toPoly (Block.reduceGcm x y)).degree < ghashPoly.degree := by
    rw [degree_ghashPoly]
    exact degree_toPoly_lt _
  rw [hpoly]
  exact (div_modByMonic_unique _ _ hmonic ⟨(Block.toPoly_reduceGcm x y).symm, hdeg⟩).2.symm

theorem reduceGcm_eq_mul {a b lo hi : Block}
    (h : toPoly lo + X ^ 128 * toPoly hi = toPoly a * toPoly b) :
    Block.reduceGcm lo hi = Fields.gf2_128.mul a b :=
  toPoly_injective (by rw [toPoly_reduceGcm_eq, h, Fields.toPoly_gf2_128_mul])

theorem Soft64.toPoly_clmul_new (a b : Block) :
    toPoly (Soft64.clmul (.new a) (.new b)).1.toBytes +
        X ^ 128 * toPoly (Soft64.clmul (.new a) (.new b)).2.toBytes = toPoly a * toPoly b := by
  rw [Soft64.toPoly_clmul, Soft64.toBytes_new, Soft64.toBytes_new]

theorem Soft32.toPoly_clmul_new (a b : Block) :
    toPoly (Soft32.clmul (.new a) (.new b)).1.toBytes +
        X ^ 128 * toPoly (Soft32.clmul (.new a) (.new b)).2.toBytes = toPoly a * toPoly b := by
  rw [Soft32.toPoly_clmul, Soft32.toBytes_new, Soft32.toBytes_new]

/-- What the software backends return for two operands: they agree with each other and with the
product of the polynomials, and the product, reduced, is the one of the field. -/
structure Agree (a b : Block) (p64 : Soft64.U64x2 × Soft64.U64x2)
    (p32 : Soft32.U32x4 × Soft32.U32x4) :
    Prop where
  low : p32.1.toBytes = p64.1.toBytes
  high : p32.2.toBytes = p64.2.toBytes
  product : toPoly p64.1.toBytes + X ^ 128 * toPoly p64.2.toBytes = toPoly a * toPoly b
  field64 : (Soft64.reduceGcm p64.1 p64.2).toBytes = Fields.gf2_128.mul a b
  field32 : (Soft32.reduceGcm p32.1 p32.2).toBytes = Fields.gf2_128.mul a b

theorem agree_of_product {a b : Block} {p64 : Soft64.U64x2 × Soft64.U64x2}
    {p32 : Soft32.U32x4 × Soft32.U32x4}
    (h64 : toPoly p64.1.toBytes + X ^ 128 * toPoly p64.2.toBytes = toPoly a * toPoly b)
    (h32 : toPoly p32.1.toBytes + X ^ 128 * toPoly p32.2.toBytes = toPoly a * toPoly b) :
    Agree a b p64 p32 where
  low := (halves_unique (h32.trans h64.symm)).1
  high := (halves_unique (h32.trans h64.symm)).2
  product := h64
  field64 := by rw [Soft64.reduceGcm, Soft64.toBytes_new, reduceGcm_eq_mul h64]
  field32 := by rw [Soft32.reduceGcm, Soft32.toBytes_new, reduceGcm_eq_mul h32]

/-- **The software backends agree**, and their reductions give the remainder for every pair of
halves. -/
theorem soft_clmul_agree :
    (∀ a b : Block, Agree a b (Soft64.clmul (.new a) (.new b)) (Soft32.clmul (.new a) (.new b))) ∧
      (∀ x y : Soft64.U64x2, toPoly (Soft64.reduceGcm x y).toBytes =
        (toPoly x.toBytes + X ^ 128 * toPoly y.toBytes) %ₘ (X ^ 128 + X ^ 7 + X ^ 2 + X + 1)) ∧
      ∀ x y : Soft32.U32x4, toPoly (Soft32.reduceGcm x y).toBytes =
        (toPoly x.toBytes + X ^ 128 * toPoly y.toBytes) %ₘ (X ^ 128 + X ^ 7 + X ^ 2 + X + 1) := by
  refine ⟨fun a b => agree_of_product (Soft64.toPoly_clmul_new a b) (Soft32.toPoly_clmul_new a b),
    fun x y => ?_, fun x y => ?_⟩
  · rw [Soft64.reduceGcm, Soft64.toBytes_new, toPoly_reduceGcm_eq]
  · rw [Soft32.reduceGcm, Soft32.toBytes_new, toPoly_reduceGcm_eq]

end Clmul

end Mpz
