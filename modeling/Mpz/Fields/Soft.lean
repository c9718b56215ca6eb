import Mpz.Fields.Bmul

/-!
# The portable backends of the binary fields

The backends of GF(2⁶⁴) and of GF(2¹²⁸) differ in their words, in the product and the square of two
words before the reduction, and in the reduction. An element is a word, and its sum is xor. The
inverse is a power, and the inner products are reduced once at their end.

## Main definitions

* `Backend` — the product, the square and the reduction of a backend
* `Backend.mul`, `square`, `inverse`, `innerProduct`, `doubleInnerProduct`, `innerProductSubfield`
* `Backend.Lawful` — what the three have to do with a polynomial
* `gf2_64`, `gf2_128` — the two backends

## Main results

* `Backend.Lawful.toPoly_mul`, `square_eq`, `mul_inverse` — the arithmetic of a field
* `Backend.Lawful.innerProduct_eq`, `doubleInnerProduct_eq`, `innerProductSubfield_eq` — the inner
  products are folds of the products
* `lawful_gf2_64`, `lawful_gf2_128` — both backends are lawful, and their polynomials are
  irreducible
-/

open Polynomial

namespace Mpz

namespace Fields

variable {w : ℕ}

/-- What a portable backend computes on words. -/
structure Backend (w : ℕ) where
  /-- The product of two words, before the reduction. -/
  full : BitVec w → BitVec w → BitVec w × BitVec w
  /-- The square of a word, before the reduction. -/
  spread : BitVec w → BitVec w × BitVec w
  /-- The reduction of the low and the high half. -/
  reduce : BitVec w → BitVec w → BitVec w

namespace Backend

def mul (B : Backend w) (a b : BitVec w) : BitVec w :=
  let (lo, hi) := B.full a b
  B.reduce lo hi

/-- Squaring via bit-spread. -/
def square (B : Backend w) (a : BitVec w) : BitVec w :=
  let (lo, hi) := B.spread a
  B.reduce lo hi

/-- A round of the inversion. -/
def inverseRound (B : Backend w) (s : BitVec w × BitVec w) : BitVec w × BitVec w :=
  let y := B.square s.1
  (y, B.mul s.2 y)

/-- Multiplicative inverse via Fermat's little theorem. -/
def inverse (B : Backend w) (a : BitVec w) : BitVec w :=
  let y := B.square a
  ((List.range (w - 2)).foldl (fun s _ => B.inverseRound s) (y, y)).2

/-- A round of an inner product: the product is added to the accumulated halves. -/
def accumulate (B : Backend w) (acc : BitVec w × BitVec w) (x y : BitVec w) : BitVec w × BitVec w :=
  let (lo, hi) := B.full x y
  (acc.1 ^^^ lo, acc.2 ^^^ hi)

def innerProduct (B : Backend w) (a b : List (BitVec w)) : BitVec w :=
  let (accLo, accHi) := (a.zip b).foldl (fun acc t => B.accumulate acc t.1 t.2) (0, 0)
  B.reduce accLo accHi

/-- `Σ aᵢ · bᵢ · cᵢ` -/
def doubleInnerProduct (B : Backend w) (a b c : List (BitVec w)) : BitVec w :=
  let (accLo, accHi) := ((a.zip b).zip c).foldl
    (fun acc t =>
      let (xyLo, xyHi) := B.full t.1.1 t.1.2
      let xy := B.reduce xyLo xyHi
      B.accumulate acc xy t.2)
    (0, 0)
  B.reduce accLo accHi

end Backend

/-- `Gf2(false) -> 0`, `Gf2(true) -> 1`. -/
def embed (base : Bool) : BitVec w := BitVec.ofNat w base.toNat

/-- Masked XOR: the mask is the negation of the bit. -/
def innerProductSubfield (values : List Bool) (challenges : List (BitVec w)) : BitVec w :=
  (values.zip challenges).foldl (fun acc t => acc ^^^ (t.2 &&& -embed t.1)) 0

/-! ### The two backends -/

def reduce64 (lo hi : BitVec 64) : BitVec 64 :=
  let foldedLo := hi ^^^ hi <<< 1 ^^^ hi <<< 3 ^^^ hi <<< 4
  let overflow := hi >>> 63 ^^^ hi >>> 61 ^^^ hi >>> 60
  let overflowFolded := overflow ^^^ overflow <<< 1 ^^^ overflow <<< 3 ^^^ overflow <<< 4
  lo ^^^ foldedLo ^^^ overflowFolded

def reduce128 (lo hi : BitVec 128) : BitVec 128 :=
  let foldedLo := hi ^^^ hi <<< 1 ^^^ hi <<< 2 ^^^ hi <<< 7
  let overflow := hi >>> 127 ^^^ hi >>> 126 ^^^ hi >>> 121
  let overflowFolded := overflow ^^^ overflow <<< 1 ^^^ overflow <<< 2 ^^^ overflow <<< 7
  lo ^^^ foldedLo ^^^ overflowFolded

def spread64 (a : BitVec 64) : BitVec 64 × BitVec 64 :=
  (bitSpreadU32 (a.setWidth 32), bitSpreadU32 ((a >>> 32).setWidth 32))

def spread128 (a : BitVec 128) : BitVec 128 × BitVec 128 :=
  let aLl := bitSpreadU32 (a.setWidth 32)
  let aLh := bitSpreadU32 ((a >>> 32).setWidth 32)
  let aHl := bitSpreadU32 ((a >>> 64).setWidth 32)
  let aHh := bitSpreadU32 ((a >>> 96).setWidth 32)
  (joinHalves aLl aLh, joinHalves aHl aHh)

/-- The backend of GF(2⁶⁴). -/
def gf2_64 : Backend 64 := ⟨bmul64Full, spread64, reduce64⟩

/-- The backend of GF(2¹²⁸). -/
def gf2_128 : Backend 128 := ⟨bmul128Full, spread128, reduce128⟩

/-! ### Lawful backends -/

namespace Backend

/-- The backend computes modulo the polynomial. -/
structure Lawful (B : Backend w) (p : (ZMod 2)[X]) : Prop where
  two_le : 2 ≤ w
  monic : p.Monic
  degree : p.degree = (w : WithBot ℕ)
  full : ∀ a b, toPoly (B.full a b).1 + X ^ w * toPoly (B.full a b).2 = toPoly a * toPoly b
  spread : ∀ a, toPoly (B.spread a).1 + X ^ w * toPoly (B.spread a).2 = toPoly a ^ 2
  reduce : ∀ lo hi, toPoly (B.reduce lo hi) = (toPoly lo + X ^ w * toPoly hi) %ₘ p

namespace Lawful

variable {B : Backend w} {p : (ZMod 2)[X]} (h : B.Lawful p)

include h

/-- **The product is the one of the polynomials, reduced.** -/
theorem toPoly_mul (a b : BitVec w) : toPoly (B.mul a b) = (toPoly a * toPoly b) %ₘ p := by
  rw [mul, h.reduce, h.full]

/-- **Squares are products.** -/
theorem square_eq (a : BitVec w) : B.square a = B.mul a a := by
  refine toPoly_injective ?_
  rw [h.toPoly_mul, square, h.reduce, h.spread, sq]

theorem residue_reduce (lo hi : BitVec w) : residue p (B.reduce lo hi) =
    AdjoinRoot.mk p (toPoly lo + X ^ w * toPoly hi) := by
  rw [residue, h.reduce, AdjoinRoot.mk_eq_mk]
  exact dvd_modByMonic_sub _ _

theorem residue_mul (a b : BitVec w) : residue p (B.mul a b) = residue p a * residue p b := by
  rw [mul, h.residue_reduce, h.full, map_mul, residue, residue]

theorem residue_square (a : BitVec w) : residue p (B.square a) = residue p a ^ 2 := by
  rw [h.square_eq, h.residue_mul, sq]

theorem residue_iterate_square (n : ℕ) (a : BitVec w) :
    residue p (B.square^[n] a) = residue p a ^ 2 ^ n := by
  induction n with
  | zero => rw [Function.iterate_zero, id_eq, Nat.pow_zero, pow_one]
  | succ n ih => rw [Function.iterate_succ_apply', h.residue_square, ih, ← pow_mul, ← Nat.pow_succ]

theorem eq_of_residue_eq {a b : BitVec w} (heq : residue p a = residue p b) : a = b :=
  residue_injective h.degree heq

theorem residue_one : residue p 1#w = 1 := by
  have hone : toPoly (1#w) = 1 := by
    ext i
    have hpos : 0 < w := by
      have := h.two_le
      omega
    rw [coeff_toPoly, coeff_one, BitVec.getLsbD_one]
    by_cases hi : i = 0
    · simp [hi, hpos, ofBit]
    · simp [hi, ofBit]
  rw [residue, hone, map_one]

/-! ### The inverse -/

/-- The rounds of the inversion, as powers. -/
theorem residue_rounds (a : BitVec w) (n : ℕ) :
    residue p ((List.range n).foldl (fun s _ => B.inverseRound s) (B.square a, B.square a)).1 =
        residue p a ^ 2 ^ (n + 1) ∧
      residue p ((List.range n).foldl (fun s _ => B.inverseRound s) (B.square a, B.square a)).2 =
        residue p a ^ (2 ^ (n + 2) - 2) := by
  induction n with
  | zero =>
    rw [List.range_zero, List.foldl_nil]
    exact ⟨h.residue_square a, h.residue_square a⟩
  | succ n ih =>
    obtain ⟨ihy, ihout⟩ := ih
    have hexp : 2 ^ (n + 2) - 2 + 2 ^ (n + 2) = 2 ^ (n + 1 + 2) - 2 := by
      have hpow : 2 ^ (n + 1 + 2) = 2 ^ (n + 2) * 2 := Nat.pow_succ 2 (n + 2)
      have hle : 2 ≤ 2 ^ (n + 2) := Nat.le_self_pow (by omega) 2
      omega
    rw [List.range_succ, List.foldl_append, List.foldl_cons, List.foldl_nil, inverseRound]
    constructor
    · rw [h.residue_square, ihy, ← pow_mul, ← Nat.pow_succ]
    · rw [h.residue_mul, h.residue_square, ihy, ihout, ← pow_mul, ← Nat.pow_succ, ← pow_add, hexp]

/-- **The inverse**, where the polynomial is irreducible. -/
theorem mul_inverse (hp : Irreducible p) {a : BitVec w} (ha : a ≠ 0) :
    B.mul a (B.inverse a) = 1 := by
  have : Fact (Irreducible p) := ⟨hp⟩
  have hdeg : p.natDegree = w := natDegree_eq_of_degree_eq_some h.degree
  have hle := h.two_le
  have hne : residue p a ≠ 0 := fun hzero => ha (h.eq_of_residue_eq (hzero.trans residue_zero.symm))
  have hout := (h.residue_rounds a (w - 2)).2
  rw [Nat.sub_add_cancel hle] at hout
  have hone := mul_pow_eq_one hne (by omega)
  rw [hdeg] at hone
  refine h.eq_of_residue_eq ?_
  rw [h.residue_mul, inverse, hout, hone]
  exact h.residue_one.symm

/-- A certificate that the polynomial is irreducible: squares of the word of `X`, and the inverse of
one of them. -/
theorem irreducible {m : ℕ} {c : BitVec w} (hw : w = 2 ^ (m + 1))
    (hroot : B.square^[2 ^ (m + 1)] 2#w = 2#w)
    (hunit : B.mul (B.square^[2 ^ m] 2#w ^^^ 2#w) c = 1#w) : Irreducible p := by
  have htwo : residue p 2#w = AdjoinRoot.root p := by
    have hX : toPoly 2#w = X := by
      ext i
      have hle := h.two_le
      have hbit : Nat.testBit 2 i = decide (1 = i) := Nat.testBit_two_pow (n := 1)
      rw [coeff_toPoly, coeff_X, BitVec.getLsbD_ofNat, hbit]
      by_cases hi : 1 = i
      · simp [← hi, show 1 < w by omega, ofBit]
      · simp [hi, ofBit]
    rw [residue, hX, AdjoinRoot.mk_X]
  refine irreducible_of_squares (m := m) ?_ ?_ ?_
  · rw [natDegree_eq_of_degree_eq_some h.degree, hw]
  · rw [← htwo, ← h.residue_iterate_square, hroot]
  · have hsub : residue p (B.square^[2 ^ m] 2#w) - residue p 2#w =
        residue p (B.square^[2 ^ m] 2#w ^^^ 2#w) := by
      rw [residue_xor, sub_eq_add_neg, residue, residue, ← map_neg, ZModModule.neg_eq_self]
    refine IsUnit.of_mul_eq_one (residue p c) ?_
    rw [← htwo, ← h.residue_iterate_square, hsub, ← h.residue_mul, hunit, h.residue_one]

/-! ### Inner products -/

/-- The accumulated halves stand for the sum of the products. -/
theorem accumulate_mk (acc : BitVec w × BitVec w) (x y : BitVec w) :
    toPoly (B.accumulate acc x y).1 + X ^ w * toPoly (B.accumulate acc x y).2 =
      toPoly acc.1 + X ^ w * toPoly acc.2 + toPoly x * toPoly y := by
  rw [← h.full x y, accumulate, toPoly_xor, toPoly_xor]
  ring

/-- **Reducing once at the end** gives what reducing every product gives. -/
theorem reduce_foldl {α : Type} (f g : α → BitVec w) (l : List α) :
    B.reduce (l.foldl (fun acc t => B.accumulate acc (f t) (g t)) (0, 0)).1
        (l.foldl (fun acc t => B.accumulate acc (f t) (g t)) (0, 0)).2 =
      l.foldl (fun acc t => acc ^^^ B.mul (f t) (g t)) 0 := by
  refine h.eq_of_residue_eq ?_
  rw [h.residue_reduce]
  induction l using List.reverseRecOn with
  | nil =>
    have hzero : toPoly (0 : BitVec w) = 0 := toPoly_zero
    simp only [List.foldl_nil, hzero, mul_zero, add_zero, map_zero]
    exact residue_zero.symm
  | append_singleton l t ih =>
    rw [List.foldl_append, List.foldl_append, List.foldl_cons, List.foldl_cons, List.foldl_nil,
      List.foldl_nil, h.accumulate_mk, map_add, ih, map_mul, residue_xor, h.residue_mul]
    rfl

theorem innerProduct_eq (a b : List (BitVec w)) :
    B.innerProduct a b = (a.zip b).foldl (fun acc t => acc ^^^ B.mul t.1 t.2) 0 :=
  h.reduce_foldl Prod.fst Prod.snd (a.zip b)

theorem doubleInnerProduct_eq (a b c : List (BitVec w)) : B.doubleInnerProduct a b c =
    ((a.zip b).zip c).foldl (fun acc t => acc ^^^ B.mul (B.mul t.1.1 t.1.2) t.2) 0 :=
  h.reduce_foldl (fun t : (BitVec w × BitVec w) × BitVec w => B.mul t.1.1 t.1.2) Prod.snd
    ((a.zip b).zip c)

/-- A masked element is the product with the bit. -/
theorem and_neg_embed (v : Bool) (c : BitVec w) : c &&& -embed v = B.mul (embed v) c := by
  refine h.eq_of_residue_eq ?_
  rw [h.residue_mul]
  cases v with
  | false =>
    have hzero : (embed false : BitVec w) = 0#w := rfl
    rw [hzero, BitVec.neg_zero, BitVec.and_zero, residue_zero, zero_mul]
  | true =>
    have hone : (embed true : BitVec w) = 1#w := rfl
    rw [hone, BitVec.neg_one_eq_allOnes, BitVec.and_allOnes, h.residue_one, one_mul]

theorem innerProductSubfield_eq (values : List Bool) (challenges : List (BitVec w)) :
    innerProductSubfield values challenges =
      (values.zip challenges).foldl (fun acc t => acc ^^^ B.mul (embed t.1) t.2) 0 := by
  simp only [innerProductSubfield, h.and_neg_embed]

end Lawful

end Backend

/-! ### The two backends are lawful -/

theorem reduce64_eq (lo hi : BitVec 64) : reduce64 lo hi = foldReduce 1 3 4 lo hi := rfl

theorem reduce128_eq (lo hi : BitVec 128) : reduce128 lo hi = foldReduce 1 2 7 lo hi := rfl

theorem toPoly_spread64 (a : BitVec 64) :
    toPoly (spread64 a).1 + X ^ 64 * toPoly (spread64 a).2 = toPoly a ^ 2 := by
  have hsplit : a = (a >>> 32).setWidth 32 ++ a.setWidth 32 := by
    refine BitVec.eq_of_getLsbD_eq fun k hk => ?_
    simp only [BitVec.getLsbD_append, BitVec.getLsbD_setWidth, BitVec.getLsbD_ushiftRight]
    by_cases hlt : k < 32
    · simp [hlt]
    · simp [hlt, show k - 32 < 32 by omega, show 32 + (k - 32) = k by omega]
  have hpow : (X ^ 64 : (ZMod 2)[X]) = (X ^ 32) ^ 2 := by rw [← pow_mul]
  conv_rhs => rw [hsplit, toPoly_append, add_pow_char, mul_pow]
  rw [spread64, toPoly_bitSpreadU32, toPoly_bitSpreadU32, hpow]

theorem toPoly_spread128 (a : BitVec 128) :
    toPoly (spread128 a).1 + X ^ 128 * toPoly (spread128 a).2 = toPoly a ^ 2 := by
  have hpow : (X ^ 128 : (ZMod 2)[X]) = (X ^ 64) ^ 2 := by rw [← pow_mul]
  have hcast : ∀ n < 128, n + 32 ≤ 64 → ∀ x : BitVec 128,
      (x >>> n).setWidth 32 = ((x.setWidth 64) >>> n).setWidth 32 := by
    intro n _ hn x
    refine BitVec.eq_of_getLsbD_eq fun k hk => ?_
    simp [BitVec.getLsbD_setWidth, BitVec.getLsbD_ushiftRight, show n + k < 64 by omega]
  have hlo : (spread128 a).1 = joinHalves (spread64 (halves a).1).1 (spread64 (halves a).1).2 := by
    simp only [spread128, spread64, halves, ← hcast 32 (by decide) le_rfl]
    rw [BitVec.setWidth_setWidth_of_le _ (by decide)]
  have hhi : (spread128 a).2 = joinHalves (spread64 (halves a).2).1 (spread64 (halves a).2).2 := by
    simp only [spread128, spread64, halves, ← hcast 32 (by decide) le_rfl]
    rw [BitVec.setWidth_setWidth_of_le _ (by decide), ← BitVec.shiftRight_add]
  rw [hlo, hhi, toPoly_joinHalves, toPoly_joinHalves, toPoly_spread64, toPoly_spread64, hpow,
    toPoly_halves a, add_pow_char, mul_pow]

theorem lawful_gf2_64 : gf2_64.Lawful (foldPoly 64 1 3 4) where
  two_le := by decide
  monic := monic_foldPoly (by decide) (by decide) (by decide)
  degree := degree_foldPoly (by decide) (by decide) (by decide)
  full a b := by
    dsimp only [gf2_64]
    exact toPoly_bmul64Full a b
  spread a := by
    dsimp only [gf2_64]
    exact toPoly_spread64 a
  reduce lo hi := by
    dsimp only [gf2_64]
    rw [reduce64_eq]
    exact toPoly_foldReduce (by decide) (by decide) (by decide) lo hi

theorem lawful_gf2_128 : gf2_128.Lawful (foldPoly 128 1 2 7) where
  two_le := by decide
  monic := monic_foldPoly (by decide) (by decide) (by decide)
  degree := degree_foldPoly (by decide) (by decide) (by decide)
  full a b := by
    dsimp only [gf2_128]
    exact toPoly_bmul128Full a b
  spread a := by
    dsimp only [gf2_128]
    exact toPoly_spread128 a
  reduce lo hi := by
    dsimp only [gf2_128]
    rw [reduce128_eq]
    exact toPoly_foldReduce (by decide) (by decide) (by decide) lo hi

theorem irreducible_gf2_64 : Irreducible (foldPoly 64 1 3 4) :=
  lawful_gf2_64.irreducible (m := 5) (c := gf2_64.inverse (gf2_64.square^[2 ^ 5] 2#64 ^^^ 2#64)) rfl
    (by decide +kernel) (by decide +kernel)

theorem irreducible_gf2_128 : Irreducible (foldPoly 128 1 2 7) :=
  lawful_gf2_128.irreducible (m := 6)
    (c := gf2_128.inverse (gf2_128.square^[2 ^ 6] 2#128 ^^^ 2#128))
    rfl (by decide +kernel) (by decide +kernel)

end Fields

end Mpz
