import Mathlib.Algebra.Polynomial.Degree.Lemmas
import Mathlib.Algebra.CharP.Algebra
import Mathlib.Algebra.CharP.Two
import Mathlib.Algebra.Field.ZMod
import Mathlib.RingTheory.AdjoinRoot

/-!
# Bit vectors as polynomials over the two-element field

Bit `i` of a bit vector is the coefficient of `X ^ i`. Under this reading xor is addition, a shift
that loses no bit is multiplication by a power of `X`, and the carry-less product is the product.

## Main definitions

* `toPoly` — the polynomial of a bit vector
* `carrylessMul` — the product of two bit vectors without carries

## Main results

* `toPoly_injective`, `toPoly_xor`, `toPoly_append` — the reading is faithful, additive, and
  splits along concatenation
* `toPoly_carrylessMul` — the carry-less product is the polynomial product
-/

open Polynomial

namespace Mpz

/-- The coefficient a bit stands for. -/
def ofBit (b : Bool) : ZMod 2 := if b then 1 else 0

theorem ofBit_injective : Function.Injective ofBit := by decide

theorem ofBit_xor (a b : Bool) : ofBit (a ^^ b) = ofBit a + ofBit b := by
  revert a b; decide

/-- The polynomial whose coefficients are the bits of `x`. -/
noncomputable def toPoly {w : ℕ} (x : BitVec w) : (ZMod 2)[X] :=
  ∑ i ∈ Finset.range w, monomial i (ofBit (x.getLsbD i))

variable {v w : ℕ}

@[simp] theorem coeff_toPoly (x : BitVec w) (i : ℕ) :
    (toPoly x).coeff i = ofBit (x.getLsbD i) := by
  simp only [toPoly, finsetSum_coeff, coeff_monomial, Finset.sum_ite_eq', Finset.mem_range]
  split
  · rfl
  · rw [BitVec.getLsbD_of_ge x i (by omega)]; rfl

theorem toPoly_injective : Function.Injective (toPoly : BitVec w → (ZMod 2)[X]) := by
  intro x y h
  refine BitVec.eq_of_getLsbD_eq fun i _ => ofBit_injective ?_
  rw [← coeff_toPoly, ← coeff_toPoly, h]

theorem degree_toPoly_lt (x : BitVec w) : (toPoly x).degree < w := by
  rw [degree_lt_iff_coeff_zero]
  intro i hi
  rw [coeff_toPoly, BitVec.getLsbD_of_ge x i hi]
  rfl

theorem degree_X_pow_add {n : ℕ} {p : (ZMod 2)[X]} (h : p.degree < n) :
    (X ^ n + p).degree = (n : WithBot ℕ) := by
  rw [degree_add_eq_left_of_degree_lt] <;> rw [degree_X_pow]
  exact h

/-- Bit vectors are the residues of a modulus whose degree is their width. -/
theorem toPoly_eq_of_dvd_sub {x y : BitVec w} {p : (ZMod 2)[X]} (hp : p.degree = (w : WithBot ℕ))
    (h : p ∣ toPoly x - toPoly y) : x = y := by
  have hdeg : (toPoly x - toPoly y).degree < p.degree := by
    rw [hp]
    exact (degree_sub_le _ _).trans_lt (max_lt (degree_toPoly_lt x) (degree_toPoly_lt y))
  exact toPoly_injective (sub_eq_zero.mp (eq_zero_of_dvd_of_degree_lt h hdeg))

@[simp] theorem toPoly_zero : toPoly 0#w = 0 := by
  ext i; simp [ofBit]

@[simp] theorem toPoly_xor (x y : BitVec w) : toPoly (x ^^^ y) = toPoly x + toPoly y := by
  ext i; simp [ofBit_xor]

theorem toPoly_setWidth (x : BitVec v) (h : v ≤ w) : toPoly (x.setWidth w) = toPoly x := by
  ext i
  rw [coeff_toPoly, coeff_toPoly, BitVec.getLsbD_setWidth]
  by_cases hi : i < w
  · simp [hi]
  · simp [hi, BitVec.getLsbD_of_ge x i (by omega)]

/-- A left shift loses the bits past the width; they are what a right shift keeps. -/
theorem toPoly_shiftLeft (x : BitVec w) {n : ℕ} (hn : n ≤ w) :
    X ^ n * toPoly x = toPoly (x <<< n) + X ^ w * toPoly (x >>> (w - n)) := by
  ext i
  simp only [coeff_X_pow_mul', coeff_add, coeff_toPoly, BitVec.getLsbD_shiftLeft,
    BitVec.getLsbD_ushiftRight]
  by_cases hi : i < w
  · by_cases hni : n ≤ i
    · simp [hi, hni, show ¬ w ≤ i by omega, show ¬ i < n by omega]
    · simp [hni, show ¬ w ≤ i by omega, show i < n by omega, ofBit]
  · simp [hi, show n ≤ i by omega, show w ≤ i by omega, show w - n + (i - w) = i - n by omega,
      ofBit]

/-- A left shift that loses no bit is multiplication by a power of `X`. -/
theorem toPoly_shiftLeft_of_lt (x : BitVec w) {n : ℕ} (hn : n ≤ w) (hx : x >>> (w - n) = 0#w) :
    toPoly (x <<< n) = X ^ n * toPoly x := by
  rw [toPoly_shiftLeft x hn, hx, toPoly_zero, mul_zero, add_zero]

/-- The low part comes first. -/
theorem toPoly_append (hi : BitVec v) (lo : BitVec w) :
    toPoly (hi ++ lo) = toPoly lo + X ^ w * toPoly hi := by
  ext i
  simp only [coeff_X_pow_mul', coeff_add, coeff_toPoly, BitVec.getLsbD_append]
  by_cases h : i < w
  · simp [h, show ¬ w ≤ i by omega]
  · simp [h, show w ≤ i by omega, ofBit]

/-! ### The carry-less product -/

/-- The product without carries: the sum of the shifts of `b` that the bits of `a` select. -/
def carrylessMul (a : BitVec v) (b : BitVec w) : BitVec (v + w) :=
  (List.range v).foldl
    (fun acc i => if a.getLsbD i then acc ^^^ b.setWidth (v + w) <<< i else acc) 0#(v + w)

theorem toPoly_foldl_xor {α : Type} (f : α → BitVec w) (c : α → Bool) (l : List α)
    (acc : BitVec w) :
    toPoly (l.foldl (fun acc i => if c i then acc ^^^ f i else acc) acc) =
      toPoly acc + (l.map fun i => if c i then toPoly (f i) else 0).sum := by
  induction l generalizing acc with
  | nil => simp
  | cons i l ih =>
    rw [List.foldl_cons, ih, List.map_cons, List.sum_cons]
    split
    · rw [toPoly_xor, add_assoc]
    · rw [zero_add]

/-- **The carry-less product is the product of the polynomials.** -/
theorem toPoly_carrylessMul (a : BitVec v) (b : BitVec w) :
    toPoly (carrylessMul a b) = toPoly a * toPoly b := by
  have shift : ∀ i < v, toPoly (b.setWidth (v + w) <<< i) = X ^ i * toPoly b := by
    intro i hi
    rw [toPoly_shiftLeft_of_lt _ (by omega), toPoly_setWidth b (by omega)]
    refine BitVec.eq_of_getLsbD_eq fun j hj => ?_
    simp [BitVec.getLsbD_of_ge b (v + w - i + j) (by omega)]
  rw [carrylessMul, toPoly_foldl_xor, toPoly_zero, zero_add, toPoly, Finset.sum_mul,
    ← List.sum_toFinset _ List.nodup_range]
  refine Finset.sum_congr (by ext; simp) fun i hi => ?_
  rw [shift i (by simpa using hi), ← C_mul_X_pow_eq_monomial]
  cases a.getLsbD i <;> simp [ofBit]

end Mpz
