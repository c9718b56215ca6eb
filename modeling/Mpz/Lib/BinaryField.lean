import Mathlib.FieldTheory.Finite.Basic
import Mpz.Lib.BinaryPolynomial

/-!
# Binary fields

A product of two words is reduced modulo a polynomial with four low terms by folding its high half
to these terms, and what overflows by that once more. The residues form a field if the polynomial is
irreducible. For a degree that is a power of two that is so if `X` is fixed by squaring as often as
the degree says, and is not fixed by half of that in any quotient.

## Main definitions

* `foldReduce`, `foldPoly` — the reduction, and the polynomial
* `residue` — the residue that a word stands for

## Main results

* `toPoly_foldReduce` — the reduction is the remainder
* `irreducible_of_squares` — a criterion for a polynomial to be irreducible
* `mul_pow_eq_one` — the inverse of a residue that is not zero is a power of it
-/

open Polynomial

namespace Mpz

variable {w : ℕ}

/-! ### Reduction -/

/-- A word at the four terms of the polynomial. -/
def atTerms (r s t : ℕ) (x : BitVec w) : BitVec w := x ^^^ x <<< r ^^^ x <<< s ^^^ x <<< t

/-- What the shifts push out. -/
def overflow (r s t : ℕ) (x : BitVec w) : BitVec w :=
  x >>> (w - r) ^^^ x >>> (w - s) ^^^ x >>> (w - t)

/-- The high half is folded back, and its overflow once more. -/
def foldReduce (r s t : ℕ) (lo hi : BitVec w) : BitVec w :=
  lo ^^^ atTerms r s t hi ^^^ atTerms r s t (overflow r s t hi)

/-- The low terms of the polynomial. -/
noncomputable def foldTail (r s t : ℕ) : (ZMod 2)[X] := X ^ t + X ^ s + X ^ r + 1

/-- The polynomial of the reduction. -/
noncomputable def foldPoly (w r s t : ℕ) : (ZMod 2)[X] := X ^ w + foldTail r s t

variable {r s t : ℕ}

theorem degree_foldTail_lt (hr : r < s) (hs : s < t) (ht : t < w) :
    (foldTail r s t).degree < (w : WithBot ℕ) := by
  refine lt_of_le_of_lt (b := (t : WithBot ℕ)) ?_ (Nat.cast_lt.mpr ht)
  have hle : ∀ n ≤ t, (X ^ n : (ZMod 2)[X]).degree ≤ (t : WithBot ℕ) := fun n hn => by
    rw [degree_X_pow]
    exact Nat.cast_le.mpr hn
  have hone : (1 : (ZMod 2)[X]).degree ≤ (t : WithBot ℕ) := by
    rw [degree_one]
    exact Nat.cast_le.mpr (Nat.zero_le t)
  exact degree_add_le_of_degree_le (degree_add_le_of_degree_le
    (degree_add_le_of_degree_le (hle t le_rfl) (hle s hs.le)) (hle r (hr.trans hs).le)) hone

theorem monic_foldPoly (hr : r < s) (hs : s < t) (ht : t < w) : (foldPoly w r s t).Monic :=
  monic_X_pow_add (degree_foldTail_lt hr hs ht)

theorem degree_foldPoly (hr : r < s) (hs : s < t) (ht : t < w) :
    (foldPoly w r s t).degree = (w : WithBot ℕ) := degree_X_pow_add (degree_foldTail_lt hr hs ht)

/-- The overflow is short enough for the shifts. -/
theorem overflow_ushiftRight {n : ℕ} (hr : r < s) (hs : s < t) (ht : 2 * t ≤ w) (hn : n ≤ t)
    (x : BitVec w) : overflow r s t x >>> (w - n) = 0#w := by
  refine BitVec.eq_of_getLsbD_eq fun i hi => ?_
  simp only [overflow, BitVec.getLsbD_ushiftRight, BitVec.getLsbD_xor]
  simp [BitVec.getLsbD_of_ge x (w - r + (w - n + i)) (by omega),
    BitVec.getLsbD_of_ge x (w - s + (w - n + i)) (by omega),
    BitVec.getLsbD_of_ge x (w - t + (w - n + i)) (by omega)]

/-- **The reduction**, up to a multiple of the polynomial. -/
theorem toPoly_foldReduce_add (hr : r < s) (hs : s < t) (ht : 2 * t ≤ w) (lo hi : BitVec w) :
    toPoly lo + X ^ w * toPoly hi = toPoly (foldReduce r s t lo hi) +
      foldPoly w r s t * (toPoly hi + toPoly (overflow r s t hi)) := by
  have hhi : ∀ n ≤ t, toPoly (hi <<< n) = X ^ n * toPoly hi - X ^ w * toPoly (hi >>> (w - n)) := by
    intro n hn
    rw [toPoly_shiftLeft hi (by omega), add_sub_cancel_right]
  have hover : ∀ n ≤ t, toPoly (overflow r s t hi <<< n) = X ^ n * toPoly (overflow r s t hi) :=
    fun n hn => toPoly_shiftLeft_of_lt _ (by omega) (overflow_ushiftRight hr hs ht hn hi)
  have hsum : toPoly (overflow r s t hi) =
      toPoly (hi >>> (w - r)) + toPoly (hi >>> (w - s)) + toPoly (hi >>> (w - t)) := by
    rw [overflow, toPoly_xor, toPoly_xor]
  have two : (2 : (ZMod 2)[X]) = 0 := CharTwo.two_eq_zero
  rw [foldReduce, atTerms, atTerms]
  simp only [toPoly_xor, hhi r (by omega), hhi s (by omega), hhi t le_rfl, hover r (by omega),
    hover s (by omega), hover t le_rfl]
  unfold foldPoly foldTail
  rw [hsum]
  generalize (X ^ w : (ZMod 2)[X]) = p
  linear_combination
    -(toPoly hi + (toPoly (hi >>> (w - r)) + toPoly (hi >>> (w - s)) + toPoly (hi >>> (w - t)))) *
      (X ^ t + X ^ s + X ^ r + 1) * two

/-- **The reduction is the remainder.** -/
theorem toPoly_foldReduce (hr : r < s) (hs : s < t) (ht : 2 * t ≤ w) (lo hi : BitVec w) :
    toPoly (foldReduce r s t lo hi) = (toPoly lo + X ^ w * toPoly hi) %ₘ foldPoly w r s t := by
  have hdeg : (toPoly (foldReduce r s t lo hi)).degree < (foldPoly w r s t).degree := by
    rw [degree_foldPoly hr hs (by omega)]
    exact degree_toPoly_lt _
  have hdiv := div_modByMonic_unique (toPoly hi + toPoly (overflow r s t hi)) _
    (monic_foldPoly hr hs (by omega)) ⟨(toPoly_foldReduce_add hr hs ht lo hi).symm, hdeg⟩
  exact hdiv.2.symm

/-! ### Residues -/

/-- The residue that a word stands for. -/
noncomputable def residue (p : (ZMod 2)[X]) (x : BitVec w) :
    AdjoinRoot p := AdjoinRoot.mk p (toPoly x)

variable {p : (ZMod 2)[X]}

theorem residue_injective (hp : p.degree = (w : WithBot ℕ)) :
    Function.Injective (residue p : BitVec w → AdjoinRoot p) := by
  intro x y h
  exact toPoly_eq_of_dvd_sub hp (AdjoinRoot.mk_eq_mk.mp h)

@[simp] theorem residue_xor (x y : BitVec w) : residue p (x ^^^ y) = residue p x + residue p y := by
  rw [residue, toPoly_xor, map_add, residue, residue]

@[simp] theorem residue_zero : residue p 0#w = 0 := by rw [residue, toPoly_zero, map_zero]

/-! ### Irreducible polynomials -/

section Field

variable {q : (ZMod 2)[X]} [Fact (Irreducible q)] {n : ℕ}

instance charP_adjoinRoot : CharP (AdjoinRoot q) 2 :=
  charP_of_injective_algebraMap (algebraMap (ZMod 2) (AdjoinRoot q)).injective 2

/-- What fixes the root fixes every residue. -/
theorem pow_two_pow_eq (hroot : AdjoinRoot.root q ^ 2 ^ n = AdjoinRoot.root q) (x : AdjoinRoot q) :
    x ^ 2 ^ n = x := by
  induction x using AdjoinRoot.induction_on with
  | ih f =>
    induction f using Polynomial.induction_on' with
    | add f g hf hg => rw [map_add, add_pow_char_pow, hf, hg]
    | monomial k a =>
      rw [← C_mul_X_pow_eq_monomial, map_mul, map_pow, AdjoinRoot.mk_C, AdjoinRoot.mk_X, mul_pow,
        ← pow_mul, Nat.mul_comm k, pow_mul, hroot, ← map_pow, ZMod.pow_card_pow]

theorem finite_adjoinRoot : Finite (AdjoinRoot q) := by
  have hne : q ≠ 0 := (Fact.out : Irreducible q).ne_zero
  have := (AdjoinRoot.powerBasis hne).finite
  exact Module.finite_of_finite (ZMod 2)

/-- The number of residues. -/
theorem card_adjoinRoot : Nat.card (AdjoinRoot q) = 2 ^ q.natDegree := by
  have hne : q ≠ 0 := (Fact.out : Irreducible q).ne_zero
  have := (AdjoinRoot.powerBasis hne).finite
  rw [Module.natCard_eq_pow_finrank (K := ZMod 2), (AdjoinRoot.powerBasis hne).finrank,
    AdjoinRoot.powerBasis_dim, Nat.card_zmod]

/-- The degree divides the number of squarings that fix the root. -/
theorem natDegree_dvd (hroot : AdjoinRoot.root q ^ 2 ^ n = AdjoinRoot.root q) :
    q.natDegree ∣ n := by
  have := finite_adjoinRoot (q := q)
  obtain ⟨g, hg⟩ := IsCyclic.exists_ofOrder_eq_natCard (α := (AdjoinRoot q)ˣ)
  have hone : g ^ (2 ^ n - 1) = 1 := by
    refine Units.ext ?_
    have hmul : (g : AdjoinRoot q) ^ (2 ^ n - 1) * g = 1 * g := by
      rw [← pow_succ, Nat.sub_add_cancel Nat.one_le_two_pow, pow_two_pow_eq hroot, one_mul]
    exact mul_right_cancel₀ g.ne_zero hmul
  have hdvd := orderOf_dvd_of_pow_eq_one hone
  rw [hg, Nat.card_units, card_adjoinRoot] at hdvd
  have hgcd := Nat.pow_sub_one_gcd_pow_sub_one 2 q.natDegree n
  rw [Nat.gcd_eq_left hdvd] at hgcd
  have hpow : 2 ^ q.natDegree = 2 ^ q.natDegree.gcd n := by
    have h1 : 1 ≤ 2 ^ q.natDegree := Nat.one_le_two_pow
    have h2 : 1 ≤ 2 ^ q.natDegree.gcd n := Nat.one_le_two_pow
    omega
  exact Nat.gcd_eq_left_iff_dvd.mp (Nat.pow_right_injective le_rfl hpow).symm

/-- The inverse of a residue, by Fermat's little theorem. -/
theorem mul_pow_eq_one {x : AdjoinRoot q} (hx : x ≠ 0) (hq : 0 < q.natDegree) :
    x * x ^ (2 ^ q.natDegree - 2) = 1 := by
  have := finite_adjoinRoot (q := q)
  have := Fintype.ofFinite (AdjoinRoot q)
  have hle : 2 ≤ 2 ^ q.natDegree := Nat.le_self_pow hq.ne' 2
  have hcard : Fintype.card (AdjoinRoot q) - 1 = 2 ^ q.natDegree - 2 + 1 := by
    rw [← Nat.card_eq_fintype_card, card_adjoinRoot]
    omega
  rw [← pow_succ', ← hcard]
  exact FiniteField.pow_card_sub_one_eq_one x hx

end Field

/-- **A criterion to be irreducible**, for a degree that is a power of two: squaring as often as the
degree says fixes the root, and half of that moves it by a unit. -/
theorem irreducible_of_squares {m : ℕ} (hp : p.natDegree = 2 ^ (m + 1))
    (hroot : AdjoinRoot.root p ^ 2 ^ 2 ^ (m + 1) = AdjoinRoot.root p)
    (hunit : IsUnit (AdjoinRoot.root p ^ 2 ^ 2 ^ m - AdjoinRoot.root p)) : Irreducible p := by
  have hpos : 0 < 2 ^ (m + 1) := Nat.two_pow_pos _
  have hne : p ≠ 0 := by
    rintro rfl
    rw [natDegree_zero] at hp
    omega
  have hnu : ¬ IsUnit p := fun h => by
    rw [natDegree_eq_zero_of_isUnit h] at hp
    omega
  obtain ⟨q, hq, hdvd⟩ := WfDvdMonoid.exists_irreducible_factor hnu hne
  have : Fact (Irreducible q) := ⟨hq⟩
  let φ := AdjoinRoot.algHomOfDvd (ZMod 2) p q hdvd
  have hφ : φ (AdjoinRoot.root p) = AdjoinRoot.root q := AdjoinRoot.algHomOfDvd_root _ _ _
  have hrootq : AdjoinRoot.root q ^ 2 ^ 2 ^ (m + 1) = AdjoinRoot.root q := by
    rw [← hφ, ← map_pow, hroot]
  have hunitq : IsUnit (AdjoinRoot.root q ^ 2 ^ 2 ^ m - AdjoinRoot.root q) := by
    have h := hunit.map φ
    rwa [map_sub, map_pow, hφ] at h
  obtain ⟨j, hj, hdeg⟩ := (Nat.dvd_prime_pow Nat.prime_two).mp (natDegree_dvd hrootq)
  -- A factor of smaller degree would be fixed by half of the squarings.
  have hjm : j = m + 1 := by
    by_contra hlt
    obtain ⟨c, hc⟩ := Nat.pow_dvd_pow 2 (show j ≤ m by omega)
    have := finite_adjoinRoot (q := q)
    have := Fintype.ofFinite (AdjoinRoot q)
    have hcard : Fintype.card (AdjoinRoot q) = 2 ^ 2 ^ j := by
      rw [← Nat.card_eq_fintype_card, card_adjoinRoot, hdeg]
    have hfix : AdjoinRoot.root q ^ 2 ^ 2 ^ m = AdjoinRoot.root q := by
      rw [hc, pow_mul, ← hcard]
      exact FiniteField.pow_card_pow c _
    rw [hfix, sub_self] at hunitq
    exact not_isUnit_zero hunitq
  have hassoc : Associated q p := associated_of_dvd_of_natDegree_le hdvd hne (by rw [hp, hdeg, hjm])
  exact hassoc.irreducible hq

end Mpz
