import Mpz.Core.Block

/-!
# The field multiplication of blocks

`Block.toGf` reads a block as an element of `GF(2)[x] / (x ^ 128 + x ^ 7 + x ^ 2 + x + 1)`. The
reading is injective, turns xor into addition and `gfmul` into multiplication, so an identity
between blocks can be proved in the quotient ring by the ring laws alone.

## Main definitions

* `ghashPoly`, `Gf128` — the modulus and the ring
* `Block.toGf` — the element a block stands for

## Main results

* `Block.toGf_injective`, `Block.toGf_xor`, `Block.toGf_gfmul`
* `Block.toGf_innPrdtRed` — the unreduced inner product is reduced once, at the end
-/

open Polynomial

namespace Mpz

/-- The reduction polynomial without its leading term. -/
noncomputable def ghashTail : (ZMod 2)[X] := X ^ 7 + X ^ 2 + X + 1

/-- The reduction polynomial. It is irreducible to the elaborator, which would otherwise multiply
out the power. -/
@[irreducible] noncomputable def ghashPoly : (ZMod 2)[X] := X ^ 128 + ghashTail

theorem degree_ghashTail : ghashTail.degree = ((7 : ℕ) : WithBot ℕ) := by
  unfold ghashTail
  compute_degree <;> norm_num

theorem degree_ghashPoly : ghashPoly.degree = ((128 : ℕ) : WithBot ℕ) := by
  unfold ghashPoly
  refine degree_X_pow_add ?_
  rw [degree_ghashTail]
  exact Nat.cast_lt.mpr (by decide)

theorem degree_ghashPoly_ne_zero : ghashPoly.degree ≠ 0 := by
  rw [degree_ghashPoly]
  exact Nat.cast_ne_zero.mpr (by decide)

/-- Polynomials modulo `ghashPoly`. -/
abbrev Gf128 := AdjoinRoot ghashPoly

instance : CharP Gf128 2 :=
  haveI : Nontrivial Gf128 := AdjoinRoot.nontrivial _ degree_ghashPoly_ne_zero
  charP_of_injective_algebraMap (algebraMap (ZMod 2) Gf128).injective 2

namespace Block

/-- The field element of a block. -/
noncomputable def toGf (x : Block) : Gf128 := AdjoinRoot.mk ghashPoly (toPoly x)

theorem toGf_injective : Function.Injective toGf := by
  intro x y h
  have hdvd : ghashPoly ∣ toPoly x - toPoly y := AdjoinRoot.mk_eq_mk.mp h
  exact toPoly_eq_of_dvd_sub degree_ghashPoly hdvd

@[simp] theorem toGf_inj {x y : Block} : x.toGf = y.toGf ↔ x = y := toGf_injective.eq_iff

@[simp] theorem toGf_zero : toGf 0#128 = 0 := by
  rw [toGf, toPoly_zero, map_zero]

@[simp] theorem toGf_xor (x y : Block) : (x ^^^ y).toGf = x.toGf + y.toGf := by
  rw [toGf, toPoly_xor, map_add, toGf, toGf]

/-! ### The reduction -/

theorem join_sep (x : BitVec 128) : join (sep x).1 (sep x).2 = x := by
  refine BitVec.eq_of_getLsbD_eq fun i hi => ?_
  simp only [join, sep, BitVec.getLsbD_append, BitVec.getLsbD_extractLsb']
  by_cases h : i < 64
  · simp [h]
  · simp [h, show i - 64 < 64 by omega, show 64 + (i - 64) = i by omega]

theorem join_xor (u l u' l' : BitVec 64) :
    join (u ^^^ u') (l ^^^ l') = join u l ^^^ join u' l' := BitVec.xor_append.symm

/-- The bits a left shift by `n` pushes out of the high word, in the place they are folded to. -/
theorem join_ushiftRight (y : Block) {n : ℕ} (hn : 0 < n) (hn' : n < 64) :
    join 0#64 ((sep y).1 >>> (64 - n)) = y >>> (128 - n) := by
  refine BitVec.eq_of_getLsbD_eq fun i hi => ?_
  simp only [join, sep, BitVec.getLsbD_append, BitVec.getLsbD_extractLsb',
    BitVec.getLsbD_ushiftRight]
  by_cases h : i < 64
  · by_cases h' : 64 - n + i < 64
    · simp [h, h', show 64 + (64 - n + i) = 128 - n + i by omega]
    · simp [h, h', BitVec.getLsbD_of_ge y (128 - n + i) (by omega)]
  · simp [h, BitVec.getLsbD_of_ge y (128 - n + i) (by omega)]

/-- The overflow of the three shifts of the high half. -/
def overflow (y : Block) : Block := y >>> 127 ^^^ y >>> 126 ^^^ y >>> 121

/-- The reduction on whole halves: the high half absorbs its own overflow, and is then added at
the four positions of the reduction polynomial. -/
theorem reduceGcm_eq (x y : Block) :
    reduceGcm x y = x ^^^ ((y ^^^ overflow y) ^^^ (y ^^^ overflow y) <<< 1 ^^^
      (y ^^^ overflow y) <<< 2 ^^^ (y ^^^ overflow y) <<< 7) := by
  have hd : join (sep y).1 ((sep y).2 ^^^ (sep y).1 >>> 63 ^^^ (sep y).1 >>> 62 ^^^
      (sep y).1 >>> 57) = y ^^^ overflow y := by
    have h1 := join_ushiftRight y (n := 1) (by decide) (by decide)
    have h2 := join_ushiftRight y (n := 2) (by decide) (by decide)
    have h7 := join_ushiftRight y (n := 7) (by decide) (by decide)
    calc join (sep y).1 ((sep y).2 ^^^ (sep y).1 >>> 63 ^^^ (sep y).1 >>> 62 ^^^ (sep y).1 >>> 57)
        = join (sep y).1 (sep y).2 ^^^ join 0#64 ((sep y).1 >>> 63) ^^^
            join 0#64 ((sep y).1 >>> 62) ^^^ join 0#64 ((sep y).1 >>> 57) := by
          simp only [← join_xor, BitVec.xor_zero]
      _ = y ^^^ overflow y := by
          rw [join_sep, h1, h2, h7, overflow, BitVec.xor_assoc, BitVec.xor_assoc, BitVec.xor_assoc]
  simp only [reduceGcm, hd, join_xor, join_sep]

theorem ushiftRight_overflow (y : Block) {n : ℕ} (hn : n ≤ 7) :
    overflow y >>> (128 - n) = 0#128 := by
  refine BitVec.eq_of_getLsbD_eq fun i hi => ?_
  simp only [overflow, BitVec.getLsbD_ushiftRight, BitVec.getLsbD_xor]
  simp [BitVec.getLsbD_of_ge y (127 + (128 - n + i)) (by omega),
    BitVec.getLsbD_of_ge y (126 + (128 - n + i)) (by omega),
    BitVec.getLsbD_of_ge y (121 + (128 - n + i)) (by omega)]

/-- What the sum of the shifted halves is short of: the reduction polynomial times the high half
and its overflow. -/
theorem toPoly_reduceGcm (x y : Block) :
    toPoly x + X ^ 128 * toPoly y =
      toPoly (reduceGcm x y) + ghashPoly * (toPoly y + toPoly (overflow y)) := by
  have shift : ∀ n ≤ 7, toPoly ((y ^^^ overflow y) <<< n) =
      X ^ n * (toPoly y + toPoly (overflow y)) - X ^ 128 * toPoly (y >>> (128 - n)) := by
    intro n hn
    rw [BitVec.shiftLeft_xor_distrib, toPoly_xor,
      toPoly_shiftLeft_of_lt (overflow y) (by omega) (ushiftRight_overflow y hn), mul_add,
      toPoly_shiftLeft y (by omega : n ≤ 128)]
    ring
  have hover : toPoly (overflow y) =
      toPoly (y >>> 127) + toPoly (y >>> 126) + toPoly (y >>> 121) := by
    rw [overflow, toPoly_xor, toPoly_xor]
  have two : (2 : (ZMod 2)[X]) = 0 := CharTwo.two_eq_zero
  rw [reduceGcm_eq]
  unfold ghashPoly ghashTail
  generalize (X ^ 128 : (ZMod 2)[X]) = p at *
  simp only [toPoly_xor, shift 1 (by decide), shift 2 (by decide), shift 7 (by decide), hover]
  linear_combination
    -(toPoly y + (toPoly (y >>> 127) + toPoly (y >>> 126) + toPoly (y >>> 121))) *
      (X ^ 7 + X ^ 2 + X + 1) * two

/-- The field element of an unreduced product, its low half first. -/
noncomputable def toGfWide (p : Block × Block) : Gf128 :=
  AdjoinRoot.mk ghashPoly (toPoly p.1 + X ^ 128 * toPoly p.2)

/-- **The reduction is the reduction.** -/
theorem toGf_reduceGcm (x y : Block) : (reduceGcm x y).toGf = toGfWide (x, y) := by
  rw [toGfWide, toPoly_reduceGcm, map_add, map_mul, AdjoinRoot.mk_self, zero_mul, add_zero, toGf]

/-! ### The product and the inner product -/

theorem toPoly_clmul (a b : Block) :
    toPoly (clmul a b).1 + X ^ 128 * toPoly (clmul a b).2 = toPoly a * toPoly b := by
  rw [← toPoly_append, ← toPoly_carrylessMul]
  congr 1
  refine BitVec.eq_of_getLsbD_eq fun i hi => ?_
  simp only [clmul, BitVec.getLsbD_append, BitVec.getLsbD_extractLsb', Nat.zero_add]
  by_cases h : i < 128
  · simp [h]
  · simp [h, show i - 128 < 128 by omega, show 128 + (i - 128) = i by omega]

theorem toGfWide_zero : toGfWide (zero, zero) = 0 := by
  simp only [toGfWide, zero, toPoly_zero, mul_zero, add_zero, map_zero]

theorem toGfWide_clmul (a b : Block) : toGfWide (a.clmul b) = a.toGf * b.toGf := by
  rw [toGfWide, toPoly_clmul, map_mul, toGf, toGf]

theorem toGfWide_xor (p q : Block × Block) :
    toGfWide (p.1 ^^^ q.1, p.2 ^^^ q.2) = toGfWide p + toGfWide q := by
  simp only [toGfWide, toPoly_xor, map_add, map_mul]
  ring

/-- **The block product is the field product.** -/
@[simp] theorem toGf_gfmul (a b : Block) : (a.gfmul b).toGf = a.toGf * b.toGf :=
  (toGf_reduceGcm _ _).trans (toGfWide_clmul a b)

theorem toGfWide_foldl (l : List (Block × Block)) (acc : Block × Block) :
    toGfWide (l.foldl (fun acc xy => ((xy.1.clmul xy.2).1 ^^^ acc.1, (xy.1.clmul xy.2).2 ^^^ acc.2))
      acc) = toGfWide acc + (l.map fun xy => xy.1.toGf * xy.2.toGf).sum := by
  induction l generalizing acc with
  | nil => exact (add_zero _).symm
  | cons xy l ih =>
    rw [List.foldl_cons, ih, List.map_cons, List.sum_cons, toGfWide_xor, toGfWide_clmul]
    ring

/-- **One reduction is enough.** The inner product that reduces once is the inner product in the
field. -/
theorem toGf_innPrdtRed (a b : List Block) :
    (innPrdtRed a b).toGf = ((a.zip b).map fun xy => xy.1.toGf * xy.2.toGf).sum := by
  calc (innPrdtRed a b).toGf = toGfWide (innPrdtNoRed a b) := toGf_reduceGcm _ _
    _ = toGfWide (zero, zero) + ((a.zip b).map fun xy => xy.1.toGf * xy.2.toGf).sum :=
        toGfWide_foldl _ _
    _ = ((a.zip b).map fun xy => xy.1.toGf * xy.2.toGf).sum := by rw [toGfWide_zero, zero_add]

/-- The blocks that a list of bits selects, added up. -/
theorem toGf_foldl_xor {α : Type} (f : α → Block) (c : α → Bool) (l : List α) (acc : Block) :
    (l.foldl (fun acc i => if c i then acc ^^^ f i else acc) acc).toGf =
      acc.toGf + (l.map fun i => if c i then (f i).toGf else 0).sum := by
  induction l generalizing acc with
  | nil => simp
  | cons i l ih =>
    rw [List.foldl_cons, ih, List.map_cons, List.sum_cons]
    split
    · rw [toGf_xor, add_assoc]
    · rw [zero_add]

/-- A block filled from bits is their sum, each at its monomial. -/
theorem toGf_fromLsb0Iter (bits : List Bool) :
    (fromLsb0Iter bits).toGf =
      ((List.range 128).map fun i => if bits.getD i false then (monomial i).toGf else 0).sum := by
  rw [fromLsb0Iter, toGf_foldl_xor, zero, toGf_zero, zero_add]

end Block

end Mpz
