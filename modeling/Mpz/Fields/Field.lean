import Mpz.Fields.Soft
import Mpz.Lib.Blocks

/-!
# Inner products over chunks

The field trait computes an inner product by one call of the kernel, or splits the slices into
chunks, calls the kernel for each of them, and adds the results. The threads may group the sum in
any way and put zeros anywhere.

## Main definitions

* `Combined` — what a parallel reduction of a list may give
* `Dispatched` — what one call of the kernel, or one call for each chunk, may give
* `Implements` — what it means that a backend implements a field

## Main results

* `Combined.eq_foldl`, `exists_combined` — every grouping of a sum gives the sum
* `Backend.Lawful.implements` — a lawful backend implements the field of its polynomial
* `soft_backends_implement` — the two portable backends do
-/

open Polynomial

namespace Mpz

/-! ### Parallel reductions -/

/-- The results of a parallel reduction: the items in their order, grouped in any way, with the
identity anywhere. -/
inductive Combined {α : Type} (identity : α) (op : α → α → α) : List α → α → Prop
  | none : Combined identity op [] identity
  | item (x : α) : Combined identity op [x] x
  | both {l k : List α} {x y : α} (hx : Combined identity op l x) (hy : Combined identity op k y) :
      Combined identity op (l ++ k) (op x y)

section Combined

variable {α : Type} {e : α} {op : α → α → α} [ha : Std.Associative op]
    [hi : Std.LawfulIdentity op e]

theorem foldl_eq_op (x : α) (l : List α) : l.foldl op x = op x (l.foldl op e) := by
  induction l generalizing x with
  | nil => rw [List.foldl_nil, List.foldl_nil, hi.right_id]
  | cons y l ih => rw [List.foldl_cons, List.foldl_cons, ih (op x y), ih (op e y), hi.left_id,
      ha.assoc]

/-- **Every grouping gives the sum.** -/
theorem Combined.eq_foldl {l : List α} {x : α} (h : Combined e op l x) : x = l.foldl op e := by
  induction h with
  | none => rfl
  | item x => rw [List.foldl_cons, List.foldl_nil, hi.left_id]
  | both _ _ ihx ihy => rw [List.foldl_append, foldl_eq_op, ← ihx, ← ihy]

theorem exists_combined (l : List α) : Combined e op l (l.foldl op e) := by
  induction l with
  | nil => exact .none
  | cons x l ih =>
    rw [List.foldl_cons, hi.left_id, foldl_eq_op]
    exact Combined.both (.item x) ih

end Combined

namespace Fields

variable {w : ℕ}

/-- The number of elements in a chunk of a number of bytes. -/
def chunkLength (targetChunkBytes byteSize : ℕ) : ℕ := max (targetChunkBytes / byteSize) 1

/-- What the dispatch may return: the result for the whole slices, or a reduction of those of the
chunks. -/
inductive Dispatched (rayon : Bool) (chunk len : ℕ) (whole : BitVec w) (parts : List (BitVec w)) :
    BitVec w → Prop
  | sequential (h : rayon = true → len < chunk * 2) : Dispatched rayon chunk len whole parts whole
  | parallel {x : BitVec w} (h : rayon = true) (hlen : chunk * 2 ≤ len)
      (hx : Combined 0 (· ^^^ ·) parts x) : Dispatched rayon chunk len whole parts x

namespace Backend

/-- `Field::inner_product` -/
def InnerProduct (B : Backend w) (rayon : Bool) (targetChunkBytes : ℕ) (a b : List (BitVec w))
    (x : BitVec w) : Prop :=
  let chunk := chunkLength targetChunkBytes (w / 8)
  a.length = b.length ∧ Dispatched rayon chunk a.length (B.innerProduct a b)
    (((blocks chunk a).zip (blocks chunk b)).map fun c => B.innerProduct c.1 c.2) x

/-- `Field::double_inner_product` -/
def DoubleInnerProduct (B : Backend w) (rayon : Bool) (targetChunkBytes : ℕ)
    (a b c : List (BitVec w)) (x : BitVec w) : Prop :=
  let chunk := chunkLength targetChunkBytes (w / 8)
  a.length = b.length ∧ a.length = c.length ∧ Dispatched rayon chunk a.length
    (B.doubleInnerProduct a b c)
    ((((blocks chunk a).zip (blocks chunk b)).zip (blocks chunk c)).map
      fun c => B.doubleInnerProduct c.1.1 c.1.2 c.2) x

end Backend

/-! ### Chunks -/

/-- The sum of the values of a list. -/
def xorSum {α : Type} (f : α → BitVec w) (l : List α) :
    BitVec w := l.foldl (fun acc t => acc ^^^ f t) 0

theorem foldl_xor_eq {α : Type} (f : α → BitVec w) (l : List α) :
    xorSum f l = (l.map f).foldl (· ^^^ ·) 0 := by rw [xorSum, List.foldl_map]

theorem xorSum_flatten {α : Type} (f : α → BitVec w) (ls : List (List α)) :
    (ls.map (xorSum f)).foldl (· ^^^ ·) 0 = xorSum f ls.flatten := by
  induction ls with
  | nil => rfl
  | cons l ls ih =>
    have hzero : (0 : BitVec w) ^^^ xorSum f l = xorSum f l := BitVec.zero_xor
    rw [List.map_cons, List.foldl_cons, foldl_eq_op (e := (0 : BitVec w)), ih, hzero,
      List.flatten_cons, foldl_xor_eq f (l ++ ls.flatten), List.map_append, List.foldl_append,
      foldl_eq_op (e := (0 : BitVec w)) (List.foldl _ _ _), ← foldl_xor_eq, ← foldl_xor_eq]

/-- **The dispatch does not matter**: it gives the sum over the whole slices. -/
theorem dispatched_iff {α : Type} {rayon : Bool} {chunk len : ℕ} (hchunk : 0 < chunk)
    {whole : BitVec w} {parts : List (BitVec w)} {f : α → BitVec w} {l : List α}
    (hwhole : whole = xorSum f l) (hparts : parts = (blocks chunk l).map (xorSum f))
    {x : BitVec w} :
    Dispatched rayon chunk len whole parts x ↔ x = xorSum f l := by
  have hsum : parts.foldl (· ^^^ ·) 0 = xorSum f l := by
    rw [hparts, xorSum_flatten, flatten_blocks hchunk]
  constructor
  · intro h
    cases h with
    | sequential _ => exact hwhole
    | parallel _ _ hx => rw [hx.eq_foldl, hsum]
  · rintro rfl
    by_cases h : rayon = true ∧ chunk * 2 ≤ len
    · exact .parallel h.1 h.2 (hsum ▸ exists_combined parts)
    · rw [← hwhole]
      exact .sequential fun hr => by
        rw [not_and] at h
        exact Nat.lt_of_not_le (h hr)

/-! ### The fields -/

/-- What it means that a backend implements the field of a polynomial: the product is the one of the
polynomials, reduced, squares and inverses are those of the product, and every inner product is the
fold of the products by xor, whatever the chunks are and however their results are added. -/
structure Implements (B : Backend w) (p : (ZMod 2)[X]) : Prop where
  mul : ∀ a b, toPoly (B.mul a b) = (toPoly a * toPoly b) %ₘ p
  square : ∀ a, B.square a = B.mul a a
  inverse : ∀ a, a ≠ 0 → B.mul a (B.inverse a) = 1
  innerProduct : ∀ a b : List (BitVec w), a.length = b.length →
    B.innerProduct a b = (a.zip b).foldl (fun acc t => acc ^^^ B.mul t.1 t.2) 0
  doubleInnerProduct : ∀ a b c : List (BitVec w), a.length = b.length → a.length = c.length →
    B.doubleInnerProduct a b c =
      ((a.zip b).zip c).foldl (fun acc t => acc ^^^ B.mul (B.mul t.1.1 t.1.2) t.2) 0
  innerProductSubfield : ∀ (values : List Bool) (challenges : List (BitVec w)),
    values.length = challenges.length → innerProductSubfield values challenges =
      (values.zip challenges).foldl (fun acc t => acc ^^^ B.mul (embed t.1) t.2) 0
  innerProduct_field : ∀ (rayon : Bool) (targetChunkBytes : ℕ) (a b : List (BitVec w)),
    a.length = b.length → ∀ x, B.InnerProduct rayon targetChunkBytes a b x ↔
      x = (a.zip b).foldl (fun acc t => acc ^^^ B.mul t.1 t.2) 0
  doubleInnerProduct_field : ∀ (rayon : Bool) (targetChunkBytes : ℕ) (a b c : List (BitVec w)),
    a.length = b.length → a.length = c.length →
      ∀ x, B.DoubleInnerProduct rayon targetChunkBytes a b c x ↔
        x = ((a.zip b).zip c).foldl (fun acc t => acc ^^^ B.mul (B.mul t.1.1 t.1.2) t.2) 0

variable {B : Backend w} {p : (ZMod 2)[X]}

namespace Backend.Lawful

theorem innerProduct_field (h : B.Lawful p) (rayon : Bool) (targetChunkBytes : ℕ)
    {a b : List (BitVec w)} (hab : a.length = b.length) (x : BitVec w) :
    B.InnerProduct rayon targetChunkBytes a b x ↔ x = xorSum (fun t => B.mul t.1 t.2)
      (a.zip b) := by
  have hchunk : 0 < chunkLength targetChunkBytes (w / 8) :=
    Nat.lt_of_lt_of_le Nat.one_pos (le_max_right _ _)
  rw [InnerProduct, and_iff_right hab]
  refine dispatched_iff hchunk (h.innerProduct_eq a b) ?_
  rw [blocks_zip hchunk hab, List.map_map]
  exact List.map_congr_left fun c _ => h.innerProduct_eq c.1 c.2

theorem doubleInnerProduct_field (h : B.Lawful p) (rayon : Bool) (targetChunkBytes : ℕ)
    {a b c : List (BitVec w)} (hab : a.length = b.length) (hac : a.length = c.length)
    (x : BitVec w) :
    B.DoubleInnerProduct rayon targetChunkBytes a b c x ↔
      x = xorSum (fun t => B.mul (B.mul t.1.1 t.1.2) t.2) ((a.zip b).zip c) := by
  have hchunk : 0 < chunkLength targetChunkBytes (w / 8) :=
    Nat.lt_of_lt_of_le Nat.one_pos (le_max_right _ _)
  have hzip : (a.zip b).length = c.length := by rw [List.length_zip, ← hab, Nat.min_self, hac]
  rw [DoubleInnerProduct, and_iff_right hab, and_iff_right hac]
  refine dispatched_iff hchunk (h.doubleInnerProduct_eq a b c) ?_
  rw [blocks_zip hchunk hzip, blocks_zip hchunk hab, List.zip_map_left, List.map_map, List.map_map]
  exact List.map_congr_left fun c _ => h.doubleInnerProduct_eq c.1.1 c.1.2 c.2

/-- **A lawful backend implements the field**, if its polynomial is irreducible. -/
theorem implements (h : B.Lawful p) (hp : Irreducible p) : Implements B p where
  mul := h.toPoly_mul
  square := h.square_eq
  inverse _ ha := h.mul_inverse hp ha
  innerProduct a b _ := h.innerProduct_eq a b
  doubleInnerProduct a b c _ _ := h.doubleInnerProduct_eq a b c
  innerProductSubfield values challenges _ := h.innerProductSubfield_eq values challenges
  innerProduct_field rayon n _ _ hab := h.innerProduct_field rayon n hab
  doubleInnerProduct_field rayon n _ _ _ hab hac := h.doubleInnerProduct_field rayon n hab hac

end Backend.Lawful

theorem gf2_64Poly_eq : (X ^ 64 + X ^ 4 + X ^ 3 + X + 1 : (ZMod 2)[X]) = foldPoly 64 1 3 4 := by
  rw [foldPoly, foldTail, pow_one]
  simp only [add_assoc]

theorem gf2_128Poly_eq : (X ^ 128 + X ^ 7 + X ^ 2 + X + 1 : (ZMod 2)[X]) = foldPoly 128 1 2 7 := by
  rw [foldPoly, foldTail, pow_one]
  simp only [add_assoc]

theorem toPoly_gf2_128_mul (a b : BitVec 128) : toPoly (gf2_128.mul a b) =
    (toPoly a * toPoly b) %ₘ (X ^ 128 + X ^ 7 + X ^ 2 + X + 1) := by
  rw [gf2_128Poly_eq, lawful_gf2_128.toPoly_mul]

/-- **The portable backends implement their fields.** -/
theorem soft_backends_implement :
    Implements gf2_64 (X ^ 64 + X ^ 4 + X ^ 3 + X + 1) ∧
      Implements gf2_128 (X ^ 128 + X ^ 7 + X ^ 2 + X + 1) := by
  rw [gf2_64Poly_eq, gf2_128Poly_eq]
  exact ⟨lawful_gf2_64.implements irreducible_gf2_64, lawful_gf2_128.implements irreducible_gf2_128⟩

end Fields

end Mpz
