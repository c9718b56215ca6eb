import Mathlib.Data.List.OfFn
import Mpz.Lib.BinaryPolynomial

/-!
# Blocks

A block is sixteen bytes. Bit `8 * j + i` of the bit vector is bit `i` of byte `j`, so the least
significant bit of the first byte is bit `0`, the order in which `from_lsb0_iter` fills a block
and in which the carry-less multiplier reads one.

## Main definitions

* `Block.lsb`, `Block.setLsb`, `Block.selectMask` — the pointer bit, and the masks it selects
* `Block.clmul`, `Block.reduceGcm`, `Block.gfmul` — multiplication modulo
  `x ^ 128 + x ^ 7 + x ^ 2 + x + 1`
* `Block.innPrdtRed`, `Block.monomial`, `Block.fromLsb0Iter`
-/

namespace Mpz

/-- A block of 128 bits. -/
abbrev Block := BitVec 128

namespace Block

/-- A zero block. -/
def zero : Block := 0#128

/-- A block with all bits set to 1. -/
def ones : Block := BitVec.allOnes 128

/-- `SELECT_MASK[b]`. -/
def selectMask (b : Bool) : Block := if b then ones else zero

/-- The least significant bit of the block. -/
def lsb (x : Block) : Bool := x.getLsbD 0

/-- Sets the least significant bit: `(self.0[0] & 0xfe) | value as u8`. -/
def setLsb (x : Block) (value : Bool) : Block :=
  (x &&& ~~~1#128) ||| (BitVec.ofBool value).setWidth 128

/-- The block encoded as bytes. -/
def toBytes (x : Block) : List (BitVec 8) :=
  List.ofFn fun j : Fin 16 => x.extractLsb' (8 * j) 8

/-- `MONOMIAL[i]`: the block with the single bit `i` set. -/
def monomial (i : ℕ) : Block := 1#128 <<< i

/-- The constant `MONOMIAL`. -/
def monomials : List Block := (List.range 128).map monomial

/-- `Block::from_lsb0_iter`: the first 128 bits of the iterator, missing ones being zero. -/
def fromLsb0Iter (bits : List Bool) : Block :=
  (List.range 128).foldl (fun acc i => if bits.getD i false then acc ^^^ monomial i else acc) zero

/-- A block of two words: the low one is in the first eight bytes. -/
theorem append_ofNat (high low : ℕ) :
    BitVec.ofNat 64 high ++ BitVec.ofNat 64 low =
      BitVec.ofNat 128 (2 ^ 64 * high + low % 2 ^ 64) := by
  apply BitVec.eq_of_toNat_eq
  have hlow : low % 2 ^ 64 < 2 ^ 64 := Nat.mod_lt _ (by decide)
  rw [BitVec.toNat_append, BitVec.toNat_ofNat, BitVec.toNat_ofNat, BitVec.toNat_ofNat,
    ← Nat.shiftLeft_add_eq_or_of_lt hlow, Nat.shiftLeft_eq]
  omega

/-! ### Multiplication -/

/-- Carry-less multiplication of two blocks, without the reduction step: the low half of the
product, then the high half. -/
def clmul (a b : Block) : Block × Block :=
  ((carrylessMul a b).extractLsb' 0 128, (carrylessMul a b).extractLsb' 128 128)

/-- `sep`: the high word, then the low one. -/
def sep (x : BitVec 128) : BitVec 64 × BitVec 64 := (x.extractLsb' 64 64, x.extractLsb' 0 64)

/-- `join` of a high and a low word. -/
def join (u l : BitVec 64) : BitVec 128 := u ++ l

/-- The reduction of the product whose low half is `x` and whose high half is `y`. -/
def reduceGcm (x y : Block) : Block :=
  let (x3, x2) := sep y
  let (x1, x0) := sep x
  let a := x3 >>> 63
  let b := x3 >>> 62
  let c := x3 >>> 57
  let d := x2 ^^^ a ^^^ b ^^^ c
  let (e1, e0) := sep (join x3 d <<< 1)
  let (f1, f0) := sep (join x3 d <<< 2)
  let (g1, g0) := sep (join x3 d <<< 7)
  let h1 := x3 ^^^ e1 ^^^ f1 ^^^ g1
  let h0 := d ^^^ e0 ^^^ f0 ^^^ g0
  join (x1 ^^^ h1) (x0 ^^^ h0)

/-- The multiplication of two Galois field elements. -/
def gfmul (self x : Block) : Block :=
  let (a, b) := self.clmul x
  reduceGcm a b

/-- The inner product of two block vectors, without reducing the polynomial. -/
def innPrdtNoRed (a b : List Block) : Block × Block :=
  (a.zip b).foldl (fun acc xy => ((xy.1.clmul xy.2).1 ^^^ acc.1, (xy.1.clmul xy.2).2 ^^^ acc.2))
    (zero, zero)

/-- The inner product of two block vectors. The caller passes vectors of one length. -/
def innPrdtRed (a b : List Block) : Block :=
  reduceGcm (innPrdtNoRed a b).1 (innPrdtNoRed a b).2

/-! ### The pointer bit -/

@[simp] theorem lsb_xor (x y : Block) : (x ^^^ y).lsb = (x.lsb ^^ y.lsb) := BitVec.getLsbD_xor

@[simp] theorem lsb_zero : lsb 0#128 = false := by decide

@[simp] theorem lsb_setLsb (x : Block) (b : Bool) : (x.setLsb b).lsb = b := by
  simp [lsb, setLsb]

@[simp] theorem length_monomials : monomials.length = 128 := by
  rw [monomials, List.length_map, List.length_range]

theorem getElem_monomials {i : ℕ} (h : i < monomials.length) : monomials[i] = monomial i := by
  simp only [monomials, List.getElem_map, List.getElem_range]

theorem getLsbD_setLsb (x : Block) (b : Bool) (i : ℕ) :
    (x.setLsb b).getLsbD i = if i = 0 then b else x.getLsbD i := by
  rcases Nat.eq_zero_or_pos i with rfl | hi
  · simpa [lsb] using lsb_setLsb x b
  · have hne : ¬ i = 0 := by omega
    by_cases h : i < 128
    · simp only [setLsb, BitVec.getLsbD_or, BitVec.getLsbD_and, BitVec.getLsbD_not,
        BitVec.getLsbD_one, BitVec.getLsbD_setWidth, BitVec.getLsbD_ofBool]
      simp [hne, h]
    · simp [BitVec.getLsbD_of_ge _ i (by omega : 128 ≤ i), hne]

/-- Setting the bit of a block adds the difference to the old bit. -/
theorem setLsb_eq_xor (x : Block) (b : Bool) :
    x.setLsb b = x ^^^ if x.lsb = b then 0#128 else 1#128 := by
  refine BitVec.eq_of_getLsbD_eq fun i _ => ?_
  rw [getLsbD_setLsb, BitVec.getLsbD_xor]
  by_cases hi : i = 0
  · subst hi
    by_cases h : x.lsb = b
    · simp [← h, lsb]
    · cases b <;> simp_all [lsb]
  · by_cases h : x.lsb = b
    · simp [hi, h]
    · simp [hi, h, BitVec.getLsbD_one]

theorem selectMask_and (b : Bool) (x : Block) :
    selectMask b &&& x = if b then x else 0#128 := by
  cases b
  · exact BitVec.zero_and
  · exact BitVec.allOnes_and

end Block

end Mpz
