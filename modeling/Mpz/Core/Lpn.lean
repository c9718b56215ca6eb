import Mpz.Core.Block
import Mpz.Lib.Blocks
import Mpz.Lib.XorSum

/-!
# The encoder of the LPN code

A seed defines a sparse binary matrix: four rows share `D` blocks of a permutation, each of which is
four columns. The rows are computed in chunks of four groups of four, and the bits in chunks of two
bytes beside them.

## Main definitions

* `LpnEncoder`, `LpnEncoder.compute`, `LpnEncoder.computeWithBits` — the encoder
* `Lpn.columns`, `Lpn.matrix`, `Lpn.product` — the columns of a row, the matrix and the product with
  it

## Main results

* `Lpn.rows_eq` — the two loops of a chunk are one loop over its rows
* `LpnEncoder.computeRows_eq`, `LpnEncoder.computeRowsWithBits_spec` — what a chunk computes
* `LpnEncoder.compute_correct` — the encoder adds the product with the matrix
-/

namespace Mpz

namespace Lpn

/-- Number of 4-row groups whose index-generation blocks are issued in a single batched call. -/
def groups : ℕ := 4

/-- Builds the plaintext block that selects the `D` column indices for the 4-row group starting at
row `pos`, lane `d`. -/
def indexBlock (emp : Bool) (D pos d : ℕ) : Block :=
  if emp then BitVec.ofNat 64 0 ++ BitVec.ofNat 64 (pos / 4 * D + d)
  else BitVec.ofNat 64 d ++ BitVec.ofNat 64 pos

/-- The block as four words. -/
def words (block : Block) : List (BitVec 32) := (List.range 4).map fun i =>
  block.extractLsb' (32 * i) 32

/-- Bit `i` of bytes that are packed in LSB0 order. -/
def bit (bytes : List (BitVec 8)) (i : ℕ) : Bool := (bytes.getD (i / 8) 0#8).getLsbD (i % 8)

end Lpn

open Lpn

/-- An LPN encoder. -/
structure LpnEncoder where
  /-- The length of the secret, i.e., x. -/
  k : ℕ
  isPowerOfTwo : ∃ e, k = 2 ^ e
  k_lt : k < 2 ^ 32

namespace LpnEncoder

/-- Reduction mask, equal to `k - 1`. -/
def mask (self : LpnEncoder) : BitVec 32 := BitVec.ofNat 32 (self.k - 1)

/-- The column of an index word: `(raw & self.mask) as usize`. -/
def column (self : LpnEncoder) (raw : BitVec 32) : ℕ := (raw &&& self.mask).toNat

variable (prp : Block → Block) (emp : Bool) (D : ℕ)

/-- Generates the column indices for groups of 4 rows, starting at row `base`. -/
def computeIndices (base nGroups : ℕ) : List (List Block) :=
  (List.range nGroups).map fun c => (List.range D).map fun d =>
    prp (indexBlock emp D (base + 4 * c) d)

/-- The runs of `D` indices of a flattened group: `group.as_flattened().as_chunks::<D>().0`. -/
def runs (group : List Block) : List (List (BitVec 32)) := blocks D (group.flatMap words)

/-- The rows of a chunk with their indices, as the two loops visit them: group `c` takes no more
rows than are left. -/
def rows (base len : ℕ) : List (List (BitVec 32) × ℕ) :=
  ((computeIndices prp emp D base ((len + 3) / 4)).zipIdx).flatMap fun group =>
    ((runs D group.1).take (len - 4 * group.2)).zipIdx (4 * group.2)

/-- One row: `y[row] ^= x[column]` for each column. -/
def computeRow (self : LpnEncoder) (x : List Block) (y : List Block) (row : List (BitVec 32) × ℕ) :
    Option (List Block) := do
  let acc ← y[row.2]?
  let acc ← row.1.foldlM (fun acc raw => (x[self.column raw]?).map (acc ^^^ ·)) acc
  return y.set row.2 acc

/-- Computes up to `4 * GROUPS` rows of the output, starting at row `base`. -/
def computeRows (self : LpnEncoder) (y x : List Block) (base : ℕ) : Option (List Block) :=
  if groups < (y.length + 3) / 4 then none
  else (rows prp emp D base y.length).foldlM (self.computeRow x) y

/-- One column of a row: `acc ^= x[j]` and `bit ^= x_bits[j / 8] >> (j % 8)`. -/
def addColumn (self : LpnEncoder) (x : List Block) (xBits : List (BitVec 8))
    (acc : Block × BitVec 8) (raw : BitVec 32) : Option (Block × BitVec 8) := do
  let j := self.column raw
  let xj ← x[j]?
  let bits ← xBits[j / 8]?
  return (acc.1 ^^^ xj, acc.2 ^^^ (bits >>> (j % 8)))

/-- One row of blocks and bits. -/
def computeRowWithBits (self : LpnEncoder) (x : List Block) (xBits : List (BitVec 8))
    (s : List Block × List (BitVec 8)) (row : List (BitVec 32) × ℕ) :
    Option (List Block × List (BitVec 8)) := do
  let acc ← s.1[row.2]?
  let (acc, bit) ← row.1.foldlM (self.addColumn x xBits) (acc, 0#8)
  let byte ← s.2[row.2 / 8]?
  return (s.1.set row.2 acc, s.2.set (row.2 / 8) (byte ^^^ ((bit &&& 1#8) <<< (row.2 % 8))))

/-- Computes up to `4 * GROUPS` rows of the block output and the bit-packed output. -/
def computeRowsWithBits (self : LpnEncoder) (y : List Block) (yBits : List (BitVec 8))
    (x : List Block) (xBits : List (BitVec 8)) (base : ℕ) : Option (List Block × List (BitVec 8)) :=
  if groups < (y.length + 3) / 4 then none
  else
    -- `&x[..mask + 1]` and `&x_bits[..mask / 8 + 1]`
    if x.length < self.mask.toNat + 1 ∨ xBits.length < self.mask.toNat / 8 + 1 then none
    else (rows prp emp D base y.length).foldlM
      (self.computeRowWithBits (x.take (self.mask.toNat + 1))
        (xBits.take (self.mask.toNat / 8 + 1))) (y, yBits)

/-- The chunks of `compute`, from chunk `chunk` on. -/
def computeChunks (self : LpnEncoder) (x : List Block) : ℕ → List (List Block) → Option (List Block)
  | _, [] => some []
  | chunk, y :: ys => do
    let y ← self.computeRows prp emp D y x (chunk * (4 * groups))
    let ys ← self.computeChunks x (chunk + 1) ys
    return y ++ ys

/-- Compute `Ax + e`. -/
def compute (self : LpnEncoder) (y x : List Block) : Option (List Block) :=
  if x.length % 2 ^ 32 ≠ self.k ∨ x.length < D then none
  else self.computeChunks prp emp D x 0 (blocks (4 * groups) y)

/-- The chunks of `compute_with_bits`, from chunk `chunk` on. -/
def computeChunksWithBits (self : LpnEncoder) (x : List Block) (xBits : List (BitVec 8)) :
    ℕ → List (List Block × List (BitVec 8)) → Option (List Block × List (BitVec 8))
  | _, [] => some ([], [])
  | chunk, (y, yBits) :: rest => do
    let (y, yBits) ← self.computeRowsWithBits prp emp D y yBits x xBits (chunk * (4 * groups))
    let (ys, yss) ← self.computeChunksWithBits x xBits (chunk + 1) rest
    return (y ++ ys, yBits ++ yss)

/-- Computes `Ax + e` and `A·x_bits + e_bits` over GF(2) in one pass. -/
def computeWithBits (self : LpnEncoder) (y : List Block) (yBits : List (BitVec 8)) (x : List Block)
    (xBits : List (BitVec 8)) : Option (List Block × List (BitVec 8)) :=
  if x.length % 2 ^ 32 ≠ self.k ∨ xBits.length % 2 ^ 32 * 8 ≠ self.k ∨
      yBits.length ≠ (y.length + 7) / 8 ∨ x.length < D then none
  else self.computeChunksWithBits prp emp D x xBits 0
    ((blocks (4 * groups) y).zip (blocks (4 * groups / 8) yBits))

end LpnEncoder

namespace Lpn

variable (prp : Block → Block) (emp : Bool) (D : ℕ)

/-- Block `d` of group `g`, as a number: either the number of the block, counted over all groups, or
`d` in the high eight bytes and the first row of the group in the low ones. -/
def groupBlock (g d : ℕ) : Block :=
  BitVec.ofNat 128 (if emp then (g * D + d) % 2 ^ 64 else 2 ^ 64 * d + 4 * g % 2 ^ 64)

theorem indexBlock_eq (g d : ℕ) : indexBlock emp D (4 * g) d = groupBlock emp D g d := by
  rw [indexBlock, groupBlock, Block.append_ofNat, Block.append_ofNat,
    Nat.mul_div_cancel_left g (by decide)]
  cases emp <;> simp

/-- The columns of a row: lane `r mod 4` of the encrypted blocks of group `r div 4`. -/
def columns (r : ℕ) : List (BitVec 32) :=
  ((((List.range D).map fun d => prp (groupBlock emp D (r / 4) d)).flatMap words).drop
    (D * (r % 4))).take D

/-- The entry of the matrix: how often the column occurs in the row, over GF(2). -/
def matrix (enc : LpnEncoder) (r j : ℕ) : Bool :=
  ((columns prp emp D r).map enc.column).count j % 2 == 1

/-- Row `r` of the product of a matrix with `k` columns and a vector. -/
def product {w : ℕ} (A : ℕ → ℕ → Bool) (k : ℕ) (x : ℕ → BitVec w) (r : ℕ) : BitVec w :=
  xorAll ((List.range k).map fun j => if A r j then x j else 0#w)

/-! ### Products -/

/-- A sum with one element. -/
theorem xorAll_single {w : ℕ} (f : ℕ → BitVec w) {c k : ℕ} (h : c < k) :
    xorAll ((List.range k).map fun j => if c = j then f j else 0#w) = f c := by
  induction k with
  | zero => cases h
  | succ k ih =>
    rw [List.range_succ, List.map_append, xorAll_append, List.map_singleton, xorAll_cons,
      xorAll_nil, BitVec.xor_zero]
    rcases Nat.lt_or_eq_of_le (Nat.le_of_lt_succ h) with hlt | rfl
    · rw [ih hlt, if_neg hlt.ne, BitVec.xor_zero]
    · have hzero : ∀ j ∈ List.range c, (if c = j then f j else 0#w) = 0#w := fun j hj =>
        if_neg (List.mem_range.mp hj).ne'
      rw [List.map_congr_left hzero, xorAll_map_zero, if_pos rfl, BitVec.zero_xor]

/-- **A sum over columns is a sum over all columns, by parity.** -/
theorem xorAll_columns {w : ℕ} (f : ℕ → BitVec w) {k : ℕ} {cols : List ℕ} (h : ∀ c ∈ cols, c < k) :
    xorAll (cols.map f) =
      xorAll ((List.range k).map fun j => if cols.count j % 2 == 1 then f j else 0#w) := by
  induction cols with
  | nil =>
    exact (xorAll_map_zero _).symm
  | cons c cols ih =>
    have hparity : ∀ j ∈ List.range k, (if (c :: cols).count j % 2 == 1 then f j else 0#w) =
        (if c = j then f j else 0#w) ^^^ if cols.count j % 2 == 1 then f j else 0#w := fun j _ => by
      by_cases hcj : c = j
      · subst hcj
        rw [List.count_cons_self, if_pos (rfl : c = c)]
        obtain hmod | hmod := Nat.mod_two_eq_zero_or_one (cols.count c)
        · simp [hmod, Nat.add_mod]
        · simp [hmod, Nat.add_mod]
      · rw [List.count_cons_of_ne hcj, if_neg hcj, BitVec.zero_xor]
    rw [List.map_congr_left hparity, xorAll_map_xor, xorAll_single f (h c List.mem_cons_self),
      List.map_cons, xorAll_cons, ih fun x hx => h x (List.mem_cons_of_mem _ hx)]

/-- Row `r` of the product with the matrix of an encoder. -/
theorem product_matrix {w : ℕ} (enc : LpnEncoder) (x : ℕ → BitVec w) (r : ℕ)
    (h : ∀ raw, enc.column raw < enc.k) : product (matrix prp emp D enc) enc.k x r =
      xorAll ((columns prp emp D r).map fun raw => x (enc.column raw)) := by
  have hcols : ∀ c ∈ (columns prp emp D r).map enc.column, c < enc.k := fun c hc => by
    obtain ⟨raw, -, rfl⟩ := List.mem_map.mp hc
    exact h raw
  rw [product, show (fun raw => x (enc.column raw)) = x ∘ enc.column from rfl, ← List.map_map,
    xorAll_columns x hcols]
  rfl

/-! ### The rows of a chunk -/

theorem length_flatMap_words (l : List Block) : (l.flatMap words).length = 4 * l.length := by
  induction l with
  | nil => rfl
  | cons x l ih =>
    rw [List.flatMap_cons, List.length_append, ih, List.length_cons, words, List.length_map,
      List.length_range]
    omega

/-- Groups of four, of which the last ones are cut off at a length. -/
theorem flatMap_groups {α : Type} (g : ℕ → ℕ → α) (len n : ℕ) :
    (List.range n).flatMap (fun c => (((List.range 4).map (g c)).take (len - 4 * c)).zipIdx
      (4 * c)) =
      (List.range (min (4 * n) len)).map fun r => (g (r / 4) (r % 4), r) := by
  induction n with
  | zero => simp
  | succ n ih =>
    have hgroup : (((List.range 4).map (g n)).take (len - 4 * n)).zipIdx (4 * n) =
        (List.range (min 4 (len - 4 * n))).map fun i => (g n i, 4 * n + i) := by
      refine List.ext_getElem (by simp [Nat.min_comm]) fun i h₁ h₂ => ?_
      simp
    have hcut : min (4 * (n + 1)) len = min (4 * n) len + min 4 (len - 4 * n) := by omega
    rw [List.range_succ (n := n), List.flatMap_append, ih, List.flatMap_singleton, hgroup, hcut,
      List.range_add, List.map_append, List.map_map]
    congr 1
    refine List.map_congr_left fun i hi => ?_
    have hlt := List.mem_range.mp hi
    have hmin : min (4 * n) len = 4 * n := by omega
    rw [Function.comp_apply, hmin, show (4 * n + i) / 4 = n by omega, show (4 * n + i) % 4 =
      i by omega]

/-- **The two loops of a chunk are one loop over its rows.** -/
theorem rows_eq {base : ℕ} (hbase : base % 4 = 0) (hD : 0 < D) (len : ℕ) :
    LpnEncoder.rows prp emp D base len =
      (List.range len).map fun r => (columns prp emp D (base + r), r) := by
  have hzip : (LpnEncoder.computeIndices prp emp D base ((len + 3) / 4)).zipIdx =
      (List.range ((len + 3) / 4)).map fun c =>
        ((List.range D).map fun d => prp (indexBlock emp D (base + 4 * c) d), c) := by
    refine List.ext_getElem (by simp [LpnEncoder.computeIndices]) fun i h₁ h₂ => ?_
    simp [LpnEncoder.computeIndices]
  have hruns : ∀ c, LpnEncoder.runs D ((List.range D).map fun d =>
      prp (indexBlock emp D (base + 4 * c) d)) =
      (List.range 4).map fun i => ((((List.range D).map fun d =>
        prp (indexBlock emp D (base + 4 * c) d)).flatMap words).drop (D * i)).take D := fun c => by
    refine blocks_eq_map hD ?_
    rw [length_flatMap_words, List.length_map, List.length_range, Nat.mul_comm]
  rw [LpnEncoder.rows, hzip, List.flatMap_map]
  simp only [hruns]
  rw [flatMap_groups (fun c i => ((((List.range D).map fun d =>
      prp (indexBlock emp D (base + 4 * c) d)).flatMap words).drop (D * i)).take D) len,
    show min (4 * ((len + 3) / 4)) len = len by omega]
  refine List.map_congr_left fun r _ => ?_
  simp only [columns, ← indexBlock_eq]
  rw [show 4 * ((base + r) / 4) = base + 4 * (r / 4) by omega, show (base + r) % 4 = r % 4 by omega]

/-- A loop over a range keeps what each step keeps. -/
theorem exists_foldlM_range {σ : Type} {f : σ → ℕ → Option σ} {P : ℕ → σ → Prop} {n : ℕ} {s : σ}
    (hzero : P 0 s) (hstep : ∀ r < n, ∀ s, P r s → ∃ t, f s r = some t ∧ P (r + 1) t) :
    ∃ t, (List.range n).foldlM f s = some t ∧ P n t := by
  induction n with
  | zero => exact ⟨s, rfl, hzero⟩
  | succ n ih =>
    obtain ⟨t, ht, hP⟩ := ih fun r hr => hstep r (Nat.lt_succ_of_lt hr)
    obtain ⟨u, hu, hP'⟩ := hstep n (Nat.lt_succ_self n) t hP
    refine ⟨u, ?_, hP'⟩
    rw [List.range_succ, List.foldlM_append, ht, Option.bind_eq_bind, Option.bind_some,
      List.foldlM_cons, hu]
    rfl

end Lpn

namespace LpnEncoder

variable (prp : Block → Block) (emp : Bool) (D : ℕ) {enc : LpnEncoder} {x y : List Block}

theorem toNat_mask (enc : LpnEncoder) : enc.mask.toNat + 1 = enc.k := by
  obtain ⟨e, he⟩ := enc.isPowerOfTwo
  have hpos : 0 < enc.k := he ▸ Nat.two_pow_pos e
  have hlt := enc.k_lt
  rw [mask, BitVec.toNat_ofNat, Nat.mod_eq_of_lt (by omega)]
  omega

theorem column_lt (enc : LpnEncoder) (raw : BitVec 32) : enc.column raw < enc.k := by
  have hle : enc.column raw ≤ enc.mask.toNat := by
    rw [column, BitVec.toNat_and]
    exact Nat.and_le_right
  have := enc.toNat_mask
  omega

/-- What a row adds. -/
def rowSum (enc : LpnEncoder) (x : List Block) (r : ℕ) : Block :=
  xorAll ((columns prp emp D r).map fun raw => x.getD (enc.column raw) 0#128)

theorem computeRow_eq (hx : enc.k ≤ x.length) {acc : Block} {row : List (BitVec 32) × ℕ}
    (hacc : y[row.2]? = some acc) : enc.computeRow x y row =
      some (y.set row.2 (acc ^^^ xorAll (row.1.map fun raw => x.getD (enc.column raw) 0#128))) := by
  have hloop : ∀ (cols : List (BitVec 32)) (acc : Block),
      cols.foldlM (fun acc raw => (x[enc.column raw]?).map (acc ^^^ ·)) acc =
        some (acc ^^^ xorAll (cols.map fun raw => x.getD (enc.column raw) 0#128)) := fun cols => by
    induction cols with
    | nil => exact fun acc => by simp
    | cons raw cols ih =>
      intro acc
      have hlt := (enc.column_lt raw).trans_le hx
      rw [List.foldlM_cons, List.getElem?_eq_getElem hlt, Option.map_some, Option.bind_eq_bind,
        Option.bind_some, ih, List.map_cons, xorAll_cons, BitVec.xor_assoc,
        List.getD_eq_getElem?_getD,
        List.getElem?_eq_getElem hlt, Option.getD_some]
  rw [computeRow, hacc, Option.bind_eq_bind, Option.bind_some, hloop]
  rfl

/-- **A chunk of rows.** -/
theorem computeRows_eq {base : ℕ} (hbase : base % 4 = 0) (hD : 0 < D) (hx : enc.k ≤ x.length)
    (hy : y.length ≤ 4 * groups) : enc.computeRows prp emp D y x base =
      some (y.mapIdx fun q acc => acc ^^^ enc.rowSum prp emp D x (base + q)) := by
  have hgroups : ¬ groups < (y.length + 3) / 4 := by
    unfold groups at hy ⊢
    omega
  rw [computeRows, if_neg hgroups, rows_eq prp emp D hbase hD, List.foldlM_map]
  obtain ⟨t, ht, hlen, hall⟩ := exists_foldlM_range
    (f := fun y r => enc.computeRow x y (columns prp emp D (base + r), r)) (n := y.length) (s := y)
    (P := fun r t => t.length = y.length ∧ ∀ q, t[q]? = (y[q]?).map fun acc =>
      if q < r then acc ^^^ enc.rowSum prp emp D x (base + q) else acc)
    ⟨rfl, fun q => by simp⟩ fun r hr s ⟨hlen, hall⟩ => by
      have hget : s[r]? = some y[r] := by
        rw [hall r, List.getElem?_eq_getElem hr, Option.map_some, if_neg (Nat.lt_irrefl r)]
      refine ⟨_, computeRow_eq hx hget, ?_, fun q => ?_⟩
      · rw [List.length_set, hlen]
      · rw [List.getElem?_set, hlen]
        by_cases hq : r = q
        · subst hq
          rw [if_pos rfl, if_pos hr, List.getElem?_eq_getElem hr, Option.map_some,
            if_pos (Nat.lt_succ_self r)]
          rfl
        · rw [if_neg hq, hall q]
          simp only [show q < r + 1 ↔ q < r by omega]
  rw [ht]
  refine congrArg some (List.ext_getElem? fun q => ?_)
  rw [hall, List.getElem?_mapIdx]
  by_cases hq : q < y.length
  · simp [hq]
  · rw [List.getElem?_eq_none (Nat.le_of_not_lt hq)]
    rfl

theorem next_chunk (c q : ℕ) :
    c * (4 * groups) + (q + 4 * groups) = (c + 1) * (4 * groups) + q := by
  rw [Nat.succ_mul c]
  omega

/-- What is made of a list by index, chunk by chunk. -/
theorem mapIdx_chunk (f : ℕ → Block → Block) (c : ℕ) (y : List Block) :
    (y.mapIdx fun q acc => f (c * (4 * groups) + q) acc) =
      ((y.take (4 * groups)).mapIdx fun q acc => f (c * (4 * groups) + q) acc) ++
        (y.drop (4 * groups)).mapIdx fun q acc => f ((c + 1) * (4 * groups) + q) acc := by
  conv_lhs => rw [← List.take_append_drop (4 * groups) y, List.mapIdx_append]
  rcases Nat.le_total (4 * groups) y.length with hle | hle
  · rw [List.length_take_of_le hle]
    simp only [next_chunk]
  · rw [List.drop_of_length_le hle]
    rfl

/-- **The chunks are the whole.** -/
theorem computeChunks_eq (hD : 0 < D) (hx : enc.k ≤ x.length) (i : ℕ) (y : List Block) :
    enc.computeChunks prp emp D x i (blocks (4 * groups) y) =
      some (y.mapIdx fun q acc => acc ^^^ enc.rowSum prp emp D x (i * (4 * groups) + q)) := by
  induction hm : y.length using Nat.strongRecOn generalizing y i with
  | ind m ih =>
  have hpos : 0 < 4 * groups := by decide
  by_cases hnil : y = []
  · rw [hnil, blocks_nil, computeChunks]
    rfl
  · have hlen := List.length_pos_iff.mpr hnil
    have hlt : (y.drop (4 * groups)).length < m := by
      rw [List.length_drop]
      omega
    have hbase : i * (4 * groups) % 4 = 0 := by
      unfold groups
      omega
    rw [blocks_of_ne_nil hpos hnil, computeChunks,
      computeRows_eq prp emp D hbase hD hx (List.length_take_le _ _), Option.bind_eq_bind,
      Option.bind_some,
      ih _ hlt _ _ rfl, mapIdx_chunk (fun q acc => acc ^^^ enc.rowSum prp emp D x q) i y]
    rfl

/-! ### Bits -/

/-- The bit that a row adds. -/
def bitSum (enc : LpnEncoder) (xBits : List (BitVec 8)) (r : ℕ) : BitVec 1 :=
  xorAll ((columns prp emp D r).map fun raw => BitVec.ofBool (bit xBits (enc.column raw)))

end LpnEncoder

namespace Lpn

theorem getLsbD_xorAll {α : Type} {w w' : ℕ} {f : α → BitVec w} {g : α → BitVec w'} {i j : ℕ}
    {l : List α} (h : ∀ x ∈ l, (f x).getLsbD i = (g x).getLsbD j) :
    (xorAll (l.map f)).getLsbD i = (xorAll (l.map g)).getLsbD j := by
  induction l with
  | nil => simp
  | cons x l ih =>
    rw [List.map_cons, List.map_cons, xorAll_cons, xorAll_cons, BitVec.getLsbD_xor,
      BitVec.getLsbD_xor, h x List.mem_cons_self, ih fun y hy => h y (List.mem_cons_of_mem _ hy)]

/-- One bit is flipped, or not. -/
theorem bit_set {bytes : List (BitVec 8)} {r : ℕ} {byte b : BitVec 8}
    (h : bytes[r / 8]? = some byte) (i : ℕ) :
    bit (bytes.set (r / 8) (byte ^^^ ((b &&& 1#8) <<< (r % 8)))) i =
      (bit bytes i ^^ (decide (i = r) && b.getLsbD 0)) := by
  obtain ⟨hlt, rfl⟩ := List.getElem?_eq_some_iff.mp h
  rw [bit, bit, List.getD_eq_getElem?_getD, List.getD_eq_getElem?_getD, List.getElem?_set]
  by_cases hi : r / 8 = i / 8
  · have hmod : i % 8 < 8 := Nat.mod_lt _ (by decide)
    rw [if_pos hi, if_pos hlt, Option.getD_some, ← hi, List.getElem?_eq_getElem hlt,
      Option.getD_some, BitVec.getLsbD_xor]
    congr 1
    rw [BitVec.getLsbD_shiftLeft, BitVec.getLsbD_and, BitVec.getLsbD_one]
    by_cases hr : i = r
    · subst hr
      simp [hmod]
    · have hne : ¬ i % 8 = r % 8 := by omega
      by_cases hlt' : i % 8 < r % 8
      · simp [hr, hlt']
      · have hsub : i % 8 - r % 8 ≠ 0 := by omega
        simp [hr, hsub]
  · have hr : i ≠ r := by
      rintro rfl
      exact hi rfl
    simp [hi, hr]

theorem bit_append_left {l k : List (BitVec 8)} {i : ℕ} (h : i < 8 * l.length) :
    bit (l ++ k) i = bit l i := by
  rw [bit, bit, List.getD_eq_getElem?_getD, List.getD_eq_getElem?_getD,
    List.getElem?_append_left (by omega)]

theorem bit_append_right {l k : List (BitVec 8)} (i : ℕ) :
    bit (l ++ k) (8 * l.length + i) = bit k i := by
  have hdiv : (8 * l.length + i) / 8 = l.length + i / 8 := by omega
  have hmod : (8 * l.length + i) % 8 = i % 8 := by omega
  rw [bit, bit, List.getD_eq_getElem?_getD, List.getD_eq_getElem?_getD, hdiv, hmod,
    List.getElem?_append_right (Nat.le_add_right _ _), Nat.add_sub_cancel_left]

end Lpn

namespace LpnEncoder

variable (prp : Block → Block) (emp : Bool) (D : ℕ) {enc : LpnEncoder} {x y : List Block}
  {xBits yBits : List (BitVec 8)}

theorem computeRowWithBits_eq (hx : enc.k ≤ x.length) (hxBits : (enc.k - 1) / 8 < xBits.length)
    {s : List Block × List (BitVec 8)} {acc : Block} {byte : BitVec 8} {row : List (BitVec 32) × ℕ}
    (hacc : s.1[row.2]? = some acc) (hbyte : s.2[row.2 / 8]? = some byte) :
    enc.computeRowWithBits x xBits s row =
      some (s.1.set row.2 (acc ^^^ xorAll (row.1.map fun raw => x.getD (enc.column raw) 0#128)),
        s.2.set (row.2 / 8) (byte ^^^ ((xorAll (row.1.map fun raw =>
          xBits.getD (enc.column raw / 8) 0#8 >>> (enc.column raw % 8)) &&& 1#8) <<<
            (row.2 % 8)))) := by
  have hloop : ∀ (cols : List (BitVec 32)) (acc : Block × BitVec 8),
      cols.foldlM (enc.addColumn x xBits) acc =
        some (acc.1 ^^^ xorAll (cols.map fun raw => x.getD (enc.column raw) 0#128),
          acc.2 ^^^ xorAll (cols.map fun raw =>
            xBits.getD (enc.column raw / 8) 0#8 >>> (enc.column raw % 8))) := fun cols => by
    induction cols with
    | nil => exact fun acc => by simp
    | cons raw cols ih =>
      intro acc
      have hcol := enc.column_lt raw
      have hlt := hcol.trans_le hx
      have hlt' : enc.column raw / 8 < xBits.length :=
        (Nat.div_le_div_right (Nat.le_sub_one_of_lt hcol)).trans_lt hxBits
      have hstep : enc.addColumn x xBits acc raw = some (acc.1 ^^^ x[enc.column raw],
          acc.2 ^^^ (xBits[enc.column raw / 8] >>> (enc.column raw % 8))) := by
        rw [addColumn, List.getElem?_eq_getElem hlt, List.getElem?_eq_getElem hlt']
        rfl
      rw [List.foldlM_cons, hstep, Option.bind_eq_bind, Option.bind_some, ih, List.map_cons,
        List.map_cons, xorAll_cons, xorAll_cons, BitVec.xor_assoc, BitVec.xor_assoc,
        List.getD_eq_getElem?_getD, List.getD_eq_getElem?_getD, List.getElem?_eq_getElem hlt,
        List.getElem?_eq_getElem hlt', Option.getD_some, Option.getD_some]
  rw [computeRowWithBits, hacc, Option.bind_eq_bind, Option.bind_some, hloop, Option.bind_eq_bind,
    Option.bind_some]
  dsimp only
  rw [hbyte, Option.bind_eq_bind, Option.bind_some, BitVec.zero_xor]
  rfl

/-- **A chunk of rows with their bits.** -/
theorem computeRowsWithBits_spec {base : ℕ} (hbase : base % 4 = 0) (hD : 0 < D)
    (hx : x.length = enc.k) (hxBits : 8 * xBits.length = enc.k) (hy : y.length ≤ 4 * groups)
    (hyBits : y.length ≤ 8 * yBits.length) :
    ∃ yBits', enc.computeRowsWithBits prp emp D y yBits x xBits base =
      some (y.mapIdx fun q acc => acc ^^^ enc.rowSum prp emp D x (base + q), yBits') ∧
      yBits'.length = yBits.length ∧ ∀ i, bit yBits' i = (bit yBits i ^^
        (decide (i < y.length) && (enc.bitSum prp emp D xBits (base + i)).getLsbD 0)) := by
  have hgroups : ¬ groups < (y.length + 3) / 4 := by
    unfold groups at hy ⊢
    omega
  have hmask := enc.toNat_mask
  have hfull : ¬ (x.length < enc.mask.toNat + 1 ∨ xBits.length < enc.mask.toNat / 8 + 1) := by omega
  have htake : x.take (enc.mask.toNat + 1) = x := List.take_of_length_le (by omega)
  have htake' : xBits.take (enc.mask.toNat / 8 + 1) = xBits := List.take_of_length_le (by omega)
  rw [computeRowsWithBits, if_neg hgroups, if_neg hfull, rows_eq prp emp D hbase hD,
    List.foldlM_map, htake, htake']
  obtain ⟨t, ht, hlen, hall, hlen', hbits⟩ := exists_foldlM_range
    (f := fun s r => enc.computeRowWithBits x xBits s (columns prp emp D (base + r), r))
    (n := y.length) (s := (y, yBits))
    (P := fun r t => t.1.length = y.length ∧ (∀ q, t.1[q]? = (y[q]?).map fun acc =>
      if q < r then acc ^^^ enc.rowSum prp emp D x (base + q) else acc) ∧ t.2.length =
        yBits.length ∧
      ∀ i, bit t.2 i = (bit yBits i ^^
        (decide (i < r) && (enc.bitSum prp emp D xBits (base + i)).getLsbD 0)))
    ⟨rfl, fun q => by simp, rfl, fun i => by simp⟩ fun r hr s ⟨hlen, hall, hlen', hbits⟩ => by
      have hget : s.1[r]? = some y[r] := by
        rw [hall r, List.getElem?_eq_getElem hr, Option.map_some, if_neg (Nat.lt_irrefl r)]
      have hbyte : r / 8 < s.2.length := by omega
      have hget' : s.2[r / 8]? = some s.2[r / 8] := List.getElem?_eq_getElem hbyte
      refine ⟨_, computeRowWithBits_eq hx.ge (by omega) hget hget', ?_, fun q => ?_, ?_,
        fun i => ?_⟩
      · rw [List.length_set, hlen]
      · dsimp only
        rw [List.getElem?_set, hlen]
        by_cases hq : r = q
        · subst hq
          rw [if_pos rfl, if_pos hr, List.getElem?_eq_getElem hr, Option.map_some,
            if_pos (Nat.lt_succ_self r)]
          rfl
        · rw [if_neg hq, hall q]
          simp only [show q < r + 1 ↔ q < r by omega]
      · rw [List.length_set, hlen']
      · have hbit : (xorAll ((columns prp emp D (base + r)).map fun raw =>
            xBits.getD (enc.column raw / 8) 0#8 >>> (enc.column raw % 8))).getLsbD 0 =
              (enc.bitSum prp emp D xBits (base + r)).getLsbD 0 :=
          getLsbD_xorAll fun raw _ => by
            rw [BitVec.getLsbD_ushiftRight, Nat.add_zero, BitVec.getLsbD_ofBool, bit]
            simp
        dsimp only
        rw [bit_set hget', hbits i, hbit, Bool.xor_assoc]
        congr 1
        by_cases hi : i = r
        · subst hi
          simp
        · simp [hi, show i < r + 1 ↔ i < r by omega]
  obtain ⟨ys, yBits'⟩ := t
  refine ⟨yBits', ?_, hlen', hbits⟩
  rw [ht]
  have hys : ys = y.mapIdx fun q acc => acc ^^^ enc.rowSum prp emp D x (base + q) :=
    List.ext_getElem? fun q => by
      rw [hall, List.getElem?_mapIdx]
      by_cases hq : q < y.length
      · simp [hq]
      · rw [List.getElem?_eq_none (Nat.le_of_not_lt hq)]
        rfl
  rw [hys]

/-- **The chunks are the whole, with the bits beside them.** -/
theorem computeChunksWithBits_spec (hD : 0 < D) (hx : x.length = enc.k)
    (hxBits : 8 * xBits.length = enc.k) (c : ℕ) (y : List Block) (yBits : List (BitVec 8))
    (hyBits : yBits.length = (y.length + 7) / 8) :
    ∃ yBits', enc.computeChunksWithBits prp emp D x xBits c
        ((blocks (4 * groups) y).zip (blocks (4 * groups / 8) yBits)) =
      some (y.mapIdx fun q acc => acc ^^^ enc.rowSum prp emp D x (c * (4 * groups) + q), yBits') ∧
      yBits'.length = yBits.length ∧ ∀ i, bit yBits' i = (bit yBits i ^^
        (decide (i < y.length) && (enc.bitSum prp emp D xBits (c * (4 * groups) + i)).getLsbD
          0)) := by
  induction hm : y.length using Nat.strongRecOn generalizing y yBits c with
  | ind m ih =>
  have hpos : 0 < 4 * groups := by decide
  have hpos' : 0 < 4 * groups / 8 := by decide
  by_cases hnil : y = []
  · obtain rfl : yBits = [] := List.length_eq_zero_iff.mp (by rw [hyBits, hnil]; rfl)
    rw [← hm, hnil, blocks_nil, List.zip_nil_left, computeChunksWithBits]
    exact ⟨[], rfl, rfl, fun i => by simp⟩
  · have hlen := List.length_pos_iff.mpr hnil
    have hnil' : yBits ≠ [] := List.length_pos_iff.mp (by omega)
    have hbase : c * (4 * groups) % 4 = 0 := by
      unfold groups
      omega
    have hlt : (y.drop (4 * groups)).length < m := by
      rw [List.length_drop]
      omega
    have hbytes : (y.take (4 * groups)).length ≤ 8 * (yBits.take (4 * groups / 8)).length := by
      rw [List.length_take, List.length_take, hyBits]
      unfold groups
      omega
    have hdrop : (yBits.drop (4 * groups / 8)).length = ((y.drop (4 * groups)).length + 7) / 8 := by
      rw [List.length_drop, List.length_drop, hyBits]
      unfold groups
      omega
    obtain ⟨ys₁, hrun₁, hlen₁, hbits₁⟩ := computeRowsWithBits_spec prp emp D hbase hD hx hxBits
      (List.length_take_le _ _) hbytes
    obtain ⟨ys₂, hrun₂, hlen₂, hbits₂⟩ := ih _ hlt (c + 1) _ _ hdrop rfl
    refine ⟨ys₁ ++ ys₂, ?_, ?_, fun i => ?_⟩
    · rw [blocks_of_ne_nil hpos hnil, blocks_of_ne_nil hpos' hnil', List.zip_cons_cons,
        computeChunksWithBits, hrun₁, Option.bind_eq_bind, Option.bind_some]
      dsimp only
      rw [hrun₂, mapIdx_chunk (fun q acc => acc ^^^ enc.rowSum prp emp D x q) c y]
      rfl
    · rw [List.length_append, hlen₁, hlen₂, ← List.length_append, List.take_append_drop]
    · rw [← List.take_append_drop (4 * groups / 8) yBits]
      rcases Nat.lt_or_ge i (8 * (yBits.take (4 * groups / 8)).length) with hi | hi
      · have hmem : i < (y.take (4 * groups)).length ↔ i < m := by
          rw [List.length_take, hyBits] at hi
          rw [List.length_take]
          unfold groups at hi ⊢
          omega
        rw [bit_append_left (by rw [hlen₁]; exact hi), bit_append_left hi, hbits₁]
        simp only [hmem]
      · obtain ⟨i, rfl⟩ := Nat.exists_eq_add_of_le hi
        rw [bit_append_right, ← hlen₁, bit_append_right, hbits₂, hlen₁]
        congr 1
        have hmem : i < (y.drop (4 * groups)).length ↔ 8 * (yBits.take (4 * groups / 8)).length +
            i < m := by
          rw [List.length_drop, List.length_take, hyBits]
          unfold groups
          omega
        by_cases hlt : i < (y.drop (4 * groups)).length
        · have hfull : 8 * (yBits.take (4 * groups / 8)).length = 4 * groups := by
            rw [List.length_drop] at hlt
            rw [List.length_take, hyBits]
            unfold groups at hlt ⊢
            omega
          rw [decide_eq_true hlt, decide_eq_true (hmem.mp hlt), hfull, ← next_chunk,
            Nat.add_comm i]
        · rw [decide_eq_false hlt, decide_eq_false (mt hmem.mpr hlt), Bool.false_and,
            Bool.false_and]

/-- **The encoder adds the product with its matrix**, to the blocks and to the bits, and leaves the
bits behind the last row as they are. -/
theorem compute_correct (enc : LpnEncoder) (hD : 1 ≤ D) (hDk : D ≤ enc.k) (x y : List Block)
    (hx : x.length = enc.k) :
    (∃ y', enc.compute prp emp D y x = some y' ∧ y'.length = y.length ∧ ∀ r < y.length,
      y'.getD r 0#128 = y.getD r 0#128 ^^^
        product (matrix prp emp D enc) enc.k (fun j => x.getD j 0#128) r) ∧
    ∀ xBits yBits : List (BitVec 8), 8 * xBits.length = enc.k → yBits.length = (y.length + 7) / 8 →
      ∃ y' yBits', enc.compute prp emp D y x = some y' ∧
        enc.computeWithBits prp emp D y yBits x xBits = some (y', yBits') ∧ yBits'.length =
          yBits.length ∧
        (∀ r < y.length, BitVec.ofBool (bit yBits' r) = BitVec.ofBool (bit yBits r) ^^^
          product (matrix prp emp D enc) enc.k (fun j => BitVec.ofBool (bit xBits j)) r) ∧
        ∀ i, y.length ≤ i → bit yBits' i = bit yBits i := by
  have hlt := enc.k_lt
  have hmod : x.length % 2 ^ 32 = enc.k := by rw [hx, Nat.mod_eq_of_lt hlt]
  have hrun : enc.compute prp emp D y x =
      some (y.mapIdx fun q acc => acc ^^^ enc.rowSum prp emp D x (0 * (4 * groups) + q)) := by
    rw [compute, if_neg (by rw [hmod]; omega), computeChunks_eq prp emp D hD hx.ge]
  refine ⟨⟨_, hrun, List.length_mapIdx, fun r hr => ?_⟩, fun xBits yBits hxBits hyBits => ?_⟩
  · rw [List.getD_eq_getElem?_getD, List.getElem?_mapIdx, List.getElem?_eq_getElem hr,
      Option.map_some, Option.getD_some, List.getD_eq_getElem?_getD, List.getElem?_eq_getElem hr,
      Option.getD_some,
      product_matrix prp emp D enc _ _ enc.column_lt, Nat.zero_mul, Nat.zero_add, rowSum]
  · have hmod' : xBits.length % 2 ^ 32 * 8 = enc.k := by
      rw [Nat.mod_eq_of_lt (by omega)]
      omega
    obtain ⟨yBits', hrun', hlen, hbits⟩ :=
      computeChunksWithBits_spec prp emp D hD hx hxBits 0 y yBits hyBits
    refine ⟨_, yBits', hrun, ?_, hlen, fun r hr => ?_, fun i hi => ?_⟩
    · rw [computeWithBits, if_neg (by rw [hmod, hmod']; omega), hrun']
    · rw [hbits r, decide_eq_true hr, Bool.true_and, product_matrix prp emp D enc _ _ enc.column_lt,
        Nat.zero_mul, Nat.zero_add]
      refine BitVec.eq_of_getLsbD_eq fun j hj => ?_
      obtain rfl : j = 0 := Nat.lt_one_iff.mp hj
      rw [BitVec.getLsbD_xor, BitVec.getLsbD_ofBool, BitVec.getLsbD_ofBool, bitSum]
      rfl
    · rw [hbits i, decide_eq_false (Nat.not_lt_of_le hi), Bool.false_and, Bool.xor_false]

/-- An encoder with eight columns, and nine rows of two. -/
theorem compute_correct_nine :
    let enc : LpnEncoder := ⟨8, ⟨3, rfl⟩, by decide⟩
    let x := List.replicate 8 1#128
    let y := List.replicate 9 0#128
    (∃ y', enc.compute (fun b => ~~~b) false 2 y x = some y' ∧ y'.length = y.length ∧
      ∀ r < y.length, y'.getD r 0#128 = y.getD r 0#128 ^^^
        product (matrix (fun b => ~~~b) false 2 enc) enc.k (fun j => x.getD j 0#128) r) ∧
    ∀ xBits yBits : List (BitVec 8), 8 * xBits.length = enc.k → yBits.length = (y.length + 7) / 8 →
      ∃ y' yBits', enc.compute (fun b => ~~~b) false 2 y x = some y' ∧
        enc.computeWithBits (fun b => ~~~b) false 2 y yBits x xBits = some (y', yBits') ∧
        yBits'.length = yBits.length ∧
        (∀ r < y.length, BitVec.ofBool (bit yBits' r) = BitVec.ofBool (bit yBits r) ^^^
          product (matrix (fun b => ~~~b) false 2 enc) enc.k
          (fun j => BitVec.ofBool (bit xBits j)) r) ∧
        ∀ i, y.length ≤ i → bit yBits' i = bit yBits i :=
  compute_correct (fun b => ~~~b) false 2 ⟨8, ⟨3, rfl⟩, by decide⟩ (by decide) (by decide) _ _ rfl

end LpnEncoder

end Mpz
