import Mathlib.Data.List.Induction
import Mpz.Lib.Blocks
import Mpz.Lib.Shuffle

/-!
# Transposing a matrix of bits

The bytes are transposed by perfect shuffles between two buffers, of which the last one written is
the matrix. Each row of eight columns of bits is then taken apart: the lowest bits of eight bytes at
a time make up a byte, and the bytes are shifted, eight times over.

## Main definitions

* `transposeUnchecked`, `bitmaskShift`, `transposeBits` — the scalar path; `none` is a panic
* `IsTranspose` — the transpose of a matrix of bits, with the least significant bit of a byte first
* `Guarded` — the inputs on which there is no panic

## Main results

* `getD_transposeUnchecked` — the shuffles transpose the bytes
* `bitAt_bitmaskShift` — the rows, bit by bit
* `transposeBits_correct_iff` — the transpose is correct exactly on the guarded inputs
-/

namespace Mpz

namespace Transpose

/-! ### The code -/

section Code

variable {α : Type} [Inhabited α]

/-- The two buffers, and whether the one that is written is the matrix. -/
structure Buffers (α : Type) where
  write : List α
  read : List α
  writesMatrix : Bool

def Buffers.swap (b : Buffers α) : Buffers α := ⟨b.read, b.write, !b.writesMatrix⟩

/-- A round: the halves of the read buffer are written by turns, and the buffers change places. -/
def Buffers.round (half : ℕ) (b : Buffers α) : Buffers α :=
  let write := (List.range half).foldl (copyPair half b.read default) b.write
  { b with write }.swap

/-- The buffer that is the matrix. -/
def Buffers.matrix (b : Buffers α) : List α := if b.writesMatrix then b.write else b.read

/-- Unsafe matrix transpose -/
def transposeUnchecked (matrix : List α) (rounds : ℕ) : List α :=
  let half := matrix.length >>> 1
  let buffers : Buffers α := ⟨matrix, matrix, true⟩
  let buffers := if rounds &&& 1 = 0 then buffers.swap else buffers
  (Nat.iterate (Buffers.round half) rounds buffers).matrix

end Code

/-- The lowest bits of up to eight bytes. -/
def highBits (bytes : List (BitVec 8)) : BitVec 8 :=
  bytes.zipIdx.foldl (fun high p => high ||| (0b00000001#8 &&& p.1) <<< p.2) 0b00000000#8

/-- One of the eight passes over a row: the row, and the shifted row so far. -/
def shiftPass (s : List (BitVec 8) × List (BitVec 8)) : List (BitVec 8) × List (BitVec 8) :=
  (s.1.map fun b : BitVec 8 => b >>> 1, s.2 ++ (blocks 8 s.1).map highBits)

def shiftedRow (row : List (BitVec 8)) : List (BitVec 8) := (Nat.iterate shiftPass 8 (row, [])).2

/-- Single-row bit-mask shift. Copying a shifted row of another length panics. -/
def bitmaskShift (matrix : List (BitVec 8)) (columns : ℕ) : Option (List (BitVec 8)) :=
  if ∀ row ∈ blocks columns matrix, (shiftedRow row).length = row.length then
    some ((blocks columns matrix).flatMap shiftedRow)
  else none

inductive TransposeError where
  | invalidNumberOfRows
  | malformedSlice
  | invalidNumberOfColumns
deriving DecidableEq

/-- `rows - 1`, which panics or wraps around as the build checks for overflows or not. -/
def decrement (checked : Bool) (rows : ℕ) : Option ℕ :=
  if rows = 0 then if checked then none else some (2 ^ 64 - 1) else some (rows - 1)

/-- `usize::trailing_zeros` -/
def trailingZeros (n : ℕ) : ℕ := ((List.range 64).takeWhile fun i => !n.testBit i).length

/-- This function transposes a matrix on the bit-level. -/
def transposeBits (checked : Bool) (matrix : List (BitVec 8)) (rows : ℕ) :
    Option (Except TransposeError Unit × List (BitVec 8)) :=
  match decrement checked rows with
  | none => none
  | some mask =>
    if rows &&& mask ≠ 0 then some (.error .invalidNumberOfRows, matrix)
    else if matrix.length &&& mask ≠ 0 then some (.error .malformedSlice, matrix)
    -- The division panics for a divisor of zero.
    else if rows = 0 then none
    else
      let columns := matrix.length / rows
      if columns &&& 7 ≠ 0 ∨ columns < 8 then some (.error .invalidNumberOfColumns, matrix)
      else (bitmaskShift (transposeUnchecked matrix (trailingZeros rows)) rows).map
        fun matrix => (.ok (), matrix)

/-! ### The specification -/

/-- The bit of a slice at an index, with the least significant bit of a byte first. -/
def bitAt (matrix : List (BitVec 8)) (k : ℕ) : Bool := (matrix.getD (k / 8) 0).getLsbD (k % 8)

/-- The transpose of a slice of a number of rows. -/
def IsTranspose (rows : ℕ) (matrix out : List (BitVec 8)) : Prop :=
  out.length = matrix.length ∧ ∀ i < rows, ∀ j < 8 * matrix.length / rows,
    bitAt out (j * rows + i) = bitAt matrix (i * (8 * matrix.length / rows) + j)

/-- The slice splits into rows of a positive multiple of eight bytes. -/
def Splits (matrix : List (BitVec 8)) (rows : ℕ) : Prop :=
  rows ∣ matrix.length ∧ 8 ∣ matrix.length / rows ∧ 0 < matrix.length / rows

/-- What is claimed of a call: there is no panic, an error leaves the slice unchanged, a success
gives the transpose, eight rows or a larger power of two are a success where the slice splits into
rows, and a second success gives the slice back. -/
def Correct (checked : Bool) (matrix : List (BitVec 8)) (rows : ℕ) : Prop :=
  ∃ result out, transposeBits checked matrix rows = some (result, out) ∧
    (∀ e, result = .error e → out = matrix) ∧
    (result = .ok () → IsTranspose rows matrix out) ∧
    ((∃ n, rows = 2 ^ n) → 8 ≤ rows → Splits matrix rows → result = .ok ()) ∧
    (result = .ok () → ∀ out',
      transposeBits checked out (8 * matrix.length / rows) = some (.ok (), out') → out' = matrix)

/-- There is a row, or the subtraction wraps around and the slice is refused; and fewer than eight
rows are refused. -/
def Guarded (checked : Bool) (matrix : List (BitVec 8)) (rows : ℕ) : Prop :=
  (rows = 0 → checked = false ∧ matrix ≠ []) ∧
    (rows = 1 ∨ rows = 2 ∨ rows = 4 → ¬ Splits matrix rows)

/-! ### The shuffles -/

section Shuffle

variable {α : Type} [Inhabited α]

/-- What the rounds keep: both buffers have the length of the matrix, and the one that is read is
the matrix with its elements where the shuffles put them. -/
structure Buffers.Shuffled (half : ℕ) (matrix : List α) (writes : Bool) (t : ℕ) (b : Buffers α) :
    Prop where
  write : b.write.length = 2 * half
  read : b.read.length = 2 * half
  getD : ∀ i < 2 * half, b.read.getD i default = matrix.getD ((shuffleIndex half)^[t] i) default
  writesMatrix : b.writesMatrix = (writes ^^ decide (t % 2 = 1))

variable {half : ℕ} {matrix : List α} {writes : Bool} {t : ℕ} {b : Buffers α}

/-- **A round is a shuffle.** -/
theorem Buffers.Shuffled.round (h : b.Shuffled half matrix writes t) :
    (b.round half).Shuffled half matrix writes (t + 1) where
  write := h.read
  read := by
    rw [Buffers.round, Buffers.swap, length_foldl_copyPair, h.write]
  getD i hi := by
    rw [Buffers.round, Buffers.swap, getD_foldl_copyPair half b.read default h.write le_rfl,
      if_pos hi, h.getD _ (shuffleIndex_lt hi), Function.iterate_succ_apply]
  writesMatrix := by
    have hparity : decide ((t + 1) % 2 = 1) = !decide (t % 2 = 1) := by
      rcases Nat.mod_two_eq_zero_or_one t with h0 | h1
      · rw [h0, show (t + 1) % 2 = 1 by omega]
        rfl
      · rw [h1, show (t + 1) % 2 = 0 by omega]
        rfl
    rw [Buffers.round, Buffers.swap, h.writesMatrix, hparity, Bool.xor_not]

theorem Buffers.Shuffled.rounds (h : b.Shuffled half matrix writes 0) (n : ℕ) :
    ((Buffers.round half)^[n] b).Shuffled half matrix writes n := by
  induction n with
  | zero => exact h
  | succ n ih =>
    rw [Function.iterate_succ_apply']
    exact ih.round

/-- The rounds, for a slice of an even length or none of them. -/
theorem shuffled_transposeUnchecked (matrix : List α) (n : ℕ) (heven : n = 0 ∨ 2 ∣ matrix.length) :
    (transposeUnchecked matrix n).length = matrix.length ∧ ∀ i < matrix.length,
      (transposeUnchecked matrix n).getD i default =
        matrix.getD ((shuffleIndex (matrix.length / 2))^[n] i) default := by
  have hand : n &&& 1 = n % 2 := Nat.and_two_pow_sub_one_eq_mod n 1
  have hhalf : matrix.length >>> 1 = matrix.length / 2 := rfl
  rcases heven with rfl | ⟨k, hk⟩
  · exact ⟨rfl, fun i _ => rfl⟩
  have hlen : matrix.length = 2 * (matrix.length / 2) := by omega
  have hinit : ∀ writes : Bool, (⟨matrix, matrix, writes⟩ : Buffers α).Shuffled
      (matrix.length / 2) matrix
      writes 0 := fun writes =>
    { write := hlen, read := hlen, getD := fun i _ => rfl, writesMatrix := by simp }
  have hstart : (if n &&& 1 = 0 then (⟨matrix, matrix, true⟩ : Buffers α).swap
      else ⟨matrix, matrix, true⟩) = ⟨matrix, matrix, decide (n % 2 = 1)⟩ := by
    rw [hand]
    rcases Nat.mod_two_eq_zero_or_one n with h | h <;> rw [h] <;> rfl
  have hrun := (hinit (decide (n % 2 = 1))).rounds n
  have hread : (transposeUnchecked matrix n) =
      ((Buffers.round (matrix.length / 2))^[n] ⟨matrix, matrix, decide (n % 2 = 1)⟩).read := by
    rw [transposeUnchecked, hhalf, hstart, Buffers.matrix, hrun.writesMatrix, Bool.xor_self]
    rfl
  rw [hread]
  exact ⟨hrun.read.trans hlen.symm, fun i hi => hrun.getD i (by omega)⟩

/-- **The shuffles transpose the bytes.** -/
theorem getD_transposeUnchecked {n c : ℕ} (hlen : matrix.length = 2 ^ n * c) :
    (transposeUnchecked matrix n).length = matrix.length ∧ ∀ i < matrix.length,
      (transposeUnchecked matrix n).getD i default =
        matrix.getD (i / 2 ^ n + c * (i % 2 ^ n)) default := by
  have heven : n = 0 ∨ 2 ∣ matrix.length := by
    rcases Nat.eq_zero_or_pos n with h | h
    · exact .inl h
    · rw [hlen]
      exact .inr (Dvd.dvd.mul_right (dvd_pow_self 2 h.ne') c)
  obtain ⟨hlength, hget⟩ := shuffled_transposeUnchecked matrix n heven
  refine ⟨hlength, fun i hi => ?_⟩
  rw [hget i hi, hlen, iterate_shuffleIndex le_rfl, Nat.sub_self, Nat.pow_zero, Nat.one_mul]

end Shuffle

/-! ### The rows -/

theorem getLsbD_highBits {l : List (BitVec 8)} (hl : l.length ≤ 8) {k : ℕ} (hk : k < 8) :
    (highBits l).getLsbD k = (l.getD k 0).getLsbD 0 := by
  rw [highBits]
  induction l using List.reverseRecOn with
  | nil => simp
  | append_singleton l b ih =>
    rw [List.length_append, List.length_singleton] at hl
    rw [List.zipIdx_append, List.foldl_append, List.zipIdx_singleton, List.foldl_cons,
      List.foldl_nil, BitVec.getLsbD_or, ih (by omega), BitVec.getLsbD_shiftLeft,
      BitVec.getLsbD_and, Nat.zero_add]
    rcases Nat.lt_trichotomy k l.length with h | h | h
    · rw [List.getD_append _ _ _ _ h]
      simp [h]
    · subst h
      rw [List.getD_append_right _ _ _ _ le_rfl]
      simp [show l.length < 8 by omega]
    · rw [List.getD_append_right _ _ _ _ h.le]
      have hne : k - l.length ≠ 0 := by omega
      simp [hk, show ¬ k < l.length by omega, hne, BitVec.getLsbD_one]

/-- The passes over a row. -/
theorem iterate_shiftPass (row : List (BitVec 8)) (n : ℕ) : shiftPass^[n] (row, []) =
    (row.map fun b : BitVec 8 => b >>> n, (List.range n).flatMap fun s =>
      (blocks 8 (row.map fun b : BitVec 8 => b >>> s)).map highBits) := by
  induction n with
  | zero => simp
  | succ n ih =>
    rw [Function.iterate_succ_apply', ih, shiftPass, List.map_map, List.range_succ,
      List.flatMap_append, List.flatMap_singleton]
    congr 2

theorem shiftedRow_eq (row : List (BitVec 8)) : shiftedRow row = (List.range 8).flatMap fun s =>
    (blocks 8 (row.map fun b : BitVec 8 => b >>> s)).map highBits := by
  rw [shiftedRow, iterate_shiftPass]

/-- The bytes of a pass. -/
theorem blocks_pass {row : List (BitVec 8)} {size : ℕ} (hrow : row.length = 8 * size) (s : ℕ) :
    (blocks 8 (row.map fun b : BitVec 8 => b >>> s)).map highBits = (List.range size).map fun g =>
      highBits (((row.map fun b : BitVec 8 => b >>> s).drop (8 * g)).take 8) := by
  rw [blocks_eq_map (by decide) (by rw [List.length_map, hrow]), List.map_map]
  rfl

theorem length_shiftedRow {row : List (BitVec 8)} {size : ℕ} (hrow : row.length = 8 * size) :
    (shiftedRow row).length = row.length := by
  rw [shiftedRow_eq, List.length_flatMap]
  simp [blocks_pass hrow, hrow]
  omega

/-- A row of less than eight bytes becomes eight bytes. -/
theorem length_shiftedRow_of_lt {row : List (BitVec 8)} (hne : row ≠ []) (hlt : row.length < 8) :
    (shiftedRow row).length = 8 := by
  have hblocks : ∀ s : ℕ, blocks 8 (row.map fun b : BitVec 8 => b >>> s) =
      [row.map fun b : BitVec 8 => b >>> s] := by
    intro s
    exact blocks_of_length_le (by decide) (by simpa using hne)
      (by rw [List.length_map]; exact hlt.le)
  rw [shiftedRow_eq, List.length_flatMap]
  simp [hblocks]

/-- **A row, bit by bit.** -/
theorem getLsbD_shiftedRow {row : List (BitVec 8)} {size s g k : ℕ} (hrow : row.length = 8 * size)
    (hs : s < 8) (hg : g < size) (hk : k < 8) :
    ((shiftedRow row).getD (s * size + g) 0).getLsbD k = (row.getD (8 * g + k) 0).getLsbD s := by
  have hpass : ∀ s < 8, ((blocks 8 (row.map fun b : BitVec 8 => b >>> s)).map highBits).length =
      size := by
    intro s _
    rw [blocks_pass hrow, List.length_map, List.length_range]
  rw [shiftedRow_eq, getD_flatMap_range hpass hs hg, blocks_pass hrow, List.getD_eq_getElem?_getD,
    List.getElem?_map, List.getElem?_range hg, Option.map_some, Option.getD_some,
    getLsbD_highBits (List.length_take_le _ _) hk, List.getD_eq_getElem?_getD,
    List.getElem?_take_of_lt hk,
    List.getElem?_drop, List.getElem?_map, List.getD_eq_getElem?_getD]
  cases row[8 * g + k]? with
  | none => simp
  | some b => simp

/-- The rows of a matrix whose rows split into bytes. -/
theorem bitmaskShift_eq {matrix : List (BitVec 8)} {size c : ℕ} (hsize : 0 < size)
    (hlen : matrix.length = 8 * size * c) : bitmaskShift matrix (8 * size) =
      some ((List.range c).flatMap fun i =>
        shiftedRow ((matrix.drop (8 * size * i)).take (8 * size))) := by
  have hdvd : 8 * size ∣ matrix.length := ⟨c, hlen⟩
  have hrows : ∀ row ∈ blocks (8 * size) matrix, (shiftedRow row).length = row.length :=
    fun row hrow =>
    length_shiftedRow (length_of_mem_blocks hdvd row hrow)
  rw [bitmaskShift, if_pos hrows, blocks_eq_map (by omega) hlen, List.flatMap_map]

/-- **The rows, bit by bit.** -/
theorem bitAt_bitmaskShift {matrix : List (BitVec 8)} {size c : ℕ} (hsize : 0 < size)
    (hlen : matrix.length = 8 * size * c) : ∃ out, bitmaskShift matrix (8 * size) = some out ∧
      out.length = matrix.length ∧ ∀ i < 8 * size, ∀ j < 8 * c,
        bitAt out (j * (8 * size) + i) = (matrix.getD (8 * size * (j / 8) + i) 0).getLsbD
        (j % 8) := by
  have hrow : ∀ r < c, ((matrix.drop (8 * size * r)).take (8 * size)).length = 8 * size := by
    intro r hr
    have hle : 8 * size * r + 8 * size ≤ 8 * size * c := by
      rw [← Nat.mul_succ]
      exact Nat.mul_le_mul_left _ hr
    rw [List.length_take, List.length_drop, hlen]
    omega
  have hpart : ∀ r < c, (shiftedRow ((matrix.drop (8 * size * r)).take (8 * size))).length =
      8 * size :=
    fun r hr => (length_shiftedRow (hrow r hr)).trans (hrow r hr)
  refine ⟨_, bitmaskShift_eq hsize hlen, ?_, fun i hi j hj => ?_⟩
  · rw [List.length_flatMap, List.map_congr_left (g := fun _ => 8 * size)
      fun r hr => hpart r (List.mem_range.mp hr), hlen]
    simp [Nat.mul_comm]
  · have hbyte : (j * (8 * size) + i) / 8 = j / 8 * (8 * size) + (j % 8 * size + i / 8) := by
      have hj8 : j * (8 * size) = 8 * (j / 8 * (8 * size) + j % 8 * size) := by
        conv_lhs => rw [← Nat.div_add_mod j 8]
        ring
      rw [hj8, Nat.mul_add_div (by decide), Nat.add_assoc]
    have hbit : (j * (8 * size) + i) % 8 = i % 8 := by
      rw [Nat.mul_left_comm, Nat.mul_add_mod]
    have hg : i / 8 < size := by omega
    have hq : j % 8 * size + i / 8 < 8 * size := by
      have := Nat.mul_le_mul_right size (show j % 8 + 1 ≤ 8 by omega)
      rw [Nat.succ_mul] at this
      omega
    rw [bitAt, hbyte, hbit, getD_flatMap_range hpart (by omega) hq,
      getLsbD_shiftedRow (hrow _ (by omega)) (by omega) hg (by omega), Nat.div_add_mod,
      List.getD_eq_getElem?_getD, List.getElem?_take_of_lt hi, List.getElem?_drop,
      ← List.getD_eq_getElem?_getD]

/-! ### The transpose -/

/-- **Both steps give the transpose**, for eight rows or a larger power of two. -/
theorem exists_isTranspose {matrix : List (BitVec 8)} {n c : ℕ} (hn : 3 ≤ n)
    (hlen : matrix.length = 2 ^ n * c) :
    ∃ out, bitmaskShift (transposeUnchecked matrix n) (2 ^ n) = some out ∧
      IsTranspose (2 ^ n) matrix out := by
  obtain ⟨hlength, hget⟩ := getD_transposeUnchecked hlen
  have hsize : 2 ^ n = 8 * 2 ^ (n - 3) := by
    conv_lhs => rw [show n = 3 + (n - 3) by omega, Nat.pow_add]
  have hpos : 0 < 2 ^ n := Nat.two_pow_pos n
  obtain ⟨out, hout, houtlen, hbits⟩ := bitAt_bitmaskShift (c := c) (Nat.two_pow_pos (n - 3))
    (hlength.trans (hlen.trans (by rw [hsize])))
  rw [← hsize] at hout hbits
  have hcols : 8 * matrix.length / 2 ^ n = 8 * c := by
    rw [hlen, Nat.mul_left_comm, Nat.mul_div_cancel_left _ hpos]
  refine ⟨out, hout, houtlen.trans hlength, fun i hi j hj => ?_⟩
  rw [hcols] at hj
  have hindex : 2 ^ n * (j / 8) + i < matrix.length := by
    have hle : 2 ^ n * (j / 8 + 1) ≤ 2 ^ n * c := Nat.mul_le_mul_left _ (by omega)
    rw [Nat.mul_succ] at hle
    omega
  have hbyte : (i * (8 * c) + j) / 8 = j / 8 + c * i := by
    rw [Nat.mul_left_comm, Nat.mul_add_div (by decide), Nat.mul_comm i, Nat.add_comm]
  have hbit : (i * (8 * c) + j) % 8 = j % 8 := by
    rw [Nat.mul_left_comm, Nat.mul_add_mod]
  have hmove := hget _ hindex
  rw [Nat.mul_add_div hpos, Nat.div_eq_of_lt hi, Nat.add_zero, Nat.mul_add_mod, Nat.mod_eq_of_lt hi]
    at hmove
  rw [hbits i hi j hj, hcols, bitAt, hbyte, hbit]
  exact congrArg (BitVec.getLsbD · (j % 8)) hmove

/-- Fewer than eight rows cannot be copied back. -/
theorem bitmaskShift_eq_none {matrix : List (BitVec 8)} {n : ℕ} (hn : n < 3)
    (hle : 2 ^ n ≤ matrix.length) : bitmaskShift matrix (2 ^ n) = none := by
  have hpos : 0 < 2 ^ n := Nat.two_pow_pos n
  have hlt : 2 ^ n < 8 := Nat.pow_lt_pow_right (show 1 < 2 by decide) hn
  have hne : matrix ≠ [] := List.length_pos_iff.mp (by omega)
  have hlen : (matrix.take (2 ^ n)).length = 2 ^ n := List.length_take_of_le hle
  have hrow : (shiftedRow (matrix.take (2 ^ n))).length = 8 :=
    length_shiftedRow_of_lt (List.length_pos_iff.mp (by omega)) (by omega)
  have hmem : matrix.take (2 ^ n) ∈ blocks (2 ^ n) matrix := by
    rw [blocks_of_ne_nil hpos hne]
    exact List.mem_cons_self
  refine if_neg fun hall => ?_
  have := hall _ hmem
  omega

theorem trailingZeros_two_pow {n : ℕ} (hn : n < 64) : trailingZeros (2 ^ n) = n := by
  have hrange : List.range 64 = List.range n ++
      (n :: (List.range (63 - n)).map fun i => n + (i + 1)) := by
    rw [show 64 = n + (63 - n + 1) by omega, List.range_add, List.range_succ_eq_map, List.map_cons,
      List.map_map, Nat.add_zero]
    congr 3
  have hbit : ∀ i, (!Nat.testBit (2 ^ n) i) = !decide (n = i) :=
    fun i => by rw [Nat.testBit_two_pow]
  have hall : ∀ i ∈ List.range n, (!decide (n = i)) = true := by
    intro i hi
    have := List.mem_range.mp hi
    simp [show n ≠ i by omega]
  simp only [trailingZeros, hbit]
  rw [hrange, List.takeWhile_append_of_pos hall, List.takeWhile_cons_of_neg (by simp),
    List.append_nil, List.length_range]

theorem isPowerOfTwo_iff {rows : ℕ} (h : rows ≠ 0) : rows &&& (rows - 1) = 0 ↔ ∃ n, rows = 2 ^ n :=
  Nat.and_sub_one_eq_zero_iff_isPowerOfTwo h

variable {checked : Bool} {matrix : List (BitVec 8)} {rows n : ℕ}

/-- Rows that are no power of two are refused. -/
theorem transposeBits_of_not_pow (h0 : rows ≠ 0) (h : ¬ ∃ n, rows = 2 ^ n) :
    transposeBits checked matrix rows = some (.error .invalidNumberOfRows, matrix) := by
  have hand : rows &&& (rows - 1) ≠ 0 := fun heq => h ((isPowerOfTwo_iff h0).mp heq)
  simp [transposeBits, decrement, h0, hand]

/-- The columns that are accepted. -/
theorem columns_iff (columns : ℕ) :
    (columns &&& 7 ≠ 0 ∨ columns < 8) ↔ ¬ (8 ∣ columns ∧ 0 < columns) := by
  have hand : columns &&& 7 = columns % 8 := Nat.and_two_pow_sub_one_eq_mod columns 3
  rw [hand]
  omega

/-- A slice that does not split is refused. -/
theorem transposeBits_of_not_splits (checked : Bool) (h : ¬ Splits matrix (2 ^ n)) :
    ∃ e, transposeBits checked matrix (2 ^ n) = some (.error e, matrix) := by
  have h0 : 2 ^ n ≠ 0 := (Nat.two_pow_pos n).ne'
  have hpow := (isPowerOfTwo_iff h0).mpr ⟨n, rfl⟩
  have hmod : matrix.length &&& (2 ^ n - 1) = matrix.length % 2 ^ n :=
    Nat.and_two_pow_sub_one_eq_mod matrix.length n
  by_cases hdvd : 2 ^ n ∣ matrix.length
  · have hcols : matrix.length / 2 ^ n &&& 7 ≠ 0 ∨ matrix.length / 2 ^ n < 8 :=
      (columns_iff _).mpr fun hc => h ⟨hdvd, hc⟩
    refine ⟨.invalidNumberOfColumns, ?_⟩
    simp only [transposeBits, decrement, if_neg h0, hpow, hmod, Nat.mod_eq_zero_of_dvd hdvd, ne_eq,
      not_true_eq_false, if_false]
    exact if_pos hcols
  · refine ⟨.malformedSlice, ?_⟩
    have hne : ¬ matrix.length % 2 ^ n = 0 := fun heq => hdvd (Nat.dvd_of_mod_eq_zero heq)
    simp [transposeBits, decrement, hpow, hmod, hne]

/-- A slice that splits is transposed. -/
theorem transposeBits_of_splits (hlen : matrix.length < 2 ^ 64) (h : Splits matrix (2 ^ n)) :
    transposeBits checked matrix (2 ^ n) =
      (bitmaskShift (transposeUnchecked matrix n) (2 ^ n)).map fun matrix => (.ok (), matrix) := by
  obtain ⟨hdvd, hcols⟩ := h
  have h0 : 2 ^ n ≠ 0 := (Nat.two_pow_pos n).ne'
  have hpow := (isPowerOfTwo_iff h0).mpr ⟨n, rfl⟩
  have hmod : matrix.length &&& (2 ^ n - 1) = matrix.length % 2 ^ n :=
    Nat.and_two_pow_sub_one_eq_mod matrix.length n
  have hn : n < 64 := by
    have hle : 2 ^ n ≤ matrix.length := Nat.div_pos_iff.mp hcols.2 |>.2
    exact (Nat.pow_lt_pow_iff_right (show 1 < 2 by decide)).mp (hle.trans_lt hlen)
  have hok : ¬ (matrix.length / 2 ^ n &&& 7 ≠ 0 ∨ matrix.length / 2 ^ n < 8) := fun hc =>
    (columns_iff _).mp hc hcols
  simp only [transposeBits, decrement, if_neg h0, hpow, hmod, Nat.mod_eq_zero_of_dvd hdvd, ne_eq,
    not_true_eq_false, if_false, trailingZeros_two_pow hn]
  exact if_neg hok

/-- Without a row the subtraction panics, or else the division does. -/
theorem transposeBits_zero_eq_none (h : checked = true ∨ matrix = []) :
    transposeBits checked matrix 0 = none := by
  cases checked with
  | true => rfl
  | false =>
    have hnil : matrix = [] := h.resolve_left (by decide)
    subst hnil
    rfl

/-- Without a row a slice is refused where the subtraction wraps around. -/
theorem transposeBits_zero_eq_some (hlen : matrix.length < 2 ^ 64) (hchecked : checked = false)
    (hne : matrix ≠ []) :
    transposeBits checked matrix 0 = some (.error .malformedSlice, matrix) := by
  have hmod : matrix.length &&& (2 ^ 64 - 1) = matrix.length := by
    rw [Nat.and_two_pow_sub_one_eq_mod, Nat.mod_eq_of_lt hlen]
  have hpos := List.length_pos_iff.mpr hne
  subst hchecked
  simp only [transposeBits, decrement, if_true, if_false, Bool.false_eq_true, hmod,
    Nat.zero_and, ne_eq, not_true_eq_false]
  exact if_pos hpos.ne'

/-- Fewer than eight rows that are not refused are a panic. -/
theorem transposeBits_eq_none (hlen : matrix.length < 2 ^ 64) (hn : n < 3)
    (h : Splits matrix (2 ^ n)) :
    transposeBits checked matrix (2 ^ n) = none := by
  obtain ⟨c, hc⟩ := h.1
  have hle : 2 ^ n ≤ matrix.length := Nat.div_pos_iff.mp h.2.2 |>.2
  have hlength := (getD_transposeUnchecked hc).1
  rw [transposeBits_of_splits hlen h, bitmaskShift_eq_none hn (by omega), Option.map_none]

/-- **What a success is**: the transpose of rows whose number is a power of two of at least
eight. -/
theorem isTranspose_of_ok {out : List (BitVec 8)} (hlen : matrix.length < 2 ^ 64)
    (h : transposeBits checked matrix rows = some (.ok (), out)) :
    IsTranspose rows matrix out ∧ Splits matrix rows := by
  by_cases h0 : rows = 0
  · subst h0
    by_cases hnone : checked = true ∨ matrix = []
    · rw [transposeBits_zero_eq_none hnone] at h
      cases h
    · rw [not_or, Bool.not_eq_true] at hnone
      rw [transposeBits_zero_eq_some hlen hnone.1 hnone.2] at h
      cases h
  by_cases hpow : ∃ n, rows = 2 ^ n
  · obtain ⟨n, rfl⟩ := hpow
    by_cases hs : Splits matrix (2 ^ n)
    · obtain ⟨c, hc⟩ := hs.1
      rcases Nat.lt_or_ge n 3 with hlt | hge
      · rw [transposeBits_eq_none hlen hlt hs] at h
        cases h
      · obtain ⟨out', hout', htranspose⟩ := exists_isTranspose hge hc
        rw [transposeBits_of_splits hlen hs, hout', Option.map_some, Option.some_inj,
          Prod.mk.injEq] at h
        exact ⟨h.2 ▸ htranspose, hs⟩
    · obtain ⟨e, he⟩ := transposeBits_of_not_splits checked hs
      rw [he] at h
      cases h
  · rw [transposeBits_of_not_pow h0 hpow] at h
    cases h

/-- Slices with the same bits are the same. -/
theorem eq_of_bitAt {l k : List (BitVec 8)} (hlen : l.length = k.length)
    (h : ∀ i < 8 * k.length, bitAt l i = bitAt k i) : l = k := by
  refine List.ext_getElem hlen fun i hl hk => BitVec.eq_of_getLsbD_eq fun b hb => ?_
  have hbit := h (8 * i + b) (by omega)
  rw [bitAt, bitAt, Nat.mul_add_div (by decide), Nat.div_eq_of_lt hb, Nat.add_zero, Nat.mul_add_mod,
    Nat.mod_eq_of_lt hb, List.getD_eq_getElem _ _ hl, List.getD_eq_getElem _ _ hk] at hbit
  exact hbit

/-- **The transpose of the transpose.** -/
theorem IsTranspose.transpose {out out' : List (BitVec 8)} (hs : Splits matrix rows)
    (h : IsTranspose rows matrix out) (h' : IsTranspose (8 * matrix.length / rows) out out') :
    out' = matrix := by
  obtain ⟨⟨c, hc⟩, -, hpos⟩ := hs
  have hle := Nat.div_pos_iff.mp hpos
  have hrows : 0 < rows := hle.1
  have hcpos : 0 < c := by
    rcases Nat.eq_zero_or_pos c with h0 | h0
    · rw [h0, Nat.mul_zero] at hc
      omega
    · exact h0
  have hcols : 8 * matrix.length / rows = 8 * c := by
    rw [hc, Nat.mul_left_comm, Nat.mul_div_cancel_left _ hrows]
  have hback : 8 * out.length / (8 * c) = rows := by
    rw [h.1, hc, Nat.mul_left_comm, Nat.mul_comm rows, Nat.mul_div_cancel_left _ (by omega)]
  obtain ⟨hlen, hbits⟩ := h
  obtain ⟨hlen', hbits'⟩ := h'
  rw [hcols] at hbits hbits'
  rw [hback] at hbits'
  refine eq_of_bitAt (hlen'.trans hlen) fun k hk => ?_
  have hmod : k % (8 * c) < 8 * c := Nat.mod_lt _ (by omega)
  have hdiv : k / (8 * c) < rows := by
    rw [Nat.div_lt_iff_lt_mul (by omega), Nat.mul_left_comm, ← hc]
    exact hk
  have hk' : k / (8 * c) * (8 * c) + k % (8 * c) = k := Nat.div_add_mod' k (8 * c)
  rw [← hk', hbits' _ hmod _ hdiv, hbits _ hdiv _ hmod]

/-! ### The claim -/

/-- **The transpose is correct exactly on the guarded inputs.** -/
theorem transposeBits_correct_iff (checked : Bool) (matrix : List (BitVec 8)) (rows : ℕ)
    (hlen : matrix.length < 2 ^ 64) : Correct checked matrix rows ↔
      Guarded checked matrix rows := by
  constructor
  · rintro ⟨result, out, hout, -⟩
    constructor
    · rintro rfl
      by_contra hnot
      have hnone : checked = true ∨ matrix = [] := by
        by_contra hneg
        rw [not_or, Bool.not_eq_true] at hneg
        exact hnot hneg
      rw [transposeBits_zero_eq_none hnone] at hout
      cases hout
    · intro hrows hs
      obtain ⟨n, hn, rfl⟩ : ∃ n < 3, rows = 2 ^ n := by
        rcases hrows with rfl | rfl | rfl
        · exact ⟨0, by decide, rfl⟩
        · exact ⟨1, by decide, rfl⟩
        · exact ⟨2, by decide, rfl⟩
      rw [transposeBits_eq_none hlen hn hs] at hout
      cases hout
  · rintro ⟨hzero, hsmall⟩
    -- An error is correct where the call is not to be a success.
    have herror : ∀ e, transposeBits checked matrix rows = some (.error e, matrix) →
        ((∃ n, rows = 2 ^ n) → 8 ≤ rows → ¬ Splits matrix rows) → Correct checked matrix rows := by
      intro e he hnot
      refine ⟨.error e, matrix, he, fun _ _ => rfl, (fun h => by cases h), fun hpow h8 hs => ?_,
        (fun h => by cases h)⟩
      exact absurd hs (hnot hpow h8)
    by_cases h0 : rows = 0
    · obtain ⟨hchecked, hne⟩ := hzero h0
      subst h0
      refine herror _ (transposeBits_zero_eq_some hlen hchecked hne) fun _ h8 => ?_
      omega
    by_cases hpow : ∃ n, rows = 2 ^ n
    · by_cases hs : Splits matrix rows
      · obtain ⟨n, rfl⟩ := hpow
        have hn : 3 ≤ n := by
          by_contra hlt
          refine hsmall ?_ hs
          rcases (show n = 0 ∨ n = 1 ∨ n = 2 by omega) with rfl | rfl | rfl <;> simp
        obtain ⟨c, hc⟩ := hs.1
        obtain ⟨out, hout, htranspose⟩ := exists_isTranspose hn hc
        have hok : transposeBits checked matrix (2 ^ n) = some (.ok (), out) := by
          rw [transposeBits_of_splits hlen hs, hout, Option.map_some]
        refine ⟨.ok (), out, hok, (fun _ h => by cases h), fun _ => htranspose, fun _ _ _ => rfl,
          fun _ out' hout' => ?_⟩
        have hsecond := isTranspose_of_ok (by rw [htranspose.1]; exact hlen) hout'
        exact htranspose.transpose hs hsecond.1
      · obtain ⟨n, rfl⟩ := hpow
        obtain ⟨e, he⟩ := transposeBits_of_not_splits checked hs
        exact herror e he fun _ _ => hs
    · exact herror _ (transposeBits_of_not_pow h0 hpow) fun hex => absurd hex hpow

theorem transposeBits_correct_iff_eight : Correct true (List.replicate 64 1) 8 ↔
    Guarded true (List.replicate 64 1) 8 :=
  transposeBits_correct_iff true (List.replicate 64 1) 8 (by decide)

/-- Four rows of eight bytes are a panic. -/
theorem not_correct_four_rows : ¬ Correct true (List.replicate 32 0) 4 := by
  rintro ⟨result, out, hout, -⟩
  have hnone : transposeBits true (List.replicate 32 0) 4 = none := by decide +kernel
  rw [hnone] at hout
  cases hout

end Transpose

end Mpz
