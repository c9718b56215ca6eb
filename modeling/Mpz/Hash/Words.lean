import Mpz.Lib.Blocks
import Mathlib.Data.List.OfFn

/-!
# Words and bytes

Memory is a sequence of bits, and a word has its least significant bit first. A byte string has its
bytes in their order, and in memory each of them has its least significant bit first as well, so a
word in little-endian order has the same bits as its bytes. In big-endian order the bytes are
reversed, and the bits of each byte are not.

## Main definitions

* `intoClear`, `fromClear` — the bits of some words, and the words of some bits
* `toBeBytes`, `toLeBytes` — the bytes of a word

## Main results

* `intoClear_fromClear` — the words of some bits have these bits
* `intoClear_toBeBytes`, `intoClear_toLeBytes` — the bits of the bytes of words
-/

namespace Mpz

/-- The bits of some words, least significant first: `ClearValue::into_clear`. -/
def intoClear {w : ℕ} (words : List (BitVec w)) : List Bool :=
  words.flatMap fun word => List.ofFn fun i : Fin w => word[i]

theorem length_intoClear {w : ℕ} (words : List (BitVec w)) :
    (intoClear words).length = w * words.length := by
  induction words with
  | nil => rfl
  | cons word words ih =>
    rw [intoClear, List.flatMap_cons, List.length_append, List.length_ofFn, ← intoClear, ih,
      List.length_cons, Nat.mul_succ, Nat.add_comm]

theorem intoClear_append {w : ℕ} (l k : List (BitVec w)) :
    intoClear (l ++ k) = intoClear l ++ intoClear k := List.flatMap_append

theorem intoClear_take {w : ℕ} (words : List (BitVec w)) (k : ℕ) :
    intoClear (words.take k) = (intoClear words).take (w * k) := by
  conv_rhs => rw [← List.take_append_drop k words, intoClear_append]
  rcases Nat.le_total k words.length with hle | hle
  · rw [List.take_left']
    rw [length_intoClear, List.length_take, Nat.min_eq_left hle]
  · have hlen : (intoClear words).length ≤ w * k := by
      rw [length_intoClear]
      exact Nat.mul_le_mul_left w hle
    rw [← intoClear_append, List.take_append_drop, List.take_of_length_le hle,
      List.take_of_length_le hlen]

theorem intoClear_replicate_zero (w n : ℕ) :
    intoClear (List.replicate n (0 : BitVec w)) = List.replicate (w * n) false := by
  induction n with
  | zero => rfl
  | succ n ih =>
    have hzero : (List.ofFn fun i : Fin w => (0 : BitVec w)[i]) = List.replicate w false := by
      refine List.ext_getElem (by simp) fun i h h' => by simp
    rw [List.replicate_succ, intoClear, List.flatMap_cons, ← intoClear, ih, hzero,
      ← List.replicate_add, Nat.mul_succ, Nat.add_comm]

/-- A word of some bits. -/
def word (w : ℕ) (bits : List Bool) : BitVec w := (BitVec.ofBoolListLE bits).setWidth w

/-- The words of some bits. -/
def fromClear (w : ℕ) (bits : List Bool) : List (BitVec w) := (blocks w bits).map (word w)

/-- `to_be_bytes` -/
def toBeBytes {w : ℕ} (x : BitVec w) : List (BitVec 8) :=
  (List.range (w / 8)).reverse.map fun i => x.extractLsb' (8 * i) 8

/-- `to_le_bytes` -/
def toLeBytes {w : ℕ} (x : BitVec w) : List (BitVec 8) :=
  (List.range (w / 8)).map fun i => x.extractLsb' (8 * i) 8

theorem ofFn_word {w : ℕ} {bits : List Bool} (h : bits.length = w) :
    (List.ofFn fun i : Fin w => (word w bits)[i]) = bits := by
  refine List.ext_getElem (by rw [List.length_ofFn, h]) fun i hi hi' => ?_
  simp [word, BitVec.getElem_setWidth, hi']

theorem intoClear_fromClear {w : ℕ} (hw : 0 < w) {bits : List Bool} (h : w ∣ bits.length) :
    intoClear (fromClear w bits) = bits := by
  have hwords : ∀ b ∈ blocks w bits, (List.ofFn fun i : Fin w => (word w b)[i]) = b := fun b hb =>
    ofFn_word (length_of_mem_blocks h b hb)
  rw [intoClear, fromClear, List.flatMap_map, List.flatMap_congr hwords, List.flatMap_id',
    flatten_blocks hw]

theorem intoClear_singleton {w : ℕ} (x : BitVec w) :
    intoClear [x] = List.ofFn fun i : Fin w => x[i] := List.flatMap_singleton _ x

/-- One byte of a word. -/
theorem intoClear_byte {w i : ℕ} {bits : List Bool} (h : bits.length = w) (hi : 8 * i + 8 ≤ w) :
    intoClear [(word w bits).extractLsb' (8 * i) 8] = (bits.drop (8 * i)).take 8 := by
  have hlen : ((bits.drop (8 * i)).take 8).length = 8 := by
    rw [List.length_take, List.length_drop]
    omega
  rw [intoClear_singleton]
  refine List.ext_getElem (by rw [List.length_ofFn, hlen]) fun k hk hk' => ?_
  have hlt : k < 8 := hlen ▸ hk'
  have hbit : 8 * i + k < w := by omega
  rw [List.getElem_ofFn, List.getElem_take, List.getElem_drop]
  simp [word, h, hlt, hbit, ← BitVec.getLsbD_eq_getElem]

theorem length_toBeBytes {w : ℕ} (x : BitVec w) : (toBeBytes x).length = w / 8 := by
  simp [toBeBytes]

/-- The bytes of a word determine it. -/
theorem toBeBytes_injective {w : ℕ} (hw : 8 ∣ w) :
    Function.Injective (toBeBytes : BitVec w → List (BitVec 8)) := by
  intro x y hxy
  rw [toBeBytes, toBeBytes, List.map_inj_left] at hxy
  refine BitVec.eq_of_getLsbD_eq fun i hi => ?_
  have hmem : i / 8 ∈ (List.range (w / 8)).reverse := by
    rw [List.mem_reverse, List.mem_range]
    omega
  have hbit := congrArg (fun b => b.getLsbD (i % 8)) (hxy (i / 8) hmem)
  simpa [BitVec.getLsbD_extractLsb', Nat.mod_lt, Nat.div_add_mod] using hbit

/-- The bytes of a word, as bits. -/
theorem intoClear_toLeBytes {n : ℕ} {bits : List Bool} (h : bits.length = 8 * n) :
    intoClear (toLeBytes (word (8 * n) bits)) = bits := by
  have hdiv : 8 * n / 8 = n := Nat.mul_div_cancel_left n (by decide)
  have hbytes : ∀ i ∈ List.range n, (List.ofFn fun k : Fin 8 =>
      ((word (8 * n) bits).extractLsb' (8 * i) 8)[k]) = (bits.drop (8 * i)).take 8 := by
    intro i hi
    rw [← intoClear_singleton, intoClear_byte h]
    have := List.mem_range.mp hi
    omega
  rw [toLeBytes, hdiv, intoClear, List.flatMap_map, List.flatMap_congr hbytes, List.flatMap_def,
    ← blocks_eq_map (by decide) h, flatten_blocks (by decide)]

theorem intoClear_toBeBytes {n : ℕ} {bits : List Bool} (h : bits.length = 8 * n) :
    intoClear (toBeBytes (word (8 * n) bits)) = (blocks 8 bits).reverse.flatten := by
  have hdiv : 8 * n / 8 = n := Nat.mul_div_cancel_left n (by decide)
  have hbytes : ∀ i ∈ (List.range n).reverse, (List.ofFn fun k : Fin 8 =>
      ((word (8 * n) bits).extractLsb' (8 * i) 8)[k]) = (bits.drop (8 * i)).take 8 := by
    intro i hi
    rw [← intoClear_singleton, intoClear_byte h]
    have := List.mem_range.mp (List.mem_reverse.mp hi)
    omega
  rw [toBeBytes, hdiv, intoClear, List.flatMap_map, List.flatMap_congr hbytes, List.flatMap_def,
    List.map_reverse, ← blocks_eq_map (by decide) h]

/-- Words in big-endian order. -/
theorem intoClear_flatMap_toBeBytes {n : ℕ} {bits : List Bool}
    (h : 8 * n ∣ bits.length) : intoClear ((fromClear (8 * n) bits).flatMap toBeBytes) =
      (blocks (8 * n) bits).flatMap fun b => (blocks 8 b).reverse.flatten := by
  have hwords : ∀ b ∈ blocks (8 * n) bits,
      intoClear (toBeBytes (word (8 * n) b)) = (blocks 8 b).reverse.flatten := fun b hb =>
    intoClear_toBeBytes (length_of_mem_blocks h b hb)
  rw [← List.flatMap_congr hwords, fromClear, List.flatMap_map, intoClear, List.flatMap_assoc]
  rfl

/-- Words in little-endian order. -/
theorem intoClear_flatMap_toLeBytes {n : ℕ} (hn : 0 < n) {bits : List Bool}
    (h : 8 * n ∣ bits.length) : intoClear ((fromClear (8 * n) bits).flatMap toLeBytes) = bits := by
  have hwords : ∀ b ∈ blocks (8 * n) bits, intoClear (toLeBytes (word (8 * n) b)) = b := fun b hb =>
    intoClear_toLeBytes (length_of_mem_blocks h b hb)
  calc intoClear ((fromClear (8 * n) bits).flatMap toLeBytes)
      = (blocks (8 * n) bits).flatMap fun b => intoClear (toLeBytes (word (8 * n) b)) := by
        rw [fromClear, List.flatMap_map, intoClear, List.flatMap_assoc]
        rfl
    _ = bits := by rw [List.flatMap_congr hwords, List.flatMap_id', flatten_blocks (by omega)]

end Mpz
