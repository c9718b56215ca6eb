import Mpz.Core.Lpn
import Mpz.Ot.SpcotParties

/-!
# The vectors of an extension

A regular noise has one index in each of its intervals, so its vector is a sequence of single-point
vectors, one for each interval. The local linear code is applied to the keys on one side, and to the
MACs, the choices and the noise on the other. It is linear, so what was correlated stays correlated.

## Main definitions

* `Ferret.spcotLengths`, `Ferret.spcotQueries` — the plan of an extension, from the interval lengths
* `Ferret.packChoices`, `Ferret.noiseBytes`, `Ferret.unpackChoices` — the bits that the code is
  applied to

## Main results

* `Ferret.correlated_trees` — the vectors of both sides are correlated by the noise
* `Ferret.correlated_lpn` — the code keeps the correlation
-/

namespace Mpz

open Lpn

namespace Ferret

/-! ### The plan -/

inductive MpcotError where
  | params (count len : ℕ) (reason : String)
  | notRegular
  deriving DecidableEq, Repr

/-- `is_power_of_two` -/
def isPowerOfTwo (k : ℕ) : Bool := k == 2 ^ k.log2

/-- Plans the expansion: the log2 lengths. -/
def spcotLengths (count len : ℕ) : Outcome MpcotError (List ℕ) :=
  if len < count then .err (.params count len "indices cannot exceed vector length")
  -- A division by zero is a panic.
  else if count = 0 then .panic
  else if len % count ≠ 0 then .err (.params count len "len should be a multiple of count")
  else if ¬isPowerOfTwo (len / count) then
    .err (.params count len "regular interval length must be a power of two")
  else .ok (List.replicate count (len / count).log2)

/-- Plans the expansion with the queried indices: the log2 lengths and the indices. -/
def spcotQueries (idxs : List ℕ) (len : ℕ) : Outcome MpcotError (List ℕ × List ℕ) := do
  let lengths ← spcotLengths idxs.length len
  let k := len / idxs.length
  if idxs.zipIdx.all fun t => decide (t.2 * k ≤ t.1) && decide (t.1 < (t.2 + 1) * k) then
    return (lengths, idxs.map (· % k))
  else .err .notRegular

/-- There is one index in each interval, from interval `j` on. -/
def Regular (k : ℕ) : ℕ → List ℕ → Prop
  | _, [] => True
  | j, idx :: idxs => (j * k ≤ idx ∧ idx < (j + 1) * k) ∧ Regular k (j + 1) idxs

variable {count l k : ℕ} {err : List ℕ}

theorem isPowerOfTwo_pow (l : ℕ) : isPowerOfTwo (2 ^ l) = true := by
  rw [isPowerOfTwo, Nat.log2_two_pow, beq_self_eq_true]

theorem exists_of_isPowerOfTwo (h : isPowerOfTwo k = true) : ∃ l, k = 2 ^ l := ⟨_, beq_iff_eq.mp h⟩

theorem spcotLengths_eq (h : 0 < count) (l : ℕ) :
    spcotLengths count (count * 2 ^ l) = .ok (List.replicate count l) := by
  have hle : count ≤ count * 2 ^ l := Nat.le_mul_of_pos_right count (Nat.two_pow_pos l)
  have hmod : count * 2 ^ l % count = 0 := Nat.mul_mod_right ..
  rw [spcotLengths, if_neg (Nat.not_lt_of_le hle), if_neg h.ne', if_neg (not_not.mpr hmod),
    Nat.mul_div_cancel_left _ h, if_neg (not_not.mpr (isPowerOfTwo_pow l)), Nat.log2_two_pow]

theorem Regular.all {j : ℕ} (h : Regular k j err) :
    ((err.zipIdx j).all fun t => decide (t.2 * k ≤ t.1) && decide (t.1 < (t.2 + 1) * k)) =
      true := by
  induction err generalizing j with
  | nil => rfl
  | cons idx err ih =>
    rw [List.zipIdx_cons, List.all_cons, ih h.2, Bool.and_true, decide_eq_true h.1.1,
      decide_eq_true h.1.2]
    rfl

theorem Regular.lt {j : ℕ} (h : Regular k j err) : ∀ idx ∈ err, idx < (j + err.length) * k := by
  induction err generalizing j with
  | nil => exact fun idx hidx => absurd hidx List.not_mem_nil
  | cons first err ih =>
    have hlen : j + (first :: err).length = j + 1 + err.length := by
      rw [List.length_cons]
      omega
    intro idx hidx
    rw [hlen]
    rcases List.mem_cons.mp hidx with rfl | hidx
    · exact Nat.lt_of_lt_of_le h.1.2 (Nat.mul_le_mul_right k (Nat.le_add_right ..))
    · exact ih h.2 idx hidx

theorem spcotQueries_eq (hpos : 0 < err.length) (h : Regular (2 ^ l) 0 err) :
    spcotQueries err (err.length * 2 ^ l) =
      .ok (List.replicate err.length l, err.map (· % 2 ^ l)) := by
  have hall := h.all
  rw [spcotQueries, spcotLengths_eq hpos, Outcome.ok_bind, Nat.mul_div_cancel_left _ hpos,
    if_pos hall]
  rfl

theorem regular_multiples (h : 0 < k) (j n : ℕ) : Regular k j ((List.range' j n).map (· * k)) := by
  induction n generalizing j with
  | zero => trivial
  | succ n ih =>
    rw [List.range'_succ, List.map_cons]
    exact ⟨⟨le_rfl, Nat.mul_lt_mul_of_pos_right (Nat.lt_succ_self j) h⟩, ih (j + 1)⟩

/-- The single-point vectors put their indices where the noise is. -/
theorem alphas_eq {j : ℕ} (h : Regular (2 ^ l) j err) :
    Spcot.Receiver.alphas (j * 2 ^ l) ((List.replicate err.length l).zip (err.map (· % 2 ^ l))) =
      err := by
  induction err generalizing j with
  | nil => rfl
  | cons idx err ih =>
    obtain ⟨⟨hle, hlt⟩, hrest⟩ := h
    rw [Nat.succ_mul] at hlt
    have hmod : j * 2 ^ l + idx % 2 ^ l = idx := by
      obtain ⟨r, rfl⟩ := Nat.exists_eq_add_of_le hle
      rw [Nat.add_comm (j * 2 ^ l) r, Nat.add_mul_mod_self_right, Nat.mod_eq_of_lt (by omega),
        Nat.add_comm]
    rw [List.length_cons, List.replicate_succ, List.map_cons, List.zip_cons_cons,
      Spcot.Receiver.alphas, hmod, ← Nat.succ_mul, ih hrest]

/-! ### The noise -/

/-- Whether there is noise, position by position. -/
def noise (err : List ℕ) (n : ℕ) : List Bool := (List.range n).map fun i => decide (i ∈ err)

variable {H : Block → Block} {delta : Block}

theorem correlated_tree (H : Block → Block) (delta : Block) {t : Spcot.Tree} (h : t.Good) (n : ℕ) :
    Correlated delta (t.v H delta)
      ((List.range' n (2 ^ t.length)).map fun i => decide (i = n + t.idx)) (t.w H delta) := by
  have hlen : (t.v H delta).length = 2 ^ t.length := h.length_v
  refine ⟨by simp [hlen], List.ext_getElem (by simp [Spcot.Tree.w, hlen]) fun i h₁ h₂ => ?_⟩
  rw [List.getElem_zipWith, List.getElem_map, List.getElem_range', Nat.one_mul]
  simp only [Spcot.Tree.w, List.getElem_modify, Nat.add_left_cancel_iff, corrMsg]
  by_cases hi : t.idx = i
  · rw [if_pos hi, if_pos (decide_eq_true hi.symm)]
  · rw [if_neg hi, if_neg (by simpa using Ne.symm hi)]

/-- **The vectors of both sides** differ by the offset where the indices are. -/
theorem correlated_positions (H : Block → Block) (delta : Block) {trees : List Spcot.Tree}
    (h : ∀ t ∈ trees, t.Good) (n : ℕ) :
    Correlated delta (trees.flatMap (Spcot.Tree.v H delta))
      ((List.range' n (trees.map fun t => 2 ^ t.length).sum).map fun i =>
        decide (i ∈ Spcot.positions n trees))
      (trees.flatMap (Spcot.Tree.w H delta)) := by
  induction trees generalizing n with
  | nil => exact .nil
  | cons t trees ih =>
    have ht := h t List.mem_cons_self
    have hrest : ∀ s ∈ trees, s.Good := fun s hs => h s (List.mem_cons_of_mem t hs)
    have hidx := ht.idx_lt
    have happend := (correlated_tree H delta ht n).append (ih hrest (n + 2 ^ t.length))
    rw [List.map_cons, List.sum_cons, ← List.range'_append_1, List.map_append]
    -- An index of the first tree is no position of the others, and the other way round.
    have hleft : (List.range' n (2 ^ t.length)).map
        (fun i => decide (i ∈ Spcot.positions n (t :: trees))) =
        (List.range' n (2 ^ t.length)).map fun i => decide (i = n + t.idx) := by
      refine List.map_congr_left fun i hi => decide_eq_decide.mpr ?_
      rw [List.mem_range'_1] at hi
      rw [Spcot.positions_cons, List.mem_cons]
      refine or_iff_left fun hmem => ?_
      have := Spcot.mem_positions hrest hmem
      omega
    have hright : (List.range' (n + 2 ^ t.length) (trees.map fun t => 2 ^ t.length).sum).map
        (fun i => decide (i ∈ Spcot.positions n (t :: trees))) =
          (List.range' (n + 2 ^ t.length) (trees.map fun t => 2 ^ t.length).sum).map
            fun i => decide (i ∈ Spcot.positions (n + 2 ^ t.length) trees) := by
      refine List.map_congr_left fun i hi => decide_eq_decide.mpr ?_
      rw [List.mem_range'_1] at hi
      rw [Spcot.positions_cons, List.mem_cons]
      refine or_iff_right fun heq => ?_
      omega
    rw [hleft, hright]
    exact happend

theorem sum_leaves {trees : List Spcot.Tree}
    (h : trees.map Spcot.Tree.length = List.replicate count l) :
    (trees.map fun t => 2 ^ t.length).sum = count * 2 ^ l := by
  have hmap : (trees.map fun t => 2 ^ t.length) = (trees.map Spcot.Tree.length).map (2 ^ ·) := by
    rw [List.map_map]
    rfl
  rw [hmap, h, List.map_replicate, List.sum_replicate, smul_eq_mul]

/-- The trees of a plan. -/
theorem exists_trees (hpos : 1 ≤ l) (hlt : l < 64) (err : List ℕ) (rng : ℕ → Block) :
    ∃ trees : List Spcot.Tree,
    (∀ t ∈ trees, t.Good) ∧ trees.map Spcot.Tree.length = List.replicate err.length l ∧
      trees.map Spcot.Tree.idx = err.map (· % 2 ^ l) ∧
      (List.range trees.length).map rng = trees.map Spcot.Tree.seed := by
  have hcount : (err.map (· % 2 ^ l)).length = (List.replicate err.length l).length := by
    rw [List.length_map, List.length_replicate]
  have hentries : ∀ t ∈ (List.replicate err.length l).zip (err.map (· % 2 ^ l)),
      1 ≤ t.1 ∧ t.1 < 64 ∧ t.2 < 2 ^ t.1 := by
    intro t ht
    obtain ⟨h₁, h₂⟩ := List.of_mem_zip ht
    obtain ⟨idx, -, hidx⟩ := List.mem_map.mp h₂
    rw [List.eq_of_mem_replicate h₁, ← hidx]
    exact ⟨hpos, hlt, Nat.mod_lt _ (Nat.two_pow_pos l)⟩
  obtain ⟨hlengths, hidx, hseed⟩ := Spcot.Tree.map_ofExtend hcount rng
  exact ⟨_, Spcot.Tree.good_ofExtend hentries rng, hlengths, hidx, hseed.symm⟩

/-- **The vectors of a regular noise** are correlated by the noise. -/
theorem correlated_trees {trees : List Spcot.Tree} (h : ∀ t ∈ trees, t.Good)
    (hlengths : trees.map Spcot.Tree.length = List.replicate err.length l)
    (hidx : trees.map Spcot.Tree.idx = err.map (· % 2 ^ l)) (hreg : Regular (2 ^ l) 0 err) :
    Correlated delta (trees.flatMap (Spcot.Tree.v H delta)) (noise err (err.length * 2 ^ l))
      (trees.flatMap (Spcot.Tree.w H delta)) := by
  have hcorr := correlated_positions H delta h 0
  have hzip : trees.map (fun t => (t.length, t.idx)) =
      (List.replicate err.length l).zip (err.map (· % 2 ^ l)) := by
    rw [← hlengths, ← hidx, List.zip_map']
  have hpos : Spcot.positions 0 trees = err := by
    have := alphas_eq hreg
    rw [Nat.zero_mul] at this
    rw [Spcot.positions, hzip, this]
  rw [hpos, sum_leaves hlengths, ← List.range_eq_range'] at hcorr
  exact hcorr

/-! ### Bits -/

/-- Packs the LPN choice bits. -/
def packChoices (k : ℕ) (choices : List Bool) : List (BitVec 8) :=
  List.zipWith
    (fun byte bits => bits.zipIdx.foldl
      (fun byte t => byte ||| (BitVec.ofBool t.1).setWidth 8 <<< t.2) byte)
    (List.replicate ((k + 7) / 8) 0#8) (blocks 8 choices)

/-- Packs the error bits. An index that is out of bounds is a panic. -/
def noiseBytes (n : ℕ) (err : List ℕ) : Option (List (BitVec 8)) :=
  err.foldlM (fun x idx => do
    let byte ← x[idx / 8]?
    return x.set (idx / 8) (byte ||| 1#8 <<< (idx % 8))) (List.replicate ((n + 7) / 8) 0#8)

/-- The loop that unpacks the bits, where some remain. -/
def unpackChoices : ℕ → List (BitVec 8) → List Bool
  | _, [] => []
  | remaining, byte :: bytes =>
    (List.range (min remaining 8)).map (fun i => (byte >>> i &&& 1#8) == 1#8) ++
      unpackChoices (remaining - min remaining 8) bytes

theorem getLsbD_packByte (bits : List Bool) (byte : BitVec 8) (j : ℕ) {i : ℕ} (hi : i < 8) :
    ((bits.zipIdx j).foldl (fun byte t => byte ||| (BitVec.ofBool t.1).setWidth 8 <<< t.2)
      byte).getLsbD i =
      (byte.getLsbD i || (decide (j ≤ i) && bits.getD (i - j) false)) := by
  induction bits generalizing byte j with
  | nil => simp
  | cons b bits ih =>
    rw [List.zipIdx_cons, List.foldl_cons, ih, BitVec.getLsbD_or, Bool.or_assoc]
    congr 1
    rw [BitVec.getLsbD_shiftLeft, BitVec.getLsbD_setWidth, BitVec.getLsbD_ofBool]
    rcases Nat.lt_trichotomy i j with hlt | rfl | hlt
    · simp [hlt, Nat.not_le_of_lt hlt, Nat.not_le_of_lt (Nat.lt_succ_of_lt hlt)]
    · simp [hi]
    · obtain ⟨d, rfl⟩ := Nat.exists_eq_add_of_lt hlt
      have hsub : j + d + 1 - j = d + 1 := by omega
      have hsub' : j + d + 1 - (j + 1) = d := by omega
      have hle : j ≤ j + d + 1 := by omega
      have hle' : j + 1 ≤ j + d + 1 := by omega
      simp [hsub, hsub', hle, hle']

theorem length_packChoices {choices : List Bool} {m : ℕ} (h : choices.length = 8 * m) :
    (packChoices (8 * m) choices).length = m := by
  have hdiv : (8 * m + 7) / 8 = m := by omega
  rw [packChoices, List.length_zipWith, List.length_replicate, blocks_eq_map (by decide) h,
    List.length_map, List.length_range, hdiv, Nat.min_self]

/-- The packed bits are the choices. -/
theorem bit_packChoices {choices : List Bool} {m : ℕ} (h : choices.length = 8 * m) {i : ℕ}
    (hi : i < 8 * m) :
    bit (packChoices (8 * m) choices) i = choices.getD i false := by
  have hdiv : (8 * m + 7) / 8 = m := by omega
  have hq : i / 8 < m := by omega
  have hr : i % 8 < 8 := Nat.mod_lt i (by decide)
  have hsum : 8 * (i / 8) + i % 8 = i := Nat.div_add_mod i 8
  rw [bit, packChoices, blocks_eq_map (by decide) h, hdiv, List.getD_eq_getElem?_getD,
    List.getElem?_zipWith, List.getElem?_replicate, if_pos hq, List.getElem?_map,
    List.getElem?_range hq]
  dsimp only [Option.map_some, Option.getD_some]
  rw [getLsbD_packByte _ _ _ hr, BitVec.getLsbD_zero, Bool.false_or, decide_eq_true (Nat.zero_le _),
    Bool.true_and, Nat.sub_zero, List.getD_eq_getElem?_getD, List.getElem?_take, if_pos hr,
    List.getElem?_drop,
    hsum, List.getD_eq_getElem?_getD]

/-- One bit is set. -/
theorem bit_set_or {bytes : List (BitVec 8)} {r : ℕ} {byte : BitVec 8}
    (h : bytes[r / 8]? = some byte) (i : ℕ) : bit (bytes.set (r / 8) (byte ||| 1#8 <<< (r % 8))) i =
      (bit bytes i || decide (i = r)) := by
  obtain ⟨hlt, rfl⟩ := List.getElem?_eq_some_iff.mp h
  rw [bit, bit, List.getD_eq_getElem?_getD, List.getD_eq_getElem?_getD, List.getElem?_set]
  by_cases hi : r / 8 = i / 8
  · have hmod : i % 8 < 8 := Nat.mod_lt _ (by decide)
    rw [if_pos hi, if_pos hlt, Option.getD_some, ← hi, List.getElem?_eq_getElem hlt,
      Option.getD_some, BitVec.getLsbD_or]
    congr 1
    rw [BitVec.getLsbD_shiftLeft, BitVec.getLsbD_one]
    by_cases hr : i = r
    · subst hr
      simp [hmod]
    · have hne : ¬ i % 8 = r % 8 := by omega
      by_cases hlt' : i % 8 < r % 8
      · simp [hr, hlt']
      · have hsub : i % 8 - r % 8 ≠ 0 := by omega
        simp [hr, hsub]
  · have hr : i ≠ r := by
      rintro rfl
      exact hi rfl
    simp [hi, hr]

theorem exists_noiseBytes {n : ℕ} (h : ∀ idx ∈ err, idx < n) : ∃ x, noiseBytes n err = some x ∧
    x.length = (n + 7) / 8 ∧ ∀ i, bit x i = decide (i ∈ err) := by
  have hall : ∀ x₀ : List (BitVec 8), x₀.length = (n + 7) / 8 → ∃ x,
      err.foldlM (fun x idx => do
        let byte ← x[idx / 8]?
        return x.set (idx / 8) (byte ||| 1#8 <<< (idx % 8))) x₀ = some x ∧
      x.length = (n + 7) / 8 ∧ ∀ i, bit x i = (bit x₀ i || decide (i ∈ err)) := by
    induction err with
    | nil => exact fun x₀ hx₀ => ⟨x₀, rfl, hx₀, fun i => by simp⟩
    | cons idx err ih =>
      intro x₀ hx₀
      have hidx := h idx List.mem_cons_self
      have hlt : idx / 8 < x₀.length := by omega
      have hbyte := List.getElem?_eq_getElem hlt
      obtain ⟨x, hrun, hlen, hbits⟩ := ih (fun j hj => h j (List.mem_cons_of_mem idx hj))
        (x₀.set (idx / 8) (x₀[idx / 8] ||| 1#8 <<< (idx % 8))) (by rw [List.length_set, hx₀])
      refine ⟨x, ?_, hlen, fun i => ?_⟩
      · rw [List.foldlM_cons, hbyte]
        exact hrun
      · rw [hbits, bit_set_or hbyte, Bool.or_assoc, ← Bool.decide_or]
        exact congrArg _ (decide_eq_decide.mpr List.mem_cons.symm)
  obtain ⟨x, hrun, hlen, hbits⟩ := hall (List.replicate ((n + 7) / 8) 0#8) List.length_replicate
  refine ⟨x, hrun, hlen, fun i => ?_⟩
  have hzero : bit (List.replicate ((n + 7) / 8) 0#8) i = false := by
    rw [bit, List.getD_eq_getElem?_getD, List.getElem?_replicate]
    split <;> exact BitVec.getLsbD_zero
  rw [hbits, hzero, Bool.false_or]

/-- The unpacked choices are the bits. -/
theorem unpackChoices_eq {n : ℕ} {bytes : List (BitVec 8)} (h : n ≤ 8 * bytes.length) :
    unpackChoices n bytes = (List.range n).map (bit bytes) := by
  induction bytes generalizing n with
  | nil =>
    obtain rfl : n = 0 := Nat.le_zero.mp h
    rfl
  | cons byte bytes ih =>
    rw [List.length_cons] at h
    have hsplit : n = min n 8 + (n - min n 8) := by omega
    have hfirst : (List.range (min n 8)).map (fun i => (byte >>> i &&& 1#8) == 1#8) =
        (List.range (min n 8)).map (bit (byte :: bytes)) := by
      refine List.map_congr_left fun i hi => ?_
      have hi : i < 8 := Nat.lt_of_lt_of_le (List.mem_range.mp hi) (Nat.min_le_right n 8)
      rw [bit, Nat.div_eq_of_lt hi, Nat.mod_eq_of_lt hi, List.getD_cons_zero]
      rw [BitVec.and_one_eq_setWidth_ofBool_getLsbD, BitVec.getLsbD_ushiftRight, Nat.add_zero]
      cases byte.getLsbD i <;> rfl
    rw [unpackChoices, hfirst, ih (by omega)]
    conv_rhs => rw [hsplit, List.range_add, List.map_append, List.map_map]
    congr 1
    refine List.map_congr_left fun i hi => ?_
    have hfull : min n 8 = 8 := by
      have := List.mem_range.mp hi
      omega
    have hshift := bit_append_right (l := [byte]) (k := bytes) i
    rw [List.length_singleton, Nat.mul_one, List.singleton_append] at hshift
    rw [Function.comp_apply, hfull, hshift]

/-! ### The code -/

/-- The offset is added as often as there is a bit. -/
theorem xorAll_offset {α : Type} (delta : Block) (g : α → Bool) (cols : List α) :
    xorAll (cols.map fun c => if g c then delta else 0#128) =
      if (xorAll (cols.map fun c => BitVec.ofBool (g c))).getLsbD 0 then delta else 0#128 := by
  induction cols with
  | nil => simp
  | cons c cols ih =>
    rw [List.map_cons, List.map_cons, xorAll_cons, xorAll_cons, ih, BitVec.getLsbD_xor,
      BitVec.getLsbD_ofBool]
    cases g c <;> cases (xorAll (cols.map fun c => BitVec.ofBool (g c))).getLsbD 0 <;> simp

variable {enc : LpnEncoder} {keys macs vs ws : List Block} {choices : List Bool}
    {uBytes : List (BitVec 8)}

/-- A row of correlated inputs. -/
theorem rowSum_corrMsg (prp : Block → Block) (D : ℕ) (h : Correlated delta keys choices macs)
    (hkeys : keys.length = enc.k) (hu : ∀ i < enc.k, bit uBytes i = choices.getD i false) (r : ℕ) :
    enc.rowSum prp false D macs r = corrMsg delta (enc.rowSum prp false D keys r)
      ((enc.bitSum prp false D uBytes r).getLsbD 0) := by
  have hget : ∀ raw, macs.getD (enc.column raw) 0#128 = keys.getD (enc.column raw) 0#128 ^^^
      if bit uBytes (enc.column raw) then delta else 0#128 := fun raw => by
    have hlt := enc.column_lt raw
    have hk : enc.column raw < keys.length := hkeys ▸ hlt
    have hc : enc.column raw < choices.length := h.length_eq ▸ hk
    rw [hu _ hlt, h.msgs_eq, List.getD_eq_getElem?_getD, List.getElem?_zipWith,
      List.getElem?_eq_getElem hk, List.getElem?_eq_getElem hc, List.getD_eq_getElem?_getD,
      List.getElem?_eq_getElem hk,
      List.getD_eq_getElem?_getD, List.getElem?_eq_getElem hc]
    dsimp only [Option.getD_some, corrMsg]
    split
    · rfl
    · rw [BitVec.xor_zero]
  rw [LpnEncoder.rowSum, List.map_congr_left fun raw _ => hget raw, xorAll_map_xor, xorAll_offset,
    corrMsg]
  change _ ^^^ (if (enc.bitSum prp false D uBytes r).getLsbD 0 then delta else 0#128) = _
  split
  · rfl
  · rw [BitVec.xor_zero]
    rfl

/-- Messages add up. -/
theorem corrMsg_xor (delta a b : Block) (p q : Bool) :
    corrMsg delta a p ^^^ corrMsg delta b q = corrMsg delta (a ^^^ b) (p ^^ q) := by
  cases p <;> cases q <;> simp only [corrMsg, Bool.xor_false, Bool.false_xor, Bool.xor_self,
    if_true, Bool.false_eq_true, if_false]
  · rw [BitVec.xor_assoc]
  · rw [BitVec.xor_assoc, BitVec.xor_comm delta, BitVec.xor_assoc]
  · rw [BitVec.xor_assoc, BitVec.xor_comm delta, xor_xor_cancel_right]

/-- **The code keeps the correlation**: of the keys with the MACs, by the choices that the code
gives. -/
theorem correlated_lpn (prp : Block → Block) {D : ℕ} (hD : 0 < D) (hDk : D ≤ enc.k) {m n : ℕ}
    (hm : enc.k = 8 * m) (h : Correlated delta keys choices macs) (hkeys : keys.length = enc.k)
    (hnoise : Correlated delta vs (noise err n) ws) (herr : ∀ idx ∈ err, idx < n) :
    ∃ x y z x', noiseBytes n err = some x ∧ enc.compute prp false D vs keys = some y ∧
      enc.computeWithBits prp false D ws x macs (packChoices enc.k choices) = some (z, x') ∧
      y.length = n ∧ Correlated delta y (unpackChoices n x') z := by
  have hlt := enc.k_lt
  have hchoices : choices.length = 8 * m := by rw [h.length_eq, hkeys, hm]
  have hmacs : macs.length = enc.k := h.length_msgs.trans hkeys
  have hvs : vs.length = n := by
    rw [← hnoise.length_eq, noise, List.length_map, List.length_range]
  have hws : ws.length = n := hnoise.length_msgs.trans hvs
  have hu : (packChoices enc.k choices).length = m := by rw [hm, length_packChoices hchoices]
  obtain ⟨x, hx, hxlen, hxbits⟩ := exists_noiseBytes herr
  obtain ⟨x', hbits, hlen', hx'⟩ := LpnEncoder.computeChunksWithBits_spec prp false D hD hmacs
    (by rw [hu, hm]) 0 ws x (by rw [hxlen, hws])
  have hwindow : n ≤ 8 * x'.length := by
    rw [hlen', hxlen]
    omega
  refine ⟨x, vs.mapIdx fun q acc => acc ^^^ enc.rowSum prp false D keys (0 * (4 * groups) + q),
    ws.mapIdx fun q acc => acc ^^^ enc.rowSum prp false D macs (0 * (4 * groups) + q), x',
    hx, ?_, ?_,
    List.length_mapIdx.trans hvs, ?_, ?_⟩
  · rw [LpnEncoder.compute, if_neg (by rw [hkeys, Nat.mod_eq_of_lt hlt]; omega),
      LpnEncoder.computeChunks_eq prp false D hD hkeys.ge]
  · rw [LpnEncoder.computeWithBits, if_neg (by
      rw [hmacs, hu, hxlen, hws, Nat.mod_eq_of_lt hlt, Nat.mod_eq_of_lt (show m < 2 ^ 32 by omega)]
      omega), hbits]
  · rw [unpackChoices_eq hwindow, List.length_map, List.length_range, List.length_mapIdx, hvs]
  · rw [unpackChoices_eq hwindow]
    refine List.ext_getElem (by simp [hvs, hws]) fun i h₁ h₂ => ?_
    have hi : i < n := by
      rw [List.length_mapIdx, hws] at h₁
      exact h₁
    have hpacked : ∀ j < enc.k, bit (packChoices enc.k choices) j = choices.getD j false :=
      fun j hj => by
      rw [hm] at hj ⊢
      exact bit_packChoices hchoices hj
    have hrow := rowSum_corrMsg prp D h hkeys hpacked (0 * (4 * groups) + i)
    have hiv : i < vs.length := hvs ▸ hi
    have hiw : i < ws.length := hws ▸ hi
    have hw : ws[i] = corrMsg delta vs[i] (decide (i ∈ err)) := by
      simp [hnoise.msgs_eq, noise]
    rw [List.getElem_mapIdx, List.getElem_zipWith, List.getElem_mapIdx, List.getElem_map,
      List.getElem_range, hrow, hw, hx', hxbits, hws, decide_eq_true hi, Bool.true_and]
    exact corrMsg_xor delta ..

end Ferret

end Mpz
