import Mpz.Core.Prg
import Mpz.Fields.Field
import Mpz.Lib.Lists
import Mpz.Lib.XorSum

/-!
# The challenges of the consistency check

The values are cut into chunks, each with a stream of challenges of its own, and a chunk into
batches. The picks are in ascending order: a chunk finds its own by binary search, and a batch takes
those that are below its end off the front.

## Main definitions

* `Spcot.chi` — the challenge of an index
* `Spcot.foldChunk`, `Spcot.FoldChis` — the fold of a chunk, and what the fold of all may return

## Main results

* `Spcot.batchLoop_eq`, `Spcot.chunkResults_eq` — what the loops add up
* `Spcot.foldChis_iff` — the fold gives the two sums, and nothing else
-/

namespace Mpz

/-- `slice.partition_point(pred)`, of a slice that begins with the elements that satisfy the
predicate. -/
def partitionPoint (p : ℕ → Bool) (l : List ℕ) : ℕ := (l.takeWhile p).length

namespace Spcot

/-- Number of consistency check challenges per PRG stream. It is irreducible to the elaborator,
which would otherwise count to it. -/
@[irreducible] def chiChunkSize : ℕ := 2 ^ 16

/-- Challenges generated per AES batch within a stream. -/
def chiBatchSize : ℕ := 2 ^ 10

theorem chiChunkSize_eq : chiChunkSize = 2 ^ 16 := by rw [chiChunkSize]

theorem chiBatchSize_pos : 0 < chiBatchSize := Nat.two_pow_pos 10

theorem chiChunkSize_pos : 0 < chiChunkSize := chiChunkSize_eq ▸ Nat.two_pow_pos 16

/-- The block that is encrypted: the counter in the first eight bytes, the stream in the others. -/
def chiBlock (counter stream : ℕ) : Block := BitVec.ofNat 64 stream ++ BitVec.ofNat 64 counter

/-- The loop over the picks, up to the end of a batch. Gives back those that are left. -/
def pickLoop (chis : List Block) (base len : ℕ) : List ℕ → Block → Option (Block × List ℕ)
  | [], picked => some (picked, [])
  | pick :: picks, picked =>
    if base + len ≤ pick then some (picked, pick :: picks)
    else if pick < base then none
    else do
      let chi ← chis[pick - base]?
      pickLoop chis base len picks (picked ^^^ chi)

/-- The loop over the batches of a chunk, from batch `j` on. A batch is too short for its inner
product to be split, so that is one call of the kernel. -/
def batchLoop (aes : Block → Block) (stream start : ℕ) :
    ℕ → List (List Block) → List ℕ → Block × Block → Option (Block × Block)
  | _, [], _, sums => some sums
  | j, values :: rest, picks, (folded, picked) => do
    let base := start + j * chiBatchSize
    let chis := (List.range values.length).map fun k => aes (chiBlock (j * chiBatchSize + k) stream)
    let folded := folded ^^^ Fields.gf2_128.innerProduct chis values
    let (picked, picks) ← pickLoop chis base values.length picks picked
    batchLoop aes stream start (j + 1) rest picks (folded, picked)

/-- `fold_chunk` -/
def foldChunk (aes : Block → Block) (picks : List ℕ) (i : ℕ) (chunk : List Block) :
    Option (Block × Block) :=
  let start := i * chiChunkSize
  -- The picks that fall into this chunk.
  let lo := partitionPoint (fun p => p < start) picks
  let hi := partitionPoint (fun p => p < start + chunk.length) picks
  if hi < lo then none
  else batchLoop aes i start 0 (blocks chiBatchSize chunk) ((picks.take hi).drop lo) (0#128, 0#128)

/-- The results of the chunks, from chunk `i` on. -/
def chunkResults (aes : Block → Block) (picks : List ℕ) :
    ℕ → List (List Block) → Option (List (Block × Block))
  | _, [] => some []
  | i, chunk :: chunks => do
    let part ← foldChunk aes picks i chunk
    let parts ← chunkResults aes picks (i + 1) chunks
    return part :: parts

/-- `|a, b| (a.0 + b.0, a.1 + b.1)` -/
def addSums (a b : Block × Block) : Block × Block := (a.1 ^^^ b.1, a.2 ^^^ b.2)

/-- What `fold_chis` may return: a parallel reduction may take the results in any order, group them
in any way and put zeros anywhere. Picks that are not sorted are a panic. -/
def FoldChis (rayon : Bool) (aes : Block → Block) (values : List Block) (picks : List ℕ)
    (x : Block × Block) : Prop :=
  picks.Pairwise (· ≤ ·) ∧ ∃ parts, chunkResults aes picks 0 (blocks chiChunkSize values) =
    some parts ∧
    if rayon then ∃ order : List (Block × Block), order.Perm parts ∧
      Combined (0#128, 0#128) addSums order x
    else x = parts.foldl addSums (0#128, 0#128)

/-- **The challenge of an index**: the block with the counter `i % 2 ^ 16` in its low eight bytes
and the stream `i / 2 ^ 16` in the high ones, encrypted. -/
def chi (aes : Block → Block) (i : ℕ) : Block :=
  aes (BitVec.ofNat 128 (2 ^ 64 * (i / 2 ^ 16) + i % 2 ^ 16))

/-- The block of a challenge is the one that a generator of the stream encrypts. -/
theorem chiBlock_eq (counter stream : ℕ) :
    chiBlock counter stream = Prg.counterBlock counter (BitVec.ofNat 64 stream) := by
  rw [chiBlock, Prg.counterBlock]

theorem chi_eq (aes : Block → Block) (i : ℕ) : chi aes i =
    aes (Prg.counterBlock (i % 2 ^ 16) (BitVec.ofNat 64 (i / 2 ^ 16))) := by
  have hlow : i % 2 ^ 16 % 2 ^ 64 = i % 2 ^ 16 := Nat.mod_eq_of_lt (by omega)
  rw [chi, Prg.counterBlock, Block.append_ofNat, hlow]

/-! ### The picks of a chunk -/

variable {l picks : List ℕ} {aes : Block → Block}

/-- **The picks of a chunk**, as the binary searches cut them out. -/
theorem cut_picks (h : picks.Pairwise (· ≤ ·)) {s e : ℕ} (hse : s ≤ e) :
    partitionPoint (fun p => decide (p < s)) picks ≤
      partitionPoint (fun p => decide (p < e)) picks ∧
      (picks.take (partitionPoint (fun p => decide (p < e)) picks)).drop
        (partitionPoint (fun p => decide (p < s)) picks) =
          picks.filter fun p => decide (s ≤ p) && decide (p < e) := by
  have hfilter : (picks.filter fun p => decide (p < e)).filter (fun p => decide (p < s)) =
      picks.filter fun p => decide (p < s) := by
    rw [List.filter_filter]
    refine List.filter_congr fun p _ => ?_
    rw [← Bool.decide_and, decide_eq_decide]
    omega
  have hs : partitionPoint (fun p => decide (p < s)) picks =
      ((picks.takeWhile fun p => decide (p < e)).takeWhile fun p => decide (p < s)).length := by
    rw [partitionPoint, List.takeWhile_lt s h, List.takeWhile_lt e h,
      List.takeWhile_lt s (h.filter _), hfilter]
  refine ⟨?_, ?_⟩
  · rw [hs]
    exact (List.takeWhile_sublist _).length_le
  · rw [hs, partitionPoint, List.take_length_takeWhile, List.drop_length_takeWhile,
      List.takeWhile_lt e h, List.dropWhile_lt s (h.filter _), List.filter_filter]

/-! ### Batches -/

/-- **The picks of a batch** are taken off the front. -/
theorem pickLoop_eq {chis : List Block} {base len : ℕ} {f : ℕ → Block} (h : l.Pairwise (· ≤ ·))
    (hbase : ∀ p ∈ l, base ≤ p) (hchis : ∀ p, base ≤ p → p < base + len → chis[p - base]? =
      some (f p))
    (picked : Block) :
    pickLoop chis base len l picked =
      some (picked ^^^ xorAll ((l.filter fun p => decide (p < base + len)).map f),
        l.filter fun p => decide (base + len ≤ p)) := by
  induction l generalizing picked with
  | nil => simp [pickLoop]
  | cons p l ih =>
    obtain ⟨hle, hl⟩ := List.pairwise_cons.mp h
    have hp := hbase p List.mem_cons_self
    rw [pickLoop]
    by_cases hlt : base + len ≤ p
    · have hnil : (p :: l).filter (fun p => decide (p < base + len)) = [] :=
        List.filter_eq_nil_iff.mpr fun x hx => by
          rcases List.mem_cons.mp hx with rfl | hx
          · simpa using hlt
          · have := hle x hx
            simp only [decide_eq_true_eq]
            omega
      have hself : (p :: l).filter (fun p => decide (base + len ≤ p)) = p :: l :=
        List.filter_eq_self.mpr fun x hx => by
          rcases List.mem_cons.mp hx with rfl | hx
          · simpa using hlt
          · have := hle x hx
            simp only [decide_eq_true_eq]
            omega
      rw [if_pos hlt, hnil, hself, List.map_nil, xorAll_nil, BitVec.xor_zero]
    · rw [if_neg hlt, if_neg (by omega), hchis p hp (by omega), Option.bind_eq_bind,
        Option.bind_some, ih hl fun x hx => hbase x (List.mem_cons_of_mem _ hx),
        List.filter_cons_of_pos (by simpa using hlt),
        List.map_cons, xorAll_cons, BitVec.xor_assoc, List.filter_cons_of_neg (by simpa using hlt)]

theorem zip_range (values : List Block) (g : ℕ → Block) (n : ℕ) :
    (((List.range values.length).map g).zip values).map (fun t => Fields.gf2_128.mul t.1 t.2) =
      (values.zipIdx n).map fun t => Fields.gf2_128.mul (g (t.2 - n)) t.1 := by
  refine List.ext_getElem (by simp) fun k h₁ h₂ => ?_
  simp

/-- A block that is cut off is full, or the last one. -/
theorem full_or_last {α : Type} (k : ℕ) (l : List α) : (l.take k).length = k ∨ l.drop k = [] := by
  rcases Nat.le_total k l.length with hle | hle
  · exact .inl (List.length_take_of_le hle)
  · exact .inr (List.drop_of_length_le hle)

/-- **The batches of a chunk** add up to the chunk. -/
theorem batchLoop_eq (aes : Block → Block) (stream start j : ℕ) (values : List Block)
    (h : picks.Pairwise (· ≤ ·)) (hlo : ∀ p ∈ picks, start + j * chiBatchSize ≤ p)
    (hhi : ∀ p ∈ picks, p < start + j * chiBatchSize + values.length) (folded picked : Block) :
    batchLoop aes stream start j (blocks chiBatchSize values) picks (folded, picked) =
      some (folded ^^^ xorAll ((values.zipIdx (start + j * chiBatchSize)).map fun t =>
          Fields.gf2_128.mul (aes (chiBlock (t.2 - start) stream)) t.1),
        picked ^^^ xorAll (picks.map fun p => aes (chiBlock (p - start) stream))) := by
  induction hm : values.length using Nat.strongRecOn generalizing values picks j folded picked with
  | ind m ih =>
  by_cases hnil : values = []
  · obtain rfl : picks = [] := List.eq_nil_iff_forall_not_mem.mpr fun p hp => by
      have h₁ := hlo p hp
      have h₂ := hhi p hp
      rw [hnil, List.length_nil] at h₂
      omega
    rw [hnil, blocks_nil, batchLoop]
    simp
  · have hpos := List.length_pos_iff.mpr hnil
    set base := start + j * chiBatchSize with hbase
    set values₁ := values.take chiBatchSize with hvalues₁
    set values₂ := values.drop chiBatchSize with hvalues₂
    have hlen : values₁.length + values₂.length = values.length := by
      rw [← List.length_append, List.take_append_drop]
    have hchis : ∀ p, base ≤ p → p < base + values₁.length →
        ((List.range values₁.length).map fun k =>
          aes (chiBlock (j * chiBatchSize + k) stream))[p - base]? =
          some (aes (chiBlock (p - start) stream)) := fun p hp hlt => by
      rw [List.getElem?_map, List.getElem?_range (by omega), Option.map_some]
      congr 3
      omega
    have hnext : base + chiBatchSize = start + (j + 1) * chiBatchSize := by
      rw [hbase, Nat.add_assoc, Nat.succ_mul]
    -- Only the last batch is shorter, and then no pick is left behind it.
    have hfull : values₁.length = chiBatchSize ∨ values₂ = [] := full_or_last chiBatchSize values
    have hlo' : ∀ p ∈ picks.filter (fun p => decide (base + values₁.length ≤ p)),
        start + (j + 1) * chiBatchSize ≤ p := fun p hp => by
      obtain ⟨hp, hge⟩ := List.mem_filter.mp hp
      rw [decide_eq_true_eq] at hge
      have hlt := hhi p hp
      rcases hfull with hfull | hfull
      · omega
      · rw [hfull, List.length_nil] at hlen
        omega
    have hhi' : ∀ p ∈ picks.filter (fun p => decide (base + values₁.length ≤ p)),
        p < start + (j + 1) * chiBatchSize + values₂.length := fun p hp => by
      have hlt := hhi p (List.mem_filter.mp hp).1
      have hle : values₁.length ≤ chiBatchSize := List.length_take_le _ _
      omega
    have hlt : values₂.length < m := by
      have := chiBatchSize_pos
      rw [hvalues₂, List.length_drop]
      omega
    have hzip : xorAll (values.zipIdx base |>.map fun t =>
          Fields.gf2_128.mul (aes (chiBlock (t.2 - start) stream)) t.1) =
        Fields.gf2_128.innerProduct
          ((List.range values₁.length).map fun k => aes (chiBlock (j * chiBatchSize + k) stream))
          values₁ ^^^
        xorAll ((values₂.zipIdx (start + (j + 1) * chiBatchSize)).map fun t =>
          Fields.gf2_128.mul (aes (chiBlock (t.2 - start) stream)) t.1) := by
      have hsplit : values.zipIdx base = values₁.zipIdx base ++
          values₂.zipIdx (start + (j + 1) * chiBatchSize) := by
        conv_lhs => rw [← List.take_append_drop chiBatchSize values, List.zipIdx_append]
        rcases hfull with hfull | hfull
        · rw [← hvalues₁, hfull, hnext]
        · rw [← hvalues₁, ← hvalues₂, hfull]
          rfl
      rw [hsplit, List.map_append, xorAll_append, Fields.lawful_gf2_128.innerProduct_eq,
        foldl_xor (fun t : Block × Block => Fields.gf2_128.mul t.1 t.2), zip_range values₁ _ base]
      congr 1
      rw [show (0 : Block) = 0#128 from rfl, BitVec.zero_xor]
      refine congrArg xorAll (List.map_congr_left fun t ht => ?_)
      have hle : base ≤ t.2 := List.le_snd_of_mem_zipIdx ht
      congr 4
      omega
    have hpicks : xorAll (picks.map fun p => aes (chiBlock (p - start) stream)) =
        xorAll ((picks.filter fun p => decide (p < base + values₁.length)).map fun p =>
          aes (chiBlock (p - start) stream)) ^^^
        xorAll ((picks.filter fun p => decide (base + values₁.length ≤ p)).map fun p =>
          aes (chiBlock (p - start) stream)) := by
      have hsplit := xorAll_filter_split (p := fun _ => true)
        (q := fun p => decide (p < base + values₁.length))
        (r := fun p => decide (base + values₁.length ≤ p))
        (fun p => aes (chiBlock (p - start) stream)) (l := picks) fun p _ => by
          by_cases hp : p < base + values₁.length
          · simp [hp]
          · simp [hp, Nat.le_of_not_lt hp]
      rwa [List.filter_true] at hsplit
    rw [blocks_of_ne_nil chiBatchSize_pos hnil, batchLoop]
    dsimp only
    rw [← hbase, ← hvalues₁, pickLoop_eq h hlo hchis, Option.bind_eq_bind, Option.bind_some]
    dsimp only
    rw [ih _ hlt (j + 1) values₂ (h.filter _) hlo' hhi' _ _ rfl, hzip, hpicks, BitVec.xor_assoc,
      BitVec.xor_assoc]

/-! ### Chunks -/

/-- The challenge of an index in chunk `i`. -/
theorem chi_of_mem {i p : ℕ} (hlo : i * chiChunkSize ≤ p)
    (hhi : p < i * chiChunkSize + chiChunkSize) :
    chi aes p = aes (chiBlock (p - i * chiChunkSize) i) := by
  rw [chiChunkSize_eq] at hlo hhi ⊢
  rw [chi_eq, chiBlock_eq]
  congr 3 <;> omega

/-- The sum of the values, each times its challenge, from an index on. -/
def foldSum (aes : Block → Block) (n : ℕ) (values : List Block) : Block :=
  xorAll ((values.zipIdx n).map fun t => Fields.gf2_128.mul (chi aes t.2) t.1)

/-- The sum of the challenges of the picks in a range. -/
def pickSum (aes : Block → Block) (picks : List ℕ) (s e : ℕ) : Block :=
  xorAll ((picks.filter fun p => decide (s ≤ p) && decide (p < e)).map (chi aes))

/-- **A chunk** gives the sums over its indices. -/
theorem foldChunk_eq (h : picks.Pairwise (· ≤ ·)) {i : ℕ} {chunk : List Block}
    (hlen : chunk.length ≤ chiChunkSize) :
    foldChunk aes picks i chunk = some (foldSum aes (i * chiChunkSize) chunk,
      pickSum aes picks (i * chiChunkSize) (i * chiChunkSize + chunk.length)) := by
  obtain ⟨hle, hcut⟩ := cut_picks h (Nat.le_add_right (i * chiChunkSize) chunk.length)
  have hrange : ∀ p ∈ picks.filter (fun p => decide (i * chiChunkSize ≤ p) &&
      decide (p < i * chiChunkSize + chunk.length)),
      i * chiChunkSize ≤ p ∧ p < i * chiChunkSize + chunk.length := fun p hp => by
    simpa using (List.mem_filter.mp hp).2
  have hstart : i * chiChunkSize + 0 * chiBatchSize = i * chiChunkSize := by
    rw [Nat.zero_mul, Nat.add_zero]
  have hfold : ((chunk.zipIdx (i * chiChunkSize)).map fun t =>
      Fields.gf2_128.mul (aes (chiBlock (t.2 - i * chiChunkSize) i)) t.1) =
      (chunk.zipIdx (i * chiChunkSize)).map fun t => Fields.gf2_128.mul (chi aes t.2) t.1 :=
    List.map_congr_left fun t ht => by
      have hhi := List.snd_lt_add_of_mem_zipIdx ht
      rw [chi_of_mem (List.le_snd_of_mem_zipIdx ht) (by omega)]
  have hpick : ((picks.filter fun p => decide (i * chiChunkSize ≤ p) &&
        decide (p < i * chiChunkSize + chunk.length)).map fun p =>
          aes (chiBlock (p - i * chiChunkSize) i)) =
      (picks.filter fun p => decide (i * chiChunkSize ≤ p) &&
        decide (p < i * chiChunkSize + chunk.length)).map (chi aes) :=
    List.map_congr_left fun p hp => by
      obtain ⟨hlo, hhi⟩ := hrange p hp
      rw [chi_of_mem hlo (by omega)]
  have hloop := batchLoop_eq aes i (i * chiChunkSize) 0 chunk
    (h.filter fun p => decide (i * chiChunkSize ≤ p) &&
      decide (p < i * chiChunkSize + chunk.length))
  rw [hstart] at hloop
  rw [foldChunk, if_neg (Nat.not_lt_of_le hle), hcut,
    hloop (fun p hp => (hrange p hp).1) (fun p hp => (hrange p hp).2), hfold, hpick,
    BitVec.zero_xor,
    BitVec.zero_xor, foldSum, pickSum]

theorem foldSum_append (aes : Block → Block) (n : ℕ) (l k : List Block) :
    foldSum aes n (l ++ k) = foldSum aes n l ^^^ foldSum aes (n + l.length) k := by
  rw [foldSum, List.zipIdx_append, List.map_append, xorAll_append, foldSum, foldSum]

theorem pickSum_split {s m e : ℕ} (hs : s ≤ m) (he : m ≤ e) :
    pickSum aes picks s e = pickSum aes picks s m ^^^ pickSum aes picks m e := by
  refine xorAll_filter_split _ fun p _ => ?_
  by_cases h₁ : s ≤ p <;> by_cases h₂ : p < m <;> by_cases h₃ : p < e <;>
    simp [h₁, h₂, h₃] <;> omega

theorem pickSum_self (s : ℕ) : pickSum aes picks s s = 0#128 := by
  have hfilter : (picks.filter fun p => decide (s ≤ p) && decide (p < s)) = [] :=
    List.filter_eq_nil_iff.mpr fun p _ => by
      rw [← Bool.decide_and, decide_eq_true_eq]
      omega
  rw [pickSum, hfilter]
  rfl

/-- **The chunks** add up to the sums over all indices. -/
theorem chunkResults_eq (aes : Block → Block) (h : picks.Pairwise (· ≤ ·)) (i : ℕ)
    (values : List Block) :
    ∃ parts, chunkResults aes picks i (blocks chiChunkSize values) = some parts ∧
      xorAll (parts.map Prod.fst) = foldSum aes (i * chiChunkSize) values ∧
      xorAll (parts.map Prod.snd) =
        pickSum aes picks (i * chiChunkSize) (i * chiChunkSize + values.length) := by
  induction hm : values.length using Nat.strongRecOn generalizing values i with
  | ind m ih =>
  by_cases hnil : values = []
  · refine ⟨[], by rw [hnil, blocks_nil, chunkResults], by rw [hnil]; rfl, ?_⟩
    rw [← hm, hnil, List.length_nil, Nat.add_zero, pickSum_self]
    rfl
  · have hpos := List.length_pos_iff.mpr hnil
    have hlt : (values.drop chiChunkSize).length < m := by
      have := chiChunkSize_pos
      rw [List.length_drop]
      omega
    obtain ⟨parts, hrun, hfst, hsnd⟩ := ih _ hlt (i + 1) _ rfl
    have hlen : (values.take chiChunkSize).length + (values.drop chiChunkSize).length = m := by
      rw [← List.length_append, List.take_append_drop, hm]
    have hnext : (i + 1) * chiChunkSize = i * chiChunkSize + chiChunkSize := Nat.succ_mul _ _
    have hfull := full_or_last chiChunkSize values
    refine ⟨_, by
      rw [blocks_of_ne_nil chiChunkSize_pos hnil, chunkResults,
        foldChunk_eq h (List.length_take_le _ _), hrun]
      rfl, ?_, ?_⟩
    · have happend := foldSum_append aes (i * chiChunkSize) (values.take chiChunkSize)
        (values.drop chiChunkSize)
      rw [List.take_append_drop] at happend
      rw [List.map_cons, xorAll_cons, hfst, happend]
      rcases hfull with hfull | hfull
      · rw [hfull, hnext]
      · rw [hfull]
        rfl
    · rw [List.map_cons, xorAll_cons, hsnd]
      dsimp only
      rcases hfull with hfull | hfull
      · rw [hfull, hnext, ← pickSum_split (Nat.le_add_right _ _) (Nat.le_add_right _ _)]
        rw [Nat.add_assoc, ← hlen, hfull]
      · rw [hfull, List.length_nil] at hlen ⊢
        have hself : pickSum aes picks ((i + 1) * chiChunkSize) ((i + 1) * chiChunkSize + 0) =
            0#128 :=
          pickSum_self _
        rw [hself, BitVec.xor_zero, ← hlen, Nat.add_zero]

/-! ### The fold -/

instance : Std.Associative addSums where
  assoc a b c := by rw [addSums, addSums, addSums, addSums, BitVec.xor_assoc, BitVec.xor_assoc]

instance : Std.LawfulIdentity addSums (0#128, 0#128) where
  left_id a := by rw [addSums, BitVec.zero_xor, BitVec.zero_xor]
  right_id a := by rw [addSums, BitVec.xor_zero, BitVec.xor_zero]

theorem foldl_addSums (parts : List (Block × Block)) (x : Block × Block) :
    parts.foldl addSums x =
      (x.1 ^^^ xorAll (parts.map Prod.fst), x.2 ^^^ xorAll (parts.map Prod.snd)) := by
  induction parts generalizing x with
  | nil => simp
  | cons part parts ih =>
    rw [List.foldl_cons, ih, addSums, List.map_cons, List.map_cons, xorAll_cons, xorAll_cons,
      BitVec.xor_assoc, BitVec.xor_assoc]

/-- The order of a sum does not matter. -/
theorem foldl_addSums_perm {parts order : List (Block × Block)} (h : order.Perm parts) :
    order.foldl addSums (0#128, 0#128) = parts.foldl addSums (0#128, 0#128) := by
  refine h.foldl_eq' (fun a _ b _ x => ?_) _
  rw [addSums, addSums, addSums, addSums, BitVec.xor_assoc, BitVec.xor_assoc, BitVec.xor_comm a.1,
    BitVec.xor_comm a.2, BitVec.xor_assoc, BitVec.xor_assoc]

/-- **The fold of the challenges** returns the sum of the values, each times its challenge, and the
sum of the challenges of the picks, and nothing else, whatever the order in which the results of the
chunks are added. -/
theorem foldChis_iff (rayon : Bool) (aes : Block → Block) (values : List Block) {picks : List ℕ}
    (hsorted : picks.Pairwise (· ≤ ·)) (hpicks : ∀ p ∈ picks, p < values.length)
    (x : Block × Block) :
    FoldChis rayon aes values picks x ↔
      x = (xorAll (values.zipIdx.map fun t => Fields.gf2_128.mul (chi aes t.2) t.1),
        xorAll (picks.map (chi aes))) := by
  obtain ⟨parts, hrun, hfst, hsnd⟩ := chunkResults_eq aes hsorted 0 values
  have hall : (picks.filter fun p => decide (0 * chiChunkSize ≤ p) &&
      decide (p < 0 * chiChunkSize + values.length)) = picks :=
    List.filter_eq_self.mpr fun p hp => by
    have := hpicks p hp
    rw [← Bool.decide_and, decide_eq_true_eq]
    omega
  rw [pickSum, hall] at hsnd
  rw [foldSum, Nat.zero_mul] at hfst
  have hsum : parts.foldl addSums (0#128, 0#128) =
      (xorAll (values.zipIdx.map fun t => Fields.gf2_128.mul (chi aes t.2) t.1),
        xorAll (picks.map (chi aes))) := by
    rw [foldl_addSums, hfst, hsnd, BitVec.zero_xor, BitVec.zero_xor]
  rw [← hsum, FoldChis, and_iff_right hsorted]
  constructor
  · rintro ⟨parts', hrun', hx⟩
    obtain rfl := Option.some.inj (hrun.symm.trans hrun')
    cases rayon with
    | false => simpa using hx
    | true =>
      rw [if_pos rfl] at hx
      obtain ⟨order, hperm, hcombined⟩ := hx
      rw [hcombined.eq_foldl, foldl_addSums_perm hperm]
  · rintro rfl
    refine ⟨parts, hrun, ?_⟩
    cases rayon with
    | false => simp
    | true =>
      rw [if_pos rfl]
      exact ⟨parts, .refl _, exists_combined parts⟩

/-- Two values, of which the first is picked twice. -/
theorem foldChis_iff_two :
    FoldChis true (fun b => ~~~b) [1#128, 2#128] [0, 0]
      (xorAll ([1#128, 2#128].zipIdx.map fun t => Fields.gf2_128.mul (chi (fun b => ~~~b) t.2) t.1),
        xorAll ([0, 0].map (chi fun b => ~~~b))) :=
  (foldChis_iff true (fun b => ~~~b) [1#128, 2#128] (by decide) (by decide) _).mpr rfl

end Spcot

end Mpz
