import Mpz.Core.Block
import Mpz.Lib.Blocks
import Mpz.Lib.XorSum

/-!
# Correlated GGM trees

Every parent `x` has the left child `H x` and the right child `x ⊕ H x`, so the nodes of every level
add up to the same. A level is expanded in place: the left children overwrite their parents, and the
right children come behind them. The punctured tree has a zero for the node on the path, whose
children are junk that is taken out of the sum again.

## Main definitions

* `Cggm.expandLevel`, `Cggm.expand`, `Cggm.expandPunctured` — the functions of the source
* `Cggm.level` — the nodes of a level

## Main results

* `Cggm.expandLevel_eq` — what one level makes of its parents
* `Cggm.trees_agree` — the tree and the punctured tree agree, but for the missing leaf
-/

namespace Mpz

namespace Cggm

/-- The mask of a final leaf, which the `emp` feature clears the low bit with. -/
def leafLsbMask (emp : Bool) : Block := if emp then ~~~1#128 else Block.ones

/-- Applies the mask to a final-level leaf. -/
def maskLeafLsb (emp : Bool) (block : Block) : Block := block &&& leafLsbMask emp

/-- Number of nodes hashed per batch. -/
def batch : ℕ := 64

/-- The loop over a batch of parents, slots for the right children, and hashes. -/
def expandBatch (emp right leaf : Bool) :
    List ((Block × Block) × Block) → Block → List (Block × Block) × Block
  | [], sum => ([], sum)
  | ((l, _), h) :: rest, sum =>
    let r := l ^^^ h
    let l := h
    let l := if leaf then maskLeafLsb emp l else l
    let r := if leaf then maskLeafLsb emp r else r
    let out := expandBatch emp right leaf rest (sum ^^^ if right then r else l)
    ((l, r) :: out.1, out.2)

/-- The loop over the batches. -/
def expandBatches (H : Block → Block) (emp right leaf : Bool) :
    List (List Block × List Block) → Block → List (Block × Block) × Block
  | [], sum => ([], sum)
  | (left, rightHalf) :: rest, sum =>
    let h := left.map H
    let out := expandBatch emp right leaf ((left.zip rightHalf).zip h) sum
    let outs := expandBatches H emp right leaf rest out.2
    (out.1 ++ outs.1, outs.2)

/-- Expands one level in place. The parents are the first `n` nodes. Returns the nodes, and the sum
of the children on one side. Nodes that are not there are a panic. -/
def expandLevel (H : Block → Block) (emp : Bool) (nodes : List Block) (n : ℕ) (right leaf : Bool) :
    Option (List Block × Block) :=
  if nodes.length < 2 * n then none
  else
    let left := nodes.take n
    let rightHalf := (nodes.drop n).take n
    let out := expandBatches H emp right leaf
      ((blocks batch left).zip (blocks batch rightHalf)) 0#128
    some (out.1.map Prod.fst ++ out.1.map Prod.snd ++ nodes.drop (2 * n), out.2)

/-- Level `i` of a tree: `sums[i - 1] = expand_level(&mut leaves[..2 * n], n, false, i ==
depth)`. -/
def expandAt (H : Block → Block) (emp : Bool) (depth : ℕ) (s : List Block × List Block) (i : ℕ) :
    Option (List Block × List Block) := do
  let n := 2 ^ (i - 1)
  if s.1.length < 2 * n then none
  else
    let (nodes, sum) ← expandLevel H emp (s.1.take (2 * n)) n false (i == depth)
    return (nodes ++ s.1.drop (2 * n), s.2.set (i - 1) sum)

/-- The leaves and the sums after `k` levels below the first. -/
def expandAfter (H : Block → Block) (emp : Bool) (delta seed : Block) (leaves sums : List Block)
    (k : ℕ) :
    Option (List Block × List Block) :=
  (List.range' 2 k).foldlM (expandAt H emp sums.length)
    ((leaves.set 0 seed).set 1 (delta ^^^ seed), sums.set 0 seed)

/-- Expands a cGGM tree: the leaves, and the sums of the left nodes. -/
def expand (H : Block → Block) (emp : Bool) (delta seed : Block) (leaves sums : List Block) :
    Option (List Block × List Block) :=
  let depth := sums.length
  if depth < 1 then none
  else if leaves.length ≠ 2 ^ depth then none
  else expandAfter H emp delta seed leaves sums (depth - 1)

/-- Level `i` of a punctured tree, with the position of the node on the path. -/
def expandPuncturedAt (H : Block → Block) (emp : Bool) (idx : ℕ) (sums : List Block)
    (s : List Block × ℕ) (i : ℕ) : Option (List Block × ℕ) := do
  let half := 2 ^ (i - 1)
  let b := idx / 2 ^ (i - 1) % 2
  if s.1.length < 2 * half then none
  else
    -- Expand the entire level, summing the nodes on the off-path side.
    let (nodes, sum) ← expandLevel H emp (s.1.take (2 * half)) half (b == 0) (i == sums.length)
    let leaves := nodes ++ s.1.drop (2 * half)
    let pos := s.2
    let junk ← leaves[pos]?
    let leaves := (leaves.set pos 0#128).set (pos + half) 0#128
    let sumI ← sums[i - 1]?
    let sibling := sum ^^^ junk ^^^ sumI
    let sibling := if i = sums.length then maskLeafLsb emp sibling else sibling
    return (leaves.set (pos + (1 - b) * half) sibling, pos + b * half)

/-- Expands a partial cGGM tree which is missing the leaf at the given index. -/
def expandPunctured (H : Block → Block) (emp : Bool) (idx : ℕ) (sums leaves : List Block) :
    Option (List Block) :=
  let depth := sums.length
  if depth < 1 then none
  else if leaves.length ≠ 2 ^ depth then none
  else if leaves.length ≤ idx then none
  else do
    let b := idx % 2
    let sum0 ← sums[0]?
    let s ← (List.range' 2 (depth - 1)).foldlM (expandPuncturedAt H emp idx sums)
      ((leaves.set b 0#128).set (1 - b) sum0, b)
    return s.1

/-- The nodes of level `k + 1`. -/
def level (H : Block → Block) (delta seed : Block) : ℕ → List Block
  | 0 => [seed, delta ^^^ seed]
  | k + 1 => (level H delta seed k).map H ++ (level H delta seed k).map fun x => x ^^^ H x

/-- The sums that a punctured tree is expanded from: `sums[i] ⊕ (delta if bit i of idx is 0)`. -/
def puncturedSums (delta : Block) (idx : ℕ) (sums : List Block) : List Block :=
  sums.mapIdx fun i sum => sum ^^^ if idx / 2 ^ i % 2 = 0 then delta else 0#128

variable {H : Block → Block} {delta seed : Block} {nodes : List Block} {right leaf : Bool} {n k : ℕ}

/-! ### One level -/

/-- The default build keeps the leaf. -/
@[simp] theorem maskLeafLsb_false (block : Block) : maskLeafLsb false block = block :=
  BitVec.and_allOnes

/-- A child, on the right or on the left. -/
def child (H : Block → Block) (right : Bool) (x : Block) : Block := if right then x ^^^ H x else H x

theorem expandBatch_eq (left rightHalf : List Block) (h : left.length = rightHalf.length)
    (sum : Block) :
    expandBatch false right leaf ((left.zip rightHalf).zip (left.map H)) sum =
      (left.map fun x => (child H false x, child H true x),
        sum ^^^ xorAll (left.map (child H right))) := by
  induction left generalizing rightHalf sum with
  | nil => simp [expandBatch]
  | cons x left ih =>
    obtain ⟨y, rightHalf, rfl⟩ := List.exists_cons_of_length_eq_add_one h.symm
    rw [List.map_cons, List.zip_cons_cons, List.zip_cons_cons, expandBatch]
    simp only [maskLeafLsb_false, ite_self]
    rw [ih rightHalf (Nat.add_right_cancel h), List.map_cons, List.map_cons, xorAll_cons,
      BitVec.xor_assoc]
    rfl

theorem expandBatches_eq {ls rs : List (List Block)}
    (hlen : ls.map List.length = rs.map List.length) (sum : Block) :
    expandBatches H false right leaf (ls.zip rs) sum =
      (ls.flatten.map fun x => (child H false x, child H true x),
        sum ^^^ xorAll (ls.flatten.map (child H right))) := by
  induction ls generalizing rs sum with
  | nil => simp [expandBatches]
  | cons l ls ih =>
    cases rs with
    | nil => cases hlen
    | cons r rs =>
      rw [List.map_cons, List.map_cons, List.cons.injEq] at hlen
      rw [List.zip_cons_cons, expandBatches]
      simp only [expandBatch_eq l r hlen.1]
      rw [ih hlen.2, List.flatten_cons, List.map_append, List.map_append, xorAll_append,
        BitVec.xor_assoc]

theorem map_length_blocks {l r : List Block} (h : l.length = r.length) :
    (blocks batch l).map List.length = (blocks batch r).map List.length := by
  induction hm : l.length using Nat.strongRecOn generalizing l r with
  | ind m ih =>
  by_cases hl : l = []
  · have hr : r = [] := List.length_eq_zero_iff.mp (by rw [← h, hl, List.length_nil])
    rw [hl, hr]
  · have hpos := List.length_pos_iff.mpr hl
    have hr : r ≠ [] := List.length_pos_iff.mp (by omega)
    have hbatch : 0 < batch := by decide
    have hlt : (l.drop batch).length < m := by
      rw [List.length_drop]
      omega
    have hdrop : (l.drop batch).length = (r.drop batch).length := by
      rw [List.length_drop, List.length_drop, h]
    rw [blocks_of_ne_nil hbatch hl, blocks_of_ne_nil hbatch hr, List.map_cons, List.map_cons,
      ih _ hlt hdrop rfl, List.length_take, List.length_take, h]

/-- **What one level makes of its parents**, however they are batched. -/
theorem expandLevel_eq {parents rest : List Block} (hparents : parents.length = n)
    (hrest : rest.length = n) :
    expandLevel H false (parents ++ rest) n right leaf =
      some (parents.map (child H false) ++ parents.map (child H true),
        xorAll (parents.map (child H right))) := by
  have hlen : (parents ++ rest).length = 2 * n := by
    rw [List.length_append, hparents, hrest, Nat.two_mul]
  have hbatch : 0 < batch := by decide
  have htake : rest.take n = rest := List.take_of_length_le hrest.le
  rw [expandLevel, if_neg (by omega), List.take_left' hparents, List.drop_left' hparents, htake]
  dsimp only
  rw [expandBatches_eq (map_length_blocks (hparents.trans hrest.symm)), flatten_blocks hbatch,
    List.drop_of_length_le hlen.le, List.append_nil, List.map_map, List.map_map, BitVec.zero_xor]
  rfl

/-! ### The levels of a tree -/

theorem level_succ (k : ℕ) : level H delta seed (k + 1) =
    (level H delta seed k).map (child H false) ++ (level H delta seed k).map (child H true) := rfl

@[simp] theorem length_level (k : ℕ) : (level H delta seed k).length = 2 ^ (k + 1) := by
  induction k with
  | zero => rfl
  | succ k ih => rw [level_succ, List.length_append, List.length_map, List.length_map, ih,
      ← Nat.two_mul, ← Nat.pow_succ']

/-- The children of a level add up to its parents. -/
theorem xorAll_children (parents : List Block) :
    xorAll (parents.map (child H false)) ^^^ xorAll (parents.map (child H true)) =
      xorAll parents := by
  have hsum : xorAll (parents.map fun x => child H false x ^^^ child H true x) =
      xorAll parents := by
    have hone : ∀ x ∈ parents, child H false x ^^^ child H true x = id x := fun x _ => by
      show H x ^^^ (x ^^^ H x) = x
      rw [BitVec.xor_comm x, xor_xor_cancel_left]
    rw [List.map_congr_left hone, List.map_id]
  rw [← hsum, xorAll_map_xor]

/-- **The nodes of every level add up to the offset.** -/
theorem xorAll_level (k : ℕ) : xorAll (level H delta seed k) = delta := by
  induction k with
  | zero =>
    show seed ^^^ (delta ^^^ seed ^^^ 0#128) = delta
    rw [BitVec.xor_zero, BitVec.xor_comm delta, xor_xor_cancel_left]
  | succ k ih => rw [level_succ, xorAll_append, xorAll_children, ih]

/-- The sum of the left nodes of level `k + 1`. -/
def leftSum (H : Block → Block) (delta seed : Block) (k : ℕ) : Block :=
  xorAll ((level H delta seed k).take (2 ^ k))

theorem leftSum_succ (k : ℕ) :
    leftSum H delta seed (k + 1) = xorAll ((level H delta seed k).map (child H false)) := by
  rw [leftSum, level_succ, List.take_left' (by rw [List.length_map, length_level])]

variable {leaves sums : List Block} {depth : ℕ}

/-- **The buffers after some levels**: the nodes of the level in front, and the sums of the left
nodes. -/
theorem exists_expandAfter (H : Block → Block) (delta seed : Block)
    (hleaves : leaves.length = 2 ^ depth) (hsums : sums.length = depth) (hk : k < depth) :
    ∃ rest sums', expandAfter H false delta seed leaves sums k =
      some (level H delta seed k ++ rest, sums') ∧
      (level H delta seed k ++ rest).length = 2 ^ depth ∧ sums'.length = depth ∧
      ∀ i ≤ k, sums'[i]? = some (leftSum H delta seed i) := by
  induction k with
  | zero =>
    have hpow : 2 ^ 1 ≤ 2 ^ depth := Nat.pow_le_pow_right Nat.two_pos hk
    match leaves, sums with
    | x :: y :: leaves, s :: sums =>
      refine ⟨leaves, seed :: sums, rfl, hleaves, hsums, fun i hi => ?_⟩
      obtain rfl : i = 0 := Nat.le_zero.mp hi
      show some seed = some (seed ^^^ 0#128)
      rw [BitVec.xor_zero]
    | [], _ | [_], _ =>
      rw [← hleaves] at hpow
      exact absurd hpow (by simp)
    | _, [] => exact absurd hk (by rw [← hsums]; simp)
  | succ k ih =>
    obtain ⟨rest, sums', hrun, hlen, hlen', hall⟩ := ih (Nat.lt_of_succ_lt hk)
    have hpow : 2 * 2 ^ (k + 1) ≤ 2 ^ depth := by
      rw [← Nat.pow_succ']
      exact Nat.pow_le_pow_right Nat.two_pos hk
    have hrest : (rest.take (2 ^ (k + 1))).length = 2 ^ (k + 1) := by
      rw [List.length_append, length_level] at hlen
      rw [List.length_take]
      omega
    have htake : (level H delta seed k ++ rest).take (2 * 2 ^ (k + 1)) =
        level H delta seed k ++ rest.take (2 ^ (k + 1)) := by
      rw [List.take_append, List.take_of_length_le (by rw [length_level]; omega), length_level,
        Nat.two_mul, Nat.add_sub_cancel]
    have hat : expandAt H false sums.length (level H delta seed k ++ rest, sums') (2 + k) =
        some (level H delta seed (k + 1) ++ (level H delta seed k ++ rest).drop (2 * 2 ^ (k + 1)),
          sums'.set (k + 1) (leftSum H delta seed (k + 1))) := by
      have hsub : 2 + k - 1 = k + 1 := by omega
      rw [expandAt, hsub]
      dsimp only
      rw [if_neg (by omega), htake, expandLevel_eq (length_level k) hrest, leftSum_succ, level_succ]
      rfl
    refine ⟨(level H delta seed k ++ rest).drop (2 * 2 ^ (k + 1)),
      sums'.set (k + 1) (leftSum H delta seed (k + 1)), ?_, ?_, ?_, fun i hi => ?_⟩
    · rw [expandAfter] at hrun ⊢
      rw [List.range'_1_concat, List.foldlM_append, hrun, Option.bind_eq_bind, Option.bind_some,
        List.foldlM_cons, hat]
      rfl
    · rw [List.length_append, length_level, List.length_drop, hlen, Nat.pow_succ']
      omega
    · rw [List.length_set, hlen']
    · rcases Nat.lt_or_eq_of_le hi with hlt | rfl
      · rw [List.getElem?_set_ne (by omega)]
        exact hall i (Nat.le_of_lt_succ hlt)
      · rw [List.getElem?_set_self (by omega)]

/-! ### The punctured tree -/

theorem set_pos_append {l r : List Block} {pos half : ℕ} (hl : l.length = half) (x : Block) :
    (l ++ r).set (pos + half) x = l ++ r.set pos x := by
  rw [List.set_append_right _ _ (by omega), hl, Nat.add_sub_cancel]

/-- The sum of a side with junk in it leaves the node that is missing. -/
theorem sibling_eq {l : List Block} {pos : ℕ} (h : pos < l.length) (junk : Block) :
    xorAll (l.set pos junk) ^^^ junk ^^^ xorAll l = l[pos] := by
  rw [xorAll_set h, xor_xor_cancel_right, BitVec.xor_comm, xor_xor_cancel_left]

/-- **One level of a punctured tree**: the node on the path is missing, all others are there. -/
theorem expandPuncturedAt_eq {idx pos : ℕ} {rest : List Block} (hpos : pos < 2 ^ (k + 1))
    (hrest : 2 ^ (k + 1) ≤ rest.length)
    (hsum : sums[k + 1]? = some (leftSum H delta seed (k + 1) ^^^
      if idx / 2 ^ (k + 1) % 2 = 0 then delta else 0#128)) :
    expandPuncturedAt H false idx sums ((level H delta seed k).set pos 0#128 ++ rest, pos) (2 + k) =
      some ((level H delta seed (k + 1)).set (pos + idx / 2 ^ (k + 1) % 2 * 2 ^ (k + 1)) 0#128 ++
        rest.drop (2 ^ (k + 1)), pos + idx / 2 ^ (k + 1) % 2 * 2 ^ (k + 1)) := by
  have hsub : 2 + k - 1 = k + 1 := by omega
  have hlevel : ((level H delta seed k).set pos 0#128).length = 2 ^ (k + 1) := by
    rw [List.length_set, length_level]
  have htake : ((level H delta seed k).set pos 0#128 ++ rest).take (2 * 2 ^ (k + 1)) =
      (level H delta seed k).set pos 0#128 ++ rest.take (2 ^ (k + 1)) := by
    rw [List.take_append, List.take_of_length_le (by omega), hlevel, Nat.two_mul,
      Nat.add_sub_cancel]
  have hdrop : ((level H delta seed k).set pos 0#128 ++ rest).drop (2 * 2 ^ (k + 1)) =
      rest.drop (2 ^ (k + 1)) := by
    rw [List.drop_append, List.drop_of_length_le (by omega), List.nil_append, hlevel, Nat.two_mul,
      Nat.add_sub_cancel]
  have hlen : ¬ ((level H delta seed k).set pos 0#128 ++ rest).length < 2 * 2 ^ (k + 1) := by
    rw [List.length_append, hlevel]
    omega
  have hresttake : (rest.take (2 ^ (k + 1))).length = 2 ^ (k + 1) := by
    rw [List.length_take]
    omega
  -- Both children of the missing node are the same junk.
  have hjunk : child H true 0#128 = child H false 0#128 := BitVec.zero_xor
  have hsums := xorAll_children (H := H) (level H delta seed k)
  rw [xorAll_level] at hsums
  have hleft : ((level H delta seed k).map (child H false)).length = 2 ^ (k + 1) := by
    rw [List.length_map, length_level]
  have hright : ((level H delta seed k).map (child H true)).length = 2 ^ (k + 1) := by
    rw [List.length_map, length_level]
  rw [leftSum_succ] at hsum
  rw [level_succ, expandPuncturedAt, hsub]
  dsimp only
  rw [if_neg hlen, htake, hdrop, expandLevel_eq hlevel hresttake, List.map_set, List.map_set,
    hjunk, hsum]
  have hget : ∀ x : List Block, (((level H delta seed k).map (child H false)).set pos
      (child H false 0#128) ++ x)[pos]? = some (child H false 0#128) := fun x => by
    rw [List.getElem?_append_left (by rw [List.length_set]; omega),
      List.getElem?_set_self (by omega)]
  simp only [Option.bind_eq_bind, Option.bind_some, Option.pure_def, maskLeafLsb_false, ite_self,
    List.append_assoc, hget]
  have hclear : ∀ l r rest : List Block, l.length = 2 ^ (k + 1) → r.length = 2 ^ (k + 1) →
      ((l.set pos (child H false 0#128) ++ (r.set pos (child H false 0#128) ++ rest)).set pos
        0#128).set
        (pos + 2 ^ (k + 1)) 0#128 = l.set pos 0#128 ++ (r.set pos 0#128 ++ rest) :=
      fun l r rest hl hr => by
    rw [List.set_append_left _ _ (by rw [List.length_set]; omega), List.set_set,
      set_pos_append (by rw [List.length_set, hl]),
      List.set_append_left _ _ (by rw [List.length_set]; omega),
      List.set_set]
  rw [hclear _ _ _ hleft hright]
  obtain hb | hb := Nat.mod_two_eq_zero_or_one (idx / 2 ^ (k + 1))
  · have hright' : pos < ((level H delta seed k).map (child H true)).length := by omega
    have hside : xorAll ((level H delta seed k).map (child H false)) ^^^ delta =
        xorAll ((level H delta seed k).map (child H true)) := by
      have hcancel := xor_xor_cancel_left (xorAll ((level H delta seed k).map (child H false)))
        (xorAll ((level H delta seed k).map (child H true)))
      rwa [hsums] at hcancel
    simp only [hb, beq_self_eq_true, if_true, List.map_set, hjunk, hside, Nat.sub_zero, Nat.one_mul,
      Nat.zero_mul, Nat.add_zero]
    rw [sibling_eq hright', set_pos_append (by rw [List.length_set, hleft]),
      List.set_append_left _ _ (by rw [List.length_set]; omega), List.set_set,
      List.set_getElem_self,
      List.set_append_left _ _ (by omega), List.append_assoc]
  · have hleft' : pos < ((level H delta seed k).map (child H false)).length := by omega
    simp only [hb, show (1 == 0) = false from rfl, one_ne_zero, if_false, List.map_set,
      BitVec.xor_zero, Nat.sub_self, Nat.zero_mul, Nat.one_mul, Nat.add_zero]
    rw [sibling_eq hleft', List.set_append_left _ _ (by rw [List.length_set]; omega), List.set_set,
      List.set_getElem_self, set_pos_append hleft, List.append_assoc]

/-- **The punctured tree after some levels.** -/
theorem exists_expandPuncturedAfter {idx : ℕ} {sum0 : Block} {leaves : List Block}
    (hleaves : leaves.length = 2 ^ depth) (hk : k < depth)
    (hsums : ∀ i < depth, sums[i]? = some (leftSum H delta seed i ^^^
      if idx / 2 ^ i % 2 = 0 then delta else 0#128)) (hsum0 : sums[0]? = some sum0) :
    ∃ rest, (List.range' 2 k).foldlM (expandPuncturedAt H false idx sums)
        ((leaves.set (idx % 2) 0#128).set (1 - idx % 2) sum0, idx % 2) =
      some ((level H delta seed k).set (idx % 2 ^ (k + 1)) 0#128 ++ rest, idx % 2 ^ (k + 1)) ∧
      2 ^ (k + 1) + rest.length = 2 ^ depth := by
  induction k with
  | zero =>
    have hpow : 2 ^ 1 ≤ 2 ^ depth := Nat.pow_le_pow_right Nat.two_pos hk
    have hzero : leftSum H delta seed 0 = seed := BitVec.xor_zero
    match leaves with
    | x :: y :: leaves =>
      refine ⟨leaves, ?_, by rw [← hleaves, List.length_cons, List.length_cons]; omega⟩
      have h0 := Option.some.inj (hsum0.symm.trans (hsums 0 hk))
      rw [Nat.pow_zero, Nat.div_one, hzero] at h0
      rw [zero_add, Nat.pow_one]
      obtain hb | hb := Nat.mod_two_eq_zero_or_one idx
      · rw [hb, if_pos rfl, BitVec.xor_comm] at h0
        rw [hb, h0]
        rfl
      · rw [hb, if_neg one_ne_zero, BitVec.xor_zero] at h0
        rw [hb, h0]
        rfl
    | [] | [_] =>
      rw [← hleaves] at hpow
      exact absurd hpow (by simp)
  | succ k ih =>
    obtain ⟨rest, hrun, hlen⟩ := ih (Nat.lt_of_succ_lt hk)
    have hpow : 2 * 2 ^ (k + 1) ≤ 2 ^ depth := by
      rw [← Nat.pow_succ']
      exact Nat.pow_le_pow_right Nat.two_pos hk
    have hpos : idx % 2 ^ (k + 1) < 2 ^ (k + 1) := Nat.mod_lt _ (Nat.two_pow_pos _)
    have hnext : idx % 2 ^ (k + 1) + idx / 2 ^ (k + 1) % 2 * 2 ^ (k + 1) =
        idx % 2 ^ (k + 1 + 1) := by
      rw [Nat.mod_pow_succ (k := k + 1), Nat.mul_comm]
    refine ⟨rest.drop (2 ^ (k + 1)), ?_, ?_⟩
    · rw [List.range'_1_concat, List.foldlM_append, hrun, Option.bind_eq_bind, Option.bind_some,
        List.foldlM_cons, expandPuncturedAt_eq hpos (by omega) (hsums (k + 1) hk), hnext]
      rfl
    · rw [List.length_drop, Nat.pow_succ' (n := k + 1)]
      omega

/-- **The trees agree.** The nodes of every level add up to the offset, the sums are those of the
left nodes, and the punctured tree has the same leaves but for a zero at the index. -/
theorem trees_agree (H : Block → Block) (delta seed : Block) {depth : ℕ} (hdepth : 1 ≤ depth)
    {leaves sums punctured : List Block} (hleaves : leaves.length = 2 ^ depth)
    (hsums : sums.length = depth) (hpunctured : punctured.length = 2 ^ depth) :
    ∃ out outSums, expand H false delta seed leaves sums = some (out, outSums) ∧
      outSums.length = depth ∧
      (∀ k < depth, ∃ buf bufSums, expandAfter H false delta seed leaves sums k =
        some (buf, bufSums) ∧
        xorAll (buf.take (2 ^ (k + 1))) = delta ∧ outSums[k]? = some (xorAll (buf.take (2 ^ k)))) ∧
      ∀ idx < 2 ^ depth, expandPunctured H false idx (puncturedSums delta idx outSums) punctured =
        some (out.set idx 0#128) := by
  obtain ⟨depth, rfl⟩ : ∃ n, depth = n + 1 := ⟨depth - 1, by omega⟩
  obtain ⟨rest, outSums, hrun, hlen, hlen', hall⟩ := exists_expandAfter H delta seed hleaves hsums
    (Nat.lt_succ_self depth)
  obtain rfl : rest = [] := by
    rw [List.length_append, length_level] at hlen
    exact List.length_eq_zero_iff.mp (by omega)
  rw [List.append_nil] at hrun
  refine ⟨level H delta seed depth, outSums, ?_, hlen', fun k hk => ?_, fun idx hidx => ?_⟩
  · rw [expand, hsums, if_neg (by omega), if_neg (not_not.mpr hleaves), Nat.add_sub_cancel, hrun]
  · obtain ⟨rest, bufSums, hbuf, -⟩ := exists_expandAfter H delta seed hleaves hsums hk
    have hle : 2 ^ k ≤ (level H delta seed k).length := by
      rw [length_level]
      exact Nat.pow_le_pow_right Nat.two_pos (Nat.le_succ k)
    refine ⟨_, bufSums, hbuf, ?_, ?_⟩
    · rw [List.take_left' (length_level k), xorAll_level]
    · rw [hall k (Nat.le_of_lt_succ hk), List.take_append_of_le_length hle, leftSum]
  · have hpsums : ∀ i < depth + 1, (puncturedSums delta idx outSums)[i]? =
        some (leftSum H delta seed i ^^^ if idx / 2 ^ i % 2 = 0 then delta else 0#128) :=
      fun i hi => by
      rw [puncturedSums, List.getElem?_mapIdx, hall i (Nat.le_of_lt_succ hi)]
      rfl
    have hplen : (puncturedSums delta idx outSums).length = depth + 1 := by
      rw [puncturedSums, List.length_mapIdx, hlen']
    obtain ⟨sum0, hsum0⟩ : ∃ sum0, (puncturedSums delta idx outSums)[0]? = some sum0 :=
      ⟨_, hpsums 0 (Nat.succ_pos depth)⟩
    obtain ⟨rest, hp, hplen'⟩ := exists_expandPuncturedAfter hpunctured
      (Nat.lt_succ_self depth) hpsums hsum0
    obtain rfl : rest = [] := List.length_eq_zero_iff.mp (by omega)
    rw [expandPunctured]
    dsimp only
    rw [hplen, if_neg (by omega), if_neg (not_not.mpr hpunctured), if_neg (by omega), hsum0,
      Option.bind_eq_bind, Option.bind_some, Nat.add_sub_cancel, hp, Nat.mod_eq_of_lt hidx,
      List.append_nil]
    rfl

/-- A tree of two levels, whose hash is the complement. -/
theorem trees_agree_two : ∃ out outSums,
    expand (fun x => ~~~x) false 3#128 5#128 [0#128, 1#128, 2#128, 3#128] [0#128, 0#128] =
      some (out, outSums) ∧ outSums.length = 2 ∧
      (∀ k < 2, ∃ buf bufSums, expandAfter (fun x => ~~~x) false 3#128 5#128
          [0#128, 1#128, 2#128, 3#128] [0#128, 0#128] k = some (buf, bufSums) ∧
        xorAll (buf.take (2 ^ (k + 1))) = 3#128 ∧ outSums[k]? = some (xorAll (buf.take (2 ^ k)))) ∧
      ∀ idx < 2 ^ 2, expandPunctured (fun x => ~~~x) false idx (puncturedSums 3#128 idx outSums)
        [7#128, 7#128, 7#128, 7#128] = some (out.set idx 0#128) :=
  trees_agree (fun x => ~~~x) 3#128 5#128 (by decide) rfl rfl rfl

end Cggm

end Mpz
