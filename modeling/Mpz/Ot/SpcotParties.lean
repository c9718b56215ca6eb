import Mpz.Core.Cggm
import Mpz.Fields.Encoding
import Mpz.Ot.Rcot
import Mpz.Ot.Spcot

/-!
# Single-point correlated OT

The sender grows a tree for each vector, whose leaves add up to its offset, and encrypts the sums of
the tree's levels with correlated OTs. The receiver has chosen the side of every level that is off
its path, so it grows all leaves but one, and gets that one, plus the offset, from the sum. A check
over all vectors that are pending folds them with challenges, and compares the two folds by their
hashes.

## Main definitions

* `Spcot.Sender`, `Spcot.Receiver` — the parties
* `Spcot.Performs`, `Spcot.Runs` — the acts of both, on correct correlated OTs
* `Spcot.Tree`, `Spcot.World.of` — the trees that are pending, and the parties as they should be

## Main results

* `Spcot.performs_extend`, `Spcot.performs_check` — what an act does
* `Spcot.runs_iff` — every run comes through, whatever is extended and checked
-/

namespace Mpz

namespace Spcot

/-! ### The parties -/

/-- Number of correlated OTs of a check. -/
def csp : ℕ := 128

/-- `slices_from_lengths`. A slice that is not there is a panic. -/
def slicesFromLengths {α : Type} : List ℕ → List α → Option (List (List α))
  | [], _ => some []
  | length :: lengths, src =>
    if src.length < length then none
    else do
      let slices ← slicesFromLengths lengths (src.drop length)
      return src.take length :: slices

/-- `1 << length` for each of the lengths. A shift by the width of the type is a panic. -/
def shifts (log2Lengths : List ℕ) : Option (List ℕ) :=
  if log2Lengths.all (· < 64) then some (log2Lengths.map (2 ^ ·)) else none

/-- What a function may make of the fold of the challenges. A fold that does not return is a
panic. -/
def Folded {ε α : Type} (rayon : Bool) (aes : Block → Block) (values : List Block) (picks : List ℕ)
    (k : Block × Block → Outcome ε α) (out : Outcome ε α) : Prop :=
  (∃ x, FoldChis rayon aes values picks x ∧ out = k x) ∨
    (¬∃ x, FoldChis rayon aes values picks x) ∧ out = .panic

inductive SenderError where
  | keyCount (expected actual : ℕ)
  | maskCount (expected actual : ℕ)
  | outputLength (expected actual : ℕ)
  deriving DecidableEq, Repr

structure Sender where
  /-- Total length of the vectors pending the consistency check. -/
  pending : ℕ
  delta : Block
  deriving DecidableEq, Repr

inductive ReceiverError where
  | state (message : String)
  | indexCount (expected actual : ℕ)
  | macCount (expected actual : ℕ)
  | maskCount (expected actual : ℕ)
  | correctionCount (expected actual : ℕ)
  | outputLength (expected actual : ℕ)
  | check
  deriving DecidableEq, Repr

structure Receiver where
  /-- log2 length of the vectors pending the consistency check. -/
  lengths : List ℕ
  /-- Chosen indices of the vectors pending the consistency check. -/
  indices : List ℕ
  /-- The sum that was computed when a check was started. -/
  check : Option Block
  deriving DecidableEq, Repr

namespace Sender

def new (delta : Block) : Sender := ⟨0, delta⟩

/-- The loop body of a vector: its leaves, and its corrections. -/
def tree (H : Block → Block) (emp : Bool) (delta : Block) (t : (List Block × List Block) × Block) :
    Option (List Block × List Block) := do
  let ((v, cs), seed) := t
  -- The buffer of the sums is on the stack, and has room for 64 levels.
  if 64 < cs.length then none
  else
    let (v, sums) ← Cggm.expand H emp delta seed v (List.replicate cs.length 0#128)
    return (v, List.zipWith (· ^^^ ·) cs sums)

/-- Computes multiple vectors: the corrections, and the vectors. The `i`-th draw of the generator is
`rng i`. -/
def extend (H : Block → Block) (emp : Bool) (s : Sender) (rng : ℕ → Block) (log2Lengths : List ℕ)
    (keys : List Block) (masks : List Bool) (vs : List Block) :
    Outcome SenderError ((List Block × List Block) × Sender) :=
  let lenSum := log2Lengths.sum
  if keys.length ≠ lenSum then .err (.keyCount lenSum keys.length)
  else if masks.length ≠ lenSum then .err (.maskCount lenSum masks.length)
  else do
    let spcotLengths ← .ofOption (shifts log2Lengths)
    let len := spcotLengths.sum
    if vs.length ≠ len then .err (.outputLength len vs.length)
    else
      -- Derandomize the keys. After expansion these become the corrections of the levels.
      let cs := List.zipWith (corrMsg s.delta) keys masks
      let seeds := (List.range log2Lengths.length).map rng
      let vs ← .ofOption (slicesFromLengths spcotLengths vs)
      let csTrees ← .ofOption (slicesFromLengths log2Lengths cs)
      let trees ← .ofOption (((vs.zip csTrees).zip seeds).mapM (tree H emp s.delta))
      return (((trees.map Prod.snd).flatten, (trees.map Prod.fst).flatten),
        { s with pending := s.pending + len })

/-- What the consistency check may return: the hash of the folded vectors. -/
def Check {Digest : Type} (rayon : Bool) (aes : Block → Block → Block)
    (hash : List (BitVec 8) → Digest) (s : Sender) (keys : List Block) (masks : List Bool)
    (vs : List Block) (chiSeed : Block) (out : Outcome SenderError (Digest × Sender)) : Prop :=
  if keys.length ≠ csp then out = .err (.keyCount csp keys.length)
  else if masks.length ≠ csp then out = .err (.maskCount csp masks.length)
  else if vs.length ≠ s.pending then out = .err (.outputLength s.pending vs.length)
  else
    -- The keys are too few for their inner product to be split.
    let x := Fields.fromLsb0Iter 128 masks
    let y := Fields.gf2_128.innerProduct keys Block.monomials ^^^ Fields.gf2_128.mul s.delta x
    Folded rayon (aes chiSeed) vs [] (fun fold =>
      .ok (hash (Block.toBytes (y ^^^ fold.1)), { s with pending := 0 })) out

end Sender

namespace Receiver

def new : Receiver := ⟨[], [], none⟩

/-- The bits of an index on the levels of its vector, from the first level on. -/
def pathBits (idx length : ℕ) : List Bool := ((List.range 64).map idx.testBit).take length

/-- Derandomizes OT messages: the choice of a level must select the opposite side of the path. -/
def derandomize (log2Lengths idxs : List ℕ) (masks : List Bool) :
    Outcome ReceiverError (List Bool) :=
  let lenSum := log2Lengths.sum
  if idxs.length ≠ log2Lengths.length then .err (.indexCount log2Lengths.length idxs.length)
  else if masks.length ≠ lenSum then .err (.maskCount lenSum masks.length)
  else .ok (List.zipWith (fun b m => (!b) ^^ m) ((idxs.zip log2Lengths).flatMap fun t =>
    pathBits t.1 t.2)
    masks)

/-- The loop body of a vector. -/
def tree (H : Block → Block) (emp : Bool) (t : (List Block × List Block) × ℕ) :
    Option (List Block) := do
  let ((w, sums), idx) := t
  let w ← Cggm.expandPunctured H emp idx sums w
  -- The leaves of the sender's tree add up to its offset.
  let value := w.foldl (· ^^^ ·) 0#128
  let value := if emp && 2 ≤ sums.length then value ^^^ 1#128 else value
  if idx < w.length then return w.set idx value else none

/-- Computes multiple vectors. -/
def extend (H : Block → Block) (emp : Bool) (r : Receiver) (log2Lengths idxs : List ℕ)
    (macs cs ws : List Block) :
    Outcome ReceiverError (List Block × Receiver) :=
  let lenSum := log2Lengths.sum
  if idxs.length ≠ log2Lengths.length then .err (.indexCount log2Lengths.length idxs.length)
  else if macs.length ≠ lenSum then .err (.macCount lenSum macs.length)
  else if cs.length ≠ lenSum then .err (.correctionCount lenSum cs.length)
  else do
    let spcotLengths ← .ofOption (shifts log2Lengths)
    let len := spcotLengths.sum
    if ws.length ≠ len then .err (.outputLength len ws.length)
    else
      -- Decrypt the off-path sibling sums.
      let sums := List.zipWith (· ^^^ ·) macs cs
      let sums ← .ofOption (slicesFromLengths log2Lengths sums)
      let ws ← .ofOption (slicesFromLengths spcotLengths ws)
      let ws ← .ofOption (((ws.zip sums).zip idxs).mapM (tree H emp))
      return (ws.flatten,
        { r with lengths := r.lengths ++ log2Lengths, indices := r.indices ++ idxs })

/-- The global positions of the chosen indices, from position `i` on. -/
def alphas : ℕ → List (ℕ × ℕ) → List ℕ
  | _, [] => []
  | i, (length, idx) :: rest => (i + idx) :: alphas (i + 2 ^ length) rest

/-- What starting a check may return, where the generator draws `chiSeed`: the derandomized choices
and the seed. -/
def StartCheck (rayon : Bool) (aes : Block → Block → Block) (r : Receiver) (chiSeed : Block)
    (macs : List Block) (masks : List Bool) (ws : List Block)
    (out : Outcome ReceiverError ((List Bool × Block) × Receiver)) : Prop :=
  if r.check.isSome then out = .err (.state "check already started")
  else if macs.length ≠ csp then out = .err (.macCount csp macs.length)
  else if masks.length ≠ csp then out = .err (.maskCount csp masks.length)
  else match shifts r.lengths with
    | none => out = .panic
    | some lengths =>
      if ws.length ≠ lengths.sum then out = .err (.outputLength lengths.sum ws.length)
      else Folded rayon (aes chiSeed) ws (alphas 0 (r.lengths.zip r.indices)) (fun fold =>
        let xPrime := List.zipWith (fun x xStar => x != xStar)
          ((List.range 128).map fold.2.getLsbD) masks
        let w := Fields.gf2_128.innerProduct macs Block.monomials ^^^ fold.1
        .ok ((xPrime, chiSeed), { r with check := some w })) out

/-- Finishes the consistency check. The sum is taken out in any case. -/
def finish {Digest : Type} [DecidableEq Digest] (hash : List (BitVec 8) → Digest) (r : Receiver)
    (hashedV : Digest) : Outcome ReceiverError Unit × Receiver :=
  match r.check with
  | none => (.err (.state "check not started"), r)
  | some w =>
    if hashedV ≠ hash w.toBytes then (.err .check, { r with check := none })
    else (.ok (), ⟨[], [], none⟩)

end Receiver

/-! ### The acts of both -/

/-- The features of a build, and what the parties call. -/
structure Build (Digest : Type) where
  emp : Bool
  rayon : Bool
  /-- The hash of the trees. -/
  H : Block → Block
  /-- The encryption of a block under a key. -/
  aes : Block → Block → Block
  /-- The hash of the check. -/
  hash : List (BitVec 8) → Digest

structure World where
  sender : Sender
  receiver : Receiver
  /-- The sender's vectors since the last check. -/
  vs : List Block
  /-- The receiver's vectors since the last check. -/
  ws : List Block
  deriving DecidableEq, Repr

def World.new (delta : Block) : World := ⟨.new delta, .new, [], []⟩

/-- An act of both parties: what each of them calls it with. The correlated OTs have the keys and,
on the receiver's side, the choices `masks`. -/
inductive Act where
  | extend (log2Lengths idxs : List ℕ) (keys : List Block) (masks : List Bool) (rng : ℕ → Block)
    (vs ws : List Block)
  | check (keys : List Block) (masks : List Bool) (chiSeed : Block)

/-- What the caller gives: an index for each vector, of at least one level and within the vector,
correlated OTs for all levels, and buffers for all leaves. -/
def Act.Careful : Act → Prop
  | extend log2Lengths idxs keys masks _ vs ws =>
    idxs.length = log2Lengths.length ∧
      (∀ t ∈ log2Lengths.zip idxs, 1 ≤ t.1 ∧ t.1 < 64 ∧ t.2 < 2 ^ t.1) ∧
      keys.length = log2Lengths.sum ∧ masks.length = log2Lengths.sum ∧
      vs.length = (log2Lengths.map (2 ^ ·)).sum ∧ ws.length = (log2Lengths.map (2 ^ ·)).sum
  | check keys masks _ => keys.length = csp ∧ masks.length = csp

variable {Digest : Type} [DecidableEq Digest]

/-- The calls of an act, each on what the other party has sent. There is no world behind a call that
fails. -/
def Performs (b : Build Digest) (w : World) : Act → Option World → Prop
  | .extend log2Lengths idxs keys masks rng vs ws, o =>
    o = match Receiver.derandomize log2Lengths idxs masks with
      | .ok flip => match w.sender.extend b.H b.emp rng log2Lengths keys flip vs with
        | .ok ((cs, vs), sender) =>
          let macs := List.zipWith (corrMsg w.sender.delta) keys masks
          match w.receiver.extend b.H b.emp log2Lengths idxs macs cs ws with
          | .ok (ws, receiver) => some ⟨sender, receiver, w.vs ++ vs, w.ws ++ ws⟩
          | _ => none
        | _ => none
      | _ => none
  | .check keys masks chiSeed, o =>
    let macs := List.zipWith (corrMsg w.sender.delta) keys masks
    ∃ started, w.receiver.StartCheck b.rayon b.aes chiSeed macs masks w.ws started ∧
      match started with
      | .ok ((flip, chiSeed), receiver) =>
        ∃ hashed, w.sender.Check b.rayon b.aes b.hash keys flip w.vs chiSeed hashed ∧
          match hashed with
          | .ok (hashedV, sender) => match receiver.finish b.hash hashedV with
            | (.ok (), receiver) => o = some ⟨sender, receiver, [], []⟩
            | _ => o = none
          | _ => o = none
      | _ => o = none

/-- What the acts of a list may lead to, one after the other. -/
def Runs (b : Build Digest) : World → List Act → Option World → Prop
  | w, [], o => o = some w
  | w, a :: acts, o => (Performs b w a none ∧ o = none) ∨ ∃ w', Performs b w a (some w') ∧
      Runs b w' acts o

/-! ### The trees that are pending -/

/-- A vector: the depth of its tree, the index that was chosen, and the seed. -/
structure Tree where
  length : ℕ
  idx : ℕ
  seed : Block

namespace Tree

/-- The sender's vector. -/
def v (H : Block → Block) (delta : Block) (t : Tree) :
    List Block := Cggm.level H delta t.seed (t.length - 1)

/-- The receiver's vector: the sender's, but for the chosen index, where the offset is added. -/
def w (H : Block → Block) (delta : Block) (t : Tree) :
    List Block := (t.v H delta).modify t.idx (· ^^^ delta)

/-- A tree that has leaves, of which one is chosen. -/
structure Good (t : Tree) : Prop where
  pos : 1 ≤ t.length
  lt : t.length < 64
  idx_lt : t.idx < 2 ^ t.length

/-- The trees of an extension. -/
def ofExtend (log2Lengths idxs : List ℕ) (rng : ℕ → Block) : List Tree :=
  (log2Lengths.zip idxs).mapIdx fun i t => ⟨t.1, t.2, rng i⟩

end Tree

/-- The trees that are pending after the acts of a list, where some were pending before. -/
def pendingTrees : List Tree → List Act → List Tree
  | trees, [] => trees
  | trees, .extend log2Lengths idxs _ _ rng _ _ :: acts =>
    pendingTrees (trees ++ Tree.ofExtend log2Lengths idxs rng) acts
  | _, .check .. :: acts => pendingTrees [] acts

/-- The parties, where some trees are pending. -/
def World.of (H : Block → Block) (delta : Block) (trees : List Tree) : World where
  sender := ⟨(trees.map fun t => 2 ^ t.length).sum, delta⟩
  receiver := ⟨trees.map Tree.length, trees.map Tree.idx, none⟩
  vs := trees.flatMap (Tree.v H delta)
  ws := trees.flatMap (Tree.w H delta)

variable {H : Block → Block} {delta : Block} {trees : List Tree} {aes : Block → Block}

/-! ### Slices -/

theorem slicesFromLengths_map {α β : Type} (f : α → List β) (l : List α) :
    slicesFromLengths (l.map fun a => (f a).length) (l.flatMap f) = some (l.map f) := by
  induction l with
  | nil => rfl
  | cons a l ih =>
    have hlen : ¬(f a ++ l.flatMap f).length < (f a).length := by
      rw [List.length_append]
      omega
    rw [List.map_cons, List.flatMap_cons, slicesFromLengths, if_neg hlen, List.drop_left,
      List.take_left, ih]
    rfl

theorem exists_slices {α : Type} {lengths : List ℕ} {src : List α} (h : src.length = lengths.sum) :
    ∃ slices : List (List α), slices.map List.length = lengths ∧ slices.flatten = src ∧
      slicesFromLengths lengths src = some slices := by
  induction lengths generalizing src with
  | nil => exact ⟨[], rfl, (List.length_eq_zero_iff.mp h).symm, rfl⟩
  | cons length lengths ih =>
    rw [List.sum_cons] at h
    have hdrop : (src.drop length).length = lengths.sum := by
      rw [List.length_drop]
      omega
    obtain ⟨slices, hmap, hflatten, hslices⟩ := ih hdrop
    refine ⟨src.take length :: slices, ?_, ?_, ?_⟩
    · rw [List.map_cons, hmap, List.length_take, Nat.min_eq_left (by omega)]
    · rw [List.flatten_cons, hflatten, List.take_append_drop]
    · rw [slicesFromLengths, if_neg (by omega), hslices]
      rfl

theorem shifts_eq (h : ∀ t ∈ trees, t.Good) :
    shifts (trees.map Tree.length) = some (trees.map fun t => 2 ^ t.length) := by
  have hall : (trees.map Tree.length).all (· < 64) = true := by
    rw [List.all_map, List.all_eq_true]
    exact fun t ht => decide_eq_true (h t ht).lt
  rw [shifts, if_pos hall, List.map_map]
  rfl

/-! ### One tree -/

namespace Tree

variable {t : Tree}

/-- The sums of the left nodes of the levels. -/
def sums (H : Block → Block) (delta : Block) (t : Tree) : List Block :=
  (List.range t.length).map (Cggm.leftSum H delta t.seed)

/-- The sums of the levels that the receiver opens: each on the side that is off the path. -/
def opened (H : Block → Block) (delta : Block) (t : Tree) : List Block :=
  (List.range t.length).map fun i =>
    Cggm.leftSum H delta t.seed i ^^^ if t.idx / 2 ^ i % 2 = 0 then delta else 0#128

@[simp] theorem length_sums (t : Tree) : (t.sums H delta).length = t.length := by
  rw [sums, List.length_map, List.length_range]

@[simp] theorem length_opened (t : Tree) : (t.opened H delta).length = t.length := by
  rw [opened, List.length_map, List.length_range]

theorem Good.length_v (h : t.Good) : (t.v H delta).length = 2 ^ t.length := by
  rw [v, Cggm.length_level, Nat.sub_add_cancel h.pos]

theorem Good.idx_lt_v (h : t.Good) (H : Block → Block) (delta : Block) :
    t.idx < (t.v H delta).length := h.length_v ▸ h.idx_lt

/-- **The sender's tree**: the leaves, and the corrections with the sums added. -/
theorem Good.sender_tree (h : t.Good) (H : Block → Block) (delta : Block) {v cs : List Block}
    (hv : v.length = 2 ^ t.length) (hcs : cs.length = t.length) :
    Sender.tree H false delta ((v, cs), t.seed) =
      some (t.v H delta, List.zipWith (· ^^^ ·) cs (t.sums H delta)) := by
  have hpos := h.pos
  have hlt := h.lt
  have hzero : (List.replicate cs.length 0#128).length = t.length := by
    rw [List.length_replicate, hcs]
  obtain ⟨rest, sums', hrun, hlen, hlen', hall⟩ := Cggm.exists_expandAfter H delta t.seed hv hzero
    (Nat.sub_lt hpos Nat.one_pos)
  obtain rfl : rest = [] := by
    rw [List.length_append, Cggm.length_level, Nat.sub_add_cancel hpos] at hlen
    exact List.length_eq_zero_iff.mp (by omega)
  obtain rfl : sums' = t.sums H delta := by
    refine List.ext_getElem? fun i => ?_
    by_cases hi : i < t.length
    · rw [hall i (by omega), sums, List.getElem?_map, List.getElem?_range hi]
      rfl
    · rw [List.getElem?_eq_none (by omega), List.getElem?_eq_none (by rw [length_sums]; omega)]
  rw [Sender.tree, if_neg (by omega), Cggm.expand]
  dsimp only
  rw [hzero, if_neg (by omega), if_neg (not_not.mpr hv), hrun, List.append_nil]
  rfl

/-- **The receiver's tree**: the same leaves, and the offset added at the index. -/
theorem Good.receiver_tree (h : t.Good) {w : List Block} (hw : w.length = 2 ^ t.length) :
    Receiver.tree H false ((w, t.opened H delta), t.idx) = some (t.w H delta) := by
  have hpos := h.pos
  have hlt := h.idx_lt
  have hsums : ∀ i < t.length, (t.opened H delta)[i]? = some (Cggm.leftSum H delta t.seed i ^^^
      if t.idx / 2 ^ i % 2 = 0 then delta else 0#128) := fun i hi => by
    rw [opened, List.getElem?_map, List.getElem?_range hi]
    rfl
  obtain ⟨rest, hrun, hlen⟩ :=
    Cggm.exists_expandPuncturedAfter hw (Nat.sub_lt hpos Nat.one_pos) hsums
    (hsums 0 hpos)
  rw [Nat.sub_add_cancel hpos] at hrun hlen
  obtain rfl : rest = [] := List.length_eq_zero_iff.mp (by omega)
  rw [List.append_nil, Nat.mod_eq_of_lt hlt] at hrun
  have hleaf := h.idx_lt_v H delta
  -- The leaves that are there lack the one at the index.
  have hsum : ((t.v H delta).set t.idx 0#128).foldl (· ^^^ ·) 0#128 = (t.v H delta)[t.idx] ^^^
      delta := by
    have hfold := foldl_xor id ((t.v H delta).set t.idx 0#128) 0#128
    have hlevel : xorAll (t.v H delta) = delta := Cggm.xorAll_level _
    rw [List.map_id, BitVec.zero_xor, xorAll_set hleaf, BitVec.xor_zero, hlevel] at hfold
    rw [BitVec.xor_comm]
    exact hfold
  rw [Receiver.tree]
  dsimp only
  rw [Cggm.expandPunctured]
  dsimp only
  rw [length_opened, if_neg (by omega), if_neg (not_not.mpr hw), if_neg (by omega), hsums 0 hpos,
    Option.bind_eq_bind, Option.bind_eq_bind, Option.bind_some, hrun]
  have hset : ((t.v H delta).set t.idx 0#128).length = (t.v H delta).length := List.length_set
  show (if t.idx < ((t.v H delta).set t.idx 0#128).length then
    some (((t.v H delta).set t.idx 0#128).set t.idx
      (((t.v H delta).set t.idx 0#128).foldl (· ^^^ ·) 0#128))
    else none) = _
  rw [if_pos (hset ▸ hleaf), hsum, List.set_set, Tree.w, List.modify_eq_set_getElem?,
    List.getElem?_eq_getElem hleaf]
  rfl

end Tree

/-! ### All trees of an extension -/

theorem sender_trees (h : ∀ t ∈ trees, t.Good) (H : Block → Block) (delta : Block)
    {vs css : List (List Block)} (hvs : vs.map List.length = trees.map fun t => 2 ^ t.length)
    (hcss : css.map List.length = trees.map Tree.length) :
    ∃ out, ((vs.zip css).zip (trees.map Tree.seed)).mapM (Sender.tree H false delta) = some out ∧
      (out.map Prod.snd).flatten =
        List.zipWith (· ^^^ ·) css.flatten (trees.flatMap (Tree.sums H delta)) ∧
      (out.map Prod.fst).flatten = trees.flatMap (Tree.v H delta) := by
  induction trees generalizing vs css with
  | nil =>
    obtain rfl := List.map_eq_nil_iff.mp hvs
    obtain rfl := List.map_eq_nil_iff.mp hcss
    exact ⟨[], rfl, rfl, rfl⟩
  | cons t trees ih =>
    match vs, css with
    | v :: vs, cs :: css =>
      simp only [List.map_cons, List.cons.injEq] at hvs hcss
      obtain ⟨out, hout, hsnd, hfst⟩ :=
        ih (fun s hs => h s (List.mem_cons_of_mem t hs)) hvs.2 hcss.2
      have htree := (h t List.mem_cons_self).sender_tree H delta hvs.1 hcss.1
      refine ⟨(t.v H delta, List.zipWith (· ^^^ ·) cs (t.sums H delta)) :: out, ?_, ?_, ?_⟩
      · rw [List.zip_cons_cons, List.map_cons, List.zip_cons_cons, List.mapM_cons, htree,
          Option.bind_eq_bind, Option.bind_some, hout]
        rfl
      · rw [List.map_cons, List.flatten_cons, hsnd, List.flatten_cons, List.flatMap_cons,
          List.zipWith_append (by rw [hcss.1, Tree.length_sums])]
      · rw [List.map_cons, List.flatten_cons, hfst, List.flatMap_cons]
    | [], _ => cases hvs
    | _ :: _, [] => cases hcss

theorem receiver_trees (h : ∀ t ∈ trees, t.Good) {ws : List (List Block)}
    (hws : ws.map List.length = trees.map fun t => 2 ^ t.length) :
    ((ws.zip (trees.map (Tree.opened H delta))).zip (trees.map Tree.idx)).mapM
      (Receiver.tree H false) =
      some (trees.map (Tree.w H delta)) := by
  induction trees generalizing ws with
  | nil => rw [List.map_eq_nil_iff.mp hws, List.zip_nil_left, List.zip_nil_left, List.mapM_nil]; rfl
  | cons t trees ih =>
    match ws with
    | w :: ws =>
      simp only [List.map_cons, List.cons.injEq] at hws
      rw [List.map_cons, List.map_cons, List.map_cons, List.zip_cons_cons, List.zip_cons_cons,
        List.mapM_cons, (h t List.mem_cons_self).receiver_tree hws.1, Option.bind_eq_bind,
        Option.bind_some,
        ih (fun s hs => h s (List.mem_cons_of_mem t hs)) hws.2]
      rfl
    | [] => cases hws

theorem pathBits_eq {t : Tree} (h : t.Good) :
    Receiver.pathBits t.idx t.length = (List.range t.length).map t.idx.testBit := by
  rw [Receiver.pathBits, ← List.map_take, List.take_range, Nat.min_eq_left h.lt.le]

theorem length_pathBits (h : ∀ t ∈ trees, t.Good) :
    (trees.flatMap fun t => Receiver.pathBits t.idx t.length).length =
      (trees.map Tree.length).sum := by
  rw [List.length_flatMap]
  refine congrArg List.sum (List.map_congr_left fun t ht => ?_)
  rw [pathBits_eq (h t ht), List.length_map, List.length_range]

theorem length_flatMap_sums (H : Block → Block) (delta : Block) (trees : List Tree) :
    (trees.flatMap (Tree.sums H delta)).length = (trees.map Tree.length).sum := by
  rw [List.length_flatMap]
  simp only [Tree.length_sums]

/-- What the receiver opens: the sums of the left nodes, with the offset where the path goes
left. -/
theorem opened_eq (h : ∀ t ∈ trees, t.Good) : trees.flatMap (Tree.opened H delta) =
    List.zipWith (fun b s => s ^^^ if b then 0#128 else delta)
      (trees.flatMap fun t => Receiver.pathBits t.idx t.length)
      (trees.flatMap (Tree.sums H delta)) := by
  induction trees with
  | nil => rfl
  | cons t trees ih =>
    have ht := h t List.mem_cons_self
    have hopened : t.opened H delta = List.zipWith (fun b s => s ^^^ if b then 0#128 else delta)
        (Receiver.pathBits t.idx t.length) (t.sums H delta) := by
      rw [pathBits_eq ht, Tree.sums, List.zipWith_map, List.zipWith_self, Tree.opened]
      refine List.map_congr_left fun i _ => ?_
      rw [Nat.testBit_eq_decide_div_mod_eq]
      obtain hb | hb := Nat.mod_two_eq_zero_or_one (t.idx / 2 ^ i)
      · simp [hb]
      · simp [hb]
    rw [List.flatMap_cons, List.flatMap_cons, List.flatMap_cons, ih fun s hs =>
      h s (List.mem_cons_of_mem t hs),
        List.zipWith_append
        (by rw [pathBits_eq ht, List.length_map, List.length_range, Tree.length_sums]),
      ← hopened]

/-- One level: the OT on the sender's side is for the choice that was left open. -/
theorem decrypt_level (delta key sum : Block) (mask b : Bool) :
    corrMsg delta key mask ^^^ (corrMsg delta key ((!b) ^^ mask) ^^^ sum) =
      sum ^^^ if b then 0#128 else delta := by
  have hleft : key ^^^ (key ^^^ delta ^^^ sum) = sum ^^^ delta := by
    rw [BitVec.xor_assoc, xor_xor_cancel_left, BitVec.xor_comm]
  have hright : key ^^^ delta ^^^ (key ^^^ sum) = sum ^^^ delta := by
    rw [BitVec.xor_comm key delta, BitVec.xor_assoc, xor_xor_cancel_left, BitVec.xor_comm]
  cases b <;> cases mask
  · exact hleft
  · exact hright
  · exact (xor_xor_cancel_left key sum).trans BitVec.xor_zero.symm
  · exact (xor_xor_cancel_left (key ^^^ delta) sum).trans BitVec.xor_zero.symm

/-- **The correlated OTs carry the sums across.** The choices that are left open add the offset on
the levels whose path goes left. -/
theorem decrypt_eq (delta : Block) {keys : List Block} {masks bits : List Bool} {sums : List Block}
    (hmasks : masks.length = keys.length) (hbits : bits.length = keys.length)
    (hsums : sums.length = keys.length) :
    List.zipWith (· ^^^ ·) (List.zipWith (corrMsg delta) keys masks)
        (List.zipWith (· ^^^ ·)
          (List.zipWith (corrMsg delta) keys (List.zipWith (fun b m => (!b) ^^ m) bits masks))
          sums) =
      List.zipWith (fun b s => s ^^^ if b then 0#128 else delta) bits sums := by
  refine List.ext_getElem (by simp; omega) fun i h₁ h₂ => ?_
  simp only [List.getElem_zipWith]
  exact decrypt_level ..

/-! ### An extension -/

variable {keys : List Block} {masks : List Bool} {vs ws : List Block} {rng : ℕ → Block}

theorem derandomize_eq (hmasks : masks.length = (trees.map Tree.length).sum) :
    Receiver.derandomize (trees.map Tree.length) (trees.map Tree.idx) masks =
      .ok (List.zipWith (fun b m => (!b) ^^ m)
        (trees.flatMap fun t => Receiver.pathBits t.idx t.length) masks) := by
  have hzip : (trees.map Tree.idx).zip (trees.map Tree.length) = trees.map fun t =>
      (t.idx, t.length) :=
    List.zip_map'
  rw [Receiver.derandomize, if_neg (by simp), if_neg (not_not.mpr hmasks), hzip, List.flatMap_map]

theorem sender_extend (h : ∀ t ∈ trees, t.Good) (s : Sender)
    (hrng : (List.range trees.length).map rng = trees.map Tree.seed)
    (hkeys : keys.length = (trees.map Tree.length).sum)
    (hmasks : masks.length = (trees.map Tree.length).sum)
    (hvs : vs.length = (trees.map fun t => 2 ^ t.length).sum) :
    s.extend H false rng (trees.map Tree.length) keys masks vs =
      .ok ((List.zipWith (· ^^^ ·) (List.zipWith (corrMsg s.delta) keys masks)
        (trees.flatMap (Tree.sums H s.delta)), trees.flatMap (Tree.v H s.delta)),
        ⟨s.pending + (trees.map fun t => 2 ^ t.length).sum, s.delta⟩) := by
  obtain ⟨vss, hvss, -, hslices⟩ := exists_slices hvs
  have hcs : (List.zipWith (corrMsg s.delta) keys masks).length = (trees.map Tree.length).sum := by
    rw [List.length_zipWith]
    omega
  obtain ⟨css, hcss, hflatten, hslices'⟩ := exists_slices hcs
  obtain ⟨out, hout, hsnd, hfst⟩ := sender_trees h H s.delta hvss hcss
  rw [Sender.extend]
  dsimp only
  rw [if_neg (not_not.mpr hkeys), if_neg (not_not.mpr hmasks), shifts_eq h, Outcome.ofOption_some,
    Outcome.ok_bind, if_neg (not_not.mpr hvs), hslices, Outcome.ofOption_some, Outcome.ok_bind,
    hslices',
    Outcome.ofOption_some, Outcome.ok_bind, List.length_map, hrng, hout, Outcome.ofOption_some,
    Outcome.ok_bind, hsnd, hfst, hflatten]
  rfl

theorem receiver_extend (h : ∀ t ∈ trees, t.Good) (r : Receiver) {macs cs : List Block}
    (hmacs : macs.length = (trees.map Tree.length).sum)
    (hcs : cs.length = (trees.map Tree.length).sum)
    (hws : ws.length = (trees.map fun t => 2 ^ t.length).sum)
    (hopened : List.zipWith (· ^^^ ·) macs cs = trees.flatMap (Tree.opened H delta)) :
    r.extend H false (trees.map Tree.length) (trees.map Tree.idx) macs cs ws =
      .ok (trees.flatMap (Tree.w H delta), ⟨r.lengths ++ trees.map Tree.length,
        r.indices ++ trees.map Tree.idx, r.check⟩) := by
  obtain ⟨wss, hwss, -, hslices⟩ := exists_slices hws
  have hslices' := slicesFromLengths_map (Tree.opened H delta) trees
  simp only [Tree.length_opened] at hslices'
  rw [Receiver.extend]
  dsimp only
  rw [if_neg (by simp), if_neg (not_not.mpr hmacs), if_neg (not_not.mpr hcs), shifts_eq h,
    Outcome.ofOption_some, Outcome.ok_bind, if_neg (not_not.mpr hws), hopened, hslices',
    Outcome.ofOption_some, Outcome.ok_bind, hslices, Outcome.ofOption_some, Outcome.ok_bind,
    receiver_trees h hwss, Outcome.ofOption_some, Outcome.ok_bind]
  rfl

theorem Tree.map_ofExtend {log2Lengths idxs : List ℕ} (h : idxs.length = log2Lengths.length)
    (rng : ℕ → Block) : (ofExtend log2Lengths idxs rng).map Tree.length = log2Lengths ∧
      (ofExtend log2Lengths idxs rng).map Tree.idx = idxs ∧
      (ofExtend log2Lengths idxs rng).map Tree.seed =
        (List.range (ofExtend log2Lengths idxs rng).length).map rng := by
  refine ⟨List.ext_getElem ?_ fun i h₁ h₂ => ?_, List.ext_getElem ?_ fun i h₁ h₂ => ?_,
    List.ext_getElem ?_ fun i h₁ h₂ => ?_⟩ <;> simp [ofExtend, h]

theorem Tree.good_ofExtend {log2Lengths idxs : List ℕ}
    (h : ∀ t ∈ log2Lengths.zip idxs, 1 ≤ t.1 ∧ t.1 < 64 ∧ t.2 < 2 ^ t.1) (rng : ℕ → Block) :
    ∀ t ∈ ofExtend log2Lengths idxs rng, t.Good := by
  intro t ht
  obtain ⟨i, hi, rfl⟩ := List.mem_mapIdx.mp ht
  obtain ⟨hpos, hlt, hidx⟩ := h _ (List.getElem_mem hi)
  exact ⟨hpos, hlt, hidx⟩

/-- The receiver opens the sender's trees. -/
theorem exists_extend (h : ∀ t ∈ trees, t.Good) (s : Sender) (r : Receiver)
    (hrng : (List.range trees.length).map rng = trees.map Tree.seed)
    (hkeys : keys.length = (trees.map Tree.length).sum)
    (hmasks : masks.length = (trees.map Tree.length).sum)
    (hvs : vs.length = (trees.map fun t => 2 ^ t.length).sum)
    (hws : ws.length = (trees.map fun t => 2 ^ t.length).sum) : ∃ flip cs,
    Receiver.derandomize (trees.map Tree.length) (trees.map Tree.idx) masks = .ok flip ∧
      s.extend H false rng (trees.map Tree.length) keys flip vs =
        .ok ((cs, trees.flatMap (Tree.v H s.delta)),
          ⟨s.pending + (trees.map fun t => 2 ^ t.length).sum, s.delta⟩) ∧
      r.extend H false (trees.map Tree.length) (trees.map Tree.idx)
          (List.zipWith (corrMsg s.delta) keys masks) cs ws =
        .ok (trees.flatMap (Tree.w H s.delta), ⟨r.lengths ++ trees.map Tree.length,
          r.indices ++ trees.map Tree.idx, r.check⟩) := by
  have hbits := length_pathBits h
  have hsums := length_flatMap_sums H s.delta trees
  have hflip : (List.zipWith (fun b m => (!b) ^^ m)
      (trees.flatMap fun t => Receiver.pathBits t.idx t.length) masks).length =
        (trees.map Tree.length).sum := by
    rw [List.length_zipWith]
    omega
  have hopened := (decrypt_eq s.delta (hmasks.trans hkeys.symm) (hbits.trans hkeys.symm)
    (hsums.trans hkeys.symm)).trans (opened_eq h).symm
  have hmacs : ∀ choices : List Bool, choices.length = (trees.map Tree.length).sum →
      (List.zipWith (corrMsg s.delta) keys choices).length = (trees.map Tree.length).sum :=
    fun choices hc => by
    rw [List.length_zipWith]
    omega
  have hcs : (List.zipWith (· ^^^ ·)
      (List.zipWith (corrMsg s.delta) keys (List.zipWith (fun b m => (!b) ^^ m)
      (trees.flatMap fun t => Receiver.pathBits t.idx t.length) masks))
        (trees.flatMap (Tree.sums H s.delta))).length = (trees.map Tree.length).sum := by
    rw [List.length_zipWith, hmacs _ hflip]
    omega
  exact ⟨_, _, derandomize_eq hmasks, sender_extend h s hrng hkeys hflip hvs,
    receiver_extend h r (hmacs _ hmasks) hcs hws hopened⟩

/-- **An extension** appends its trees to those that are pending, on both sides. -/
theorem performs_extend {b : Build Digest} (hemp : b.emp = false) (delta : Block)
    (trees : List Tree) {log2Lengths idxs : List ℕ}
    (h : (Act.extend log2Lengths idxs keys masks rng vs ws).Careful) (o : Option World) :
    Performs b (World.of b.H delta trees) (.extend log2Lengths idxs keys masks rng vs ws) o ↔
      o = some (World.of b.H delta (trees ++ Tree.ofExtend log2Lengths idxs rng)) := by
  obtain ⟨hidxs, hgood, hkeys, hmasks, hvs, hws⟩ := h
  obtain ⟨hlengths, hidx, hseed⟩ := Tree.map_ofExtend hidxs rng
  have hnews := Tree.good_ofExtend hgood rng
  clear hgood
  generalize Tree.ofExtend log2Lengths idxs rng = news at *
  subst hlengths hidx
  rw [List.map_map] at hvs hws
  obtain ⟨flip, cs, hflip, hsender, hreceiver⟩ :=
    exists_extend (H := b.H) hnews (World.of b.H delta trees).sender
    (World.of b.H delta trees).receiver hseed.symm hkeys hmasks hvs hws
  rw [Performs, hflip, hemp]
  dsimp only
  rw [hsender]
  dsimp only [World.of] at hreceiver ⊢
  rw [hreceiver]
  dsimp only
  simp only [List.map_append, List.sum_append, List.flatMap_append]

/-! ### The field -/

theorem mul_xor (a x y : Block) : Fields.gf2_128.mul a (x ^^^ y) =
    Fields.gf2_128.mul a x ^^^ Fields.gf2_128.mul a y := by
  refine Fields.lawful_gf2_128.eq_of_residue_eq ?_
  rw [residue_xor, Fields.lawful_gf2_128.residue_mul, Fields.lawful_gf2_128.residue_mul,
    Fields.lawful_gf2_128.residue_mul, residue_xor, mul_add]

theorem mul_comm_block (a x : Block) : Fields.gf2_128.mul a x = Fields.gf2_128.mul x a := by
  refine Fields.lawful_gf2_128.eq_of_residue_eq ?_
  rw [Fields.lawful_gf2_128.residue_mul, Fields.lawful_gf2_128.residue_mul, mul_comm]

theorem xor_mul (x y a : Block) : Fields.gf2_128.mul (x ^^^ y) a =
    Fields.gf2_128.mul x a ^^^ Fields.gf2_128.mul y a := by
  rw [mul_comm_block, mul_xor, mul_comm_block a, mul_comm_block a]

@[simp] theorem mul_zero_block (a : Block) : Fields.gf2_128.mul a 0#128 = 0#128 := by
  refine Fields.lawful_gf2_128.eq_of_residue_eq ?_
  rw [Fields.lawful_gf2_128.residue_mul, residue_zero, mul_zero]

theorem innerProduct_eq_xorAll (a c : List Block) : Fields.gf2_128.innerProduct a c =
    xorAll (List.zipWith Fields.gf2_128.mul a c) := by
  rw [Fields.lawful_gf2_128.innerProduct_eq]
  refine (foldl_xor (fun t : Block × Block => Fields.gf2_128.mul t.1 t.2) (a.zip c) 0#128).trans ?_
  rw [BitVec.zero_xor, List.zip, List.map_zipWith]

/-- A word is the sum of its bits. -/
theorem xorAll_bits {w : ℕ} (x : BitVec w) :
    xorAll ((List.range w).map fun i => if x.getLsbD i then 1#w <<< i else 0#w) = x := by
  have hbits : ∀ n j, (xorAll ((List.range n).map fun i =>
      if x.getLsbD i then 1#w <<< i else 0#w)).getLsbD j =
      (decide (j < n) && x.getLsbD j) := by
    intro n j
    induction n with
    | zero => simp
    | succ n ih =>
      have hbit : (if x.getLsbD n then 1#w <<< n else 0#w).getLsbD j =
          (decide (j = n) && x.getLsbD j) := by
        by_cases hj : j = n
        · subst hj
          by_cases hx : x.getLsbD j
          · have := BitVec.lt_of_getLsbD hx
            simp [hx, this]
          · simp [hx]
        · by_cases hx : x.getLsbD n
          · simp [hx, hj, BitVec.getLsbD_shiftLeft]
            omega
          · simp [hx, hj]
      rw [List.range_succ, List.map_append, xorAll_append, BitVec.getLsbD_xor, ih, List.map_cons,
        List.map_nil, xorAll_cons, xorAll_nil, BitVec.xor_zero, hbit]
      obtain hlt | rfl | hgt := Nat.lt_trichotomy j n
      · simp [hlt, hlt.ne, Nat.lt_succ_of_lt hlt]
      · simp
      · simp [hgt.ne', Nat.not_lt_of_gt hgt, Nat.not_lt_of_le (Nat.succ_le_of_lt hgt)]
  refine BitVec.eq_of_getLsbD_eq fun j hj => ?_
  rw [hbits, decide_eq_true hj, Bool.true_and]

theorem xorAll_monomials {masks : List Bool} (h : masks.length = csp) :
    xorAll (List.zipWith (fun m x => if m then x else 0#128) masks Block.monomials) =
      Fields.fromLsb0Iter 128 masks := by
  have hlist : List.zipWith (fun m x => if m then x else 0#128) masks Block.monomials =
      (List.range 128).map fun i =>
        if (Fields.fromLsb0Iter 128 masks).getLsbD i then 1#128 <<< i else 0#128 := by
    have hlen : (List.zipWith (fun m x => if m then x else 0#128) masks Block.monomials).length =
        128 := by
      rw [List.length_zipWith, h, Block.length_monomials]
      rfl
    refine List.ext_getElem (by rw [hlen, List.length_map, List.length_range]) fun i h₁ h₂ => ?_
    rw [List.length_map, List.length_range] at h₂
    have hi : i < masks.length := h ▸ h₂
    rw [List.getElem_zipWith, Block.getElem_monomials, List.getElem_map, List.getElem_range,
      Fields.getLsbD_fromLsb0Iter masks h₂, List.getD_eq_getElem?_getD, List.getElem?_eq_getElem hi]
    rfl
  rw [hlist, xorAll_bits]

/-- The choices come out of the inner product, times the offset. -/
theorem xorAll_corrMsg (delta : Block) {keys ms : List Block} {masks : List Bool}
    (hmasks : masks.length = keys.length) (hms : ms.length = keys.length) :
    xorAll (List.zipWith Fields.gf2_128.mul (List.zipWith (corrMsg delta) keys masks) ms) =
      xorAll (List.zipWith Fields.gf2_128.mul keys ms) ^^^
        Fields.gf2_128.mul delta (xorAll
          (List.zipWith (fun m x => if m then x else 0#128) masks ms)) := by
  induction keys generalizing masks ms with
  | nil =>
    obtain rfl := List.length_eq_zero_iff.mp hmasks
    simp
  | cons key keys ih =>
    match masks, ms with
    | m :: masks, x :: ms =>
      have ih := ih (Nat.succ.inj hmasks) (Nat.succ.inj hms)
      have hone : Fields.gf2_128.mul (corrMsg delta key m) x =
          Fields.gf2_128.mul key x ^^^ Fields.gf2_128.mul delta (if m then x else 0#128) := by
        cases m
        · exact (mul_zero_block delta ▸ BitVec.xor_zero).symm
        · exact xor_mul key delta x
      rw [List.zipWith_cons_cons, List.zipWith_cons_cons, List.zipWith_cons_cons,
        List.zipWith_cons_cons, xorAll_cons, xorAll_cons, xorAll_cons, ih, hone, mul_xor]
      ac_rfl
    | [], _ => cases hmasks
    | _ :: _, [] => cases hms

/-- **The two inner products** of a check differ by the choices, times the offset. -/
theorem innerProduct_corrMsg (delta : Block) {keys : List Block} {masks : List Bool}
    (hkeys : keys.length = csp) (hmasks : masks.length = csp) :
    Fields.gf2_128.innerProduct (List.zipWith (corrMsg delta) keys masks) Block.monomials =
      Fields.gf2_128.innerProduct keys Block.monomials ^^^
        Fields.gf2_128.mul delta (Fields.fromLsb0Iter 128 masks) := by
  rw [innerProduct_eq_xorAll, innerProduct_eq_xorAll, xorAll_corrMsg delta (hmasks.trans hkeys.symm)
    (Block.length_monomials.trans hkeys.symm), xorAll_monomials hmasks]

/-- The choices that are left open are the difference to the sum. -/
theorem fromLsb0Iter_flip (x : Block) {masks : List Bool} (h : masks.length = csp) :
    Fields.fromLsb0Iter 128 (List.zipWith (fun x xStar => x != xStar)
      ((List.range 128).map x.getLsbD) masks) = x ^^^ Fields.fromLsb0Iter 128 masks := by
  refine BitVec.eq_of_getLsbD_eq fun i hi => ?_
  have hi' : i < masks.length := h ▸ hi
  rw [Fields.getLsbD_fromLsb0Iter _ hi, BitVec.getLsbD_xor, Fields.getLsbD_fromLsb0Iter _ hi,
    List.getD_eq_getElem?_getD, List.getElem?_zipWith, List.getElem?_map, List.getElem?_range hi,
    List.getD_eq_getElem?_getD, List.getElem?_eq_getElem hi']
  rfl

/-! ### The fold -/

/-- What the fold returns, with ascending picks. -/
theorem foldChis_eq (rayon : Bool) (aes : Block → Block) (values : List Block) {picks : List ℕ}
    (hsorted : picks.Pairwise (· ≤ ·)) (hpicks : ∀ p ∈ picks, p < values.length)
    (x : Block × Block) :
    FoldChis rayon aes values picks x ↔
      x = (foldSum aes 0 values, xorAll (picks.map (chi aes))) := by
  obtain ⟨parts, hrun, hfst, hsnd⟩ := chunkResults_eq aes hsorted 0 values
  have hall : (picks.filter fun p => decide (0 * chiChunkSize ≤ p) &&
      decide (p < 0 * chiChunkSize + values.length)) = picks :=
    List.filter_eq_self.mpr fun p hp => by
    have := hpicks p hp
    rw [← Bool.decide_and, decide_eq_true_eq]
    omega
  rw [pickSum, hall] at hsnd
  rw [Nat.zero_mul] at hfst
  have hsum := foldl_addSums parts (0#128, 0#128)
  rw [hfst, hsnd, BitVec.zero_xor, BitVec.zero_xor] at hsum
  have hparts : (∃ parts, chunkResults aes picks 0 (blocks chiChunkSize values) = some parts ∧
      if rayon then ∃ order : List (Block × Block), order.Perm parts ∧
      Combined (0#128, 0#128) addSums order x
      else x = parts.foldl addSums (0#128, 0#128)) ↔ x = parts.foldl addSums (0#128, 0#128) := by
    rw [hrun]
    cases rayon
    · simp
    · simp only [Option.some.injEq, exists_eq_left', if_true]
      constructor
      · rintro ⟨order, hperm, hcombined⟩
        rw [hcombined.eq_foldl, foldl_addSums_perm hperm]
      · rintro rfl
        exact ⟨parts, .refl _, exists_combined parts⟩
  rw [FoldChis, and_iff_right hsorted, hparts, hsum]

theorem folded_iff {ε α : Type} (rayon : Bool) (aes : Block → Block) (values : List Block)
    {picks : List ℕ} (hsorted : picks.Pairwise (· ≤ ·)) (hpicks : ∀ p ∈ picks, p < values.length)
    (k : Block × Block → Outcome ε α) (out : Outcome ε α) :
    Folded rayon aes values picks k out ↔
      out = k (foldSum aes 0 values, xorAll (picks.map (chi aes))) := by
  simp only [Folded, foldChis_eq rayon aes values hsorted hpicks, exists_eq_left, exists_eq,
    not_true, false_and, or_false]

/-- One value changes: its challenge comes out, times the difference. -/
theorem foldSum_modify (aes : Block → Block) (delta : Block) {l : List Block} {i : ℕ}
    (h : i < l.length) (n : ℕ) : foldSum aes n (l.modify i (· ^^^ delta)) =
      foldSum aes n l ^^^ Fields.gf2_128.mul delta (chi aes (n + i)) := by
  induction l generalizing i n with
  | nil => cases h
  | cons x l ih =>
    cases i with
    | zero =>
      rw [List.modify_zero_cons, foldSum, foldSum, List.zipIdx_cons, List.zipIdx_cons,
        List.map_cons, List.map_cons, xorAll_cons, xorAll_cons, mul_xor, mul_comm_block delta,
        Nat.add_zero]
      ac_rfl
    | succ i =>
      have ih := ih (Nat.lt_of_succ_lt_succ h) (n + 1)
      rw [foldSum, foldSum] at ih
      rw [List.modify_succ_cons, foldSum, foldSum, List.zipIdx_cons, List.zipIdx_cons,
        List.map_cons, List.map_cons, xorAll_cons, xorAll_cons, ih, Nat.add_right_comm,
        Nat.add_assoc n, BitVec.xor_assoc]

/-- Where the indices of some trees are, from position `n` on. -/
def positions (n : ℕ) (trees : List Tree) :
    List ℕ := Receiver.alphas n (trees.map fun t => (t.length, t.idx))

@[simp] theorem positions_cons (n : ℕ) (t : Tree) (trees : List Tree) :
    positions n (t :: trees) = (n + t.idx) :: positions (n + 2 ^ t.length) trees := rfl

theorem mem_positions (h : ∀ t ∈ trees, t.Good) {n p : ℕ} (hp : p ∈ positions n trees) :
    n ≤ p ∧ p < n + (trees.map fun t => 2 ^ t.length).sum := by
  induction trees generalizing n with
  | nil => cases hp
  | cons t trees ih =>
    have ht := (h t List.mem_cons_self).idx_lt
    rw [List.map_cons, List.sum_cons]
    rcases List.mem_cons.mp hp with rfl | hp
    · omega
    · have := ih (fun s hs => h s (List.mem_cons_of_mem t hs)) hp
      omega

theorem positions_sorted (h : ∀ t ∈ trees, t.Good) (n : ℕ) :
    (positions n trees).Pairwise (· ≤ ·) := by
  induction trees generalizing n with
  | nil => exact .nil
  | cons t trees ih =>
    have hrest : ∀ s ∈ trees, s.Good := fun s hs => h s (List.mem_cons_of_mem t hs)
    refine .cons (fun p hp => ?_) (ih hrest _)
    have ht := (h t List.mem_cons_self).idx_lt
    have := mem_positions hrest hp
    omega

theorem length_flatMap_v (h : ∀ t ∈ trees, t.Good) (H : Block → Block) (delta : Block) :
    (trees.flatMap (Tree.v H delta)).length = (trees.map fun t => 2 ^ t.length).sum := by
  rw [List.length_flatMap]
  exact congrArg List.sum (List.map_congr_left fun t ht => (h t ht).length_v)

theorem length_flatMap_w (h : ∀ t ∈ trees, t.Good) (H : Block → Block) (delta : Block) :
    (trees.flatMap (Tree.w H delta)).length = (trees.map fun t => 2 ^ t.length).sum := by
  rw [List.length_flatMap]
  refine congrArg List.sum (List.map_congr_left fun t ht => ?_)
  rw [Tree.w, List.length_modify, (h t ht).length_v]

/-- **The two folds** differ by the challenges of the chosen indices, times the offset. -/
theorem foldSum_w (h : ∀ t ∈ trees, t.Good) (aes H : Block → Block) (delta : Block) (n : ℕ) :
    foldSum aes n (trees.flatMap (Tree.w H delta)) =
      foldSum aes n (trees.flatMap (Tree.v H delta)) ^^^
      Fields.gf2_128.mul delta (xorAll ((positions n trees).map (chi aes))) := by
  induction trees generalizing n with
  | nil => exact (mul_zero_block delta ▸ BitVec.xor_zero).symm
  | cons t trees ih =>
    have ht := h t List.mem_cons_self
    have hlen : (t.w H delta).length = 2 ^ t.length := by
      rw [Tree.w, List.length_modify, ht.length_v]
    rw [List.flatMap_cons, List.flatMap_cons, foldSum_append, foldSum_append,
      hlen, ht.length_v, ih (fun s hs => h s (List.mem_cons_of_mem t hs)), Tree.w,
      foldSum_modify aes delta (ht.idx_lt_v H delta), positions_cons, List.map_cons, xorAll_cons,
      mul_xor]
    ac_rfl

/-! ### A check -/

theorem start_check (h : ∀ t ∈ trees, t.Good) (rayon : Bool) (aes : Block → Block → Block)
    (H : Block → Block) (delta chiSeed : Block) (hkeys : keys.length = csp)
    (hmasks : masks.length = csp) (out : Outcome ReceiverError ((List Bool × Block) × Receiver)) :
    Receiver.StartCheck rayon aes ⟨trees.map Tree.length, trees.map Tree.idx, none⟩ chiSeed
        (List.zipWith (corrMsg delta) keys masks) masks (trees.flatMap (Tree.w H delta)) out ↔
      out = .ok ((List.zipWith (fun x xStar => x != xStar) ((List.range 128).map
          (xorAll ((positions 0 trees).map (chi (aes chiSeed)))).getLsbD) masks, chiSeed),
        ⟨trees.map Tree.length, trees.map Tree.idx,
          some (Fields.gf2_128.innerProduct (List.zipWith (corrMsg delta) keys masks)
            Block.monomials ^^^
            foldSum (aes chiSeed) 0 (trees.flatMap (Tree.w H delta)))⟩) := by
  have hmacs : (List.zipWith (corrMsg delta) keys masks).length = csp := by
    rw [List.length_zipWith, hkeys, hmasks, Nat.min_self]
  have hws := length_flatMap_w h H delta
  have hzip : (trees.map Tree.length).zip (trees.map Tree.idx) = trees.map fun t =>
      (t.length, t.idx) :=
    List.zip_map'
  have hnone :
      ¬(⟨trees.map Tree.length, trees.map Tree.idx, none⟩ : Receiver).check.isSome = true :=
    Bool.false_ne_true
  rw [Receiver.StartCheck, if_neg hnone, if_neg (not_not.mpr hmacs), if_neg (not_not.mpr hmasks),
    shifts_eq h]
  dsimp only
  rw [if_neg (not_not.mpr hws), hzip]
  refine folded_iff rayon _ _ (positions_sorted h 0) (fun p hp => ?_) _ out
  have := mem_positions h hp
  omega

omit [DecidableEq Digest] in
theorem sender_check (h : ∀ t ∈ trees, t.Good) (b : Build Digest) (delta chiSeed : Block)
    {flip : List Bool} (hkeys : keys.length = csp) (hflip : flip.length = csp)
    (out : Outcome SenderError (Digest × Sender)) :
    Sender.Check b.rayon b.aes b.hash ⟨(trees.map fun t => 2 ^ t.length).sum, delta⟩ keys flip
        (trees.flatMap (Tree.v b.H delta)) chiSeed out ↔
      out = .ok (b.hash (Block.toBytes (Fields.gf2_128.innerProduct keys Block.monomials ^^^
        Fields.gf2_128.mul delta (Fields.fromLsb0Iter 128 flip) ^^^
          foldSum (b.aes chiSeed) 0 (trees.flatMap (Tree.v b.H delta)))), ⟨0, delta⟩) := by
  have hvs := length_flatMap_v h b.H delta
  rw [Sender.Check, if_neg (not_not.mpr hkeys), if_neg (not_not.mpr hflip),
    if_neg (not_not.mpr hvs)]
  exact folded_iff b.rayon _ _ .nil (fun p hp => absurd hp List.not_mem_nil) _ out

omit [DecidableEq Digest] in
/-- Both parties hash the same sum. -/
theorem exists_check (h : ∀ t ∈ trees, t.Good) (b : Build Digest) (delta chiSeed : Block)
    (hkeys : keys.length = csp) (hmasks : masks.length = csp) : ∃ flip sum,
    (∀ out, Receiver.StartCheck b.rayon b.aes ⟨trees.map Tree.length, trees.map Tree.idx,
      none⟩ chiSeed
        (List.zipWith (corrMsg delta) keys masks) masks (trees.flatMap (Tree.w b.H delta)) out ↔
      out = .ok ((flip, chiSeed), ⟨trees.map Tree.length, trees.map Tree.idx, some sum⟩)) ∧
    ∀ out, Sender.Check b.rayon b.aes b.hash ⟨(trees.map fun t => 2 ^ t.length).sum,
      delta⟩ keys flip
        (trees.flatMap (Tree.v b.H delta)) chiSeed out ↔
      out = .ok (b.hash sum.toBytes, ⟨0, delta⟩) := by
  have hflip : (List.zipWith (fun x xStar => x != xStar) ((List.range 128).map
      (xorAll ((positions 0 trees).map (chi (b.aes chiSeed)))).getLsbD) masks).length = csp := by
    rw [List.length_zipWith, List.length_map, List.length_range, hmasks]
    rfl
  have hsum : Fields.gf2_128.innerProduct keys Block.monomials ^^^
      Fields.gf2_128.mul delta (Fields.fromLsb0Iter 128 (List.zipWith (fun x xStar => x != xStar)
        ((List.range 128).map (xorAll ((positions 0 trees).map (chi (b.aes chiSeed)))).getLsbD)
        masks)) ^^^
        foldSum (b.aes chiSeed) 0 (trees.flatMap (Tree.v b.H delta)) =
      Fields.gf2_128.innerProduct (List.zipWith (corrMsg delta) keys masks) Block.monomials ^^^
        foldSum (b.aes chiSeed) 0 (trees.flatMap (Tree.w b.H delta)) := by
    rw [fromLsb0Iter_flip _ hmasks, innerProduct_corrMsg delta hkeys hmasks, foldSum_w h, mul_xor]
    ac_rfl
  refine ⟨_, _, start_check h b.rayon b.aes b.H delta chiSeed hkeys hmasks, fun out => ?_⟩
  rw [sender_check h b delta chiSeed hkeys hflip, hsum]

/-- **A check** of honest vectors is accepted, and nothing is pending behind it. -/
theorem performs_check (b : Build Digest) (delta : Block) {trees : List Tree}
    (hgood : ∀ t ∈ trees, t.Good) {chiSeed : Block} (h : (Act.check keys masks chiSeed).Careful)
    (o : Option World) :
    Performs b (World.of b.H delta trees) (.check keys masks chiSeed) o ↔
      o = some (World.of b.H delta []) := by
  obtain ⟨flip, sum, hstart, hcheck⟩ := exists_check hgood b delta chiSeed h.1 h.2
  rw [Performs]
  simp only [World.of, hstart, exists_eq_left, hcheck, Receiver.finish, ne_eq, not_true, if_false]
  rfl

/-! ### Runs -/

/-- **Every run comes through.** Whatever is extended and checked, in any order: no call fails,
every check is accepted, the receiver's vectors are the sender's but for the offset at the chosen
indices, and what is pending on both sides is what was extended since the last check. -/
theorem runs_iff {b : Build Digest} (hemp : b.emp = false) (delta : Block) {acts : List Act}
    (h : ∀ a ∈ acts, a.Careful) (o : Option World) :
    Runs b (World.new delta) acts o ↔ o = some (World.of b.H delta (pendingTrees [] acts)) := by
  have hall : ∀ trees : List Tree, (∀ t ∈ trees, t.Good) →
      (Runs b (World.of b.H delta trees) acts o ↔
        o = some (World.of b.H delta (pendingTrees trees acts))) := by
    induction acts with
    | nil => exact fun trees _ => Iff.rfl
    | cons a acts ih =>
      intro trees hgood
      have ih := ih fun a ha => h a (List.mem_cons_of_mem _ ha)
      have ha := h a List.mem_cons_self
      cases a with
      | extend log2Lengths idxs keys masks rng vs ws =>
        have hnews : ∀ t ∈ trees ++ Tree.ofExtend log2Lengths idxs rng, t.Good := fun t ht => by
          rcases List.mem_append.mp ht with ht | ht
          · exact hgood t ht
          · exact Tree.good_ofExtend ha.2.1 rng t ht
        rw [Runs]
        simp only [performs_extend hemp delta trees ha, reduceCtorEq, false_and, false_or,
          Option.some.injEq, exists_eq_left]
        exact ih _ hnews
      | check keys masks chiSeed =>
        rw [Runs]
        simp only [performs_check b delta hgood ha, reduceCtorEq, false_and, false_or,
          Option.some.injEq, exists_eq_left]
        exact ih [] fun t ht => absurd ht List.not_mem_nil
  exact hall [] fun t ht => absurd ht List.not_mem_nil

/-- A build whose hashes are simple functions. -/
def sampleBuild : Build ℕ := ⟨false, true, fun x => ~~~x, fun key x => key ^^^ ~~~x, fun bytes =>
  bytes.foldl
  (fun n byte => 256 * n + byte.toNat) 0⟩

/-- Two vectors, of which one has two levels, a check, and another vector. -/
def sampleActs : List Act :=
  [.extend [1, 2] [1, 2] [5#128, 6#128, 7#128] [true, false, true]
    (fun i => BitVec.ofNat 128 (i + 9))
      (List.replicate 6 0#128) (List.replicate 6 0#128),
    .check (List.replicate 128 4#128) (List.replicate 128 true) 8#128,
    .extend [1] [0] [5#128] [false] (fun _ => 2#128) [0#128, 0#128] [0#128, 0#128]]

theorem runs_sample : Runs sampleBuild (World.new 3#128) sampleActs
    (some (World.of sampleBuild.H 3#128 [⟨1, 0, 2#128⟩])) := by
  refine (runs_iff rfl 3#128 (fun a ha => ?_) _).mpr rfl
  rcases List.mem_cons.mp ha with rfl | ha
  · exact ⟨rfl, by decide, rfl, rfl, rfl, rfl⟩
  · rcases List.mem_cons.mp ha with rfl | ha
    · exact ⟨List.length_replicate, List.length_replicate⟩
    · obtain rfl := List.mem_singleton.mp ha
      exact ⟨rfl, by decide, rfl, rfl, rfl, rfl⟩

end Spcot

end Mpz
