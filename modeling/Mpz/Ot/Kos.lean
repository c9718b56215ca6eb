import Mpz.Core.Block
import Mpz.Lib.Run
import Mpz.Transpose.Scalar

/-!
# KOS extension

Both parties extend their rows by as many blocks as are allocated, a batch at a time, until nothing
is allocated. Then the check consumes the rows, gives up 128 of the transfers, and serves the
requests that wait. A build is modelled that checks for overflows.

## Main definitions

* `Receiver`, `Sender` — the parties in their extension state
* `Receiver.Op`, `Sender.Op` — their calls
* `Receiver.Allowed`, `Sender.Allowed` — the calls that come back

## Main results

* `Receiver.call_spec`, `Sender.call_spec` — from a state with the invariant, exactly the allowed
  calls come back, and they keep it
* `kos_returns_iff` — so they do in every state that is reached
-/

namespace Mpz

namespace Kos

/-- Computational security parameter -/
def csp : ℕ := 128

/-- Statistical security parameter -/
def ssp : ℕ := 128

/-- A KOS error: `SenderError` or `ReceiverError`. -/
inductive Error where
  /-- The rows are extended already, or it is too early or too late for the check. -/
  | invalidState
  /-- There are fewer transfers than are asked for. -/
  | insufficientSetup (expected actual : ℕ)
  /-- The message is about another number of transfers. -/
  | countMismatch (expected actual : ℕ)
  /-- The weights are not there. -/
  | chiNotSet
  /-- The linear combinations do not agree. -/
  | consistencyCheckFailed
deriving DecidableEq

/-- The call comes back, with a value or an error. -/
def returns {ε α : Type} : Outcome ε α → Bool
  | .panic => false
  | _ => true

/-- Round up to a multiple of SSP. The addition may overflow. -/
def roundUp (count : ℕ) : Option ℕ :=
  if count + (ssp - 1) < 2 ^ 64 then some ((count + (ssp - 1)) / ssp * ssp) else none

/-- The blocks of a slice of bytes, whose length is to be a multiple of that of a block. -/
def toBlocks (bytes : List (BitVec 8)) : Option (List Block) :=
  if 16 ∣ bytes.length then
    some ((blocks 16 bytes).map fun b =>
      b.foldr (fun byte acc => acc <<< 8 ||| byte.setWidth 128) 0)
  else none

/-- What the generators fill the rows with. -/
def fillRows (g : ℕ → ℕ → BitVec 8) (rowWidth : ℕ) : List (BitVec 8) :=
  (List.range csp).flatMap fun i => (List.range rowWidth).map (g i)

/-- The rows before and after transposing. -/
structure Unchecked where
  /-- The rows, one behind the other in blocks. -/
  rows : List (List Block)
  /-- What is transposed of them, a block for each transfer. -/
  trans : List Block

/-- Extends the existing rows, and what is transposed. Rows without a byte have no chunks. -/
def Unchecked.extend (u : Unchecked) (rowWidth : ℕ) (bytes : List (BitVec 8)) : Option Unchecked :=
  if rowWidth = 0 then none
  else do
    let new ← (blocks rowWidth bytes).mapM toBlocks
    match Transpose.transposeBits true bytes csp with
    | some (.ok (), ts) =>
      let ts ← toBlocks ts
      some ⟨u.rows.mapIdx fun i row => row ++ new.getD i [], u.trans ++ ts⟩
    | _ => none

/-- A linear combination of a row, with its last block. An empty row has none, and there is to be a
weight for each of the other blocks. -/
def combine (chis : List Block) (row : List Block) : Option Block :=
  match row.getLast? with
  | none => none
  | some last =>
    if row.dropLast.length = chis.length then some (Block.innPrdtRed row.dropLast chis ^^^
      last) else none

/-- The weights, and the linear combinations of all rows. The length of the first row may
underflow. -/
def Unchecked.combine (u : Unchecked) (chi : ℕ → Block) : Option (List Block × List Block) :=
  match u.rows.head? with
  | none => none
  | some row =>
    if row.length = 0 then none
    else do
      let chis := (List.range (row.length - 1)).map chi
      let ts ← u.rows.mapM (Kos.combine chis)
      some (chis, ts)

/-- The number of transfers that are left of the transposed rows, which may underflow. -/
def Unchecked.nrows (u : Unchecked) : Option ℕ :=
  if u.trans.length < ssp then none else some (u.trans.length - ssp)

/-- The slices for the requests that wait, one behind the other, and where they end. -/
def serve {α : Type} (l : List α) : List ℕ → ℕ → Option (List (List α) × ℕ)
  | [], i => some ([], i)
  | count :: queue, i =>
    if i + count ≤ l.length then
      (serve l queue (i + count)).map fun s => ((l.drop i).take count :: s.1, s.2)
    else none

/-! ### Rows -/

/-- What the calls keep of the rows: there are none, or 128 of one length, of which the transposed
ones have as many blocks. -/
structure Unchecked.Even (u : Unchecked) (width : ℕ) : Prop where
  rows : u.rows.length = csp
  length : ∀ row ∈ u.rows, row.length = width
  trans : u.trans.length = ssp * width

theorem length_toBlocks {bytes : List (BitVec 8)} {n : ℕ} (h : bytes.length = 16 * n) :
    ∃ bs, toBlocks bytes = some bs ∧ bs.length = n := by
  have hdvd : 16 ∣ bytes.length := ⟨n, h⟩
  refine ⟨_, if_pos hdvd, ?_⟩
  rw [List.length_map, blocks_eq_map (by decide) h, List.length_map, List.length_range]

theorem length_fillRows (g : ℕ → ℕ → BitVec 8) (rowWidth : ℕ) :
    (fillRows g rowWidth).length = csp * rowWidth := by
  rw [fillRows, List.length_flatMap]
  simp

theorem mapM_toBlocks {l : List (List (BitVec 8))} {n : ℕ}
    (h : ∀ bytes ∈ l, bytes.length = 16 * n) :
    ∃ new, l.mapM toBlocks = some new ∧ new.length = l.length ∧ ∀ bs ∈ new, bs.length = n := by
  induction l with
  | nil => exact ⟨[], rfl, rfl, fun bs hbs => absurd hbs List.not_mem_nil⟩
  | cons bytes l ih =>
    obtain ⟨bs, hbs, hlen⟩ := length_toBlocks (h bytes List.mem_cons_self)
    obtain ⟨new, hnew, hnewlen, hall⟩ := ih fun b hb => h b (List.mem_cons_of_mem _ hb)
    refine ⟨bs :: new, ?_, by rw [List.length_cons, List.length_cons, hnewlen], fun b hb => ?_⟩
    · rw [List.mapM_cons, hbs, hnew]
      rfl
    · rcases List.mem_cons.mp hb with rfl | hb
      · exact hlen
      · exact hall b hb

/-- **Rows of whole blocks are transposed.** -/
theorem exists_transposeBits {bytes : List (BitVec 8)} {n : ℕ} (hn : 0 < n)
    (hlen : bytes.length = csp * (16 * n)) (hlt : bytes.length < 2 ^ 64) :
    ∃ ts, Transpose.transposeBits true bytes csp = some (.ok (), ts) ∧ ts.length =
      bytes.length := by
  have hrows : csp = 2 ^ 7 := rfl
  rw [hrows] at hlen ⊢
  have hdiv : bytes.length / 2 ^ 7 = 16 * n := by
    rw [hlen, Nat.mul_div_cancel_left _ (Nat.two_pow_pos 7)]
  have hs : Transpose.Splits bytes (2 ^ 7) := by
    refine ⟨⟨16 * n, hlen⟩, ?_, ?_⟩
    · rw [hdiv]
      exact ⟨2 * n, by omega⟩
    · omega
  obtain ⟨ts, hts, htranspose⟩ := Transpose.exists_isTranspose (by decide) hlen
  refine ⟨ts, ?_, htranspose.1⟩
  rw [Transpose.transposeBits_of_splits hlt hs, hts, Option.map_some]

/-- **The rows are extended** by whole blocks. -/
theorem Unchecked.exists_extend (u : Unchecked) {bytes : List (BitVec 8)} {n : ℕ} (hn : 0 < n)
    (hlen : bytes.length = csp * (16 * n)) (hlt : bytes.length < 2 ^ 64) :
    ∃ u', u.extend (16 * n) bytes = some u' ∧ (u.rows = [] → u'.rows = []) ∧
      ∀ width, u.Even width → u'.Even (width + n) := by
  have hdvd : 16 * n ∣ bytes.length := ⟨csp, by rw [hlen, Nat.mul_comm]⟩
  obtain ⟨new, hnew, hnewlen, hall⟩ := mapM_toBlocks (length_of_mem_blocks hdvd)
  obtain ⟨ts, hts, htslen⟩ := exists_transposeBits hn hlen hlt
  obtain ⟨tsBlocks, htsBlocks, htsBlocksLen⟩ := length_toBlocks
    (show ts.length = 16 * (csp * n) by rw [htslen, hlen]; ring)
  have hcount : (blocks (16 * n) bytes).length = csp := by
    rw [blocks_eq_map (by omega) (by rw [hlen, Nat.mul_comm]), List.length_map, List.length_range]
  refine ⟨⟨u.rows.mapIdx fun i row => row ++ new.getD i [], u.trans ++ tsBlocks⟩, ?_, fun h => ?_,
    fun width h => ⟨?_, fun row hrow => ?_, ?_⟩⟩
  · rw [Unchecked.extend, if_neg (by omega), hnew, hts]
    change (do let ts ← toBlocks ts; some _) = _
    rw [htsBlocks]
    rfl
  · rw [h]
    rfl
  · rw [List.length_mapIdx, h.rows]
  · obtain ⟨i, hi, rfl⟩ := List.mem_mapIdx.mp hrow
    have hi' : i < new.length := by
      rw [hnewlen, hcount, ← h.rows]
      exact hi
    rw [List.length_append, h.length _ (List.getElem_mem hi), List.getD_eq_getElem _ _ hi',
      hall _ (List.getElem_mem hi')]
  · rw [List.length_append, h.trans, htsBlocksLen]
    exact (Nat.mul_add ssp width n).symm

theorem exists_combine {chis : List Block} {row : List Block} {n : ℕ} (hrow : row.length = n + 1)
    (hchis : chis.length = n) : ∃ t, combine chis row = some t := by
  obtain ⟨last, hlast⟩ : ∃ last, row.getLast? = some last :=
    Option.isSome_iff_exists.mp
      (by rw [List.getLast?_isSome, ne_eq, ← List.length_eq_zero_iff]; omega)
  refine ⟨Block.innPrdtRed row.dropLast chis ^^^ last, ?_⟩
  rw [combine, hlast]
  exact if_pos (by rw [List.length_dropLast, hrow, hchis, Nat.add_sub_cancel])

theorem mapM_combine {chis : List Block} {l : List (List Block)} {n : ℕ}
    (h : ∀ row ∈ l, row.length = n + 1) (hchis : chis.length = n) :
    ∃ ts, l.mapM (combine chis) = some ts := by
  induction l with
  | nil => exact ⟨[], rfl⟩
  | cons row l ih =>
    obtain ⟨t, ht⟩ := exists_combine (h row List.mem_cons_self) hchis
    obtain ⟨ts, hts⟩ := ih fun r hr => h r (List.mem_cons_of_mem _ hr)
    refine ⟨t :: ts, ?_⟩
    rw [List.mapM_cons, ht, hts]
    rfl

/-- **The check of rows that are not empty.** -/
theorem Unchecked.Even.exists_combine {u : Unchecked} {width : ℕ} (h : u.Even width)
    (hpos : 0 < width) (chi : ℕ → Block) : ∃ chis ts, u.combine chi = some (chis, ts) ∧
    chis.length = width - 1 := by
  obtain ⟨row, hrow⟩ : ∃ row, u.rows.head? = some row := by
    cases hrows : u.rows with
    | nil =>
      have := h.rows
      rw [hrows] at this
      cases this
    | cons row rows => exact ⟨row, rfl⟩
  have hlen : row.length = width := h.length row (List.mem_of_head? hrow)
  have hchis : ((List.range (row.length - 1)).map chi).length = width - 1 := by
    rw [List.length_map, List.length_range, hlen]
  obtain ⟨ts, hts⟩ := mapM_combine (fun r hr => by rw [h.length r hr]; omega) hchis
  refine ⟨(List.range (row.length - 1)).map chi, ts, ?_, hchis⟩
  rw [Unchecked.combine, hrow]
  simp only [hlen ▸ hpos.ne', if_false, hts]
  rfl

/-- Empty rows are a panic. -/
theorem Unchecked.combine_eq_none {u : Unchecked} (chi : ℕ → Block)
    (h : ∀ row, u.rows.head? = some row → row = []) : u.combine chi = none := by
  rw [Unchecked.combine]
  cases hrow : u.rows.head? with
  | none => rfl
  | some row =>
    rw [h row hrow]
    rfl

/-- **The requests that wait are served** just in case that there is enough for all of them. -/
theorem serve_spec {α : Type} (l : List α) (queue : List ℕ) {i : ℕ} (hi : i ≤ l.length) :
    (i + queue.sum ≤ l.length → ∃ out, serve l queue i = some (out, i + queue.sum)) ∧
      (l.length < i + queue.sum → serve l queue i = none) := by
  induction queue generalizing i with
  | nil =>
    rw [List.sum_nil, Nat.add_zero]
    exact ⟨fun _ => ⟨[], rfl⟩, fun h => by omega⟩
  | cons count queue ih =>
    rw [List.sum_cons, ← Nat.add_assoc, serve]
    by_cases hle : i + count ≤ l.length
    · rw [if_pos hle]
      refine ⟨fun h => ?_, fun h => ?_⟩
      · obtain ⟨out, hout⟩ := (ih hle).1 h
        exact ⟨_, by rw [hout]; rfl⟩
      · rw [(ih hle).2 h]
        rfl
    · rw [if_neg hle]
      exact ⟨fun h => by omega, fun _ => rfl⟩

/-! ### The receiver -/

/-- The random bits and the bytes of the generators. -/
structure Randomness where
  /-- The choices of an extension. -/
  choice : ℕ → Bool
  /-- The bytes of a row, from the first seed. -/
  t0 : ℕ → ℕ → BitVec 8
  /-- The bytes of a row, from the second seed. -/
  t1 : ℕ → ℕ → BitVec 8

/-- KOS15 receiver, in its extension state. -/
structure Receiver where
  /-- The most transfers of one extension. -/
  batchSize : ℕ
  /-- How many transfers are still to be extended. -/
  alloc : ℕ
  /-- The requests that wait. -/
  queue : List ℕ
  /-- Whether the check is behind it. -/
  extended : Bool
  /-- The rows that the check is about. -/
  unchecked : Unchecked
  /-- The choices that the check is about. -/
  uncheckedChoices : List Bool
  /-- The messages of the transfers that are there. -/
  msgs : List Block
  /-- Their choices. -/
  choices : List Bool

namespace Receiver

/-- The state behind the setup. A new receiver allocates 128 transfers, and a default one none, and
both allocate and queue what they are asked to. -/
def setup (batchSize alloc : ℕ) (queue : List ℕ) : Receiver :=
  ⟨batchSize, alloc, queue, false, ⟨List.replicate csp [], []⟩, [], [], []⟩

/-- Returns `true` if the receiver wants to run the consistency check. -/
def wantsCheck (r : Receiver) : Bool := r.alloc = 0 && !r.unchecked.rows.isEmpty

/-- The byte of the choices at an index, with the least significant bit first. -/
def choiceByte (rand : Randomness) (j : ℕ) : BitVec 8 :=
  (List.range 8).foldr
    (fun k acc => acc <<< 1 ||| BitVec.setWidth 8 (BitVec.ofBool (rand.choice (8 * j + k)))) 0#8

/-- Perform the IKNP OT extension: the number of transfers, and the columns for the sender. A number
of bytes that no vector can have is a panic. -/
def extend (rand : Randomness) (r : Receiver) : Outcome Error (ℕ × List (BitVec 8)) × Receiver :=
  if r.extended then (.err .invalidState, r)
  else
    match roundUp (min r.batchSize r.alloc) with
    | none => (.panic, r)
    | some count =>
      let rowWidth := count / 8
      if 2 ^ 63 ≤ csp * rowWidth then (.panic, r)
      else
        let us := (List.range csp).flatMap fun i => (List.range rowWidth).map fun j =>
          rand.t1 i j ^^^ (rand.t0 i j ^^^ choiceByte rand j)
        match r.unchecked.extend rowWidth (fillRows rand.t0 rowWidth) with
        | none => (.panic, r)
        | some unchecked =>
          (.ok (count, us), { r with
            unchecked
            uncheckedChoices := r.uncheckedChoices ++ (List.range count).map rand.choice
            alloc := r.alloc - count })

/-- Performs the consistency check for all outstanding OTS. -/
def check (chi : ℕ → Block) (r : Receiver) : Outcome Error (Block × List Block) × Receiver :=
  if !r.wantsCheck then (.err .invalidState, r)
  else
    match r.unchecked.combine chi with
    | none => (.panic, r)
    | some (chis, ts) =>
      let xs := (List.range (chis.length + 1)).map fun i =>
        Block.fromLsb0Iter ((r.uncheckedChoices.drop (128 * i)).take 128)
      match combine chis xs with
      | none => (.panic, r)
      | some x =>
        match r.unchecked.nrows with
        | none => (.panic, r)
        | some nrows =>
          let msgs := r.msgs ++ r.unchecked.trans.take nrows
          let choices := r.choices ++ r.uncheckedChoices.take nrows
          match serve choices r.queue 0, serve msgs r.queue 0 with
          | some (_, i), some _ =>
            (.ok (x, ts), { r with
              extended := true
              unchecked := ⟨[], []⟩
              uncheckedChoices := []
              msgs := msgs.drop i
              choices := choices.drop i
              queue := [] })
          | _, _ => (.panic, r)

/-- The sum of two numbers may overflow. -/
def allocate (count : ℕ) (r : Receiver) : Outcome Error Unit × Receiver :=
  if r.extended then (.err .invalidState, r)
  else if r.alloc + count < 2 ^ 64 then (.ok (), { r with alloc := r.alloc + count })
  else (.panic, r)

def tryRecvRcot (count : ℕ) (r : Receiver) : Outcome Error (List Bool × List Block) × Receiver :=
  if r.msgs.length < count then (.err (.insufficientSetup count r.msgs.length), r)
  -- The two vectors are drained one after the other.
  else if r.choices.length < count then (.panic, r)
  else (.ok (r.choices.take count, r.msgs.take count),
    { r with choices := r.choices.drop count, msgs := r.msgs.drop count })

def queueRecvRcot (count : ℕ) (r : Receiver) :
    Outcome Error (Option (List Bool × List Block)) × Receiver :=
  if count ≤ r.msgs.length then
    match r.tryRecvRcot count with
    | (.ok out, r) => (.ok (some out), r)
    | (.err e, r) => (.err e, r)
    | (.panic, r) => (.panic, r)
  else if !r.extended then (.ok none, { r with queue := r.queue ++ [count] })
  else (.err (.insufficientSetup count r.msgs.length), r)

/-- A call. -/
inductive Op where
  /-- `alloc` -/
  | allocate (count : ℕ)
  /-- `try_recv_rcot` -/
  | tryRecv (count : ℕ)
  /-- `queue_recv_rcot` -/
  | queue (count : ℕ)
  /-- `extend` -/
  | extend (rand : Randomness)
  /-- `check`, with the weights that the seed stands for. -/
  | check (chi : ℕ → Block)

/-- Whether a call comes back, and what it leaves. -/
def call (r : Receiver) : Op → Bool × Receiver
  | .allocate count => (returns (r.allocate count).1, (r.allocate count).2)
  | .tryRecv count => (returns (r.tryRecvRcot count).1, (r.tryRecvRcot count).2)
  | .queue count => (returns (r.queueRecvRcot count).1, (r.queueRecvRcot count).2)
  | .extend rand => (returns (r.extend rand).1, (r.extend rand).2)
  | .check chi => (returns (r.check chi).1, (r.check chi).2)

/-! ### The calls of the receiver that come back -/

/-- What is left for the requests that wait, behind a check. -/
def available (r : Receiver) : ℕ := r.msgs.length + (r.unchecked.trans.length - ssp)

/-- The calls that come back: the sums do not overflow, something is allocated when the rows are
extended, and there are rows and enough transfers for the requests that wait when they are
checked. -/
def Allowed (r : Receiver) : Op → Prop
  | .allocate count => r.extended = true ∨ r.alloc + count < 2 ^ 64
  | .tryRecv _ => True
  | .queue _ => True
  | .extend _ => r.extended = true ∨ (r.alloc ≠ 0 ∧ ∃ count, roundUp (min r.batchSize r.alloc) =
      some count ∧
      csp * (count / 8) < 2 ^ 63)
  | .check _ => r.wantsCheck = true →
      (∃ row, r.unchecked.rows.head? = some row ∧ row ≠ []) ∧ r.queue.sum ≤ r.available

/-- What the calls keep. -/
structure Inv (r : Receiver) : Prop where
  batchSize : 0 < r.batchSize
  choices : r.choices.length = r.msgs.length
  rows : (r.unchecked.rows = [] ∧ r.extended = true) ∨
    ∃ width, r.unchecked.Even width ∧ r.uncheckedChoices.length = ssp * width

theorem inv_setup {batchSize : ℕ} (h : 0 < batchSize) (alloc : ℕ) (queue : List ℕ) :
    Inv (setup batchSize alloc queue) where
  batchSize := h
  choices := rfl
  rows := .inr ⟨0, ⟨List.length_replicate,
    fun row hrow => by rw [List.eq_of_mem_replicate hrow]; rfl, rfl⟩,
    rfl⟩

variable {r : Receiver}

/-- The number of transfers that are extended, in blocks. -/
theorem roundUp_eq {n count : ℕ} (h : roundUp n = some count) :
    ∃ k, count = 128 * k ∧ (0 < n → 0 < k) ∧ (n = 0 → k = 0) := by
  rw [roundUp] at h
  split at h
  case isTrue =>
    cases h
    refine ⟨(n + (ssp - 1)) / ssp, Nat.mul_comm _ _, fun hn => ?_, fun hn => ?_⟩
    · rw [ssp]
      omega
    · rw [hn, ssp]
  case isFalse => cases h

/-- **An extension** comes back just in case that it is allowed. -/
theorem extend_spec (h : r.Inv) (rand : Randomness) :
    (returns (r.extend rand).1 = true ↔ r.Allowed (.extend rand)) ∧
      (returns (r.extend rand).1 = true → (r.extend rand).2.Inv) := by
  rw [Allowed, extend]
  by_cases hext : r.extended = true
  · rw [if_pos hext]
    exact ⟨⟨fun _ => .inl hext, fun _ => rfl⟩, fun _ => h⟩
  rw [if_neg hext]
  rcases hround : roundUp (min r.batchSize r.alloc) with _ | count
  · refine ⟨⟨(fun hr => by cases hr), fun hr => ?_⟩, (fun hr => by cases hr)⟩
    rcases hr with hr | ⟨-, count, hcount, -⟩
    · exact absurd hr hext
    · cases hcount
  obtain ⟨k, rfl, hpos, hzero⟩ := roundUp_eq hround
  have hwidth : 128 * k / 8 = 16 * k := by omega
  simp only [hwidth]
  by_cases hcap : 2 ^ 63 ≤ csp * (16 * k)
  · rw [if_pos hcap]
    refine ⟨⟨(fun hr => by cases hr), fun hr => ?_⟩, (fun hr => by cases hr)⟩
    rcases hr with hr | ⟨-, count, hcount, hlt⟩
    · exact absurd hr hext
    · cases hcount
      rw [hwidth] at hlt
      omega
  rw [if_neg hcap]
  by_cases halloc : r.alloc = 0
  · have hk : k = 0 := hzero (by rw [halloc, Nat.min_zero])
    have hnone : r.unchecked.extend (16 * k) (fillRows rand.t0 (16 * k)) = none := by
      rw [Unchecked.extend, if_pos (by omega)]
    rw [hnone]
    refine ⟨⟨(fun hr => by cases hr), fun hr => ?_⟩, (fun hr => by cases hr)⟩
    rcases hr with hr | ⟨hr, -⟩
    · exact absurd hr hext
    · exact absurd halloc hr
  · have hk : 0 < k := hpos (Nat.lt_min.mpr ⟨h.batchSize, Nat.pos_of_ne_zero halloc⟩)
    obtain ⟨u, hu, -, heven⟩ := r.unchecked.exists_extend hk (length_fillRows rand.t0 (16 * k))
      (by rw [length_fillRows]; omega)
    rw [hu]
    refine ⟨⟨fun _ => .inr ⟨halloc, _, rfl, by rw [hwidth]; omega⟩, fun _ => rfl⟩, fun _ => ?_⟩
    refine ⟨h.batchSize, h.choices, ?_⟩
    rcases h.rows with ⟨-, hr⟩ | ⟨width, hw, hchoices⟩
    · exact absurd hr hext
    · refine .inr ⟨width + k, heven width hw, ?_⟩
      rw [List.length_append, List.length_map, List.length_range, hchoices]
      exact (Nat.mul_add ssp width k).symm

/-- **A check** comes back just in case that it is allowed. -/
theorem check_spec (h : r.Inv) (chi : ℕ → Block) :
    (returns (r.check chi).1 = true ↔ r.Allowed (.check chi)) ∧
      (returns (r.check chi).1 = true → (r.check chi).2.Inv) := by
  rw [Allowed, check]
  cases hwants : r.wantsCheck with
  | false => exact ⟨⟨(fun _ hr => by cases hr), fun _ => rfl⟩, fun _ => h⟩
  | true =>
    have hne : r.unchecked.rows ≠ [] := by
      intro hnil
      rw [wantsCheck, hnil, List.isEmpty_nil, Bool.not_true, Bool.and_false] at hwants
      cases hwants
    rcases h.rows with ⟨hnil, -⟩ | ⟨width, heven, hchoices⟩
    · exact absurd hnil hne
    have hhead : ∀ row, r.unchecked.rows.head? = some row → row.length = width := fun row hrow =>
      heven.length row (List.mem_of_head? hrow)
    rcases Nat.eq_zero_or_pos width with hzero | hpos
    · -- Rows without a block.
      have hempty : ∀ row, r.unchecked.rows.head? = some row → row = [] := fun row hrow =>
        List.length_eq_zero_iff.mp ((hhead row hrow).trans hzero)
      rw [Unchecked.combine_eq_none chi hempty]
      refine ⟨⟨(fun hr => by cases hr), fun hr => ?_⟩, (fun hr => by cases hr)⟩
      obtain ⟨⟨row, hrow, hrowne⟩, -⟩ := hr rfl
      exact absurd (hempty row hrow) hrowne
    · obtain ⟨chis, ts, hcombine, hchis⟩ := heven.exists_combine hpos chi
      have hxlen : ((List.range (chis.length + 1)).map fun i =>
          Block.fromLsb0Iter ((r.uncheckedChoices.drop (128 * i)).take 128)).length =
            chis.length + 1 := by
        rw [List.length_map, List.length_range]
      obtain ⟨x, hx⟩ := exists_combine hxlen (rfl : chis.length = chis.length)
      have hle : ssp ≤ r.unchecked.trans.length := by
        rw [heven.trans]
        exact Nat.le_mul_of_pos_right _ hpos
      have hnrows : r.unchecked.nrows = some (r.unchecked.trans.length - ssp) := if_neg (by omega)
      have hmsgs : (r.msgs ++ r.unchecked.trans.take (r.unchecked.trans.length - ssp)).length =
          r.available := by
        rw [List.length_append, List.length_take, available]
        omega
      have hchoicesLen : (r.choices ++ r.uncheckedChoices.take
          (r.unchecked.trans.length - ssp)).length =
          r.available := by
        rw [List.length_append, List.length_take, available, h.choices, hchoices, heven.trans]
        omega
      have hserveMsgs := serve_spec
        (r.msgs ++ r.unchecked.trans.take (r.unchecked.trans.length - ssp))
        r.queue (Nat.zero_le _)
      have hserveChoices := serve_spec
        (r.choices ++ r.uncheckedChoices.take (r.unchecked.trans.length - ssp)) r.queue
        (Nat.zero_le _)
      rw [hmsgs, Nat.zero_add] at hserveMsgs
      rw [hchoicesLen, Nat.zero_add] at hserveChoices
      obtain ⟨row, hrow⟩ : ∃ row, r.unchecked.rows.head? = some row := by
        cases hrows : r.unchecked.rows with
        | nil => exact absurd hrows hne
        | cons row rows => exact ⟨row, rfl⟩
      have hrowne : row ≠ [] := List.length_pos_iff.mp (by rw [hhead row hrow]; exact hpos)
      simp only [hcombine, hx, hnrows, Bool.not_true, Bool.false_eq_true, if_false]
      by_cases hsum : r.queue.sum ≤ r.available
      · obtain ⟨outMsgs, houtMsgs⟩ := hserveMsgs.1 hsum
        obtain ⟨outChoices, houtChoices⟩ := hserveChoices.1 hsum
        rw [houtMsgs, houtChoices]
        refine ⟨⟨fun _ _ => ⟨⟨row, hrow, hrowne⟩, hsum⟩, fun _ => rfl⟩, fun _ => ?_⟩
        refine ⟨h.batchSize, ?_, .inl ⟨rfl, rfl⟩⟩
        rw [List.length_drop, List.length_drop, hmsgs, hchoicesLen]
      · rw [hserveChoices.2 (by omega)]
        exact ⟨⟨(fun hr => by cases hr), fun hr => absurd (hr trivial).2 hsum⟩,
          (fun hr => by cases hr)⟩

/-- The other calls. -/
theorem tryRecv_spec (h : r.Inv) (count : ℕ) :
    returns (r.tryRecvRcot count).1 = true ∧ (r.tryRecvRcot count).2.Inv := by
  rw [tryRecvRcot]
  by_cases hlt : r.msgs.length < count
  · rw [if_pos hlt]
    exact ⟨rfl, h⟩
  · have hchoices := h.choices
    rw [if_neg hlt, if_neg (by omega)]
    refine ⟨rfl, h.batchSize, ?_, h.rows⟩
    rw [List.length_drop, List.length_drop, hchoices]

theorem queue_spec (h : r.Inv) (count : ℕ) :
    returns (r.queueRecvRcot count).1 = true ∧ (r.queueRecvRcot count).2.Inv := by
  have htry := tryRecv_spec h count
  rw [queueRecvRcot]
  split
  · rcases hcall : r.tryRecvRcot count with ⟨out | e | _, r'⟩
    · rw [hcall] at htry
      exact ⟨rfl, htry.2⟩
    · rw [hcall] at htry
      exact ⟨rfl, htry.2⟩
    · rw [hcall] at htry
      cases htry.1
  · split
    · exact ⟨rfl, h.batchSize, h.choices, h.rows⟩
    · exact ⟨rfl, h⟩

theorem allocate_spec (h : r.Inv) (count : ℕ) :
    (returns (r.allocate count).1 = true ↔ r.Allowed (.allocate count)) ∧
      (returns (r.allocate count).1 = true → (r.allocate count).2.Inv) := by
  rw [Allowed, allocate]
  by_cases hext : r.extended = true
  · rw [if_pos hext]
    exact ⟨⟨fun _ => .inl hext, fun _ => rfl⟩, fun _ => h⟩
  · rw [if_neg hext]
    by_cases hlt : r.alloc + count < 2 ^ 64
    · rw [if_pos hlt]
      exact ⟨⟨fun _ => .inr hlt, fun _ => rfl⟩, fun _ => ⟨h.batchSize, h.choices, h.rows⟩⟩
    · rw [if_neg hlt]
      exact ⟨⟨(fun hr => by cases hr), fun hr => absurd hr (not_or.mpr ⟨hext, hlt⟩)⟩,
        (fun hr => by cases hr)⟩

/-- **Every call** comes back just in case that it is allowed, and keeps the invariant. -/
theorem call_spec (h : r.Inv) (op : Op) :
    ((r.call op).1 = true ↔ r.Allowed op) ∧ ((r.call op).1 = true → (r.call op).2.Inv) := by
  cases op with
  | allocate count => exact allocate_spec h count
  | tryRecv count =>
    obtain ⟨hr, hinv⟩ := tryRecv_spec h count
    exact ⟨⟨fun _ => trivial, fun _ => hr⟩, fun _ => hinv⟩
  | queue count =>
    obtain ⟨hr, hinv⟩ := queue_spec h count
    exact ⟨⟨fun _ => trivial, fun _ => hr⟩, fun _ => hinv⟩
  | extend rand => exact extend_spec h rand
  | check chi => exact check_spec h chi

end Receiver

/-! ### The sender -/

/-- Returns the size in bytes of the extension matrix for a given number of OTs. -/
def extensionMatrixSize (count : ℕ) : ℕ := count * csp / 8

/-- Extend message sent from Receiver to Sender, behind its validation. -/
structure Extend where
  /-- The number of transfers. -/
  count : ℕ
  /-- The columns. -/
  us : List (BitVec 8)
  valid : us.length = extensionMatrixSize count

/-- Check message sent from Receiver to Sender, behind its validation. -/
structure Check where
  /-- The linear combination of the choices. -/
  x : Block
  /-- The linear combinations of the rows. -/
  t : List Block
  valid : t.length = csp

/-- KOS15 sender, in its extension state. The weights stand for the seed. -/
structure Sender where
  /-- The most transfers of one extension. -/
  batchSize : ℕ
  /-- How many transfers are still to be extended. -/
  alloc : ℕ
  /-- The requests that wait. -/
  queue : List ℕ
  /-- The offset of the correlations. -/
  delta : Block
  /-- Whether the check is behind it. -/
  extended : Bool
  /-- The rows that the check is about. -/
  unchecked : Unchecked
  /-- The keys of the transfers that are there. -/
  keys : List Block
  /-- The weights of the check, once it is started. -/
  chi : Option (ℕ → Block)

namespace Sender

/-- The state behind the setup. A new sender allocates 128 transfers, and allocates and queues what
it is asked to. -/
def setup (batchSize alloc : ℕ) (queue : List ℕ) (delta : Block) : Sender :=
  ⟨batchSize, alloc, queue, delta, false, ⟨List.replicate csp [], []⟩, [], none⟩

/-- Returns `true` if the sender wants to run the consistency check. -/
def wantsCheck (s : Sender) : Bool := s.alloc = 0 && !s.unchecked.rows.isEmpty

/-- Perform the IKNP OT extension. -/
def extend (fill : ℕ → ℕ → BitVec 8) (msg : Extend) (s : Sender) : Outcome Error Unit × Sender :=
  if s.extended then (.err .invalidState, s)
  else
    match roundUp (min s.batchSize s.alloc) with
    | none => (.panic, s)
    | some expected =>
      if msg.count ≠ expected then (.err (.countMismatch expected msg.count), s)
      else
        let rowWidth := msg.count / 8
        if 2 ^ 63 ≤ csp * rowWidth then (.panic, s)
        else
          let qs := fillRows
            (fun i j => fill i j ^^^ if s.delta.getLsbD i then msg.us.getD
              (i * rowWidth + j) 0 else 0)
            rowWidth
          match s.unchecked.extend rowWidth qs with
          | none => (.panic, s)
          | some unchecked => (.ok (), { s with unchecked, alloc := s.alloc - msg.count })

/-- Starts the consistency check by sampling a random seed. -/
def checkStart (chi : ℕ → Block) (s : Sender) : Outcome Error Unit × Sender :=
  (.ok (), { s with chi := some chi })

/-- The linear combinations are those of the receiver, where the correlation says so. -/
def consistent (delta : Block) (msg : Check) (qs : List Block) : Bool :=
  ((List.range csp).zip (msg.t.zip qs)).all fun p =>
    p.2.2 == p.2.1 ^^^ if delta.getLsbD p.1 then msg.x else Block.zero

/-- Performs the consistency check for all outstanding OTS. -/
def check (msg : Check) (s : Sender) : Outcome Error Unit × Sender :=
  if !s.wantsCheck then (.err .invalidState, s)
  else
    match s.chi with
    | none => (.err .chiNotSet, s)
    | some chi =>
      if s.unchecked.rows.length < ssp then
        (.err (.insufficientSetup ssp s.unchecked.rows.length), { s with chi := none })
      else
        match s.unchecked.combine chi with
        | none => (.panic, s)
        | some (_, qs) =>
          if !consistent s.delta msg qs then
            (.err .consistencyCheckFailed,
              { s with chi := none, unchecked := ⟨[], s.unchecked.trans⟩ })
          else
            match s.unchecked.nrows with
            | none => (.panic, s)
            | some nrows =>
              let keys := s.keys ++ s.unchecked.trans.take nrows
              match serve keys s.queue 0 with
              | none => (.panic, s)
              | some (_, i) =>
                (.ok (), { s with
                  extended := true, chi := none, unchecked := ⟨[], []⟩, keys := keys.drop i,
                    queue := [] })

/-- The sum of two numbers may overflow. -/
def allocate (count : ℕ) (s : Sender) : Outcome Error Unit × Sender :=
  if s.extended then (.err .invalidState, s)
  else if s.alloc + count < 2 ^ 64 then (.ok (), { s with alloc := s.alloc + count })
  else (.panic, s)

def trySendRcot (count : ℕ) (s : Sender) : Outcome Error (List Block) × Sender :=
  if s.keys.length < count then (.err (.insufficientSetup count s.keys.length), s)
  else (.ok (s.keys.take count), { s with keys := s.keys.drop count })

def queueSendRcot (count : ℕ) (s : Sender) : Outcome Error (Option (List Block)) × Sender :=
  if count ≤ s.keys.length then
    match s.trySendRcot count with
    | (.ok out, s) => (.ok (some out), s)
    | (.err e, s) => (.err e, s)
    | (.panic, s) => (.panic, s)
  else if !s.extended then (.ok none, { s with queue := s.queue ++ [count] })
  else (.err (.insufficientSetup count s.keys.length), s)

/-- A call. -/
inductive Op where
  /-- `alloc` -/
  | allocate (count : ℕ)
  /-- `try_send_rcot` -/
  | trySend (count : ℕ)
  /-- `queue_send_rcot` -/
  | queue (count : ℕ)
  /-- `extend`, with the bytes of the generators. -/
  | extend (fill : ℕ → ℕ → BitVec 8) (msg : Extend)
  /-- `check_start`, with the weights that the seed stands for. -/
  | checkStart (chi : ℕ → Block)
  /-- `check` -/
  | check (msg : Check)

/-- Whether a call comes back, and what it leaves. -/
def call (s : Sender) : Op → Bool × Sender
  | .allocate count => (returns (s.allocate count).1, (s.allocate count).2)
  | .trySend count => (returns (s.trySendRcot count).1, (s.trySendRcot count).2)
  | .queue count => (returns (s.queueSendRcot count).1, (s.queueSendRcot count).2)
  | .extend fill msg => (returns (s.extend fill msg).1, (s.extend fill msg).2)
  | .checkStart chi => (returns (s.checkStart chi).1, (s.checkStart chi).2)
  | .check msg => (returns (s.check msg).1, (s.check msg).2)

/-! ### The calls of the sender that come back -/

/-- What is left for the requests that wait, behind a check. -/
def available (s : Sender) : ℕ := s.keys.length + (s.unchecked.trans.length - ssp)

/-- The calls that come back: the sums do not overflow, something is allocated when the rows are
extended by the number that is expected, and there are rows, and enough transfers for the requests
that wait, when a consistent message is checked. -/
def Allowed (s : Sender) : Op → Prop
  | .allocate count => s.extended = true ∨ s.alloc + count < 2 ^ 64
  | .trySend _ => True
  | .queue _ => True
  | .extend _ msg => s.extended = true ∨ ∃ expected, roundUp (min s.batchSize s.alloc) =
      some expected ∧
      (msg.count = expected → s.alloc ≠ 0 ∧ csp * (expected / 8) < 2 ^ 63)
  | .checkStart _ => True
  | .check msg => s.wantsCheck = true → ∀ chi, s.chi = some chi →
      (∃ row, s.unchecked.rows.head? = some row ∧ row ≠ []) ∧
        ∀ chis qs, s.unchecked.combine chi = some (chis, qs) → consistent s.delta msg qs = true →
          s.queue.sum ≤ s.available

/-- What the calls keep. -/
structure Inv (s : Sender) : Prop where
  batchSize : 0 < s.batchSize
  rows : s.unchecked.rows = [] ∨ ∃ width, s.unchecked.Even width

theorem inv_setup {batchSize : ℕ} (h : 0 < batchSize) (alloc : ℕ) (queue : List ℕ) (delta : Block) :
    Inv (setup batchSize alloc queue delta) where
  batchSize := h
  rows := .inr ⟨0, List.length_replicate,
    fun row hrow => by rw [List.eq_of_mem_replicate hrow]; rfl, rfl⟩

variable {s : Sender}

/-- **An extension** comes back just in case that it is allowed. -/
theorem extend_spec (h : s.Inv) (fill : ℕ → ℕ → BitVec 8) (msg : Extend) :
    (returns (s.extend fill msg).1 = true ↔ s.Allowed (.extend fill msg)) ∧
      (returns (s.extend fill msg).1 = true → (s.extend fill msg).2.Inv) := by
  rw [Allowed, extend]
  by_cases hext : s.extended = true
  · rw [if_pos hext]
    exact ⟨⟨fun _ => .inl hext, fun _ => rfl⟩, fun _ => h⟩
  rw [if_neg hext]
  rcases hround : roundUp (min s.batchSize s.alloc) with _ | expected
  · refine ⟨⟨(fun hr => by cases hr), fun hr => ?_⟩, (fun hr => by cases hr)⟩
    rcases hr with hr | ⟨expected, hexpected, -⟩
    · exact absurd hr hext
    · cases hexpected
  by_cases hcount : msg.count = expected
  · obtain ⟨k, rfl, hpos, hzero⟩ := Receiver.roundUp_eq hround
    have hwidth : 128 * k / 8 = 16 * k := by omega
    simp only [hcount, hwidth, ne_eq, not_true_eq_false, if_false]
    by_cases hcap : 2 ^ 63 ≤ csp * (16 * k)
    · rw [if_pos hcap]
      refine ⟨⟨(fun hr => by cases hr), fun hr => ?_⟩, (fun hr => by cases hr)⟩
      rcases hr with hr | ⟨expected, hexpected, hr⟩
      · exact absurd hr hext
      · cases hexpected
        have hlt := (hr rfl).2
        rw [hwidth] at hlt
        omega
    rw [if_neg hcap]
    by_cases halloc : s.alloc = 0
    · have hk : k = 0 := hzero (by rw [halloc, Nat.min_zero])
      rw [Unchecked.extend, if_pos (show 16 * k = 0 by omega)]
      refine ⟨⟨(fun hr => by cases hr), fun hr => ?_⟩, (fun hr => by cases hr)⟩
      rcases hr with hr | ⟨expected, hexpected, hr⟩
      · exact absurd hr hext
      · cases hexpected
        exact absurd halloc (hr rfl).1
    · have hk : 0 < k := hpos (Nat.lt_min.mpr ⟨h.batchSize, Nat.pos_of_ne_zero halloc⟩)
      obtain ⟨u, hu, hnil, heven⟩ := s.unchecked.exists_extend hk (length_fillRows
        (fun i j => fill i j ^^^ if s.delta.getLsbD i then msg.us.getD (i * (16 * k) + j) 0 else 0)
        (16 * k))
        (by rw [length_fillRows]; omega)
      rw [hu]
      refine ⟨⟨fun _ => .inr ⟨_, rfl, fun _ => ⟨halloc, by rw [hwidth]; omega⟩⟩, fun _ => rfl⟩,
        fun _ => ?_⟩
      refine ⟨h.batchSize, ?_⟩
      rcases h.rows with hr | ⟨width, hw⟩
      · exact .inl (hnil hr)
      · exact .inr ⟨width + k, heven width hw⟩
  · simp only [ne_eq, hcount, not_false_eq_true, if_true]
    exact ⟨⟨fun _ => .inr ⟨expected, rfl, fun hr => absurd hr hcount⟩, fun _ => rfl⟩, fun _ => h⟩

/-- **A check** comes back just in case that it is allowed. -/
theorem check_spec (h : s.Inv) (msg : Check) :
    (returns (s.check msg).1 = true ↔ s.Allowed (.check msg)) ∧
      (returns (s.check msg).1 = true → (s.check msg).2.Inv) := by
  rw [Allowed, check]
  cases hwants : s.wantsCheck with
  | false => exact ⟨⟨(fun _ hr => by cases hr), fun _ => rfl⟩, fun _ => h⟩
  | true =>
    have hne : s.unchecked.rows ≠ [] := by
      intro hnil
      rw [wantsCheck, hnil, List.isEmpty_nil, Bool.not_true, Bool.and_false] at hwants
      cases hwants
    rcases h.rows with hnil | ⟨width, heven⟩
    · exact absurd hnil hne
    cases hchi : s.chi with
    | none => exact ⟨⟨fun _ _ chi hr => (by cases hr), fun _ => rfl⟩, fun _ => h⟩
    | some chi =>
      have hrows : ¬ s.unchecked.rows.length < ssp := by
        rw [heven.rows]
        exact lt_irrefl _
      have hhead : ∀ row, s.unchecked.rows.head? = some row → row.length = width := fun row hrow =>
        heven.length row (List.mem_of_head? hrow)
      simp only [Bool.not_true, Bool.false_eq_true, if_false, if_neg hrows]
      rcases Nat.eq_zero_or_pos width with hzero | hpos
      · have hempty : ∀ row, s.unchecked.rows.head? = some row → row = [] := fun row hrow =>
          List.length_eq_zero_iff.mp ((hhead row hrow).trans hzero)
        rw [Unchecked.combine_eq_none chi hempty]
        refine ⟨⟨(fun hr => by cases hr), fun hr => ?_⟩, (fun hr => by cases hr)⟩
        obtain ⟨⟨row, hrow, hrowne⟩, -⟩ := hr trivial chi rfl
        exact absurd (hempty row hrow) hrowne
      · obtain ⟨chis, qs, hcombine, -⟩ := heven.exists_combine hpos chi
        have hle : ssp ≤ s.unchecked.trans.length := by
          rw [heven.trans]
          exact Nat.le_mul_of_pos_right _ hpos
        have hnrows : s.unchecked.nrows = some (s.unchecked.trans.length - ssp) := if_neg (by omega)
        have hkeys : (s.keys ++ s.unchecked.trans.take (s.unchecked.trans.length - ssp)).length =
            s.available := by
          rw [List.length_append, List.length_take, available]
          omega
        have hserve := serve_spec
          (s.keys ++ s.unchecked.trans.take (s.unchecked.trans.length - ssp)) s.queue
          (Nat.zero_le _)
        rw [hkeys, Nat.zero_add] at hserve
        obtain ⟨row, hrow⟩ : ∃ row, s.unchecked.rows.head? = some row := by
          cases hrows : s.unchecked.rows with
          | nil => exact absurd hrows hne
          | cons row rows => exact ⟨row, rfl⟩
        have hrowne : row ≠ [] := List.length_pos_iff.mp (by rw [hhead row hrow]; exact hpos)
        simp only [hcombine, hnrows]
        cases hcons : consistent s.delta msg qs with
        | false =>
          refine ⟨⟨fun _ _ chi' hchi' => ⟨⟨row, hrow, hrowne⟩, fun chis' qs' hqs' hc => ?_⟩,
            fun _ => rfl⟩,
            fun _ => ⟨h.batchSize, .inl rfl⟩⟩
          cases hchi'
          rw [hcombine] at hqs'
          cases hqs'
          rw [hcons] at hc
          cases hc
        | true =>
          by_cases hsum : s.queue.sum ≤ s.available
          · obtain ⟨out, hout⟩ := hserve.1 hsum
            simp only [hout, Bool.not_true, Bool.false_eq_true, if_false]
            exact ⟨⟨fun _ _ chi' _ => ⟨⟨row, hrow, hrowne⟩, fun _ _ _ _ => hsum⟩, fun _ => rfl⟩,
              fun _ => ⟨h.batchSize, .inl rfl⟩⟩
          · simp only [hserve.2 (by omega), Bool.not_true, Bool.false_eq_true, if_false]
            refine ⟨⟨(fun hr => by cases hr), fun hr => ?_⟩, (fun hr => by cases hr)⟩
            exact absurd ((hr trivial chi rfl).2 chis qs hcombine hcons) hsum

theorem trySend_spec (h : s.Inv) (count : ℕ) :
    returns (s.trySendRcot count).1 = true ∧ (s.trySendRcot count).2.Inv := by
  rw [trySendRcot]
  split
  · exact ⟨rfl, h⟩
  · exact ⟨rfl, h.batchSize, h.rows⟩

theorem queue_spec (h : s.Inv) (count : ℕ) :
    returns (s.queueSendRcot count).1 = true ∧ (s.queueSendRcot count).2.Inv := by
  have htry := trySend_spec h count
  rw [queueSendRcot]
  split
  · rcases hcall : s.trySendRcot count with ⟨out | e | _, s'⟩
    · rw [hcall] at htry
      exact ⟨rfl, htry.2⟩
    · rw [hcall] at htry
      exact ⟨rfl, htry.2⟩
    · rw [hcall] at htry
      cases htry.1
  · split
    · exact ⟨rfl, h.batchSize, h.rows⟩
    · exact ⟨rfl, h⟩

theorem allocate_spec (h : s.Inv) (count : ℕ) :
    (returns (s.allocate count).1 = true ↔ s.Allowed (.allocate count)) ∧
      (returns (s.allocate count).1 = true → (s.allocate count).2.Inv) := by
  rw [Allowed, allocate]
  by_cases hext : s.extended = true
  · rw [if_pos hext]
    exact ⟨⟨fun _ => .inl hext, fun _ => rfl⟩, fun _ => h⟩
  · rw [if_neg hext]
    by_cases hlt : s.alloc + count < 2 ^ 64
    · rw [if_pos hlt]
      exact ⟨⟨fun _ => .inr hlt, fun _ => rfl⟩, fun _ => ⟨h.batchSize, h.rows⟩⟩
    · rw [if_neg hlt]
      exact ⟨⟨(fun hr => by cases hr), fun hr => absurd hr (not_or.mpr ⟨hext, hlt⟩)⟩,
        (fun hr => by cases hr)⟩

/-- **Every call** comes back just in case that it is allowed, and keeps the invariant. -/
theorem call_spec (h : s.Inv) (op : Op) :
    ((s.call op).1 = true ↔ s.Allowed op) ∧ ((s.call op).1 = true → (s.call op).2.Inv) := by
  cases op with
  | allocate count => exact allocate_spec h count
  | trySend count =>
    obtain ⟨hr, hinv⟩ := trySend_spec h count
    exact ⟨⟨fun _ => trivial, fun _ => hr⟩, fun _ => hinv⟩
  | queue count =>
    obtain ⟨hr, hinv⟩ := queue_spec h count
    exact ⟨⟨fun _ => trivial, fun _ => hr⟩, fun _ => hinv⟩
  | extend fill msg => exact extend_spec h fill msg
  | checkStart chi => exact ⟨⟨fun _ => trivial, fun _ => rfl⟩, fun _ => ⟨h.batchSize, h.rows⟩⟩
  | check msg => exact check_spec h msg

end Sender

/-! ### Runs -/

/-- A call that comes back. -/
def Receiver.Step (r : Receiver) (op : Receiver.Op) (r' : Receiver) : Prop :=
  (r.call op).1 = true ∧ r' = (r.call op).2

/-- A call that comes back. -/
def Sender.Step (s : Sender) (op : Sender.Op) (s' : Sender) : Prop :=
  (s.call op).1 = true ∧ s' = (s.call op).2

theorem Receiver.inv_run {r r' : Receiver} (h : r.Inv) {ops : List Receiver.Op}
    (hrun : Run Receiver.Step r ops r') : r'.Inv := by
  refine hrun.invariant h fun t op u ht hstep => ?_
  rw [hstep.2]
  exact (Receiver.call_spec ht op).2 hstep.1

theorem Sender.inv_run {s s' : Sender} (h : s.Inv) {ops : List Sender.Op}
    (hrun : Run Sender.Step s ops s') : s'.Inv := by
  refine hrun.invariant h fun t op u ht hstep => ?_
  rw [hstep.2]
  exact (Sender.call_spec ht op).2 hstep.1

/-- **In every state that is reached, exactly the allowed calls come back.** -/
theorem kos_returns_iff {batchSize : ℕ} (hbatch : 0 < batchSize) (alloc : ℕ) (queue : List ℕ)
    (delta : Block) :
    (∀ ops r, Run Receiver.Step (.setup batchSize alloc queue) ops r →
      ∀ op, (r.call op).1 = true ↔ r.Allowed op) ∧
    ∀ ops s, Run Sender.Step (.setup batchSize alloc queue delta) ops s →
      ∀ op, (s.call op).1 = true ↔ s.Allowed op :=
  ⟨fun _ _ hrun op => (Receiver.call_spec
    (Receiver.inv_run (Receiver.inv_setup hbatch _ _) hrun) op).1,
    fun _ _ hrun op => (Sender.call_spec
      (Sender.inv_run (Sender.inv_setup hbatch _ _ _) hrun) op).1⟩

theorem kos_returns_iff_default :
    (∀ ops r, Run Receiver.Step (.setup 4096 128 []) ops r →
      ∀ op, (r.call op).1 = true ↔ r.Allowed op) ∧
    ∀ ops s, Run Sender.Step (.setup 4096 128 [] Block.ones) ops s →
      ∀ op, (s.call op).1 = true ↔ s.Allowed op :=
  kos_returns_iff (by decide) 128 [] Block.ones

/-- What is left to extend. -/
theorem Receiver.alloc_extend {r : Receiver} {rand : Randomness} (hext : r.extended = false)
    (h : returns (r.extend rand).1 = true) : ∃ count, roundUp (min r.batchSize r.alloc) =
      some count ∧
      (r.extend rand).2.alloc = r.alloc - count ∧ (r.extend rand).2.extended = false := by
  rw [extend, if_neg (by rw [hext]; exact Bool.false_ne_true)] at h ⊢
  cases hround : roundUp (min r.batchSize r.alloc) with
  | none =>
    rw [hround] at h
    cases h
  | some count =>
    simp only [hround] at h ⊢
    refine ⟨count, rfl, ?_⟩
    split at h
    case isTrue => cases h
    case isFalse hcap =>
      rw [if_neg hcap]
      cases hu : r.unchecked.extend (count / 8) (fillRows rand.t0 (count / 8)) with
      | none =>
        rw [hu] at h
        cases h
      | some u => exact ⟨rfl, hext⟩

/-- Once everything is extended, a receiver that extends again panics. -/
theorem Receiver.exists_extend_twice {r : Receiver} (h : r.Inv) (hext : r.extended = false)
    {count : ℕ} (hround : roundUp (min r.batchSize r.alloc) = some count) (halloc : r.alloc ≠ 0)
    (hcap : csp * (count / 8) < 2 ^ 63) (hall : r.alloc ≤ count) (rand : Randomness) :
    ∃ r', Run Receiver.Step r [.extend rand] r' ∧ (r'.call (.extend rand)).1 = false := by
  have hspec := call_spec h (.extend rand)
  have hcall := hspec.1.mpr (.inr ⟨halloc, count, hround, hcap⟩)
  obtain ⟨count', hcount', halloc', hext'⟩ := alloc_extend hext hcall
  have hzero : (r.extend rand).2.alloc = 0 := by
    rw [hround] at hcount'
    cases hcount'
    omega
  refine ⟨(r.call (.extend rand)).2, Run.single ⟨hcall, rfl⟩, Bool.eq_false_iff.mpr fun hsecond =>
    ?_⟩
  rcases (call_spec (hspec.2 hcall) (.extend rand)).1.mp hsecond with h | ⟨h, -⟩
  · exact Bool.false_ne_true (hext'.symm.trans h)
  · exact h hzero

/-- A new receiver that extends twice panics. -/
theorem second_extend_panics : ∃ r,
    Run Receiver.Step (.setup 4096 128 [])
    [.extend ⟨fun _ => false, fun _ _ => 0, fun _ _ => 0⟩] r ∧
      (r.call (.extend ⟨fun _ => false, fun _ _ => 0, fun _ _ => 0⟩)).1 = false :=
  by
  have hround : roundUp (min 4096 128) = some 128 := by decide
  exact Receiver.exists_extend_twice (Receiver.inv_setup (by decide) 128 []) rfl hround (by decide)
    (by decide) le_rfl _

end Kos

end Mpz
