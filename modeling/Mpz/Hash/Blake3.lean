import Mpz.Hash.Block
import Mpz.Hash.Session
import Mpz.Lib.LeftTree

/-!
# Blake3

The hasher keeps the blocks of one chunk, and closes a full chunk when more data arrives. The
chaining values of closed chunks are merged on a stack, which has one perfect subtree for each bit
of their number. The end of a hash merges the last chunk with the stack, and the last merge is the
root. The compression function is a parameter.

## Main definitions

* `Hasher.Blake3.Chunk`, `Hasher.Blake3` — a chunk, and the hasher
* `Hasher.blake3` — the hash of a message: the left-balanced tree of its chunks
* `Hasher.Blake3.Hashes` — what can be done with a hasher, what the digest is to be, and what is on
  the stack

## Main results

* `Hasher.Blake3.Chunk.gives_compress` — a chunk is compressed to its chaining value
* `Hasher.Blake3.Built` — what a hasher has closed and what it holds, with its step lemmas
* `Hasher.blake3_correct` — every message of at most `2 ^ 54` chunks is hashed, however it is split
-/

namespace Mpz.Hasher

/-! ### The hasher -/

/-- Error for the Blake3 hasher. -/
inductive Blake3Error where
  /-- vm error -/
  | vm (source : VmError)
  /-- tree construction error -/
  | tree (source : String)
  deriving DecidableEq, Repr

/-- Serializes the output as bytes in little-endian order. -/
def serializeOutput : BitFn 256 256 :=
  ⟨fun bits => (blocks 32 bits).flatMap fun word => (blocks 8 word).flatten, fun bits h => by
    simp only [flatten_blocks (show 0 < 8 by decide), List.flatMap_id']
    rw [flatten_blocks (by decide), h]⟩

namespace Blake3

/-- The default initialization vector. -/
def iv : List (BitVec 32) :=
  [0x6A09E667, 0xBB67AE85, 0x3C6EF372, 0xA54FF53A, 0x510E527F, 0x9B05688C, 0x1F83D9AB, 0x5BE0CD19]

/-- `CHUNK_START` -/
def chunkStart : BitVec 32 := 1 <<< 0

/-- `CHUNK_END` -/
def chunkEnd : BitVec 32 := 1 <<< 1

/-- `PARENT` -/
def parent : BitVec 32 := 1 <<< 2

/-- `ROOT` -/
def root : BitVec 32 := 1 <<< 3

/-- Block length in bytes. -/
def blockLen : ℕ := 64

/-- Block size in bits. -/
def blockSize : ℕ := 512

/-- Chunk size in bits. -/
def chunkSize : ℕ := 8192

/-- Maximum tree depth supported in blake3. -/
def maxSubtreeDepth : ℕ := 54

/-- A call on the machine, whose error becomes one of the hasher. -/
def liftVm {α : Type} (m : Method Vm VmError α) : Method Vm Blake3Error α :=
  Method.zoom id (fun _ vm => vm) .vm m

/-- `ChainingValue::new`, of a public value. -/
def ChainingValue.new (value : List (BitVec 32)) : Method Vm Blake3Error Slice :=
  liftVm (Vm.allocPublic (8 * 32) (intoClear value))

/-- The words of a state. -/
def stateWords (chunkCounter blockLen : ℕ) : List (BitVec 32) :=
  iv.take 4 ++ [.ofNat 32 chunkCounter, .ofNat 32 (chunkCounter >>> 32), .ofNat 32 blockLen]

/-- `State::new` -/
def State.new (chunkCounter blockLen : ℕ) : Method Vm Blake3Error Slice :=
  liftVm (Vm.allocPublic (7 * 32) (intoClear (stateWords chunkCounter blockLen)))

/-- `Flags::new` -/
def Flags.new (value : BitVec 32) : Method Vm Blake3Error Slice :=
  liftVm (Vm.allocPublic 32 (intoClear [value]))

/-- Calls the compression circuit, and truncates the output to the first 256 bits. -/
def callCompress (f : BitFn 1024 512) (inputs : List Slice) : Method Vm Blake3Error Slice := do
  let output ← liftVm (Vm.call f.circ inputs)
  Method.call (.ofOption (output.get 16 0 8))

/-- A chunk. -/
structure Chunk where
  /-- The blocks. -/
  blocks : List Block
  /-- The chaining value, of 8 words of 32 bits. -/
  chainingValue : Slice
  /-- The state that is used with every block but the last one. -/
  state : Slice
  /-- The flags of every block. -/
  flags : BitVec 32
  /-- The number of chunks before. -/
  counter : ℕ

namespace Chunk

/-- `Chunk::new` -/
def new (chainingValue : Slice) (flags : BitVec 32) (counter : ℕ) :
    Method Vm Blake3Error Chunk := do
  let state ← State.new counter blockLen
  return ⟨[], chainingValue, state, flags, counter⟩

/-- Returns the length in bits. -/
def len (self : Chunk) : ℕ :=
  match self.blocks.getLast? with
  | none => 0
  | some block => (self.blocks.length - 1) * blockSize + block.len

/-- Updates the hash with the provided data. -/
def update (self : Chunk) (data : Slice) : Chunk :=
  if data.size = 0 then self else { self with blocks := updateBlocks blockSize self.blocks data }

/-- The length of the last block in bits. -/
def lastBlockLen (self : Chunk) : ℕ := (self.blocks.getLast?.map Block.len).getD 0

/-- Pads the last block if it is not full. -/
def pad (self : Chunk) : Method Vm Blake3Error Chunk :=
  if self.lastBlockLen ≠ blockSize then do
    let paddingLen := blockSize - self.lastBlockLen
    let padding ← liftVm (Vm.allocPublic paddingLen (List.replicate paddingLen false))
    return self.update padding
  else
    return self

/-- The flags of block `i`. -/
def blockFlags (self : Chunk) (isRoot : Bool) (noOfBlocks i : ℕ) : BitVec 32 :=
  let flags := if i = 0 then self.flags ||| chunkStart else self.flags
  if i = noOfBlocks - 1 then
    let flags := flags ||| chunkEnd
    if isRoot then flags ||| root else flags
  else flags

/-- Compresses block by block. -/
def compressBlocks (f : BitFn 1024 512) (self : Chunk) (lastState : Slice) (isRoot : Bool)
    (noOfBlocks : ℕ) : ℕ → Slice → List Block → Method Vm Blake3Error Slice
  | _, chainingValue, [] => return chainingValue
  | i, chainingValue, block :: blocks => do
    let state := if i = noOfBlocks - 1 then lastState else self.state
    let flagsState ← Flags.new (self.blockFlags isRoot noOfBlocks i)
    let truncated ← callCompress f (block.data ++ [chainingValue] ++ [state] ++ [flagsState])
    compressBlocks f self lastState isRoot noOfBlocks (i + 1) truncated blocks

/-- Compresses the data in the internal buffer. -/
def compress (f : BitFn 1024 512) (self : Chunk) (isRoot : Bool) :
    Method Vm Blake3Error (Slice × Chunk) := do
  -- The length in bytes, rounding up for partial bytes.
  let lastBlockLenBytes := (self.lastBlockLen + 7) / 8
  let padded ← self.pad
  let lastState ← State.new (if isRoot then 0 else self.counter) lastBlockLenBytes
  let chainingValue ← padded.compressBlocks f lastState isRoot padded.blocks.length 0
    padded.chainingValue padded.blocks
  return (chainingValue, { padded with blocks := [], chainingValue := chainingValue })

end Chunk

end Blake3

/-- Blake3 hasher. -/
structure Blake3 where
  /-- The chunk that is not closed. -/
  chunk : Blake3.Chunk
  /-- The chaining value every chunk and every parent begins with. -/
  initialCv : Slice
  /-- The chaining values of the subtrees that are closed, with the top of the stack in front. -/
  cvStack : List Slice
  /-- The flags of every block. -/
  flags : BitVec 32
  /-- The state of every parent. -/
  parentState : Slice

namespace Blake3

/-- `Blake3::new_internal`, of a public initial value. -/
def newInternal (initialCv : List (BitVec 32)) (flags : BitVec 32) :
    Method Vm Blake3Error Blake3 := do
  let initialCv ← ChainingValue.new initialCv
  let parentState ← State.new 0 blockLen
  let chunk ← Chunk.new initialCv flags 0
  return ⟨chunk, initialCv, [], flags, parentState⟩

/-- Creates a new Blake3 hasher in the default mode. -/
def new : Method Vm Blake3Error Blake3 := newInternal iv 0

/-- `Blake3::push_stack` -/
def pushStack (self : Blake3) (cv : Slice) : Method Vm Blake3Error Blake3 :=
  if self.cvStack.length = maxSubtreeDepth then
    Method.throw (.tree "Exceeded maximum number of subtrees supported")
  else
    return { self with cvStack := cv :: self.cvStack }

/-- Creates a parent chaining value from children nodes of chaining values. -/
def parentCv (f : BitFn 1024 512) (self : Blake3) (leftChildCv rightChildCv : Slice)
    (isRoot : Bool) : Method Vm Blake3Error Slice := do
  let flags := self.flags ||| parent
  let flagsState ← Flags.new (if isRoot then flags ||| root else flags)
  callCompress f
    ([leftChildCv] ++ [rightChildCv] ++ [self.initialCv] ++ [self.parentState] ++ [flagsState])

/-- The loop of `Blake3::add_chunk_chaining_value`, on a stack: the subtrees that are completed. -/
def mergeStack (f : BitFn 1024 512) (self : Blake3) :
    List Slice → Slice → ℕ → Method Vm Blake3Error (List Slice × Slice)
  | [], newCv, totalChunks => if totalChunks % 2 = 0 then Method.panic else return ([], newCv)
  | cv :: cvStack, newCv, totalChunks =>
    if totalChunks % 2 = 0 then do
      let newCv ← self.parentCv f cv newCv false
      mergeStack f self cvStack newCv (totalChunks / 2)
    else
      return (cv :: cvStack, newCv)

/-- `Blake3::add_chunk_chaining_value` -/
def addChunkChainingValue (f : BitFn 1024 512) (self : Blake3) (newCv : Slice) (totalChunks : ℕ) :
    Method Vm Blake3Error Blake3 := do
  let (cvStack, newCv) ← self.mergeStack f self.cvStack newCv totalChunks
  pushStack { self with cvStack := cvStack } newCv

/-- If the current chunk is complete, finalizes it and resets the chunk. -/
def closeChunk (f : BitFn 1024 512) (self : Blake3) : Method Vm Blake3Error Blake3 :=
  if self.chunk.len = chunkSize then do
    let (chunkCv, chunk) ← self.chunk.compress f false
    let totalChunks := self.chunk.counter + 1
    let self ← addChunkChainingValue f { self with chunk := chunk } chunkCv totalChunks
    let chunk ← Chunk.new self.initialCv self.flags totalChunks
    return { self with chunk := chunk }
  else
    return self

/-- The loop of `Blake3::update`. Every turn takes something of the data, so there are at most as
many turns as bits. -/
def updateLoop (f : BitFn 1024 512) : ℕ → Blake3 → Slice → Method Vm Blake3Error Blake3
  | 0, self, _ => return self
  | turns + 1, self, data =>
    if data.size = 0 then return self
    else do
      let self ← self.closeChunk f
      let diff := chunkSize - self.chunk.len
      let parts := data.splitAt (min diff data.size)
      updateLoop f turns { self with chunk := self.chunk.update parts.1 } parts.2

/-- Adds data to the hash state. -/
def update (f : BitFn 1024 512) (self : Blake3) (data : Slice) : Method Vm Blake3Error Blake3 :=
  updateLoop f data.size self data

/-- The loop of `Blake3::finalize`: the parents along the right edge of the tree, until the root. -/
def mergeRight (f : BitFn 1024 512) (self : Blake3) :
    Slice → List Slice → Method Vm Blake3Error Slice
  | output, [] => return output
  | output, [cv] => self.parentCv f cv output true
  | output, cv :: next :: cvStack => do
    let output ← self.parentCv f cv output false
    mergeRight f self output (next :: cvStack)

/-- Finalizes the hash. -/
def finalize (f : BitFn 1024 512) (self : Blake3) : Method Vm Blake3Error (Slice × Blake3) := do
  let (output, chunk) ← self.chunk.compress f self.cvStack.isEmpty
  let output ← self.mergeRight f output self.cvStack
  let out ← liftVm (Vm.call serializeOutput.circ [output])
  return (out, { self with chunk := chunk })

end Blake3

/-! ### The hash -/

namespace Blake3

/-- A chaining value: the first half of what a block is compressed to. The state is the chaining
value, half of the initialization vector, the counter, the length of the block in bytes and the
flags. -/
def compression (f : BitFn 1024 512) (cv block : List Bool) (counter len : ℕ) (flags : BitVec 32) :
    List Bool :=
  (f (block ++ cv ++ intoClear [0x6A09E667, 0xBB67AE85, 0x3C6EF372, 0xA54FF53A,
    BitVec.ofNat 32 counter, BitVec.ofNat 32 (counter / 2 ^ 32), BitVec.ofNat 32 len, flags])).take
    256

/-- A block is filled with zeros. -/
def fill (block : List Bool) : List Bool := block ++ List.replicate (512 - block.length) false

/-- The blocks of a chunk. One that is empty has an empty block. -/
def chunkBlocks (l : List Bool) : List (List Bool) := if l = [] then [[]] else Mpz.blocks 512 l

/-- The flags of a block: bit 0 for the first one of a chunk, bit 1 for the last one, and bit 3 for
the last one of the root. -/
def domain (flags : BitVec 32) (isFirst isLast isRoot : Bool) : BitVec 32 :=
  flags ||| (if isFirst then 1 else 0) ||| (if isLast then 2 else 0) |||
    (if isLast && isRoot then 8 else 0)

/-- The chaining value behind some blocks. -/
def chain (f : BitFn 1024 512) (flags : BitVec 32) (counter : ℕ) (isRoot : Bool) :
    Bool → List Bool → List (List Bool) → List Bool
  | _, cv, [] => cv
  | isFirst, cv, block :: rest =>
    chain f flags counter isRoot false
      (compression f cv (fill block) counter ((block.length + 7) / 8)
        (domain flags isFirst rest.isEmpty isRoot)) rest

variable (f : BitFn 1024 512) (key : List (BitVec 32)) (flags : BitVec 32)

/-- The chaining value of a chunk. -/
def chunkValue (isRoot : Bool) (counter : ℕ) (l : List Bool) : List Bool :=
  chain f flags counter isRoot true (intoClear key) (chunkBlocks l)

/-- The chaining value of a parent, which has bit 2 of the flags, and bit 3 if it is the root. -/
def parentValue (isRoot : Bool) (left right : List Bool) : List Bool :=
  compression f (intoClear key) (left ++ right) 0 64 (flags ||| 4 ||| (if isRoot then 8 else 0))

/-- The chaining value of chunk `i` of a message, of 1024 bytes. -/
def leafValue (m : List Bool) (i : ℕ) : List Bool :=
  chunkValue f key flags false i ((m.drop (8192 * i)).take 8192)

/-- The value of the root: of the only chunk, or of the left-balanced tree of the chunks. -/
def rootValue (m : List Bool) : List Bool :=
  let n := (m.length + 8191) / 8192
  if n ≤ 1 then chunkValue f key flags true 0 m
  else rootTree (parentValue f key flags false) (leafValue f key flags m)
    (parentValue f key flags true) n

end Blake3

/-- The hash of a message: the words of the value of the root, in little-endian order. -/
def blake3 (f : BitFn 1024 512) (key : List (BitVec 32)) (flags : BitVec 32) (m : List (BitVec 8)) :
    List (BitVec 8) :=
  (fromClear 32 (Blake3.rootValue f key flags (intoClear m))).flatMap toLeBytes

namespace Blake3

variable {f : BitFn 1024 512} {key : List (BitVec 32)} {flags : BitVec 32} {s t : Vm} {v : ℕ → Bool}

/-! ### Calls of the machine -/

theorem gives_liftVm {α : Type} {m : Method Vm VmError α} {φ : α → Vm → Prop} (h : Vm.Gives m s φ) :
    Vm.Gives (liftVm m) s φ := by
  obtain ⟨a, t, hrun, hleads, ha⟩ := h
  exact ⟨a, t, by rw [liftVm, Method.zoom_apply, id, hrun]; rfl, hleads, ha⟩

/-- A constant that is assigned to new memory. -/
theorem gives_constant {w size : ℕ} {words : List (BitVec w)} (h : w * words.length = size) :
    Vm.Gives (liftVm (Vm.allocPublic size (intoClear words))) s fun slice t =>
      t.Holds v [slice] (intoClear words) :=
  (gives_liftVm (Vm.gives_allocPublic ((length_intoClear words).trans h) s)).mono
    fun _ _ _ ht => ht.1 v

theorem length_stateWords (counter len : ℕ) : (stateWords counter len).length = 7 := rfl

theorem gives_state (counter len : ℕ) : Vm.Gives (State.new counter len) s fun slice t =>
    t.Holds v [slice] (intoClear (stateWords counter len)) :=
  gives_constant (by rw [length_stateWords])

theorem gives_flags (value : BitVec 32) : Vm.Gives (Flags.new value) s fun slice t =>
    t.Holds v [slice] (intoClear [value]) := gives_constant rfl

theorem compression_eq (cv block : List Bool) (counter len : ℕ) :
    compression f cv block counter len flags =
      (f (block ++ cv ++ intoClear (stateWords counter len) ++ intoClear [flags])).take 256 := by
  have hstate : stateWords counter len ++ [flags] = [0x6A09E667, 0xBB67AE85, 0x3C6EF372, 0xA54FF53A,
      BitVec.ofNat 32 counter, BitVec.ofNat 32 (counter / 2 ^ 32), BitVec.ofNat 32 len, flags] := by
    rw [stateWords, Nat.shiftRight_eq_div_pow]
    rfl
  rw [compression, List.append_assoc (block ++ cv), ← intoClear_append, hstate]

theorem length_compression {cv block : List Bool} {counter len : ℕ} (hcv : cv.length = 256)
    (hblock : block.length = 512) : (compression f cv block counter len flags).length = 256 := by
  rw [compression_eq, List.length_take, f.2, Nat.min_eq_left (by decide)]
  simp only [List.length_append, length_intoClear, length_stateWords, hcv, hblock]
  rfl

/-- **One compression**, of slices that hold a block, a chaining value, a state and flags. -/
theorem gives_callCompress {inputs : List Slice} {chainingValue state flagsState : Slice}
    {cv block : List Bool} {counter len : ℕ} (hinputs : s.Holds v inputs block)
    (hcv : s.Holds v [chainingValue] cv)
    (hstate : s.Holds v [state] (intoClear (stateWords counter len)))
    (hflags : s.Holds v [flagsState] (intoClear [flags])) (hlen : cv.length = 256)
    (hblock : block.length = 512) :
    Vm.Gives (callCompress f (inputs ++ [chainingValue] ++ [state] ++ [flagsState])) s
      fun slice t =>
      t.Holds v [slice] (compression f cv block counter len flags) := by
  have hbits : (block ++ cv ++ intoClear (stateWords counter len) ++ intoClear [flags]).length =
      f.circ.inputs := by
    simp only [List.length_append, length_intoClear, length_stateWords, hlen, hblock]
    rfl
  have hholds := ((hinputs.append hcv).append hstate).append hflags
  refine (gives_liftVm (Vm.gives_call hholds hbits)).bind fun output t _ houtput => ?_
  -- The first 8 of 16 words.
  have hwords : Vm.Gives (Method.call (.ofOption (output.get 16 0 8)) : Method Vm Blake3Error Slice)
      t fun part t => t.Holds v [part] _ :=
    Vm.gives_get houtput.1 (f.2 _ hbits) (w := 32) (by decide) (by decide)
  refine hwords.mono fun part u _ hpart => ?_
  rw [Nat.zero_mul, List.drop_zero] at hpart
  rw [compression_eq]
  exact hpart

/-! ### Chunks -/

theorem length_fill {block : List Bool} (h : block.length ≤ 512) : (fill block).length = 512 := by
  rw [fill, List.length_append, List.length_replicate]
  omega

theorem fill_of_length {block : List Bool} (h : block.length = 512) : fill block = block := by
  rw [fill, h, Nat.sub_self, List.replicate_zero, List.append_nil]

/-- All blocks of a chunk but the last one are whole. -/
theorem exists_chunkBlocks_eq (l : List Bool) : ∃ parts last, chunkBlocks l = parts ++ [last] ∧
    l = parts.flatten ++ last ∧ (∀ part ∈ parts, part.length = 512) ∧ last.length ≤ 512 ∧
    (l ≠ [] → Mpz.blocks 512 l = parts ++ [last]) := by
  by_cases hl : l = []
  · exact ⟨[], [], by rw [chunkBlocks, if_pos hl]; rfl, hl, nofun, Nat.zero_le _,
      fun hne => absurd hl hne⟩
  · have hpos : 0 < 512 := by decide
    obtain ⟨parts, last, hblocks, hwhole, -, hle⟩ := exists_blocks_eq hpos hl
    refine ⟨parts, last, ?_, ?_, hwhole, hle, fun _ => hblocks⟩
    · rw [chunkBlocks, if_neg hl, hblocks]
    · have hflatten := flatten_blocks hpos l
      rw [hblocks, List.flatten_append, List.flatten_singleton] at hflatten
      exact hflatten.symm

/-- A chunk that is filled has the blocks of the chunk, of which the last one is filled. -/
theorem blocks_append_replicate {l last : List Bool} {parts : List (List Bool)}
    (hl : l = parts.flatten ++ last) (hparts : ∀ part ∈ parts, part.length = 512)
    (hle : last.length ≤ 512) :
    Mpz.blocks 512 (l ++ List.replicate (512 - last.length) false) = parts ++ [fill last] := by
  have hfill := length_fill hle
  rw [hl, List.append_assoc, ← fill, blocks_flatten_append (by decide) hparts,
    blocks_of_length_le (by decide) (List.length_pos_iff.mp (by omega)) hfill.le]

/-- What a chunk holds, of which there were `counter` before. -/
structure Chunk.HoldsChunk (vm : Vm) (v : ℕ → Bool) (key : List (BitVec 32)) (flags : BitVec 32)
    (counter : ℕ) (chunk : Chunk) (l : List Bool) : Prop where
  cv : vm.Holds v [chunk.chainingValue] (intoClear key)
  state : vm.Holds v [chunk.state] (intoClear (stateWords counter 64))
  flags : chunk.flags = flags
  counter : chunk.counter = counter
  blocks : vm.HoldsBlocks v chunk.blocks (Mpz.blocks 512 l)

namespace Chunk

variable {chunk : Chunk} {counter : ℕ} {l bits : List Bool}

theorem HoldsChunk.of_leads (hleads : s.Leads t) (h : HoldsChunk s v key flags counter chunk l) :
    HoldsChunk t v key flags counter chunk l :=
  { h with
    cv := h.cv.of_leads hleads
    state := h.state.of_leads hleads
    blocks := Vm.HoldsBlocks.of_leads hleads h.blocks }

theorem HoldsChunk.update {data : Slice} (h : HoldsChunk s v key flags counter chunk l)
    (hdata : s.Holds v [data] bits) :
    HoldsChunk s v key flags counter (chunk.update data) (l ++ bits) := by
  have hsize := hdata.size
  unfold Chunk.update
  split
  case isTrue hzero =>
    rw [List.length_eq_zero_iff.mp (hsize.symm.trans hzero), List.append_nil]
    exact h
  case isFalse => exact { h with blocks := Vm.HoldsBlocks.update (by decide) h.blocks hdata }

theorem gives_new {cv : Slice} (hcv : s.Holds v [cv] (intoClear key)) :
    Vm.Gives (Chunk.new cv flags counter) s fun chunk t =>
      HoldsChunk t v key flags counter chunk [] := by
  refine (gives_state (v := v) counter blockLen).bind fun state t hleads hstate => ?_
  exact .pure ⟨hcv.of_leads hleads, hstate, rfl, rfl, by rw [blocks_nil]; exact .nil⟩

/-- The last of the blocks that hold a list. -/
theorem getLast?_of_holdsBlocks {bs : List Block} {parts : List (List Bool)} {last : List Bool}
    (h : s.HoldsBlocks v bs (parts ++ [last])) :
    bs.length = parts.length + 1 ∧ bs.getLast?.map Block.len = some last.length := by
  have hlength : bs.length = parts.length + 1 := h.length_eq.trans List.length_append
  obtain ⟨block, bs', hblock, hnil, hbs⟩ :=
    List.forall₂_cons_right_iff.mp (List.forall₂_drop_append bs parts [last] h)
  cases hnil
  refine ⟨hlength, ?_⟩
  rw [← List.take_append_drop parts.length bs, hbs, List.getLast?_concat]
  exact congrArg some hblock.len

theorem HoldsChunk.lastBlockLen (h : HoldsChunk s v key flags counter chunk l) {last : List Bool}
    {parts : List (List Bool)} (hl : l = parts.flatten ++ last)
    (hblocks : l ≠ [] → Mpz.blocks 512 l = parts ++ [last]) :
    chunk.lastBlockLen = last.length := by
  have hbs := h.blocks
  by_cases hne : l = []
  · rw [hne, blocks_nil] at hbs
    have hlast : last = [] := (List.append_eq_nil_iff.mp (hl.symm.trans hne)).2
    rw [Chunk.lastBlockLen, List.forall₂_nil_right_iff.mp hbs, hlast]
    rfl
  · rw [hblocks hne] at hbs
    rw [Chunk.lastBlockLen, (getLast?_of_holdsBlocks hbs).2, Option.getD_some]

/-- The length of a chunk. -/
theorem HoldsChunk.len (h : HoldsChunk s v key flags counter chunk l) : chunk.len = l.length := by
  have hbs := h.blocks
  by_cases hl : l = []
  · rw [hl, blocks_nil] at hbs
    rw [Chunk.len, List.forall₂_nil_right_iff.mp hbs, hl]
    rfl
  · have hpos : 0 < 512 := by decide
    obtain ⟨parts, last, hblocks, hwhole, -, -⟩ := exists_blocks_eq hpos hl
    have hflatten := flatten_blocks hpos l
    rw [hblocks] at hbs hflatten
    obtain ⟨hlength, hlast⟩ := getLast?_of_holdsBlocks hbs
    obtain ⟨block, hblock, hlen⟩ := Option.map_eq_some_iff.mp hlast
    rw [Chunk.len, hblock, ← hflatten, List.flatten_append, List.flatten_singleton,
      List.length_append, length_flatten_of_forall hwhole, hlength, ← hlen, Nat.add_sub_cancel]
    rfl

/-- The last block is filled. -/
theorem HoldsChunk.gives_pad (h : HoldsChunk s v key flags counter chunk l) {last : List Bool}
    (hlast : chunk.lastBlockLen = last.length) :
    Vm.Gives chunk.pad s fun padded t => HoldsChunk t v key flags counter padded
      (l ++ List.replicate (512 - last.length) false) := by
  unfold pad
  rw [hlast]
  split
  case isTrue hne =>
    refine (gives_liftVm (Vm.gives_allocPublic List.length_replicate s)).bind
      fun padding t hleads hpad => ?_
    exact .pure ((h.of_leads hleads).update (hpad.1 v))
  case isFalse heq =>
    have hfull : last.length = 512 := not_ne_iff.mp heq
    rw [hfull, Nat.sub_self, List.replicate_zero, List.append_nil]
    exact .pure h

theorem blockFlags_of_ne {isRoot : Bool} {n i : ℕ} (h : i ≠ n - 1) :
    chunk.blockFlags isRoot n i = domain chunk.flags (i = 0) false isRoot := by
  unfold blockFlags domain chunkStart
  rw [if_neg h]
  by_cases hi : i = 0 <;> simp [hi]

theorem blockFlags_last (isRoot : Bool) (i : ℕ) :
    chunk.blockFlags isRoot (i + 1) i = domain chunk.flags (i = 0) true isRoot := by
  unfold blockFlags domain chunkStart chunkEnd root
  rw [if_pos (Nat.add_sub_cancel i 1).symm]
  by_cases hi : i = 0 <;> cases isRoot <;> simp [hi]

/-- **The blocks of a chunk**, one after the other, of which the last one has its own state. -/
theorem gives_compressBlocks {isRoot : Bool} {chainingValue lastState : Slice} {cv last : List Bool}
    {bs : List Block} {parts : List (List Bool)} {n i : ℕ}
    (hstate : s.Holds v [chunk.state] (intoClear (stateWords counter 64)))
    (hlastState : s.Holds v [lastState] (intoClear (stateWords counter ((last.length + 7) / 8))))
    (hcv : s.Holds v [chainingValue] cv) (hlen : cv.length = 256)
    (hbs : s.HoldsBlocks v bs (parts ++ [fill last])) (hn : i + bs.length = n)
    (hparts : ∀ part ∈ parts, part.length = 512) (hle : last.length ≤ 512) :
    Vm.Gives (chunk.compressBlocks f lastState isRoot n i chainingValue bs) s fun slice t =>
      t.Holds v [slice] (chain f chunk.flags counter isRoot (i = 0) cv (parts ++ [last])) := by
  induction parts generalizing s i chainingValue cv bs with
  | nil =>
    obtain ⟨block, bs, hblock, hnil, rfl⟩ := List.forall₂_cons_right_iff.mp hbs
    cases hnil
    obtain rfl : i + 1 = n := hn
    have hlast : i = i + 1 - 1 := (Nat.add_sub_cancel i 1).symm
    rw [compressBlocks, if_pos hlast, blockFlags_last]
    refine (gives_flags (v := v) _).bind fun flagsState t hleads hflags => ?_
    refine (gives_callCompress (hblock.of_leads hleads) (hcv.of_leads hleads)
      (hlastState.of_leads hleads) hflags hlen (length_fill hle)).bind fun slice t _ hslice => ?_
    exact .pure hslice
  | cons part parts ih =>
    obtain ⟨block, bs, hblock, hrest, rfl⟩ := List.forall₂_cons_right_iff.mp hbs
    have hpart : part.length = 512 := hparts part List.mem_cons_self
    have hlength : bs.length = parts.length + 1 := hrest.length_eq.trans List.length_append
    have hne : i ≠ n - 1 := by
      rw [List.length_cons] at hn
      omega
    rw [compressBlocks, if_neg hne, blockFlags_of_ne hne]
    refine (gives_flags (v := v) _).bind fun flagsState t hleads hflags => ?_
    refine (gives_callCompress (hblock.of_leads hleads) (hcv.of_leads hleads)
      (hstate.of_leads hleads) hflags hlen hpart).bind fun slice u hleads' hslice => ?_
    have hleads := hleads.trans hleads'
    have hempty : (parts ++ [last]).isEmpty = false := by
      rw [List.isEmpty_eq_false_iff]
      exact List.append_ne_nil_of_right_ne_nil _ (List.cons_ne_nil _ _)
    have hfirst : decide (i + 1 = 0) = false := decide_eq_false (Nat.succ_ne_zero i)
    have hih := ih (hstate.of_leads hleads) (hlastState.of_leads hleads) hslice
      (length_compression hlen hpart) (Vm.HoldsBlocks.of_leads hleads hrest)
      (i := i + 1) (by rw [← hn, List.length_cons]; omega)
      fun part hmem => hparts part (List.mem_cons_of_mem _ hmem)
    rw [List.cons_append, chain, hempty, fill_of_length hpart, hpart]
    rw [hfirst] at hih
    exact hih

/-- **A chunk is compressed** to its chaining value. -/
theorem gives_compress {isRoot : Bool} (hroot : isRoot = true → counter = 0)
    (hkey : key.length = 8) (h : HoldsChunk s v key flags counter chunk l) :
    Vm.Gives (chunk.compress f isRoot) s fun p t =>
      t.Holds v [p.1] (chunkValue f key flags isRoot counter l) := by
  obtain ⟨parts, last, hchunk, hl, hparts, hle, hblocks⟩ := exists_chunkBlocks_eq l
  have hlast := h.lastBlockLen hl hblocks
  have hcounter : (if isRoot then 0 else chunk.counter) = counter := by
    cases isRoot with
    | false => exact h.counter
    | true => exact (hroot rfl).symm
  unfold compress
  rw [hlast, hcounter]
  refine (h.gives_pad hlast).bind fun padded t hleads hpad => ?_
  refine (gives_state (v := v) counter _).bind fun lastState u hleads' hstate => ?_
  have hpad := hpad.of_leads hleads'
  have hbs := hpad.blocks
  rw [blocks_append_replicate hl hparts hle] at hbs
  refine (gives_compressBlocks hpad.state hstate hpad.cv
    ((length_intoClear key).trans (by rw [hkey]))
    hbs (Nat.zero_add _) hparts hle).bind fun slice w _ hslice => ?_
  rw [hpad.flags, ← hchunk] at hslice
  exact .pure hslice

end Chunk

theorem length_chain {counter : ℕ} {isRoot isFirst : Bool} {cv : List Bool}
    {parts : List (List Bool)} (hcv : cv.length = 256)
    (hparts : ∀ part ∈ parts, part.length ≤ 512) :
    (chain f flags counter isRoot isFirst cv parts).length = 256 := by
  induction parts generalizing cv isFirst with
  | nil => exact hcv
  | cons part parts ih =>
    exact ih (length_compression hcv (length_fill (hparts part List.mem_cons_self)))
      fun part hmem => hparts part (List.mem_cons_of_mem _ hmem)

theorem length_chunkValue {counter : ℕ} {isRoot : Bool} (hkey : key.length = 8) (l : List Bool) :
    (chunkValue f key flags isRoot counter l).length = 256 := by
  obtain ⟨parts, last, hchunk, -, hparts, hle, -⟩ := exists_chunkBlocks_eq l
  rw [chunkValue, hchunk]
  refine length_chain ((length_intoClear key).trans (by rw [hkey])) fun part hmem => ?_
  rcases List.mem_append.mp hmem with hmem | hmem
  · exact (hparts part hmem).le
  · rwa [List.mem_singleton.mp hmem]

/-! ### The tree -/

/-- The slice holds a chaining value. -/
def HoldsCv (vm : Vm) (v : ℕ → Bool) (slice : Slice) (cv : List Bool) : Prop :=
  vm.Holds v [slice] cv ∧ cv.length = 256

theorem HoldsCv.of_leads {slice : Slice} {cv : List Bool} (hleads : s.Leads t)
    (h : HoldsCv s v slice cv) : HoldsCv t v slice cv := ⟨h.1.of_leads hleads, h.2⟩

/-- What every parent begins with. -/
structure Keyed (key : List (BitVec 32)) (flags : BitVec 32) (vm : Vm) (v : ℕ → Bool) (h : Blake3) :
    Prop where
  initialCv : vm.Holds v [h.initialCv] (intoClear key)
  parentState : vm.Holds v [h.parentState] (intoClear (stateWords 0 64))
  flags_eq : h.flags = flags

variable {h : Blake3} {n : ℕ} {m bits : List Bool}

theorem Keyed.of_leads (hleads : s.Leads t) (hs : Keyed key flags s v h) : Keyed key flags t v h :=
  ⟨hs.initialCv.of_leads hleads, hs.parentState.of_leads hleads, hs.flags_eq⟩

/-- A parent of two chaining values. -/
theorem Keyed.gives_parentCv (hs : Keyed key flags s v h) (hkey : key.length = 8)
    {left right : Slice} {x y : List Bool} (isRoot : Bool) (hleft : HoldsCv s v left x)
    (hright : HoldsCv s v right y) :
    Vm.Gives (h.parentCv f left right isRoot) s fun slice t =>
      HoldsCv t v slice (parentValue f key flags isRoot x y) := by
  have hflags : (if isRoot then h.flags ||| parent ||| root else h.flags ||| parent) =
      flags ||| 4 ||| (if isRoot then 8 else 0) := by
    rw [hs.flags_eq]
    unfold parent root
    cases isRoot <;> simp
  have hlen : (intoClear key).length = 256 := (length_intoClear key).trans (by rw [hkey])
  have hblock : (x ++ y).length = 512 := by rw [List.length_append, hleft.2, hright.2]
  unfold parentCv
  simp only [hflags]
  refine (gives_flags (v := v) _).bind fun flagsState t hleads hstate => ?_
  refine (gives_callCompress ((hleft.1.append hright.1).of_leads hleads)
    (hs.initialCv.of_leads hleads) (hs.parentState.of_leads hleads) hstate hlen hblock).mono
      fun slice u _ hslice => ⟨hslice, length_compression hlen hblock⟩

/-- **The subtrees that a new one completes** are merged with it. -/
theorem Keyed.gives_mergeStack (hs : Keyed key flags s v h) (hkey : key.length = 8)
    {leaf : ℕ → List Bool} {stack : List Slice} {newCv : Slice} {j k : ℕ}
    (hstack : List.Forall₂ (HoldsCv s v) stack (forest (parentValue f key flags false) leaf j k))
    (hcv : HoldsCv s v newCv (leftTree (parentValue f key flags false) leaf (k * 2 ^ j) (2 ^ j))) :
    Vm.Gives (h.mergeStack f stack newCv (k + 1)) s fun p t =>
      List.Forall₂ (HoldsCv t v) (p.2 :: p.1)
        (forest (parentValue f key flags false) leaf 0 ((k + 1) * 2 ^ j)) := by
  induction hsize : stack.length using Nat.strong_induction_on generalizing s stack newCv j k with
  | _ size ih =>
  obtain ⟨i, rfl | rfl⟩ := Nat.even_or_odd' k
  · -- Nothing is completed.
    have hodd : ¬ (2 * i + 1) % 2 = 0 := by omega
    have hpush : List.Forall₂ (HoldsCv s v) (newCv :: stack)
        (forest (parentValue f key flags false) leaf 0 ((2 * i + 1) * 2 ^ j)) := by
      rw [forest_mul_two_pow, forest_succ_of_even]
      exact .cons hcv hstack
    cases stack <;> rw [mergeStack, if_neg hodd] <;> exact .pure hpush
  · have heven : (2 * i + 1 + 1) % 2 = 0 := by omega
    have hhalf : (2 * i + 1 + 1) / 2 = i + 1 := by omega
    have htotal : (2 * i + 1 + 1) * 2 ^ j = (i + 1) * 2 ^ (j + 1) := by ring
    rw [forest_bit_true] at hstack
    obtain ⟨cv, stack, hleft, hrest, rfl⟩ := List.forall₂_cons_right_iff.mp hstack
    rw [mergeStack, if_pos heven, hhalf, htotal]
    refine (hs.gives_parentCv hkey false hleft hcv).bind fun newCv t hleads hnew => ?_
    have hcarry : parentValue f key flags false
        (leftTree (parentValue f key flags false) leaf (i * 2 ^ (j + 1)) (2 ^ j))
        (leftTree (parentValue f key flags false) leaf ((2 * i + 1) * 2 ^ j) (2 ^ j)) =
        leftTree (parentValue f key flags false) leaf (i * 2 ^ (j + 1)) (2 ^ (j + 1)) :=
      leftTree_carry j i
    rw [hcarry] at hnew
    exact ih stack.length (by rw [← hsize]; exact Nat.lt_succ_self _) (hs.of_leads hleads)
      (hrest.imp fun _ _ hcv => hcv.of_leads hleads) hnew rfl

/-- **The right edge of the tree** is what the stack and the last value are merged to. -/
theorem Keyed.gives_mergeRight (hs : Keyed key flags s v h) (hkey : key.length = 8)
    {stack : List Slice} {values : List (List Bool)} {output : Slice} {x : List Bool}
    (hstack : List.Forall₂ (HoldsCv s v) stack values) (hx : HoldsCv s v output x) :
    Vm.Gives (h.mergeRight f output stack) s fun slice t => HoldsCv t v slice
      (mergeForest (parentValue f key flags false) (parentValue f key flags true) x values) := by
  induction values generalizing s stack output x with
  | nil =>
    cases hstack
    exact .pure hx
  | cons y values ih =>
    obtain ⟨cv, stack, hcv, hrest, rfl⟩ := List.forall₂_cons_right_iff.mp hstack
    cases values with
    | nil =>
      cases hrest
      exact hs.gives_parentCv hkey true hcv hx
    | cons z values =>
      obtain ⟨next, stack, hnext, hrest', rfl⟩ := List.forall₂_cons_right_iff.mp hrest
      refine (hs.gives_parentCv hkey false hcv hx).bind fun output t hleads hout => ?_
      exact ih (hs.of_leads hleads) (hrest.imp fun _ _ hcv => hcv.of_leads hleads) hout

/-- The value of a whole chunk goes on the stack. -/
theorem Keyed.gives_addChunkChainingValue (hs : Keyed key flags s v h) (hkey : key.length = 8)
    {leaf : ℕ → List Bool} (hn : n + 1 < 2 ^ 54) {cv : Slice} (hcv : HoldsCv s v cv (leaf n))
    (hstack : List.Forall₂ (HoldsCv s v) h.cvStack
      (forest (parentValue f key flags false) leaf 0 n)) :
    Vm.Gives (h.addChunkChainingValue f cv (n + 1)) s fun h' t =>
      ∃ stack, h' = { h with cvStack := stack } ∧ List.Forall₂ (HoldsCv t v) stack
        (forest (parentValue f key flags false) leaf 0 (n + 1)) := by
  have hleaf : HoldsCv s v cv (leftTree (parentValue f key flags false) leaf (n * 2 ^ 0)
      (2 ^ 0)) := by
    rwa [Nat.pow_zero, Nat.mul_one, leftTree_one]
  refine (hs.gives_mergeStack hkey hstack hleaf).bind fun ⟨stack, newCv⟩ t _ hp => ?_
  rw [Nat.pow_zero, Nat.mul_one] at hp
  -- There is room on the stack.
  have hroom : stack.length ≠ maxSubtreeDepth := by
    have hlength : stack.length + 1 = _ := hp.length_eq
    have hle : (forest (parentValue f key flags false) leaf 0 (n + 1)).length ≤ 54 :=
      length_forest_le hn 0
    unfold maxSubtreeDepth
    omega
  have hpush : pushStack { h with cvStack := stack } newCv =
      pure { h with cvStack := newCv :: stack } := if_neg hroom
  show Vm.Gives (pushStack _ _) t _
  rw [hpush]
  exact .pure ⟨newCv :: stack, rfl, hp⟩

/-! ### Updates -/

/-- What a hasher has closed, `n` chunks of a message, and what it holds of it. -/
structure Built (f : BitFn 1024 512) (key : List (BitVec 32)) (flags : BitVec 32) (vm : Vm)
    (v : ℕ → Bool) (h : Blake3) (n : ℕ) (m : List Bool) : Prop extends Keyed key flags vm v h where
  stack : List.Forall₂ (HoldsCv vm v) h.cvStack
    (forest (parentValue f key flags false) (leafValue f key flags m) 0 n)
  chunk : Chunk.HoldsChunk vm v key flags n h.chunk (m.drop (8192 * n))
  le : 8192 * n ≤ m.length
  length_le : m.length ≤ 8192 * n + 8192

theorem Built.of_leads (hleads : s.Leads t) (hs : Built f key flags s v h n m) :
    Built f key flags t v h n m :=
  { hs with
    toKeyed := hs.toKeyed.of_leads hleads
    stack := hs.stack.imp fun _ _ hcv => hcv.of_leads hleads
    chunk := hs.chunk.of_leads hleads }

/-- A hasher that holds nothing. -/
theorem gives_newInternal (hkey : key.length = 8) :
    Vm.Gives (newInternal key flags) s fun h t => Built f key flags t v h 0 [] := by
  have hsize : 32 * key.length = 8 * 32 := by rw [hkey]
  refine (gives_constant (v := v) hsize).bind fun initialCv t _ hcv => ?_
  refine (gives_state (v := v) 0 blockLen).bind fun parentState u hleads hstate => ?_
  refine (Chunk.gives_new (hcv.of_leads hleads)).bind fun chunk w hleads' hchunk => ?_
  refine .pure ⟨⟨(hcv.of_leads hleads).of_leads hleads', hstate.of_leads hleads', rfl⟩, ?_, hchunk,
    le_rfl, Nat.zero_le _⟩
  rw [forest_zero]
  exact .nil

/-- A chunk that is whole does not change with what comes behind it. -/
theorem leafValue_append {i : ℕ} (h : 8192 * i + 8192 ≤ m.length) (bits : List Bool) :
    leafValue f key flags (m ++ bits) i = leafValue f key flags m i := by
  have hdrop : (m ++ bits).drop (8192 * i) = m.drop (8192 * i) ++ bits :=
    List.drop_append_of_le_length (by omega)
  have htake : (m.drop (8192 * i) ++ bits).take 8192 = (m.drop (8192 * i)).take 8192 :=
    List.take_append_of_le_length (by rw [List.length_drop]; omega)
  rw [leafValue, leafValue, hdrop, htake]

/-- Data is added to the chunk that is not closed. -/
theorem Built.updateChunk (hs : Built f key flags s v h n m) {data : Slice}
    (hdata : s.Holds v [data] bits) (hle : (m ++ bits).length ≤ 8192 * n + 8192) :
    Built f key flags s v { h with chunk := h.chunk.update data } n (m ++ bits) := by
  have hforest : forest (parentValue f key flags false) (leafValue f key flags (m ++ bits)) 0 n =
      forest (parentValue f key flags false) (leafValue f key flags m) 0 n := by
    refine forest_congr fun i hi => leafValue_append ?_ bits
    have hle := hs.le
    omega
  have hchunk := hs.chunk.update hdata
  rw [← List.drop_append_of_le_length hs.le] at hchunk
  refine ⟨⟨hs.initialCv, hs.parentState, hs.flags_eq⟩, ?_, hchunk, ?_, hle⟩
  · rw [hforest]
    exact hs.stack
  · rw [List.length_append]
    exact Nat.le_add_right_of_le hs.le

/-- **A chunk is closed** where it is whole. -/
theorem Built.gives_closeChunk (hs : Built f key flags s v h n m) (hkey : key.length = 8)
    (hm : m.length < 8192 * 2 ^ 54) :
    Vm.Gives (h.closeChunk f) s fun h' t =>
      ∃ n', Built f key flags t v h' n' m ∧ m.length < 8192 * n' + 8192 := by
  have hle := hs.le
  have hle' := hs.length_le
  have hlen : h.chunk.len = m.length - 8192 * n := hs.chunk.len.trans List.length_drop
  unfold closeChunk
  split
  case isTrue hfull =>
    have hsize : m.length = 8192 * (n + 1) := by
      rw [hlen] at hfull
      unfold chunkSize at hfull
      omega
    have hwhole : (m.drop (8192 * n)).take 8192 = m.drop (8192 * n) :=
      List.take_of_length_le (by rw [List.length_drop]; omega)
    have hnone : m.drop (8192 * (n + 1)) = [] := List.drop_eq_nil_iff.mpr hsize.le
    refine (Chunk.gives_compress (fun hroot => absurd hroot Bool.false_ne_true) hkey hs.chunk).bind
      fun p t hleads hp => ?_
    have hcv : HoldsCv t v p.1 (leafValue f key flags m n) := by
      rw [leafValue, hwhole]
      exact ⟨hp, length_chunkValue hkey _⟩
    have hs := hs.of_leads hleads
    have hkeyed : Keyed key flags t v { h with chunk := p.2 } :=
      ⟨hs.initialCv, hs.parentState, hs.flags_eq⟩
    rw [hs.chunk.counter]
    refine (hkeyed.gives_addChunkChainingValue hkey (by omega) hcv hs.stack).bind
      fun h' u hleads' hh' => ?_
    obtain ⟨stack, rfl, hstack⟩ := hh'
    have hkeyed := hkeyed.of_leads hleads'
    refine (Chunk.gives_new hkeyed.initialCv).bind fun chunk w hleads'' hchunk => ?_
    have hkeyed := hkeyed.of_leads hleads''
    rw [hkeyed.flags_eq, ← hnone] at hchunk
    exact .pure ⟨n + 1, ⟨⟨hkeyed.initialCv, hkeyed.parentState, hkeyed.flags_eq⟩,
      hstack.imp fun _ _ hcv => hcv.of_leads hleads'', hchunk, hsize.ge, by omega⟩, by omega⟩
  case isFalse hfull =>
    refine .pure ⟨n, hs, ?_⟩
    rw [hlen] at hfull
    unfold chunkSize at hfull
    omega

/-- A chunk is closed only when more data arrives, so what is held is not empty. -/
def Lazy (n : ℕ) (m : List Bool) : Prop := n = 0 ∨ 8192 * n < m.length

/-- **The loop of an update.** -/
theorem Built.gives_updateLoop (hs : Built f key flags s v h n m) (hkey : key.length = 8)
    (hlazy : Lazy n m) {turns : ℕ} {data : Slice} (hdata : s.Holds v [data] bits)
    (hturns : bits.length ≤ turns) (hm : (m ++ bits).length ≤ 8192 * 2 ^ 54) :
    Vm.Gives (updateLoop f turns h data) s fun h' t =>
      ∃ n', Built f key flags t v h' n' (m ++ bits) ∧ Lazy n' (m ++ bits) := by
  induction turns generalizing s h n m data bits with
  | zero =>
    rw [List.length_eq_zero_iff.mp (Nat.le_zero.mp hturns), List.append_nil]
    exact .pure ⟨n, hs, hlazy⟩
  | succ turns ih =>
    have hsize := hdata.size
    rw [updateLoop]
    split
    case isTrue hzero =>
      rw [List.length_eq_zero_iff.mp (hsize.symm.trans hzero), List.append_nil]
      exact .pure ⟨n, hs, hlazy⟩
    case isFalse hzero =>
      rw [List.length_append] at hm
      refine (hs.gives_closeChunk hkey (by omega)).bind fun h t hleads hh => ?_
      obtain ⟨n', hs, hlt⟩ := hh
      have hle := hs.le
      have hlen : h.chunk.len = m.length - 8192 * n' := hs.chunk.len.trans List.length_drop
      obtain ⟨hleft, hright⟩ := (hdata.of_leads hleads).splitAt
        (Nat.min_le_right (chunkSize - h.chunk.len) data.size)
      show Vm.Gives (updateLoop f turns
        { h with chunk :=
            h.chunk.update (data.splitAt (min (chunkSize - h.chunk.len) data.size)).1 }
        (data.splitAt (min (chunkSize - h.chunk.len) data.size)).2) t _
      generalize hmid : min (chunkSize - h.chunk.len) data.size = mid at hleft hright ⊢
      have hmid' : 0 < mid ∧ mid ≤ bits.length ∧ m.length + mid ≤ 8192 * n' + 8192 := by
        rw [hlen] at hmid
        unfold chunkSize at hmid
        omega
      have htake : (bits.take mid).length = mid := by
        rw [List.length_take, Nat.min_eq_left hmid'.2.1]
      have happend : m ++ bits = m ++ bits.take mid ++ bits.drop mid := by
        rw [List.append_assoc, List.take_append_drop]
      have hs := hs.updateChunk hleft (by rw [List.length_append, htake]; exact hmid'.2.2)
      have hlazy : Lazy n' (m ++ bits.take mid) := .inr (by rw [List.length_append, htake]; omega)
      rw [happend]
      refine ih hs hlazy hright (by rw [List.length_drop]; omega) ?_
      rw [← happend, List.length_append]
      exact hm

/-! ### The end of a hash -/

/-- **The value of the root** is what the chunk and the stack are merged to. -/
theorem Built.gives_root (hs : Built f key flags s v h n m) (hkey : key.length = 8)
    (hlazy : Lazy n m) :
    Vm.Gives (h.chunk.compress f h.cvStack.isEmpty) s fun p t =>
      Vm.Gives (h.mergeRight f p.1 h.cvStack) t fun slice u =>
        HoldsCv u v slice (rootValue f key flags m) := by
  have hle := hs.le
  have hle' := hs.length_le
  rcases Nat.eq_zero_or_pos n with rfl | hn
  · -- The chunk is the root.
    have hstack := hs.stack
    rw [forest_zero, List.forall₂_nil_right_iff] at hstack
    rw [hstack]
    refine (Chunk.gives_compress (fun _ => rfl) hkey hs.chunk).mono fun p t _ hp => ?_
    have hroot : rootValue f key flags m = chunkValue f key flags true 0 m := if_pos (by omega)
    rw [hroot]
    rw [Nat.mul_zero, List.drop_zero] at hp
    exact .pure ⟨hp, length_chunkValue hkey m⟩
  · have hne : forest (parentValue f key flags false) (leafValue f key flags m) 0 n ≠ [] :=
      forest_ne_nil hn 0
    have hempty : h.cvStack.isEmpty = false := by
      rw [List.isEmpty_eq_false_iff]
      rintro hnil
      have hstack := hs.stack
      rw [hnil, List.forall₂_nil_left_iff] at hstack
      exact hne hstack
    have hlt : 8192 * n < m.length := hlazy.resolve_left (by omega)
    rw [hempty]
    refine (Chunk.gives_compress (fun hroot => absurd hroot Bool.false_ne_true) hkey hs.chunk).mono
      fun p t hleads hp => ?_
    have hlast : (m.drop (8192 * n)).take 8192 = m.drop (8192 * n) :=
      List.take_of_length_le (by rw [List.length_drop]; omega)
    have hcv : HoldsCv t v p.1
        (leftTree (parentValue f key flags false) (leafValue f key flags m) (n * 2 ^ 0) 1) := by
      rw [leftTree_one, Nat.pow_zero, Nat.mul_one, leafValue, hlast]
      exact ⟨hp, length_chunkValue hkey _⟩
    have hcount : (m.length + 8191) / 8192 = n * 2 ^ 0 + 1 := by omega
    have hroot : rootValue f key flags m = rootTree (parentValue f key flags false)
        (leafValue f key flags m) (parentValue f key flags true) (n * 2 ^ 0 + 1) := by
      rw [rootValue, hcount]
      exact if_neg (by omega)
    have hmerge : mergeForest (parentValue f key flags false) (parentValue f key flags true)
        (leftTree (parentValue f key flags false) (leafValue f key flags m) (n * 2 ^ 0) 1)
        (forest (parentValue f key flags false) (leafValue f key flags m) 0 n) =
        rootTree (parentValue f key flags false) (leafValue f key flags m)
          (parentValue f key flags true) (n * 2 ^ 0 + 1) :=
      mergeForest_forest hn Nat.one_pos le_rfl
    rw [hroot, ← hmerge]
    exact (hs.toKeyed.of_leads hleads).gives_mergeRight hkey
      (hs.stack.imp fun _ _ hcv => hcv.of_leads hleads) hcv

theorem serializeOutput_eq (bits : List Bool) : serializeOutput bits = bits := by
  show (Mpz.blocks 32 bits).flatMap (fun word => (Mpz.blocks 8 word).flatten) = bits
  simp only [flatten_blocks (show 0 < 8 by decide), List.flatMap_id']
  exact flatten_blocks (by decide) bits

theorem length_of_gives {m : Method Vm Blake3Error Slice} {value : List Bool}
    (h : Vm.Gives m s fun slice t => HoldsCv t v slice value) : value.length = 256 := by
  obtain ⟨_, _, _, _, hcv⟩ := h
  exact hcv.2

/-- **The end of a hash.** -/
theorem Built.gives_finalize (hs : Built f key flags s v h n m) (hkey : key.length = 8)
    (hlazy : Lazy n m) :
    Vm.Gives (h.finalize f) s fun p t => t.Holds v [p.1] (rootValue f key flags m) ∧
      (rootValue f key flags m).length = 256 := by
  unfold finalize
  refine (hs.gives_root hkey hlazy).bind fun p t _ hp => ?_
  have hlen := length_of_gives hp
  refine hp.bind fun output u _ hout => ?_
  refine (gives_liftVm (Vm.gives_call hout.1 hlen)).bind fun out w _ hholds => ?_
  have hserialize : serializeOutput.circ.eval (rootValue f key flags m) = rootValue f key flags m :=
    serializeOutput_eq _
  rw [hserialize] at hholds
  exact .pure ⟨hholds.1, hlen⟩

/-! ### Sessions -/

/-- The piece of the message that an update is given. -/
def piece (data : Slice) : List Slice := [data]

/-- What a session reaches, where its message is not too long. -/
theorem built_of_run (hkey : key.length = 8) {h h' : Blake3} {t u : Vm} {acts : List (Act Slice)}
    (hmake : newInternal key flags s = (.ok h, t))
    (hrun : Run (Step piece (update f)) (h, t) acts (h', u))
    (hsize : messageSize piece acts ≤ 8192 * 2 ^ 54) :
    (∀ v, ∃ n, Built f key flags u v h' n (message piece v acts) ∧ Lazy n (message piece v acts)) ∧
      s.Leads u := by
  have hnew : Vm.Gives (newInternal key flags) s fun h t => ∀ v, Built f key flags t v h 0 [] :=
    Vm.Gives.forall fun v => gives_newInternal hkey
  obtain ⟨hleads, hinit⟩ := hnew.of_eq hmake
  refine hrun.invariant_labels (P := fun acts p => messageSize piece acts ≤ 8192 * 2 ^ 54 →
    (∀ v, ∃ n, Built f key flags p.2 v p.1 n (message piece v acts) ∧
      Lazy n (message piece v acts)) ∧
      s.Leads p.2) (fun _ => ⟨fun v => ⟨0, hinit v, .inl rfl⟩, hleads⟩) ?_ hsize
  rintro acts ⟨h, s'⟩ act ⟨h', t'⟩ ih hstep hsize
  have happend : ∀ v, message piece v (acts ++ [act]) = message piece v acts ++
      message piece v [act] :=
    fun v => message_append v acts [act]
  have hle : ∀ v, (message piece v acts ++ message piece v [act]).length ≤ 8192 * 2 ^ 54 := by
    intro v
    rwa [← happend, length_message]
  have hsize' : messageSize piece acts ≤ 8192 * 2 ^ 54 := by
    have hle := hle fun _ => false
    rw [List.length_append, length_message] at hle
    omega
  obtain ⟨hbuilt, hleads⟩ := ih hsize'
  cases hstep with
  | @call _ _ _ _ data made halloc hok hmade =>
    have hmessage : ∀ v, message piece v [.call data made] = data.read v := fun v => by
      rw [message_call, piece, List.flatMap_singleton]
    simp only [hmessage] at happend hle
    have hupdate : Vm.Gives (h.update f data) s' fun h' t => ∀ v, ∃ n,
        Built f key flags t v h' n (message piece v acts ++ data.read v) ∧
          Lazy n (message piece v acts ++ data.read v) := by
      refine Vm.Gives.forall fun v => ?_
      obtain ⟨n, hs, hlazy⟩ := hbuilt v
      have hdata := Vm.Holds.of_allocated (halloc data (List.mem_singleton.mpr rfl)) v
      exact hs.gives_updateLoop hkey hlazy hdata (Slice.length_read v data).le (hle v)
    obtain ⟨hleads', hbuilt'⟩ := hupdate.of_eq hok
    refine ⟨fun v => ?_, hleads.trans hleads'⟩
    rw [happend]
    exact hbuilt' v
  | other hother =>
    refine ⟨fun v => ?_, hleads.trans hother⟩
    obtain ⟨n, hs, hlazy⟩ := hbuilt v
    rw [happend, message_other, List.append_nil]
    exact ⟨n, hs.of_leads hother, hlazy⟩

/-- The number of chunks of a message that are closed: all of them but the last one. -/
def closedChunks (size : ℕ) : ℕ := (size - 1) / 8192

/-- The values of the perfect subtrees of the first `n` chunks, one for each bit of `n`, the
smallest one first. -/
def subtreeValues (f : BitFn 1024 512) (key : List (BitVec 32)) (flags : BitVec 32) (m : List Bool)
    (n : ℕ) : List (List Bool) :=
  ((List.range 54).filter n.testBit).map fun i =>
    leftTree (parentValue f key flags false) (leafValue f key flags m)
      (n / 2 ^ (i + 1) * 2 ^ (i + 1)) (2 ^ i)

/-- The message is hashed, and more can be added to it. -/
structure Hashes (f : BitFn 1024 512) (key : List (BitVec 32)) (flags : BitVec 32) (s : Vm)
    (acts : List (Act Slice)) (h : Blake3) (t : Vm) : Prop where
  /-- An update succeeds, where the message does not become too long. -/
  update : ∀ data, t.Allocated data → messageSize piece acts + data.size ≤ 8192 * 2 ^ 54 →
    ∃ h' u, h.update f data t = (.ok h', u) ∧ t.Leads u
  /-- The output comes to hold the hash of the whole message. -/
  finalize : ∃ out h' u, h.finalize f t = (.ok (out, h'), u) ∧ s.Leads u ∧
    ∀ v, u.Faithful v → ∀ m, message piece v acts = intoClear m →
      out.read v = intoClear (blake3 f key flags m)
  /-- The chunks before the last one are closed. -/
  counter : h.chunk.counter = closedChunks (messageSize piece acts)
  /-- The stack has room for what it holds. -/
  stack_le : h.cvStack.length ≤ 54
  /-- The stack has the perfect subtree of each bit of the number of closed chunks. -/
  stack : ∀ v, t.Faithful v → h.cvStack.map (Slice.read v) =
    subtreeValues f key flags (message piece v acts) (closedChunks (messageSize piece acts))

/-- What is built has closed all chunks but the last one. -/
theorem Built.closed_eq (hs : Built f key flags s v h n m) (hlazy : Lazy n m) :
    n = closedChunks m.length := by
  have hle := hs.length_le
  unfold closedChunks
  rcases hlazy with rfl | hlt <;> omega

theorem subtreeValues_eq (m : List Bool) (hn : n < 2 ^ 54) : subtreeValues f key flags m n =
    forest (parentValue f key flags false) (leafValue f key flags m) 0 n := by
  rw [forest_eq_map hn]
  rfl

end Blake3

/-- **Blake3** hashes every message of at most `2 ^ 54` chunks, in whatever pieces it comes: the
output is the root of the left-balanced tree of the chunks, for every compression function, every
initial value and all flags. -/
theorem blake3_correct (f : BitFn 1024 512) (key : List (BitVec 32)) (flags : BitVec 32)
    (s t u : Vm) (h h' : Blake3) (acts : List (Act Slice)) (hkey : key.length = 8)
    (hmake : Blake3.newInternal key flags s = (.ok h, t))
    (hrun : Run (Step Blake3.piece (Blake3.update f)) (h, t) acts (h', u))
    (hsize : messageSize Blake3.piece acts ≤ 8192 * 2 ^ 54) :
    Blake3.Hashes f key flags s acts h' u := by
  obtain ⟨hbuilt, hleads⟩ := Blake3.built_of_run hkey hmake hrun hsize
  have hclosed : Blake3.closedChunks (messageSize Blake3.piece acts) < 2 ^ 54 := by
    unfold Blake3.closedChunks
    omega
  have hbuilt' : ∀ v, Blake3.Built f key flags u v h'
      (Blake3.closedChunks (messageSize Blake3.piece acts)) (message Blake3.piece v acts) := by
    intro v
    obtain ⟨n, hs, hlazy⟩ := hbuilt v
    rwa [hs.closed_eq hlazy, length_message] at hs
  refine ⟨fun data halloc hle => ?_, ?_, ?_, ?_, fun v hv => ?_⟩
  · obtain ⟨n, hs, hlazy⟩ := hbuilt fun _ => false
    have hdata := Vm.Holds.of_allocated halloc fun _ => false
    have hle' : (message Blake3.piece (fun _ => false) acts ++ data.read fun _ => false).length ≤
        8192 * 2 ^ 54 := by
      rwa [List.length_append, length_message, Slice.length_read]
    obtain ⟨h'', w, hok, hleads', -⟩ :=
      hs.gives_updateLoop hkey hlazy hdata (Slice.length_read _ data).le hle'
    exact ⟨h'', w, hok, hleads'⟩
  · have hfinal : Vm.Gives (h'.finalize f) u fun p w => ∀ v,
        w.Holds v [p.1] (Blake3.rootValue f key flags (message Blake3.piece v acts)) ∧
          (Blake3.rootValue f key flags (message Blake3.piece v acts)).length = 256 := by
      refine Vm.Gives.forall fun v => ?_
      obtain ⟨n, hs, hlazy⟩ := hbuilt v
      exact hs.gives_finalize hkey hlazy
    obtain ⟨⟨out, h''⟩, w, hok, hleads', hout⟩ := hfinal
    refine ⟨out, h'', w, hok, hleads.trans hleads', fun v hv m hm => ?_⟩
    obtain ⟨hholds, hlen⟩ := hout v
    rw [hm] at hholds hlen
    have hbytes : intoClear (blake3 f key flags m) = Blake3.rootValue f key flags (intoClear m) :=
      intoClear_flatMap_toLeBytes (n := 4) (by decide) ⟨8, hlen⟩
    rw [hbytes]
    exact hholds.read_single hv
  · exact (hbuilt' fun _ => false).chunk.counter
  · rw [(hbuilt' fun _ => false).stack.length_eq]
    exact length_forest_le hclosed 0
  · rw [Blake3.subtreeValues_eq _ hclosed, ← List.forall₂_eq_eq_eq, List.forall₂_map_left_iff]
    exact (hbuilt' v).stack.imp fun _ _ hcv => hcv.1.read_single hv

/-- A message of three chunks is hashed, in two pieces that end in the middle of a block. -/
theorem blake3_correct_pieces : ∃ h t a b made made' h' u, a.size = 9000 ∧ b.size = 12000 ∧
    Blake3.newInternal Blake3.iv 0 {} = (.ok h, t) ∧ h'.chunk.counter = 2 ∧
    Blake3.Hashes ⟨List.take 512, fun _ h => by rw [List.length_take, h]; rfl⟩ Blake3.iv 0 {}
      [.other, .call a made, .other, .call b made'] h' u := by
  let f : BitFn 1024 512 := ⟨List.take 512, fun _ h => by rw [List.length_take, h]; rfl⟩
  have hkey : Blake3.iv.length = 8 := rfl
  have hnew : Vm.Gives (Blake3.newInternal Blake3.iv 0) {} fun h t =>
      Blake3.Built f Blake3.iv 0 t (fun _ => false) h 0 [] := Blake3.gives_newInternal hkey
  obtain ⟨h, t, hmake, -, hs⟩ := hnew
  have hother : t.Leads { t with len := t.len + 9000 } := Vm.Leads.alloc t 9000
  have halloc : Vm.Allocated { t with len := t.len + 9000 } ⟨t.len, 9000⟩ := Nat.le_refl _
  obtain ⟨h₁, u₁, hok, hleads, n, hs, hlazy⟩ := (hs.of_leads hother).gives_updateLoop hkey
    (.inl rfl)
    (Vm.Holds.of_allocated halloc _) (Slice.length_read _ _).le (by simp)
  obtain ⟨made, hmade⟩ := hleads.calls
  have hother' : u₁.Leads { u₁ with len := u₁.len + 12000 } := Vm.Leads.alloc u₁ 12000
  have halloc' : Vm.Allocated { u₁ with len := u₁.len + 12000 } ⟨u₁.len, 12000⟩ := Nat.le_refl _
  obtain ⟨h₂, u₂, hok', hleads', -⟩ := (hs.of_leads hother').gives_updateLoop hkey hlazy
    (Vm.Holds.of_allocated halloc' _) (Slice.length_read _ _).le (by simp)
  obtain ⟨made', hmade'⟩ := hleads'.calls
  have hrun : Run (Step Blake3.piece (Blake3.update f)) (h, t)
      [.other, .call ⟨t.len, 9000⟩ made, .other, .call ⟨u₁.len, 12000⟩ made'] (h₂, u₂) :=
    (((Run.single (.other hother)).snoc
      (.call (fun _ hmem => List.mem_singleton.mp hmem ▸ halloc) hok hmade.symm)).snoc
        (.other hother')).snoc
      (.call (fun _ hmem => List.mem_singleton.mp hmem ▸ halloc') hok' hmade'.symm)
  have hhashes := blake3_correct f Blake3.iv 0 {} t u₂ h h₂ _ hkey hmake hrun
    (by simp [messageSize, Act.pieces, Blake3.piece])
  have hcounter : h₂.chunk.counter = 2 := by
    rw [hhashes.counter]
    simp [messageSize, Act.pieces, Blake3.piece, Blake3.closedChunks]
  exact ⟨h, t, _, _, made, made', h₂, u₂, rfl, rfl, hmake, hcounter, hhashes⟩

end Mpz.Hasher
