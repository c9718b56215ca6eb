import Mpz.Hash.Block
import Mpz.Hash.Session
import Mathlib.Data.List.DropRight

/-!
# SHA-256

The hasher keeps blocks until it is told to compress them, and then compresses those that are full.
The compression function is a parameter. A hasher can start from the state of another one, with the
number of blocks that were compressed into it.

A hasher that is initialized with the initial value allocates memory for it, and does not keep it.
So it has no state to report before it has compressed.

## Main definitions

* `Hasher.Sha256` — the hasher
* `Hasher.sha256` — the hash of a message
* `Hasher.Sha256.Start`, `Hasher.Sha256.Request` — how a session begins, and the calls in it
* `Hasher.Sha256.Hashes`, `Hasher.Sha256.Reports` — what the digest and the state are to be

## Main results

* `Hasher.Sha256.Chained` — what a hasher has compressed and what it holds, with its step lemmas
* `Hasher.sha256_correct` — every message is hashed correctly, and when the state is reported
-/

namespace Mpz.Hasher

/-! ### The hasher -/

/-- SHA-256 hasher. -/
structure Sha256 where
  /-- The state, of 8 words of 32 bits. -/
  state : Option Slice
  /-- The blocks that were not compressed. -/
  blocks : List Block
  /-- The number of blocks that were compressed. -/
  processed : ℕ

/-- `usize::next_multiple_of` -/
def nextMultipleOf (a b : ℕ) : ℕ := (a + b - 1) / b * b

theorem length_flatMap_reverse_blocks (bits : List Bool) :
    ((blocks 32 bits).flatMap fun word => (blocks 8 word).reverse.flatten).length =
      bits.length := by
  have hword : ∀ word : List Bool, (blocks 8 word).reverse.flatten.length = word.length := by
    intro word
    rw [List.length_flatten, List.map_reverse, List.sum_reverse, ← List.length_flatten,
      flatten_blocks (by decide)]
  rw [List.length_flatMap]
  simp only [hword]
  rw [← List.length_flatten, flatten_blocks (by decide)]

/-- Serializes the state as bytes in big-endian order. -/
def serializeState : BitFn 256 256 :=
  ⟨fun bits => (blocks 32 bits).flatMap fun word => (blocks 8 word).reverse.flatten,
    fun bits h => (length_flatMap_reverse_blocks bits).trans h⟩

namespace Sha256

/-- The default initialization vector. -/
def iv : List (BitVec 32) :=
  [0x6a09e667, 0xbb67ae85, 0x3c6ef372, 0xa54ff53a, 0x510e527f, 0x9b05688c, 0x1f83d9ab, 0x5be0cd19]

/-- Block size in bits. -/
def blockSize : ℕ := 512

/-- Creates a new SHA-256 hasher. -/
def new : Sha256 := ⟨none, [], 0⟩

/-- The state, which is allocated if there is none. -/
def getOrInitState (self : Sha256) : Method Vm VmError Slice :=
  Hasher.getOrInitState (8 * 32) (intoClear iv) self.state

/-- Creates a new SHA-256 hasher initialized with the IV. -/
def newWithInit : Method Vm VmError Sha256 := do
  let hasher := new
  let _ ← hasher.getOrInitState
  return hasher

/-- Creates a new SHA-256 hasher with the provided state, into which `processed` blocks were
compressed. -/
def newFromState (state : Slice) (processed : ℕ) : Sha256 := ⟨some state, [], processed⟩

/-- The hash state and the number of blocks compressed so far: `Sha256::state`. -/
def reported (self : Sha256) : Option (Slice × ℕ) := self.state.map fun state =>
  (state, self.processed)

/-- Updates the hash with the provided data. -/
def updateSlice (self : Sha256) (data : Slice) : Sha256 :=
  if data.size = 0 then self else { self with blocks := updateBlocks blockSize self.blocks data }

/-- `for block in self.blocks.drain(..pos) { state = vm.call(call)? }` -/
def compressBlocks (f : BitFn 768 256) : Slice → List Block → Method Vm VmError Slice
  | state, [] => return state
  | state, block :: blocks => do
    let state ← Vm.call f.circ (block.data ++ [state])
    compressBlocks f state blocks

/-- Compresses the data in the internal buffer. -/
def compress (f : BitFn 768 256) (self : Sha256) : Method Vm VmError Sha256 := do
  -- Find the position of the last full block.
  let pos := self.blocks.findIdx (·.len != blockSize)
  let state ← self.getOrInitState
  let state ← compressBlocks f state (self.blocks.take pos)
  return ⟨some state, self.blocks.drop pos, self.processed + pos⟩

/-- The padding: the MSB of the first byte is one, and the last 64 bits are the length of the
original message. -/
def paddingData (len paddingLen : ℕ) : List Bool :=
  ((List.replicate paddingLen false).set 7 true).take (paddingLen - 64) ++
    intoClear (toBeBytes (BitVec.ofNat 64 len))

/-- Finalizes the hash. -/
def finalize (f : BitFn 768 256) (self : Sha256) : Method Vm VmError Slice := do
  let len := self.processed * blockSize + (self.blocks.map Block.len).sum
  let totalLen := nextMultipleOf (len + 1 + 64) blockSize
  let paddingLen := totalLen - len
  let padding ← Vm.allocPublic paddingLen (paddingData len paddingLen)
  let hasher ← (self.updateSlice padding).compress f
  let state ← hasher.getOrInitState
  Vm.call serializeState.circ [state]

end Sha256

/-! ### The hash -/

/-- The padding behind a message of `n` bytes: a one bit, as few zeros as make the blocks full, and
the length of the message in bits. -/
def sha256Padding (n : ℕ) : List (BitVec 8) :=
  [0x80] ++ List.replicate ((119 - n % 64) % 64) 0 ++ toBeBytes (BitVec.ofNat 64 (8 * n))

/-- The state after some blocks. -/
def chain (f : BitFn 768 256) (state : List Bool) (parts : List (List Bool)) : List Bool :=
  parts.foldl (fun state block => f (block ++ state)) state

/-- The chaining value after a message of whole blocks, from the initial value on. -/
def chainingValue (f : BitFn 768 256) (m : List (BitVec 8)) : List Bool :=
  chain f (intoClear [0x6a09e667#32, 0xbb67ae85#32, 0x3c6ef372#32, 0xa54ff53a#32, 0x510e527f#32,
    0x9b05688c#32, 0x1f83d9ab#32, 0x5be0cd19#32]) (blocks 512 (intoClear m))

theorem chainingValue_nil (f : BitFn 768 256) : chainingValue f [] = intoClear Sha256.iv := by
  have hnil : intoClear ([] : List (BitVec 8)) = [] := rfl
  rw [chainingValue, hnil, blocks_nil]
  rfl

/-- The hash of a message: the words of the last chaining value, in big-endian order. -/
def sha256 (f : BitFn 768 256) (m : List (BitVec 8)) : List (BitVec 8) :=
  (fromClear 32 (chainingValue f (m ++ sha256Padding m.length))).flatMap toBeBytes

namespace Sha256

variable {f : BitFn 768 256} {s t : Vm} {v : ℕ → Bool} {h h' : Sha256} {c l bits : List Bool}

/-! ### What is compressed -/

theorem length_chain (hc : c.length = 256) {parts : List (List Bool)}
    (hparts : ∀ part ∈ parts, part.length = 512) : (chain f c parts).length = 256 := by
  induction parts generalizing c with
  | nil => exact hc
  | cons part parts ih =>
    refine ih (f.2 _ ?_) fun part hmem => hparts part (List.mem_cons_of_mem _ hmem)
    rw [List.length_append, hparts part List.mem_cons_self, hc]

theorem chain_append (c : List Bool) (parts parts' : List (List Bool)) :
    chain f c (parts ++ parts') = chain f (chain f c parts) parts' := List.foldl_append

theorem length_intoClear_iv : (intoClear iv).length = 8 * 32 := length_intoClear iv

theorem gives_getOrInitState (hs : s.HoldsState v (intoClear iv) h.state c) :
    Vm.Gives h.getOrInitState s fun state t => t.Holds v [state] c :=
  hs.gives_getOrInitState length_intoClear_iv

/-- **The blocks of a list**, one after the other. -/
theorem gives_compressBlocks {state : Slice} {bs : List Block} {parts : List (List Bool)}
    (hc : c.length = 256) (hs : s.Holds v [state] c) (hbs : s.HoldsBlocks v bs parts)
    (hparts : ∀ part ∈ parts, part.length = 512) :
    Vm.Gives (compressBlocks f state bs) s fun state t => t.Holds v [state] (chain f c parts) := by
  induction bs generalizing s state c parts with
  | nil =>
    cases hbs
    exact .pure hs
  | cons block bs ih =>
    obtain ⟨part, parts, hblock, hrest, rfl⟩ := List.forall₂_cons_left_iff.mp hbs
    have hlen : (part ++ c).length = f.circ.inputs := by
      rw [List.length_append, hparts part List.mem_cons_self, hc]
      rfl
    refine (Vm.gives_call (hblock.append hs) hlen).bind fun state t hleads hstate => ?_
    show Vm.Gives _ t fun state t => t.Holds v [state] (chain f (f (part ++ c)) parts)
    exact ih (f.2 _ hlen) hstate.1 (Vm.HoldsBlocks.of_leads hleads hrest)
      fun part hmem => hparts part (List.mem_cons_of_mem _ hmem)

/-- The state of the hasher has a value, and its blocks have a list. -/
structure Chained (vm : Vm) (v : ℕ → Bool) (h : Sha256) (c l : List Bool) : Prop where
  length : c.length = 256
  state : vm.HoldsState v (intoClear iv) h.state c
  blocks : vm.HoldsBlocks v h.blocks (Mpz.blocks 512 l)

theorem Chained.of_leads (hleads : s.Leads t) (hs : Chained s v h c l) : Chained t v h c l :=
  { hs with state := hs.state.of_leads hleads, blocks := hs.blocks.of_leads hleads }

theorem Chained.update {data : Slice} (hs : Chained s v h c l) (hdata : s.Holds v [data] bits) :
    Chained s v (h.updateSlice data) c (l ++ bits) := by
  have hsize := hdata.size
  unfold updateSlice
  split
  case isTrue hzero =>
    rw [List.length_eq_zero_iff.mp (hsize.symm.trans hzero), List.append_nil]
    exact hs
  case isFalse hzero => exact { hs with blocks := hs.blocks.update (by decide) hdata }

/-- **Compression**, of the part of the list that fills blocks. -/
theorem Chained.compress (hs : Chained s v h c l) :
    Vm.Gives (h.compress f) s fun h' t =>
      Chained t v h' (chain f c (Mpz.blocks 512 (l.take (512 * (l.length / 512)))))
        (l.drop (512 * (l.length / 512))) ∧
      h'.processed = h.processed + l.length / 512 ∧ h'.state.isSome := by
  have hpos : h.blocks.findIdx (·.len != blockSize) = l.length / 512 := by
    rw [hs.blocks.findIdx blockSize]
    exact findIdx_blocks (by decide) l
  have htake := List.forall₂_take (l.length / 512) hs.blocks
  have hdrop := List.forall₂_drop (l.length / 512) hs.blocks
  rw [take_blocks (by decide)] at htake
  rw [drop_blocks (by decide)] at hdrop
  have hwhole : ∀ part ∈ Mpz.blocks 512 (l.take (512 * (l.length / 512))), part.length = 512 := by
    refine length_of_mem_blocks ⟨l.length / 512, ?_⟩
    rw [List.length_take]
    omega
  unfold Sha256.compress
  simp only [hpos]
  refine (gives_getOrInitState hs.state).bind fun state t hleads hstate => ?_
  refine (gives_compressBlocks hs.length hstate (Vm.HoldsBlocks.of_leads hleads htake) hwhole).bind
    fun state t hleads' hstate => ?_
  exact .pure ⟨⟨length_chain hs.length hwhole, hstate,
    Vm.HoldsBlocks.of_leads (hleads.trans hleads') hdrop⟩, rfl, rfl⟩

/-! ### The padding -/

theorem length_paddingData {len paddingLen : ℕ} (h : 64 ≤ paddingLen) :
    (paddingData len paddingLen).length = paddingLen := by
  rw [paddingData, List.length_append, List.length_take, List.length_set, List.length_replicate,
    length_intoClear, length_toBeBytes]
  omega

/-- The padding of the hasher, of a length that is one of bytes. -/
theorem paddingData_eq (n : ℕ) :
    paddingData (8 * n) (nextMultipleOf (8 * n + 1 + 64) blockSize - 8 * n) =
      intoClear (sha256Padding n) := by
  have hlen : nextMultipleOf (8 * n + 1 + 64) blockSize - 8 * n =
      8 + 8 * ((119 - n % 64) % 64) + 64 := by
    unfold nextMultipleOf blockSize
    omega
  have hone : intoClear [(0x80 : BitVec 8)] = (List.replicate 8 false).set 7 true := by decide
  rw [hlen, paddingData, Nat.add_sub_cancel, List.take_set, List.take_replicate,
    Nat.min_eq_left (Nat.le_add_right _ _), List.replicate_add, List.set_append_left _ _ (by simp),
    ← hone, ← intoClear_replicate_zero, ← intoClear_append, ← intoClear_append, sha256Padding]

/-- **The end of a hash**, of what is compressed and of the padding of the hasher. -/
theorem Chained.finalize (hs : Chained s v h c l) {len : ℕ}
    (hlen : h.processed * 512 + l.length = len) :
    Vm.Gives (h.finalize f) s fun out t => t.Holds v [out]
      (serializeState (chain f c (Mpz.blocks 512 (l ++ paddingData len
        (nextMultipleOf (len + 1 + 64) blockSize - len))))) := by
  have hsum : h.processed * blockSize + (h.blocks.map Block.len).sum = len := by
    rw [hs.blocks.sum_len, flatten_blocks (by decide)]
    exact hlen
  unfold Sha256.finalize
  simp only [hsum]
  generalize hpadding : nextMultipleOf (len + 1 + 64) blockSize - len = paddingLen
  unfold nextMultipleOf blockSize at hpadding
  have hle : 64 ≤ paddingLen := by omega
  refine (Vm.gives_allocPublic (length_paddingData hle) s).bind fun padding t hleads hpad => ?_
  refine ((hs.of_leads hleads).update (hpad.1 v)).compress.bind fun h' t _ hh' => ?_
  obtain ⟨hs', -, -⟩ := hh'
  -- The padding fills the last block.
  have hwhole : 512 * ((l ++ paddingData len paddingLen).length / 512) =
      (l ++ paddingData len paddingLen).length := by
    rw [List.length_append, length_paddingData hle]
    omega
  rw [hwhole, List.take_length] at hs'
  refine (gives_getOrInitState hs'.state).bind fun state t _ hstate => ?_
  exact (Vm.gives_call hstate hs'.length).mono fun out t _ hout => hout.1

/-! ### Sessions -/

/-- The calls in a session. -/
inductive Request where
  /-- The hash is updated with a piece of the message. -/
  | update (data : Slice)
  /-- What is buffered is compressed. -/
  | compress

/-- The piece of the message. -/
def Request.data : Request → List Slice
  | .update data => [data]
  | .compress => []

/-- The hasher is called. -/
def Request.run (f : BitFn 768 256) (h : Sha256) : Request → Method Vm VmError Sha256
  | .update data => return h.updateSlice data
  | .compress => h.compress f

/-- How a hasher is made. -/
inductive Start where
  /-- `Sha256::new` -/
  | new
  /-- `Sha256::new_with_init` -/
  | newWithInit
  /-- `Sha256::new_from_state` -/
  | newFromState (state : Slice) (processed : ℕ)

namespace Start

/-- The hasher is made. -/
def make : Start → Method Vm VmError Sha256
  | new => return Sha256.new
  | newWithInit => Sha256.newWithInit
  | newFromState state processed => return Sha256.newFromState state processed

/-- A state that is given is one of 256 bits that are allocated. -/
def Valid (s : Vm) : Start → Prop
  | newFromState state _ => s.Allocated state ∧ state.size = 256
  | _ => True

/-- The number of blocks that were compressed before. -/
def processed : Start → ℕ
  | newFromState _ processed => processed
  | _ => 0

/-- The chaining value in the beginning. -/
def value (v : ℕ → Bool) : Start → List Bool
  | newFromState state _ => state.read v
  | _ => intoClear iv

/-- A state is given. -/
def HasState : Start → Prop
  | newFromState _ _ => True
  | _ => False

/-- The hasher goes on where the message `p` ends. A state that is given is the chaining value of
`p`, of as many blocks as were compressed. -/
def Continues (f : BitFn 768 256) (v : ℕ → Bool) (p : List (BitVec 8)) : Start → Prop
  | newFromState state processed => p.length = 64 * processed ∧ state.read v = chainingValue f p
  | _ => p = []

/-- The chaining value in the beginning is that of `p`. -/
theorem Continues.value_eq {f : BitFn 768 256} {v : ℕ → Bool} {p : List (BitVec 8)} {start : Start}
    (h : start.Continues f v p) : p.length = 64 * start.processed ∧ start.value v =
      chainingValue f p := by
  cases start with
  | newFromState state processed => exact h
  | new =>
    obtain rfl : p = [] := h
    exact ⟨rfl, (chainingValue_nil f).symm⟩
  | newWithInit =>
    obtain rfl : p = [] := h
    exact ⟨rfl, (chainingValue_nil f).symm⟩

end Start

/-- A call of `compress`. -/
def isCompress : Act Request → Bool
  | .call .compress _ => true
  | _ => false

/-- The number of blocks that are full when `compress` is called for the last time. -/
def compressed (acts : List (Act Request)) : ℕ :=
  messageSize Request.data (acts.rdropWhile (!isCompress ·)) / 512

theorem compressed_of_not_isCompress (acts : List (Act Request)) {act : Act Request}
    (h : isCompress act = false) : compressed (acts ++ [act]) = compressed acts := by
  rw [compressed, List.rdropWhile_concat_pos _ _ _ (by rw [h]; rfl), ← compressed]

theorem compressed_of_isCompress (acts : List (Act Request)) {act : Act Request}
    (h : isCompress act = true) :
    compressed (acts ++ [act]) = messageSize Request.data (acts ++ [act]) / 512 := by
  rw [compressed, List.rdropWhile_concat_neg _ _ _ (by rw [h]; decide)]

/-- What is compressed and what is held, behind the steps of a session. -/
structure Reached (f : BitFn 768 256) (start : Start) (acts : List (Act Request)) (h : Sha256)
    (vm : Vm) : Prop where
  processed : h.processed = start.processed + compressed acts
  le : 512 * compressed acts ≤ messageSize Request.data acts
  isSome : h.state.isSome ↔ start.HasState ∨ ∃ act ∈ acts, isCompress act
  chained : ∀ v, Chained vm v h
    (chain f (start.value v)
      (Mpz.blocks 512 ((message Request.data v acts).take (512 * compressed acts))))
    ((message Request.data v acts).drop (512 * compressed acts))

variable {start : Start} {acts : List (Act Request)} {made : List (Call × Slice)}

/-- A hasher that holds nothing. -/
theorem Reached.fresh (hprocessed : h.processed = start.processed) (hblocks : h.blocks = [])
    (hsome : h.state.isSome ↔ start.HasState)
    (hstate : ∀ v, (start.value v).length = 256 ∧
      t.HoldsState v (intoClear iv) h.state (start.value v)) : Reached f start [] h t := by
  refine ⟨hprocessed, le_rfl, ?_, fun v => ?_⟩
  · simpa using hsome
  · have hmessage : message Request.data v [] = [] := rfl
    rw [hmessage, List.take_nil, List.drop_nil, blocks_nil]
    refine ⟨(hstate v).1, (hstate v).2, ?_⟩
    rw [hblocks, blocks_nil]
    exact .nil

/-- A hasher is made. -/
theorem Start.gives_make (hvalid : start.Valid s) :
    Vm.Gives start.make s fun h t => Reached f start [] h t := by
  cases start with
  | new =>
    exact .pure (.fresh rfl rfl (by simp [Sha256.new, HasState])
      fun v => ⟨length_intoClear_iv, rfl⟩)
  | newWithInit =>
    -- The state that is allocated is dropped.
    have hinit : s.HoldsState (fun _ => false) (intoClear iv) Sha256.new.state (intoClear iv) := rfl
    refine (gives_getOrInitState hinit).bind fun _ t _ _ => ?_
    exact .pure (.fresh rfl rfl (by simp [Sha256.new, HasState])
      fun v => ⟨length_intoClear_iv, rfl⟩)
  | newFromState state processed =>
    obtain ⟨halloc, hsize⟩ := hvalid
    refine .pure (.fresh rfl rfl (by simp [Sha256.newFromState, HasState]) fun v => ⟨?_, ?_⟩)
    · exact (Slice.length_read v state).trans hsize
    · exact Vm.Holds.of_allocated halloc v

theorem Reached.of_leads (hleads : s.Leads t) (hs : Reached f start acts h s) :
    Reached f start acts h t := { hs with chained := fun v => (hs.chained v).of_leads hleads }

theorem Reached.other (hs : Reached f start acts h s) : Reached f start (acts ++ [.other]) h s := by
  have hcompressed : compressed (acts ++ [.other]) = compressed acts :=
    compressed_of_not_isCompress acts rfl
  have hmessage : ∀ v, message Request.data v (acts ++ [.other]) = message Request.data v acts := by
    intro v
    rw [message_append, message_other, List.append_nil]
  refine ⟨hcompressed ▸ hs.processed, ?_, ?_, fun v => ?_⟩
  · rw [hcompressed, ← length_message fun _ => false, hmessage, length_message]
    exact hs.le
  · rw [hs.isSome]
    simp [isCompress]
  · rw [hcompressed, hmessage]
    exact hs.chained v

/-- **An update** leaves what is compressed. -/
theorem Reached.update {data : Slice} (hs : Reached f start acts h s) (hdata : s.Allocated data) :
    Reached f start (acts ++ [.call (.update data) made]) (h.updateSlice data) s := by
  have hcompressed : compressed (acts ++ [.call (.update data) made]) = compressed acts :=
    compressed_of_not_isCompress acts rfl
  have hmessage : ∀ v, message Request.data v (acts ++ [.call (.update data) made]) =
      message Request.data v acts ++ data.read v := by
    intro v
    rw [message_append, message_call, Request.data, List.flatMap_singleton]
  have hle : ∀ v, 512 * compressed acts ≤ (message Request.data v acts).length := fun v => by
    rw [length_message]
    exact hs.le
  have hkeep : (h.updateSlice data).state = h.state ∧
      (h.updateSlice data).processed = h.processed := by
    unfold updateSlice
    split <;> exact ⟨rfl, rfl⟩
  refine ⟨?_, ?_, ?_, fun v => ?_⟩
  · rw [hkeep.2, hcompressed, hs.processed]
  · rw [hcompressed, ← length_message fun _ => false, hmessage, List.length_append]
    exact Nat.le_add_right_of_le (hle _)
  · rw [hkeep.1, hs.isSome]
    simp [isCompress]
  · rw [hcompressed, hmessage, List.take_append_of_le_length (hle v),
      List.drop_append_of_le_length (hle v)]
    exact (hs.chained v).update (.of_allocated hdata v)

/-- **A call of `compress`** compresses all blocks that are full. -/
theorem Reached.compress (hs : Reached f start acts h s) :
    Vm.Gives (h.compress f) s fun h' t =>
      ∀ made, Reached f start (acts ++ [.call .compress made]) h' t := by
  have hmessage : ∀ v made, message Request.data v (acts ++ [.call .compress made]) =
      message Request.data v acts := by
    intro v made
    rw [message_append, message_call]
    exact List.append_nil _
  have hsize : ∀ made, messageSize Request.data (acts ++ [.call .compress made]) =
      messageSize Request.data acts := by
    intro made
    rw [← length_message fun _ => false, hmessage, length_message]
  have hcompressed : ∀ made, compressed (acts ++ [.call .compress made]) =
      messageSize Request.data acts / 512 := fun made => by
    rw [compressed_of_isCompress acts rfl, hsize]
  have hle := hs.le
  refine (Vm.Gives.forall fun v => (hs.chained v).compress).mono fun h' t _ hs' made => ?_
  have hheld : ∀ v, ((message Request.data v acts).drop (512 * compressed acts)).length / 512 +
      compressed acts = messageSize Request.data acts / 512 := by
    intro v
    rw [List.length_drop, length_message]
    omega
  obtain ⟨-, hprocessed, hsome⟩ := hs' fun _ => false
  refine ⟨?_, ?_, ?_, fun v => ?_⟩
  · rw [hprocessed, hcompressed, hs.processed, ← hheld fun _ => false]
    omega
  · rw [hcompressed, hsize]
    omega
  · simp [hsome, isCompress]
  · obtain ⟨hs', -, -⟩ := hs' v
    rw [hmessage, hcompressed, ← hheld v]
    generalize ((message Request.data v acts).drop (512 * compressed acts)).length / 512 =
      j at hs' ⊢
    have hdvd : 512 ∣ ((message Request.data v acts).take (512 * compressed acts)).length := by
      rw [List.length_take, length_message, Nat.min_eq_left hle]
      exact Nat.dvd_mul_right _ _
    rwa [Nat.add_comm, Nat.mul_add, List.take_add, blocks_append_of_dvd (by decide) hdvd,
      chain_append, ← List.drop_drop]

/-- **What a session reaches.** -/
theorem reached_of_run (hvalid : start.Valid s) (hmake : start.make s = (.ok h, t)) {h' : Sha256}
    {u : Vm} (hrun : Run (Step Request.data (Request.run f)) (h, t) acts (h', u)) :
    Reached f start acts h' u ∧ s.Leads u := by
  obtain ⟨hleads, hinit⟩ := (start.gives_make (f := f) hvalid).of_eq hmake
  obtain ⟨hreached, hleads'⟩ := session_invariant (P := fun acts h vm => Reached f start acts h vm)
    hrun hinit (fun acts h s request hs halloc => by
      cases request with
      | update data =>
        exact .pure fun made _ => hs.update (halloc data (List.mem_singleton.mpr rfl))
      | compress => exact hs.compress.mono fun h' t _ hs' made _ => hs' made)
    fun acts h s t hs hleads => (hs.of_leads hleads).other
  exact ⟨hreached, hleads.trans hleads'⟩

theorem chainingValue_append {p : List (BitVec 8)} {n : ℕ} (hp : p.length = 64 * n)
    (m : List (BitVec 8)) : chainingValue f (p ++ m) =
      chain f (chainingValue f p) (Mpz.blocks 512 (intoClear m)) := by
  have hdvd : 512 ∣ (intoClear p).length := ⟨n, by rw [length_intoClear, hp]; omega⟩
  rw [chainingValue, intoClear_append, blocks_append_of_dvd (by decide) hdvd, chain_append,
    ← chainingValue]

/-- The chaining value of a session that goes on behind `p`. -/
theorem Start.Continues.chain_eq {p m : List (BitVec 8)} (hp : start.Continues f v p)
    (hm : message Request.data v acts = intoClear m) (k : ℕ) :
    chain f (start.value v) (Mpz.blocks 512 ((message Request.data v acts).take (512 * k))) =
      chainingValue f ((p ++ m).take (64 * (start.processed + k))) := by
  have hp := hp.value_eq
  have htake : (p ++ m).take (64 * (start.processed + k)) = p ++ m.take (64 * k) := by
    rw [Nat.mul_add, ← hp.1, List.take_length_add_append]
  have hbits : (512 : ℕ) * k = 8 * (64 * k) := by omega
  rw [htake, chainingValue_append hp.1, hp.2, hm, hbits, intoClear_take]

theorem serializeState_eq (hc : c.length = 256) :
    serializeState c = intoClear ((fromClear 32 c).flatMap toBeBytes) :=
  (intoClear_flatMap_toBeBytes (n := 4) ⟨8, hc⟩).symm

/-- The digest of a session that goes on behind `p`. -/
theorem Reached.digest_eq (hs : Reached f start acts h s) {p m : List (BitVec 8)}
    (hp : start.Continues f v p) (hm : message Request.data v acts = intoClear m) :
    serializeState (chain f
      (chain f (start.value v)
        (Mpz.blocks 512 ((message Request.data v acts).take (512 * compressed acts))))
      (Mpz.blocks 512 ((message Request.data v acts).drop (512 * compressed acts) ++
        intoClear (sha256Padding (p ++ m).length)))) = intoClear (sha256 f (p ++ m)) := by
  have hp := hp.value_eq
  have hdvd : 512 ∣ ((message Request.data v acts).take (512 * compressed acts)).length := by
    rw [List.length_take, length_message, Nat.min_eq_left hs.le]
    exact Nat.dvd_mul_right _ _
  have hchain : chain f
      (chain f (start.value v)
        (Mpz.blocks 512 ((message Request.data v acts).take (512 * compressed acts))))
      (Mpz.blocks 512 ((message Request.data v acts).drop (512 * compressed acts) ++
        intoClear (sha256Padding (p ++ m).length))) =
      chainingValue f (p ++ m ++ sha256Padding (p ++ m).length) := by
    rw [← chain_append, ← blocks_append_of_dvd (by decide) hdvd, ← List.append_assoc,
      List.take_append_drop, hm, ← intoClear_append, hp.2, ← chainingValue_append hp.1,
      List.append_assoc]
  have hlen : (chainingValue f (p ++ m ++ sha256Padding (p ++ m).length)).length = 256 := by
    refine length_chain length_intoClear_iv (length_of_mem_blocks ?_)
    rw [length_intoClear, List.length_append, sha256Padding]
    simp only [List.length_append, List.length_replicate, length_toBeBytes, List.length_singleton]
    omega
  rw [hchain, serializeState_eq hlen, sha256]

/-! ### What the hasher is for -/

/-- The message is hashed, whatever comes after it. -/
structure Hashes (f : BitFn 768 256) (start : Start) (s : Vm) (acts : List (Act Request))
    (h : Sha256) (t : Vm) : Prop where
  /-- What is buffered can be compressed. -/
  compress : ∃ h' u, h.compress f t = (.ok h', u) ∧ t.Leads u
  /-- The output comes to hold the hash of the whole message. -/
  finalize : ∃ out u, h.finalize f t = (.ok out, u) ∧ s.Leads u ∧
    ∀ v, u.Faithful v → ∀ p, start.Continues f v p →
      ∀ m, message Request.data v acts = intoClear m → out.read v = intoClear (sha256 f (p ++ m))

/-- The state is reported, and it is the chaining value of the blocks compressed so far. -/
def Reports (f : BitFn 768 256) (start : Start) (acts : List (Act Request)) (h : Sha256) (t : Vm) :
    Prop :=
  ∃ state n, h.reported = some (state, n) ∧ n = start.processed + compressed acts ∧
    ∀ v, t.Faithful v → ∀ p, start.Continues f v p →
      ∀ m, message Request.data v acts = intoClear m →
        64 * n ≤ (p ++ m).length ∧ state.read v = chainingValue f ((p ++ m).take (64 * n))

end Sha256

/-- **SHA-256** hashes every message, from wherever it starts and whenever it compresses. It reports
its state where it was given one or has compressed. -/
theorem sha256_correct (f : BitFn 768 256) (start : Sha256.Start) (s t u : Vm) (h h' : Sha256)
    (acts : List (Act Sha256.Request)) (hvalid : start.Valid s)
    (hmake : start.make s = (.ok h, t))
    (hrun : Run (Step Sha256.Request.data (Sha256.Request.run f)) (h, t) acts (h', u)) :
    Sha256.Hashes f start s acts h' u ∧
      (Sha256.Reports f start acts h' u ↔
        start.HasState ∨ ∃ act ∈ acts, Sha256.isCompress act) := by
  obtain ⟨hreached, hleads⟩ := Sha256.reached_of_run hvalid hmake hrun
  refine ⟨⟨?_, ?_⟩, ?_⟩
  · obtain ⟨h'', u', hok, hleads', -⟩ := hreached.compress
    exact ⟨h'', u', hok, hleads'⟩
  · obtain ⟨out, u', hok, hleads', hout⟩ :=
      Vm.Gives.forall fun v => (hreached.chained v).finalize (f := f) rfl
    refine ⟨out, u', hok, hleads.trans hleads', fun v hv p hp m hm => ?_⟩
    have hlen : h'.processed * 512 + ((message Sha256.Request.data v acts).drop
        (512 * Sha256.compressed acts)).length = 8 * (p ++ m).length := by
      have hsize := congrArg List.length hm
      have hle := hreached.le
      rw [length_message, length_intoClear] at hsize
      rw [List.length_drop, length_message, hreached.processed, List.length_append, hp.value_eq.1]
      omega
    have hdigest := (hout v).read_single hv
    rw [hlen, Sha256.paddingData_eq, hreached.digest_eq hp hm] at hdigest
    exact hdigest
  · rw [← hreached.isSome]
    refine ⟨fun ⟨state, n, hreported, _⟩ => ?_, fun hsome => ?_⟩
    · exact Option.isSome_map.symm.trans (Option.isSome_iff_exists.mpr ⟨_, hreported⟩)
    · obtain ⟨state, hstate⟩ := Option.isSome_iff_exists.mp hsome
      refine ⟨state, h'.processed, ?_, hreached.processed, fun v hv p hp m hm => ⟨?_, ?_⟩⟩
      · rw [Sha256.reported, hstate]
        rfl
      · have hsize := congrArg List.length hm
        have hle := hreached.le
        rw [length_message, length_intoClear] at hsize
        rw [hreached.processed, List.length_append, hp.value_eq.1]
        omega
      · have hholds := (hreached.chained v).state
        rw [hstate, hp.chain_eq hm, ← hreached.processed] at hholds
        exact Vm.Holds.read_single hholds hv

/-- A hasher that goes on behind one block hashes two pieces, and compresses in between. -/
theorem sha256_correct_from_state : ∃ made piece h' u, piece.size = 600 ∧
    Sha256.Hashes ⟨List.take 256, fun _ h => by rw [List.length_take, h]; rfl⟩
      (.newFromState ⟨0, 256⟩ 1) { len := 256 }
      [.other, .call (.update ⟨256, 1000⟩) [], .call .compress made, .other,
        .call (.update piece) []]
      h' u ∧
    Sha256.Reports ⟨List.take 256, fun _ h => by rw [List.length_take, h]; rfl⟩
      (.newFromState ⟨0, 256⟩ 1)
      [.other, .call (.update ⟨256, 1000⟩) [], .call .compress made, .other,
        .call (.update piece) []]
      h' u := by
  let f : BitFn 768 256 := ⟨List.take 256, fun _ h => by rw [List.length_take, h]; rfl⟩
  let start : Sha256.Start := .newFromState ⟨0, 256⟩ 1
  let s : Vm := { len := 256 }
  have hvalid : start.Valid s := ⟨Nat.le_refl 256, rfl⟩
  have hother : s.Leads { s with len := 1256 } := Vm.Leads.alloc s 1000
  have hupdate : Run (Step Sha256.Request.data (Sha256.Request.run f))
      (Sha256.newFromState ⟨0, 256⟩ 1, s) [.other, .call (.update ⟨256, 1000⟩) []] _ :=
    (Run.single (.other hother)).snoc
      (.call (fun _ hmem => List.mem_singleton.mp hmem ▸ Nat.le_refl 1256) rfl rfl)
  obtain ⟨hreached, -⟩ := Sha256.reached_of_run hvalid rfl hupdate
  obtain ⟨h₁, u₁, hok, hleads, -⟩ := hreached.compress
  obtain ⟨made, hmade⟩ := hleads.calls
  have hother' : u₁.Leads { u₁ with len := u₁.len + 600 } := Vm.Leads.alloc u₁ 600
  have hcompress : Step Sha256.Request.data (Sha256.Request.run f)
      ((Sha256.newFromState ⟨0, 256⟩ 1).updateSlice ⟨256, 1000⟩, { s with len := 1256 })
      (.call .compress made) (h₁, u₁) :=
    .call (fun _ hmem => absurd hmem List.not_mem_nil) hok hmade.symm
  have hrun : Run (Step Sha256.Request.data (Sha256.Request.run f))
      (Sha256.newFromState ⟨0, 256⟩ 1, s) _ _ :=
    ((hupdate.snoc hcompress).snoc (.other hother')).snoc
      (.call (i := .update ⟨u₁.len, 600⟩)
        (fun _ hmem => List.mem_singleton.mp hmem ▸ Nat.le_refl _) rfl (List.append_nil _).symm)
  obtain ⟨hhashes, hreports⟩ := sha256_correct f start s s _ _ _ _ hvalid rfl hrun
  exact ⟨made, _, _, _, rfl, hhashes, hreports.mpr (.inl trivial)⟩

/-- A hasher that is initialized with the IV. It reports no state. -/
theorem no_state_with_init : ∃ h t, Sha256.Start.newWithInit.make ({} : Vm) = (.ok h, t) ∧
    h.reported = none ∧
    ¬ Sha256.Reports ⟨fun _ => List.replicate 256 false, fun _ _ => List.length_replicate⟩
      .newWithInit [] h t := by
  have hvalid : Sha256.Start.newWithInit.Valid {} := trivial
  obtain ⟨h, t, hok, -, hreached⟩ := Sha256.Start.gives_make hvalid
    (f := ⟨fun _ => List.replicate 256 false, fun _ _ => List.length_replicate⟩)
  have hnone : h.reported = none := by
    have hstate : ¬ h.state.isSome := by
      rw [hreached.isSome]
      simp [Sha256.Start.HasState]
    rw [Sha256.reported, Option.not_isSome_iff_eq_none.mp hstate]
    rfl
  refine ⟨h, t, hok, hnone, fun ⟨state, n, hreported, _⟩ => ?_⟩
  rw [hnone] at hreported
  cases hreported

end Mpz.Hasher
