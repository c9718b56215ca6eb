import Mpz.Hash.Block
import Mpz.Hash.Session

/-!
# Keccak-256

The hasher absorbs every full block as soon as it is there, keeps the rest, and pads it in the end.
The permutation is a parameter. Padding begins with one byte and ends with another, and where one
byte is free both are the same byte. There the hasher pads into a further block instead, and absorbs
one block more than the sponge does.

## Main definitions

* `Hasher.Keccak256` — the hasher
* `Hasher.keccak256` — the sponge

## Main results

* `Hasher.Keccak256.Absorbed` — what a hasher has absorbed, with its step and run lemmas
* `Hasher.keccak256_correct_iff` — the lengths of messages that are hashed correctly
-/

namespace Mpz.Hasher

/-! ### The hasher -/

/-- Keccak-256 hasher. -/
structure Keccak256 where
  /-- The state, of 25 words of 64 bits. -/
  state : Option Slice
  /-- Input block which hasn't yet been absorbed. -/
  block : Block

/-- The function for XORing two arguments of the same size. -/
def xor (size : ℕ) : BitFn (2 * size) size :=
  ⟨fun bits => List.zipWith (· ^^ ·) (bits.take size) (bits.drop size), fun bits h => by
    simp only [List.length_zipWith, List.length_take, List.length_drop]
    omega⟩

namespace Keccak256

/-- Initial value of the sponge state. -/
def iv : List (BitVec 64) := List.replicate 25 0

/-- Number of words comprising the rate part of the state. -/
def rateWords : ℕ := 17

/-- Number of words comprising the capacity part of the state. -/
def capacityWords : ℕ := 8

/-- Domain separation byte of the padding. -/
def domainSepPad : BitVec 8 := 0x01

/-- Trailing byte of the padding. -/
def trailingPad : BitVec 8 := 0x80

/-- Input block size in bits. -/
def blockSize : ℕ := 1088

/-- Creates a new Keccak-256 hasher. -/
def new : Keccak256 := ⟨none, .empty⟩

/-- The state, which is allocated if there is none. -/
def getOrInitState (self : Keccak256) : Method Vm VmError Slice :=
  Hasher.getOrInitState (25 * 64) (intoClear iv) self.state

/-- Absorbs a single block. -/
def absorbBlock (permute : BitFn 1600 1600) (self : Keccak256) (block : Block) :
    Method Vm VmError Keccak256 := do
  let state ← self.getOrInitState
  -- Separate the state into the rate and capacity parts.
  let rate ← Method.call (.ofOption (state.get 25 0 rateWords))
  let capacity ← Method.call (.ofOption (state.get 25 rateWords capacityWords))
  -- Absorb the block into the rate.
  let newRate ← Vm.call (xor blockSize).circ (block.data ++ [rate])
  -- Permute the state.
  let state ← Vm.call permute.circ [newRate, capacity]
  return { self with state := some state }

/-- `for block in absorb { self.absorb_block(vm, block)? }` -/
def absorbBlocks (permute : BitFn 1600 1600) :
    Keccak256 → List Block → Method Vm VmError Keccak256
  | self, [] => return self
  | self, block :: absorb => do
    let self ← self.absorbBlock permute block
    absorbBlocks permute self absorb

/-- The block, taken where it is full. -/
def takeFull (block : Block) : List Block × Block :=
  if block.len = blockSize then ([block], .empty) else ([], block)

/-- The blocks that are full are to be absorbed, and one that is not is kept. -/
def sortBlocks : List Block → List Block × Block → List Block × Block
  | [], p => p
  | block :: blocks, (absorb, last) =>
    sortBlocks blocks (if block.len = blockSize then (absorb ++ [block], last) else (absorb, block))

/-- Updates the hash with the provided data. -/
def updateSlice (permute : BitFn 1600 1600) (self : Keccak256) (data : Slice) :
    Method Vm VmError Keccak256 :=
  if data.size = 0 then
    return self
  else
    -- Add the data to the last block.
    let diff := blockSize - self.block.len
    let parts := data.splitAt (min diff data.size)
    let block := self.block.push parts.1
    -- Partition the rest of the data into blocks. Those blocks which are full will be absorbed now.
    let sorted := sortBlocks (partition blockSize parts.2) (takeFull block)
    absorbBlocks permute { self with block := sorted.2 } sorted.1

/-- The padding, of a length in bytes. -/
def paddingData (padLen : ℕ) : List (BitVec 8) :=
  ((List.replicate padLen 0).set 0 domainSepPad).set (padLen - 1) trailingPad

/-- The length of the padding in bytes. -/
def padLen (self : Keccak256) : ℕ :=
  let padBitlen := blockSize - self.block.len
  -- If there's no room for domain separation and trailing bytes, the padding will span an
  -- additional block.
  (if padBitlen < 16 then padBitlen + blockSize else padBitlen) / 8

/-- Finalizes the hash, consuming the hasher. -/
def finalize (permute : BitFn 1600 1600) (self : Keccak256) : Method Vm VmError Slice := do
  let padding ← Vm.allocPublic (8 * self.padLen) (intoClear (paddingData self.padLen))
  let self ← self.updateSlice permute padding
  let state ← Method.call (.ofOption self.state)
  Method.call (.ofOption (state.get 25 0 4))

end Keccak256

/-! ### The sponge -/

/-- The message, followed by the domain bit and the padding: a one bit, zeros, and a one bit. -/
def keccakPad (m : List (BitVec 8)) : List (BitVec 8) :=
  match 136 - m.length % 136 with
  | 0 | 1 => m ++ [0x81]
  | k + 2 => m ++ [0x01] ++ List.replicate k 0 ++ [0x80]

/-- A block is added to the rate of the state, and the state is permuted. -/
def absorb (permute : BitFn 1600 1600) (state block : List Bool) : List Bool :=
  permute (List.zipWith (· ^^ ·) (block ++ List.replicate 512 false) state)

/-- The sponge with rate 1088. -/
def keccak256 (permute : BitFn 1600 1600) (m : List (BitVec 8)) : List Bool :=
  ((blocks 1088 (intoClear (keccakPad m))).foldl (absorb permute) (List.replicate 1600 false)).take
    256

namespace Keccak256

variable {permute : BitFn 1600 1600} {s t : Vm} {v : ℕ → Bool} {h h' : Keccak256}

/-! ### Absorbing blocks -/

/-- What the state holds. Without a state it is the initial value. -/
def StateHolds (vm : Vm) (v : ℕ → Bool) (state : Option Slice) (bits : List Bool) : Prop :=
  vm.HoldsState v (List.replicate 1600 false) state bits

theorem gives_getOrInitState {bits : List Bool} (hs : StateHolds s v h.state bits) :
    Vm.Gives h.getOrInitState s fun state t => t.Holds v [state] bits := by
  have hiv : intoClear iv = List.replicate 1600 false := intoClear_replicate_zero 64 25
  unfold getOrInitState
  rw [hiv]
  exact Vm.HoldsState.gives_getOrInitState List.length_replicate hs

/-- The rate of the state is changed, and the capacity is kept. -/
theorem zipWith_append_replicate {part bits : List Bool} {k : ℕ}
    (h : bits.length = part.length + k) :
    List.zipWith (· ^^ ·) (part ++ List.replicate k false) bits =
      List.zipWith (· ^^ ·) part (bits.take part.length) ++ bits.drop part.length := by
  have hzero : ∀ l : List Bool,
      List.zipWith (· ^^ ·) (List.replicate l.length false) l = l := by
    intro l
    induction l with
    | nil => rfl
    | cons b l ih => rw [List.length_cons, List.replicate_succ, List.zipWith_cons_cons, ih,
        Bool.false_xor]
  have hdrop : k = (bits.drop part.length).length := by
    rw [List.length_drop]
    omega
  conv_lhs => rw [← List.take_append_drop part.length bits]
  rw [List.zipWith_append (by rw [List.length_take]; omega), hdrop, hzero]

theorem length_absorb {bits part : List Bool} (hbits : bits.length = 1600)
    (hpart : part.length = 1088) : (absorb permute bits part).length = 1600 := by
  refine permute.2 _ ?_
  rw [List.length_zipWith, List.length_append, List.length_replicate]
  omega

theorem length_foldl_absorb {parts : List (List Bool)} {bits : List Bool}
    (hbits : bits.length = 1600) (hparts : ∀ part ∈ parts, part.length = 1088) :
    (parts.foldl (absorb permute) bits).length = 1600 := by
  induction parts generalizing bits with
  | nil => exact hbits
  | cons part parts ih =>
    exact ih (length_absorb hbits (hparts part List.mem_cons_self))
      fun part hmem => hparts part (List.mem_cons_of_mem _ hmem)

/-- **One block.** -/
theorem gives_absorbBlock {bits part : List Bool} {block : Block} (hbits : bits.length = 1600)
    (hs : StateHolds s v h.state bits) (hblock : s.Holds v block.data part)
    (hpart : part.length = 1088) :
    Vm.Gives (h.absorbBlock permute block) s fun h' t =>
      StateHolds t v h'.state (absorb permute bits part) ∧ h'.state.isSome ∧ h'.block =
        h.block := by
  have hrate : (bits.take 1088).length = 1088 := by
    rw [List.length_take]
    omega
  unfold absorbBlock
  refine (gives_getOrInitState hs).bind fun state t hleads hstate => ?_
  have hblock := hblock.of_leads hleads
  refine (Vm.gives_get (w := 64) hstate hbits (by decide) (by decide)).bind fun rate t hleads hr =>
    ?_
  have hblock := hblock.of_leads hleads
  have hstate := hstate.of_leads hleads
  refine (Vm.gives_get (w := 64) hstate hbits (by decide) (by decide)).bind fun cap t hleads hc =>
    ?_
  have hblock := hblock.of_leads hleads
  have hr : t.Holds v [rate] (bits.take 1088) := hr.of_leads hleads
  have hin : (part ++ bits.take 1088).length = (xor blockSize).circ.inputs := by
    rw [List.length_append, hpart, hrate]
    rfl
  refine (Vm.gives_call (hblock.append hr) hin).bind fun newRate t hleads hnew => ?_
  have hcap : (bits.drop (rateWords * 64)).take (capacityWords * 64) = bits.drop 1088 := by
    rw [List.take_of_length_le]
    · rfl
    · rw [List.length_drop, hbits]
      rfl
  have hbits' : (xor blockSize).circ.eval (part ++ bits.take 1088) ++ bits.drop 1088 =
      List.zipWith (· ^^ ·) (part ++ List.replicate 512 false) bits := by
    rw [zipWith_append_replicate (by omega), hpart]
    simp [BitFn.circ, xor, blockSize, hpart]
  have hargs := hnew.1.append (hc.of_leads hleads)
  rw [hcap, hbits'] at hargs
  have hin : (List.zipWith (· ^^ ·) (part ++ List.replicate 512 false) bits).length =
      permute.circ.inputs := by
    rw [List.length_zipWith, List.length_append, List.length_replicate, hpart, hbits]
    rfl
  exact (Vm.gives_call hargs hin).bind fun state t _ hstate => .pure ⟨hstate.1, rfl, rfl⟩

/-- **The blocks of a list**, one after the other. -/
theorem gives_absorbBlocks {bs : List Block} {parts : List (List Bool)} {bits : List Bool}
    (hbs : s.HoldsBlocks v bs parts) (hparts : ∀ part ∈ parts, part.length = 1088)
    (hbits : bits.length = 1600) (hs : StateHolds s v h.state bits) :
    Vm.Gives (absorbBlocks permute h bs) s fun h' t =>
      StateHolds t v h'.state (parts.foldl (absorb permute) bits) ∧ h'.block = h.block ∧
        (h.state.isSome ∨ parts ≠ [] → h'.state.isSome) := by
  induction bs generalizing s h bits parts with
  | nil =>
    cases hbs
    exact .pure ⟨hs, rfl, fun hstate => hstate.resolve_right (· rfl)⟩
  | cons block bs ih =>
    obtain ⟨part, parts, hblock, hrest, rfl⟩ := List.forall₂_cons_left_iff.mp hbs
    have hpart := hparts part List.mem_cons_self
    refine (gives_absorbBlock hbits hs hblock hpart).bind fun h' t hleads ⟨hs', hsome, hkeep⟩ => ?_
    refine (ih (Vm.HoldsBlocks.of_leads hleads hrest)
      (fun part hmem => hparts part (List.mem_cons_of_mem _ hmem)) (length_absorb hbits hpart)
      hs').mono fun h'' u _ ⟨hs'', hkeep', hsome'⟩ => ?_
    exact ⟨hs'', hkeep'.trans hkeep, fun _ => hsome' (.inl hsome)⟩

/-! ### What is absorbed -/

/-- The hasher has absorbed some blocks, and holds the rest. -/
structure Absorbed (permute : BitFn 1600 1600) (vm : Vm) (v : ℕ → Bool) (h : Keccak256)
    (parts : List (List Bool)) (rest : List Bool) : Prop where
  whole : ∀ part ∈ parts, part.length = 1088
  short : rest.length < 1088
  block : vm.Holds v h.block.data rest
  state : StateHolds vm v h.state (parts.foldl (absorb permute) (List.replicate 1600 false))
  isSome : parts ≠ [] → h.state.isSome

theorem Absorbed.of_leads {parts : List (List Bool)} {rest : List Bool} (hleads : s.Leads t)
    (hs : Absorbed permute s v h parts rest) : Absorbed permute t v h parts rest :=
  { hs with block := hs.block.of_leads hleads, state := Vm.HoldsState.of_leads hleads hs.state }

theorem Absorbed.new (vm : Vm) (v : ℕ → Bool) : Absorbed permute vm v .new [] [] :=
  ⟨nofun, by decide, .nil vm v, rfl, fun hne => absurd rfl hne⟩

theorem holds_takeFull {block : Block} {bits : List Bool} (hblock : s.Holds v block.data bits)
    (hle : bits.length ≤ 1088) :
    ∃ parts rest, (∀ part ∈ parts, part.length = 1088) ∧ rest.length < 1088 ∧
      parts.flatten ++ rest = bits ∧ (bits.length = 1088 → rest = []) ∧
      s.HoldsBlocks v (takeFull block).1 parts ∧ s.Holds v (takeFull block).2.data rest := by
  have hlen := hblock.len
  unfold takeFull
  split
  case isTrue hfull =>
    refine ⟨[bits], [], fun part hmem => ?_, by decide, by simp, fun _ => rfl,
      .cons hblock .nil, .nil s v⟩
    rw [List.mem_singleton.mp hmem, ← hlen, hfull]
    rfl
  case isFalse hfull =>
    have hne : bits.length ≠ 1088 := hlen ▸ hfull
    exact ⟨[], bits, nofun, by omega, rfl, fun heq => absurd heq hne, .nil, hblock⟩

/-- The blocks that are full are in front of the one that is not. -/
theorem holds_sortBlocks {bs absorb : List Block} {last : Block} {parts : List (List Bool)}
    {l rest : List Bool} (hbs : s.HoldsBlocks v bs (blocks 1088 l))
    (habsorb : s.HoldsBlocks v absorb parts) (hparts : ∀ part ∈ parts, part.length = 1088)
    (hlast : s.Holds v last.data rest) (hrest : rest.length < 1088) (hl : l ≠ [] → rest = []) :
    ∃ parts' rest', (∀ part ∈ parts', part.length = 1088) ∧ rest'.length < 1088 ∧
      parts'.flatten ++ rest' = parts.flatten ++ (rest ++ l) ∧
      s.HoldsBlocks v (sortBlocks bs (absorb, last)).1 parts' ∧
      s.Holds v (sortBlocks bs (absorb, last)).2.data rest' := by
  induction bs generalizing absorb last parts l rest with
  | nil =>
    have hnil : l = [] := by
      by_contra hne
      rw [blocks_of_ne_nil (by decide) hne] at hbs
      cases hbs
    refine ⟨parts, rest, hparts, hrest, ?_, habsorb, hlast⟩
    rw [hnil, List.append_nil]
  | cons block bs ih =>
    have hne : l ≠ [] := by
      rintro rfl
      rw [blocks_nil] at hbs
      cases hbs
    obtain rfl := hl hne
    rw [blocks_of_ne_nil (by decide) hne] at hbs
    obtain ⟨hblock, hrest'⟩ := List.forall₂_cons.mp hbs
    have hlen := hblock.len
    rw [sortBlocks]
    split
    case isTrue hfull =>
      have htake : (l.take 1088).length = 1088 := hlen.symm.trans hfull
      obtain ⟨parts', rest', hparts', hshort, heq, hholds⟩ := ih hrest'
        (List.rel_append habsorb (.cons hblock .nil)) (fun part hmem => by
          rcases List.mem_append.mp hmem with hmem | hmem
          · exact hparts part hmem
          · exact List.mem_singleton.mp hmem ▸ htake) hlast hrest fun _ => rfl
      refine ⟨parts', rest', hparts', hshort, ?_, hholds⟩
      rw [heq, List.flatten_append, List.flatten_singleton, List.append_assoc, List.nil_append,
        List.nil_append, List.take_append_drop]
    case isFalse hfull =>
      -- A block that is not full is the last one.
      have hlt : l.length < 1088 := by
        rw [List.length_take] at hlen
        unfold blockSize at hfull
        omega
      rw [List.take_of_length_le hlt.le] at hblock
      obtain ⟨parts', rest', hparts', hshort, heq, hholds⟩ := ih hrest' habsorb hparts hblock hlt
        fun hdrop => absurd (List.drop_of_length_le hlt.le) hdrop
      refine ⟨parts', rest', hparts', hshort, ?_, hholds⟩
      rw [heq, List.drop_of_length_le hlt.le, List.append_nil, List.nil_append]

/-- **An update.** -/
theorem Absorbed.update {data : Slice} {parts : List (List Bool)} {rest bits : List Bool}
    (hs : Absorbed permute s v h parts rest) (hdata : s.Holds v [data] bits) :
    Vm.Gives (h.updateSlice permute data) s fun h' t => ∃ parts' rest',
      parts'.flatten ++ rest' = parts.flatten ++ rest ++ bits ∧
        Absorbed permute t v h' parts' rest' := by
  have hsize := hdata.size
  unfold updateSlice
  split
  case isTrue hzero =>
    have hnil : bits = [] := List.length_eq_zero_iff.mp (by omega)
    exact .pure ⟨parts, rest, by rw [hnil, List.append_nil], hs⟩
  case isFalse hzero =>
    obtain ⟨hleft, hright⟩ := hdata.splitAt (Nat.min_le_right (blockSize - h.block.len) data.size)
    rw [take_min_length hsize] at hleft
    rw [drop_min_length hsize] at hright
    have hblock := hs.block.len
    have hblock := hs.block.push hleft
    have hlen := hblock.len
    have hshort := hs.short
    have hle : (rest ++ bits.take (blockSize - h.block.len)).length ≤ 1088 := by
      rw [List.length_append, List.length_take, blockSize]
      omega
    obtain ⟨parts₁, rest₁, hparts₁, hshort₁, heq₁, hfull₁, habsorb₁, hrest₁⟩ :=
      holds_takeFull (hs.block.push hleft) hle
    have hbs : s.HoldsBlocks v _ (blocks 1088 (bits.drop (blockSize - h.block.len))) :=
      Vm.HoldsBlocks.partition (by decide) hright
    have hl : bits.drop (blockSize - h.block.len) ≠ [] → rest₁ = [] := by
      intro hne
      refine hfull₁ ?_
      rw [ne_eq, List.drop_eq_nil_iff] at hne
      rw [List.length_append, List.length_take]
      unfold blockSize at hne ⊢
      omega
    obtain ⟨parts₂, rest₂, hparts₂, hshort₂, heq₂, habsorb₂, hrest₂⟩ :=
      holds_sortBlocks hbs habsorb₁ hparts₁ hrest₁ hshort₁ hl
    have hlen : (parts.foldl (absorb permute) (List.replicate 1600 false)).length = 1600 :=
      length_foldl_absorb List.length_replicate hs.whole
    refine Vm.Gives.mono (gives_absorbBlocks (h := { h with block := _ }) habsorb₂ hparts₂ hlen
      hs.state) fun h' t hleads ⟨hstate, hkeep, hsome⟩ => ?_
    refine ⟨parts ++ parts₂, rest₂, ?_, fun part hmem => ?_, hshort₂, ?_, ?_, fun hne => ?_⟩
    · calc (parts ++ parts₂).flatten ++ rest₂
          = parts.flatten ++ (parts₂.flatten ++ rest₂) := by
            rw [List.flatten_append, List.append_assoc]
        _ = parts.flatten ++ (parts₁.flatten ++ rest₁ ++ bits.drop (blockSize - h.block.len)) := by
            rw [heq₂, List.append_assoc]
        _ = parts.flatten ++ rest ++ bits := by
            rw [heq₁, List.append_assoc rest, List.take_append_drop, List.append_assoc]
    · exact (List.mem_append.mp hmem).elim (hs.whole part) (hparts₂ part)
    · rw [hkeep]
      exact hrest₂.of_leads hleads
    · rwa [List.foldl_append]
    · by_cases hparts : parts = []
      · exact hsome (.inr fun hnil => hne (by rw [hparts, hnil, List.append_nil]))
      · exact hsome (.inl (hs.isSome hparts))

/-! ### The padding -/

theorem length_paddingData (k : ℕ) : (paddingData k).length = k := by simp [paddingData]

/-- The padding of the hasher, where two bytes of it are free. -/
theorem paddingData_add_two (k : ℕ) :
    paddingData (k + 2) = [0x01] ++ List.replicate k 0 ++ [0x80] := by
  have hlast : List.replicate (k + 1) (0 : BitVec 8) = List.replicate k 0 ++ [0] := by
    rw [List.replicate_add]
    rfl
  have hpred : k + 2 - 1 = k + 1 := rfl
  rw [paddingData, hpred, List.replicate_succ, List.set_cons_zero, List.set_cons_succ, hlast,
    List.set_append_right _ _ (by simp)]
  simp [domainSepPad, trailingPad]

theorem append_paddingData {m : List (BitVec 8)} (hm : m.length % 136 ≠ 135) :
    m ++ paddingData (136 - m.length % 136) = keccakPad m := by
  obtain ⟨k, hk⟩ : ∃ k, 136 - m.length % 136 = k + 2 := ⟨136 - m.length % 136 - 2, by omega⟩
  rw [keccakPad, hk, paddingData_add_two]
  simp

/-- The length of the padding, behind a message of `n` bytes. -/
theorem Absorbed.padLen_eq {parts : List (List Bool)} {rest : List Bool} {n : ℕ}
    (hs : Absorbed permute s v h parts rest) (hn : (parts.flatten ++ rest).length = 8 * n) :
    h.padLen = if n % 136 = 135 then 137 else 136 - n % 136 := by
  have hshort := hs.short
  rw [List.length_append, length_flatten_of_forall hs.whole] at hn
  have hrest : rest.length = 8 * (n % 136) := by omega
  simp only [padLen, blockSize, hs.block.len, hrest]
  split <;> split <;> omega

/-- **The end of a hash**, of what was absorbed and of the padding of the hasher. -/
theorem Absorbed.finalize {parts : List (List Bool)} {rest : List Bool} {n : ℕ}
    (hs : Absorbed permute s v h parts rest) (hn : (parts.flatten ++ rest).length = 8 * n) :
    Vm.Gives (h.finalize permute) s fun out t => t.Holds v [out]
      (((blocks 1088 (parts.flatten ++ rest ++ intoClear (paddingData h.padLen))).foldl
        (absorb permute) (List.replicate 1600 false)).take 256) := by
  have hpad : (intoClear (paddingData h.padLen)).length = 8 * h.padLen := by
    rw [length_intoClear, length_paddingData]
  unfold Keccak256.finalize
  refine (Vm.gives_allocPublic hpad s).bind fun padding t hleads hpadding => ?_
  refine ((hs.of_leads hleads).update (hpadding.1 v)).bind fun h' t _ hh' => ?_
  obtain ⟨parts', rest', heq, hs'⟩ := hh'
  -- The padding fills the last block.
  have hlen := congrArg List.length heq
  rw [List.length_append, List.length_append, hn, hpad, hs.padLen_eq hn,
    length_flatten_of_forall hs'.whole] at hlen
  have hshort := hs'.short
  have hnil : rest' = [] := List.length_eq_zero_iff.mp (by split at hlen <;> omega)
  have hne : parts' ≠ [] := by
    rintro rfl
    rw [hnil, List.length_nil, List.length_nil] at hlen
    split at hlen <;> omega
  rw [hnil, List.append_nil] at heq
  have hblocks := blocks_flatten_append (by decide : 0 < 1088) hs'.whole []
  rw [List.append_nil, blocks_nil, List.append_nil, heq] at hblocks
  have hstate := hs'.state
  obtain ⟨state, hsome⟩ := Option.isSome_iff_exists.mp (hs'.isSome hne)
  rw [hsome] at hstate ⊢
  rw [hblocks]
  have hbits : (parts'.foldl (absorb permute) (List.replicate 1600 false)).length = 1600 :=
    length_foldl_absorb List.length_replicate hs'.whole
  exact (Vm.Gives.pure hstate).bind fun state t _ hstate =>
    (Vm.gives_get (w := 64) hstate hbits (by decide) (by decide)).mono fun out u _ hout => hout

/-! ### Sessions -/

/-- **What a hasher has absorbed** is the message of its session. -/
theorem absorbed_of_run {acts : List (Act Slice)}
    (hrun : Run (Step ([·]) (updateSlice permute)) (new, s) acts (h, t)) :
    (∀ v, ∃ parts rest, parts.flatten ++ rest = message ([·]) v acts ∧
      Absorbed permute t v h parts rest) ∧ s.Leads t := by
  refine session_invariant (P := fun acts h t => ∀ v, ∃ parts rest,
    parts.flatten ++ rest = message ([·]) v acts ∧ Absorbed permute t v h parts rest) hrun
    (fun v => ⟨[], [], rfl, .new s v⟩) ?_ ?_
  · intro acts h s data hP halloc
    have hupdate : ∀ v, Vm.Gives (h.updateSlice permute data) s fun h' t =>
        ∃ parts rest, parts.flatten ++ rest = message ([·]) v acts ++ data.read v ∧
          Absorbed permute t v h' parts rest := by
      intro v
      obtain ⟨parts, rest, hmessage, hs⟩ := hP v
      rw [← hmessage]
      exact hs.update (.of_allocated (halloc data (List.mem_singleton.mpr rfl)) v)
    refine (Vm.Gives.forall hupdate).mono fun h' t _ hs made _ v => ?_
    rw [message_append, message_call, List.flatMap_singleton]
    exact hs v
  · intro acts h s t hP hleads v
    obtain ⟨parts, rest, hmessage, hs⟩ := hP v
    rw [message_append, message_other, List.append_nil]
    exact ⟨parts, rest, hmessage, hs.of_leads hleads⟩

/-- The end of a session. -/
theorem gives_finalize {acts : List (Act Slice)} {n : ℕ}
    (hrun : Run (Step ([·]) (updateSlice permute)) (new, s) acts (h, t))
    (hn : messageSize ([·]) acts = 8 * n) :
    Vm.Gives (h.finalize permute) t fun out u => ∀ v, u.Holds v [out]
      (((blocks 1088 (message ([·]) v acts ++ intoClear (paddingData
        (if n % 136 = 135 then 137 else 136 - n % 136)))).foldl
        (absorb permute) (List.replicate 1600 false)).take 256) := by
  refine Vm.Gives.forall fun v => ?_
  obtain ⟨parts, rest, hmessage, hs⟩ := (absorbed_of_run hrun).1 v
  have hlen : (parts.flatten ++ rest).length = 8 * n := by
    rw [hmessage, length_message, hn]
  rw [← hs.padLen_eq hlen, ← hmessage]
  exact hs.finalize hlen

/-- The hasher does what it is for, on every message of `n` bytes. -/
structure Correct (n : ℕ) : Prop where
  /-- The pieces of the message are taken. -/
  update : ∀ (permute : BitFn 1600 1600) (s t : Vm) (acts : List (Act Slice)) (h : Keccak256)
    (data : Slice), Run (Step ([·]) (updateSlice permute)) (new, s) acts (h, t) →
    t.Allocated data → ∃ h' u, h.updateSlice permute data t = (.ok h', u) ∧ t.Leads u
  /-- In the end the output comes to hold the hash of the message. -/
  finalize : ∀ (permute : BitFn 1600 1600) (s t : Vm) (acts : List (Act Slice)) (h : Keccak256),
    Run (Step ([·]) (updateSlice permute)) (new, s) acts (h, t) →
    messageSize ([·]) acts = 8 * n →
    ∃ out u, h.finalize permute t = (.ok out, u) ∧ s.Leads u ∧
      ∀ v, u.Faithful v → ∀ m : List (BitVec 8), message ([·]) v acts = intoClear m →
        out.read v = keccak256 permute m

/-- The hasher is correct where its padding is that of the sponge. -/
theorem Correct.of_mod {n : ℕ} (hn : n % 136 ≠ 135) : Correct n where
  update permute s t acts h data hrun halloc := by
    obtain ⟨parts, rest, -, hs⟩ := (absorbed_of_run hrun).1 fun _ => false
    obtain ⟨h', u, hok, hleads, -⟩ := hs.update (.of_allocated halloc fun _ => false)
    exact ⟨h', u, hok, hleads⟩
  finalize permute s t acts h hrun hsize := by
    obtain ⟨out, u, hok, hleads, hout⟩ := gives_finalize hrun hsize
    refine ⟨out, u, hok, (absorbed_of_run hrun).2.trans hleads, fun v hv m hm => ?_⟩
    have hlen : m.length = n := by
      have hlen := congrArg List.length hm
      rw [length_message, hsize, length_intoClear] at hlen
      omega
    rw [(hout v).read_single hv, hm, if_neg hn, ← intoClear_append, ← hlen,
      append_paddingData (hlen ▸ hn)]
    rfl

/-! ### One free byte -/

/-- A permutation that tells how often it was applied. -/
def flip : BitFn 1600 1600 :=
  ⟨fun bits => List.replicate 1600 (!bits.getD 1088 false), fun _ _ => List.length_replicate⟩

theorem absorb_flip (b : Bool) {part : List Bool} (hpart : part.length = 1088) :
    absorb flip (List.replicate 1600 b) part = List.replicate 1600 (!b) := by
  have hlen : (List.zipWith (· ^^ ·) part ((List.replicate 1600 b).take 1088)).length = 1088 := by
    rw [List.length_zipWith, hpart, List.length_take, List.length_replicate]
    rfl
  have hbit : (List.zipWith (· ^^ ·) (part ++ List.replicate 512 false)
      (List.replicate 1600 b)).getD 1088 false = b := by
    rw [zipWith_append_replicate (by rw [hpart, List.length_replicate]), hpart,
      List.getD_eq_getElem?_getD, List.getElem?_append_right hlen.le, hlen, List.drop_replicate]
    rfl
  show List.replicate 1600 (!(List.zipWith _ _ _).getD 1088 false) = _
  rw [hbit]

theorem foldl_absorb_flip (b : Bool) {parts : List (List Bool)}
    (hparts : ∀ part ∈ parts, part.length = 1088) :
    parts.foldl (absorb flip) (List.replicate 1600 b) =
      List.replicate 1600 (not^[parts.length] b) := by
  induction parts generalizing b with
  | nil => rfl
  | cons part parts ih =>
    rw [List.foldl_cons, absorb_flip b (hparts part List.mem_cons_self),
      ih _ fun part hmem => hparts part (List.mem_cons_of_mem _ hmem)]
    rfl

/-- The digest tells how many blocks there were. -/
theorem digest_flip {l : List Bool} {k : ℕ} (hl : l.length = 1088 * k) :
    ((blocks 1088 l).foldl (absorb flip) (List.replicate 1600 false)).take 256 =
      List.replicate 256 (not^[k] false) := by
  have hwhole : ∀ b ∈ blocks 1088 l, b.length = 1088 := length_of_mem_blocks ⟨k, hl⟩
  have hk : (blocks 1088 l).length = k := by
    have hlen := length_flatten_of_forall hwhole
    rw [flatten_blocks (by decide), hl] at hlen
    omega
  rw [foldl_absorb_flip false hwhole, hk, List.take_replicate]
  rfl

/-- **With one free byte the digest is wrong.** The hasher pads into one block more. -/
theorem digest_ne {n : ℕ} (hn : n % 136 = 135) {acts : List (Act Slice)}
    (hrun : Run (Step ([·]) (updateSlice flip)) (new, s) acts (h, t))
    (hsize : messageSize ([·]) acts = 8 * n) {m : List (BitVec 8)}
    (hm : message ([·]) v acts = intoClear m) :
    Vm.Gives (h.finalize flip) t fun out u =>
      u.Faithful v → out.read v ≠ keccak256 flip m := by
  refine (gives_finalize hrun hsize).mono fun out u _ hout hv => ?_
  have hlen : m.length = n := by
    have hlen := congrArg List.length hm
    rw [length_message, hsize, length_intoClear] at hlen
    omega
  have hpad : keccakPad m = m ++ [0x81] := by
    have hfree : 136 - m.length % 136 = 1 := by omega
    rw [keccakPad, hfree]
  have hspec : (intoClear (keccakPad m)).length = 1088 * (n / 136 + 1) := by
    rw [length_intoClear, hpad, List.length_append, hlen]
    show 8 * (n + 1) = _
    omega
  have hcode : (message ([·]) v acts ++ intoClear (paddingData 137)).length =
      1088 * (n / 136 + 1 + 1) := by
    rw [List.length_append, length_message, hsize, length_intoClear, length_paddingData]
    omega
  rw [(hout v).read_single hv, if_pos hn, digest_flip hcode, keccak256, digest_flip hspec,
    Function.iterate_succ_apply']
  exact fun heq => Bool.not_ne_self _ ((List.replicate_right_inj (by decide)).mp heq)

/-- Memory that holds zeros until the end. -/
theorem exists_zeros {u : Vm} {n : ℕ} (hleads : (⟨n, ∅, [], []⟩ : Vm).Leads u) :
    ∃ v, u.Faithful v ∧ (⟨0, n⟩ : Slice).read v = List.replicate n false := by
  obtain ⟨v, hzero, hv⟩ := hleads.follows ⟨nofun, nofun⟩ (fun _ => false) ⟨nofun, nofun⟩
  refine ⟨v, hv, List.eq_replicate_iff.mpr ⟨by simp, fun b hb => ?_⟩⟩
  obtain ⟨i, hi, rfl⟩ := List.mem_map.mp hb
  exact hzero i (by simpa using hi)

end Keccak256

/-- **Keccak-256** gives the hash of every message, but where one byte of the last block is free. -/
theorem keccak256_correct_iff (n : ℕ) : Keccak256.Correct n ↔ n % 136 ≠ 135 := by
  refine ⟨fun hcorrect hn => ?_, .of_mod⟩
  -- A message of zeros is given in one piece.
  let s : Vm := ⟨8 * n, ∅, [], []⟩
  have halloc : s.Allocated ⟨0, 8 * n⟩ := (Nat.zero_add _).le
  have hother : Step ([·]) (Keccak256.updateSlice Keccak256.flip) (Keccak256.new, ({} : Vm)) .other
      (Keccak256.new, s) := .other (by simpa [s] using Vm.Leads.alloc {} (8 * n))
  obtain ⟨h, t, hok, hleads⟩ := hcorrect.update Keccak256.flip {} s [.other] .new ⟨0, 8 * n⟩
    (.single hother) halloc
  obtain ⟨made, hmade⟩ := hleads.calls
  have hrun : Run (Step ([·]) (Keccak256.updateSlice Keccak256.flip)) (Keccak256.new, ({} : Vm))
      [.other, .call ⟨0, 8 * n⟩ made] (h, t) :=
    (Run.single hother).snoc (.call (fun _ hmem => List.mem_singleton.mp hmem ▸ halloc) hok
      hmade.symm)
  have hsize : messageSize ([·]) [.other, .call ⟨0, 8 * n⟩ made] = 8 * n := rfl
  obtain ⟨out, u, hfin, -, hout⟩ := hcorrect.finalize Keccak256.flip {} t _ h hrun hsize
  obtain ⟨hleads', -⟩ := (Keccak256.gives_finalize hrun hsize).of_eq hfin
  obtain ⟨v, hv, hzeros⟩ := Keccak256.exists_zeros (hleads.trans hleads')
  have hm : message ([·]) v [.other, .call ⟨0, 8 * n⟩ made] =
      intoClear (List.replicate n (0 : BitVec 8)) := by
    rw [intoClear_replicate_zero, ← hzeros]
    simp [message, Act.pieces]
  exact ((Keccak256.digest_ne hn hrun hsize hm).of_eq hfin).2 hv (hout v hv _ hm)

/-- A message of 135 zero bytes. The digest is not that of the sponge. -/
theorem wrong_digest_135 : ∃ h t out u v,
    Run (Step ([·]) (Keccak256.updateSlice Keccak256.flip)) (Keccak256.new, ({} : Vm))
      [.other, .call ⟨0, 1080⟩ []] (h, t) ∧
    message ([·]) v [Act.other, .call ⟨0, 1080⟩ []] =
      intoClear (List.replicate 135 (0 : BitVec 8)) ∧
    h.finalize Keccak256.flip t = (.ok out, u) ∧ u.Faithful v ∧
    out.read v ≠ keccak256 Keccak256.flip (List.replicate 135 0) := by
  let s : Vm := ⟨1080, ∅, [], []⟩
  have hparts : partition Keccak256.blockSize ⟨1080, 0⟩ = [] := by
    rw [partition, dif_neg (by decide)]
  have hok : Keccak256.new.updateSlice Keccak256.flip ⟨0, 1080⟩ s =
      (.ok ⟨none, Block.empty.push ⟨0, 1080⟩⟩, s) := by
    show Keccak256.absorbBlocks Keccak256.flip
      ⟨none, (Keccak256.sortBlocks (partition Keccak256.blockSize ⟨1080, 0⟩) _).2⟩
      (Keccak256.sortBlocks (partition Keccak256.blockSize ⟨1080, 0⟩) _).1 s = _
    rw [hparts]
    rfl
  have hrun : Run (Step ([·]) (Keccak256.updateSlice Keccak256.flip)) (Keccak256.new, ({} : Vm))
      [.other, .call ⟨0, 1080⟩ []] (_, s) :=
    (Run.single (.other (Vm.Leads.alloc {} 1080))).snoc
      (.call (fun _ hmem => (List.mem_singleton.mp hmem) ▸ le_rfl) hok rfl)
  obtain ⟨out, u, hfin, hleads, -⟩ := Keccak256.gives_finalize (n := 135) hrun rfl
  obtain ⟨v, hv, hzeros⟩ := Keccak256.exists_zeros hleads
  have hm : message ([·]) v [Act.other, .call ⟨0, 1080⟩ []] =
      intoClear (List.replicate 135 (0 : BitVec 8)) := by
    rw [intoClear_replicate_zero, ← hzeros]
    simp [message, Act.pieces]
  exact ⟨_, _, out, u, v, hrun, hm, hfin, hv,
    ((Keccak256.digest_ne (n := 135) rfl hrun rfl hm).of_eq hfin).2 hv⟩

end Mpz.Hasher
