import Mpz.Memory.Correlated
import Mpz.Memory.Store

/-!
# The key store

The keys of the sender, and the set of those that are used: a key is used when a MAC under it is
handed to the receiver, directly or by oblivious transfer, and is handed over once. What was handed
over is recorded in a history that no function reads.

BLAKE3 is a parameter, a function from bytes to a digest.

## Main definitions

* `Blake3`, `MacCommitment`, `Key.commit`
* `KeyStore`, with `authenticate`, `obliviousTransfer` and `verify`
* `KeyStore.HandedOnce` — no key is handed over twice

## Main results

* `KeyStore.HandedOnce.authenticate`, `KeyStore.HandedOnce.obliviousTransfer`
* `KeyStore.HandedOnce.sent_unique` — no two MACs of an index are sent
-/

namespace Mpz

/-- A BLAKE3 digest. -/
abbrev Hash := BitVec 256

/-- The hash in place of BLAKE3. -/
abbrev Blake3 := List (BitVec 8) → Hash

/-- The first 16 bytes of a digest. -/
def Hash.firstBlock (hash : Hash) : Block := hash.extractLsb' 0 128

/-- `id.to_be_bytes()` -/
def idBytes (id : ℕ) : List (BitVec 8) :=
  List.ofFn fun j : Fin 8 => BitVec.ofNat 8 (id / 256 ^ (7 - j.val))

/-- The MAC encoded as bytes. -/
def Mac.toBytes (self : Mac) : List (BitVec 8) := self.block.toBytes

/-- The digest of a MAC under an id. -/
def macDigest (blake3 : Blake3) (id : ℕ) (mac : Mac) : Block :=
  (blake3 (idBytes id ++ mac.toBytes)).firstBlock

/-- Commitment to a values MACs: a hash of the MAC for each truth value of a bit. -/
structure MacCommitment where
  /-- The hash of the MAC of 0. -/
  low : Block
  /-- The hash of the MAC of 1. -/
  high : Block
  deriving DecidableEq, Repr

instance : Inhabited MacCommitment := ⟨⟨Block.zero, Block.zero⟩⟩

/-- An invalid MAC commitment. -/
inductive MacCommitmentError where
  /-- The two commitments are equal. -/
  | duplicate (id : ℕ)
  /-- The MAC is not the committed one. -/
  | invalid (id : ℕ)
  deriving DecidableEq, Repr

/-- `MacCommitment::check` -/
def MacCommitment.check (blake3 : Blake3) (self : MacCommitment) (id : ℕ) (value : Bool)
    (mac : Mac) : Outcome MacCommitmentError Unit :=
  -- Commitments must be different.
  if self.low = self.high then
    .err (.duplicate id)
  else if macDigest blake3 id mac ≠ (if value then self.high else self.low) then
    .err (.invalid id)
  else
    .ok ()

/-- Commits to the MACs of a value. -/
def Key.commit (blake3 : Blake3) (self : Key) (id : ℕ) (delta : Delta) : MacCommitment :=
  ⟨macDigest blake3 id ⟨self.block⟩, macDigest blake3 id ⟨self.block ^^^ delta.block⟩⟩

/-- The block of sixteen bytes. -/
def Block.ofBytes (bytes : List ℕ) : Block := BitVec.ofNat 128 (Nat.ofDigits 256 bytes)

/-- Block for public 0 MAC. -/
def macZero : Block :=
  .ofBytes [146, 239, 91, 41, 80, 62, 197, 196, 204, 121, 176, 38, 171, 216, 63, 120]

/-- Block for public 1 MAC. -/
def macOne : Block :=
  .ofBytes [219, 104, 26, 50, 91, 130, 201, 178, 144, 31, 95, 155, 206, 113, 5, 103]

/-- Error for a key store. -/
inductive KeyStoreError where
  /-- invalid slice -/
  | invalidSlice (slice : Slice)
  /-- keys are not initialized -/
  | uninit (slice : Slice)
  /-- keys are already set -/
  | alreadySet (slice : Slice)
  /-- keys are already assigned -/
  | alreadyAssigned (slice : Slice)
  /-- MAC verification error -/
  | verify
  deriving DecidableEq, Repr

/-- `From<StoreError> for KeyStoreError` -/
def KeyStoreError.ofStore : StoreError → KeyStoreError
  | .invalidSlice slice => .invalidSlice slice
  | .uninit slice => .uninit slice
  | .alreadySet slice => .alreadySet slice

/-- What is handed to the receiver. -/
inductive Handover where
  /-- The MACs of a slice, sent directly. -/
  | macs (slice : Slice) (macs : List Mac)
  /-- The keys of a slice, sent by oblivious transfer. -/
  | ot (slice : Slice)
  deriving DecidableEq, Repr

namespace Handover

/-- The slice that is handed over. -/
def slice : Handover → Slice
  | .macs slice _ => slice
  | .ot slice => slice

/-- The MACs that are sent directly, with their indices. -/
def sent : Handover → List (ℕ × Mac)
  | .macs slice sent => slice.toRange.indices.zip sent
  | .ot _ => []

end Handover

/-- A linear store which manages correlated MAC keys. -/
structure KeyStore where
  /-- The keys. -/
  keys : Store Key
  /-- The global correlation. -/
  delta : Delta
  /-- Key for public 1 MAC. -/
  publicOne : Key
  /-- Keys used for either OT or for transfering MACs directly. -/
  used : RangeSet
  /-- What was handed over so far, a history that the code does not keep. -/
  handed : List Handover

namespace KeyStore

/-- Creates a new key store. -/
def new (delta : Delta) : KeyStore where
  keys := .new
  delta := delta
  publicOne := ⟨(macOne ^^^ delta.block).setLsb false⟩
  used := ∅
  handed := []

/-- A call on the keys. -/
def onKeys {α : Type} (m : Method (Store Key) StoreError α) : Method KeyStore KeyStoreError α :=
  Method.zoom keys (fun self keys => { self with keys }) .ofStore m

/-- Returns whether all the keys are set. -/
def isSet (self : KeyStore) (slice : Slice) : Bool := self.keys.isSet slice

/-- Returns whether any of the keys are used. -/
def isUsed (self : KeyStore) (slice : Slice) : Bool :=
  !decide (Disjoint slice.toRange.toSet self.used)

/-- Allocates uninitialized memory. -/
def alloc (len : ℕ) : Method KeyStore KeyStoreError Slice := onKeys (Store.alloc len)

/-- Allocates memory with the given keys. -/
def allocWith (keys : List Key) : Method KeyStore KeyStoreError Slice :=
  onKeys (Store.allocWith keys)

/-- Returns keys if they are set. -/
def tryGet (self : KeyStore) (slice : Slice) : Outcome KeyStoreError (List Key) :=
  (self.keys.tryGet slice).mapErr .ofStore

/-- Sets keys, returning an error if the keys are already set. -/
def trySet (slice : Slice) (keys : List Key) : Method KeyStore KeyStoreError Unit :=
  onKeys (Store.trySet slice keys)

/-- Sets keys for public data, returning an error if the keys are already set. -/
def trySetPublic (slice : Slice) (data : List Bool) : Method KeyStore KeyStoreError Unit := do
  let self ← Method.get
  onKeys (Store.trySet slice (data.map fun bit => if bit then self.publicOne else ⟨macZero⟩))

/-- Returns the pointer bits of the keys if they are set. -/
def tryGetBits (self : KeyStore) (slice : Slice) : Outcome KeyStoreError (List Bool) := do
  let keys ← self.tryGet slice
  return keys.map Key.pointer

/-- Commits to the MACs of the given slice. -/
def commit (blake3 : Blake3) (self : KeyStore) (slice : Slice) :
    Outcome KeyStoreError (List MacCommitment) := do
  let keys ← self.tryGet slice
  return keys.mapIdx fun i key => key.commit blake3 (slice.ptr + i) self.delta

/-- `self.used |= range`, on what is handed over. -/
def use (handover : Handover) : Method KeyStore KeyStoreError Unit :=
  Method.modify fun self =>
    { self with
      used := self.used ∪ handover.slice.toRange.toSet
      handed := self.handed ++ [handover] }

/-- Authenticates the data, returning MACs. Returns an error if the keys are already used. -/
def authenticate (slice : Slice) (data : List Bool) : Method KeyStore KeyStoreError (List Mac) := do
  let self ← Method.get
  if slice.size ≠ data.length then
    Method.panic
  else if self.isUsed slice then
    Method.throw (.alreadyAssigned slice)
  else if ¬ self.isSet slice then
    Method.throw (.uninit slice)
  else do
    let keys ← Method.call (self.tryGet slice)
    let macs := List.zipWith (fun bit key => key.auth bit self.delta) data keys
    use (.macs slice macs)
    return macs

/-- Returns the keys to send using oblivious transfer. Returns an error if the keys are already
used. -/
def obliviousTransfer (slice : Slice) : Method KeyStore KeyStoreError (List Key) := do
  let self ← Method.get
  if self.isUsed slice then
    Method.throw (.alreadyAssigned slice)
  else if ¬ self.isSet slice then
    Method.throw (.uninit slice)
  else do
    let keys ← Method.call (self.tryGet slice)
    use (.ot slice)
    return keys

/-- The loop of `verify`: the values of the bits, and the bytes of the expected MACs. -/
def verifyRanges (self : KeyStore) :
    List Range → List Bool → Outcome KeyStoreError (List Bool × List (BitVec 8))
  | [], _ => .ok ([], [])
  | range :: ranges, bits => do
    let slice := Slice.fromRange range
    let keys ← self.tryGet slice
    let macBits ← .ofOption (Mpz.slice bits ⟨0, slice.size⟩)
    let values := List.zipWith (fun key macBit => key.pointer ^^ macBit) keys macBits
    let expectedMacs := List.zipWith (fun key value => key.auth value self.delta) keys values
    let (data, bytes) ← self.verifyRanges ranges (bits.drop slice.size)
    return (values ++ data, expectedMacs.flatMap Mac.toBytes ++ bytes)

/-- Verifies MACs, returning the authenticated data that is written back into the bits. -/
def verify (blake3 : Blake3) (self : KeyStore) (ranges : RangeSet) (bits : List Bool)
    (proof : Hash) : Outcome KeyStoreError (List Bool) :=
  if ranges.card ≠ bits.length then
    .panic
  else if ranges = ∅ then
    .ok bits
  else do
    let (data, bytes) ← self.verifyRanges ranges.iter bits
    if blake3 bytes ≠ proof then
      .err .verify
    else if data.length ≠ bits.length then
      -- `copy_from_bitslice`
      .panic
    else
      .ok data

/-! ### No key is handed over twice -/

/-- The indices that were handed over. -/
def handedIndices (self : KeyStore) : List ℕ :=
  self.handed.flatMap fun handover => handover.slice.toRange.indices

/-- **No index is handed over twice**, and all that were are used. -/
structure HandedOnce (s : KeyStore) : Prop where
  nodup : s.handedIndices.Nodup
  used : ∀ i ∈ s.handedIndices, i ∈ s.used

variable {s : KeyStore}

theorem HandedOnce.new (delta : Delta) : (KeyStore.new delta).HandedOnce where
  nodup := List.nodup_nil
  used := nofun

/-- A call on the keys alone hands nothing over. -/
theorem HandedOnce.onKeys {α : Type} (m : Method (Store Key) StoreError α) :
    (KeyStore.onKeys m).Preserves HandedOnce :=
  fun _ h => ⟨h.nodup, h.used⟩

/-- What is not used may be handed over. -/
theorem HandedOnce.use {handover : Handover} (h : s.HandedOnce)
    (hunused : Disjoint handover.slice.toRange.toSet s.used) :
    (KeyStore.use handover s).2.HandedOnce := by
  have hindices : (KeyStore.use handover s).2.handedIndices =
      s.handedIndices ++ handover.slice.toRange.indices := by
    simp [KeyStore.use, handedIndices]
  constructor
  · rw [hindices, List.nodup_append]
    refine ⟨h.nodup, List.nodup_range', fun i hi j hj => ?_⟩
    rintro rfl
    have hmem := Range.mem_toSet.mpr (Range.mem_indices.mp hj)
    exact Finset.disjoint_left.mp hunused hmem (h.used i hi)
  · intro i hi
    rw [hindices, List.mem_append] at hi
    refine Finset.mem_union.mpr (hi.imp (h.used i) fun hi => ?_)
    exact Range.mem_toSet.mpr (Range.mem_indices.mp hi)

/-- The two checks before keys are handed over. -/
theorem HandedOnce.checked {α : Type} {slice : Slice}
    {f : List Key → Method KeyStore KeyStoreError α} (h : s.HandedOnce)
    (hf : Disjoint slice.toRange.toSet s.used → ∀ keys, ((f keys) s).2.HandedOnce) :
    ((if s.isUsed slice then Method.throw (.alreadyAssigned slice)
      else if ¬ s.isSet slice then Method.throw (.uninit slice)
      else do
        let keys ← Method.call (s.tryGet slice)
        f keys : Method KeyStore KeyStoreError α) s).2.HandedOnce := by
  rw [Method.ite_apply]
  split
  case isTrue => exact h
  case isFalse hused =>
    rw [Method.ite_apply]
    split
    case isTrue => exact h
    case isFalse =>
      rw [Method.bind_apply, Method.call_apply]
      cases s.tryGet slice with
      | ok keys => exact hf (by simpa [isUsed] using hused) keys
      | err e => exact h
      | panic => exact h

/-- **Authentication hands over what was not used**, or nothing. -/
theorem HandedOnce.authenticate (slice : Slice) (data : List Bool) :
    (KeyStore.authenticate slice data).Preserves HandedOnce := by
  refine Method.Preserves.get_bind fun s h => ?_
  rw [Method.ite_apply]
  split
  case isTrue => exact h
  case isFalse => exact h.checked fun hunused keys => h.use hunused

/-- **Oblivious transfer hands over what was not used**, or nothing. -/
theorem HandedOnce.obliviousTransfer (slice : Slice) :
    (KeyStore.obliviousTransfer slice).Preserves HandedOnce :=
  Method.Preserves.get_bind fun _ h => h.checked fun hunused _ => h.use hunused

/-- The MACs that were sent directly, with their indices. -/
def sent (self : KeyStore) : List (ℕ × Mac) := self.handed.flatMap Handover.sent

/-- The indices whose keys were sent by oblivious transfer. -/
def transferred (self : KeyStore) : List ℕ :=
  self.handed.flatMap fun
    | .macs _ _ => []
    | .ot slice => slice.toRange.indices

/-- A key without repetitions has one value in a list of pairs. -/
theorem eq_of_mem_zip {α β : Type} {xs : List α} {ys : List β} (h : xs.Nodup) {x : α} {y y' : β}
    (hy : (x, y) ∈ xs.zip ys) (hy' : (x, y') ∈ xs.zip ys) : y = y' := by
  obtain ⟨j, hj⟩ := List.mem_iff_getElem?.mp hy
  obtain ⟨k, hk⟩ := List.mem_iff_getElem?.mp hy'
  obtain ⟨hxj, hyj⟩ := List.getElem?_zip_eq_some.mp hj
  obtain ⟨hxk, hyk⟩ := List.getElem?_zip_eq_some.mp hk
  obtain rfl : j = k :=
    (List.getElem?_inj (List.getElem?_eq_some_iff.mp hxj).1 h).mp (hxj.trans hxk.symm)
  exact Option.some.inj (hyj.symm.trans hyk)

theorem mem_indices_of_mem_sent {handover : Handover} {i : ℕ} {mac : Mac}
    (h : (i, mac) ∈ handover.sent) : i ∈ handover.slice.toRange.indices := by
  cases handover with
  | macs slice sent => exact (List.of_mem_zip h).1
  | ot slice => exact absurd h List.not_mem_nil

/-- An index is handed over in one piece. -/
theorem HandedOnce.eq_of_mem (h : s.HandedOnce) {a b : Handover} (ha : a ∈ s.handed)
    (hb : b ∈ s.handed) {i : ℕ} (hia : i ∈ a.slice.toRange.indices)
    (hib : i ∈ b.slice.toRange.indices) : a = b := by
  by_contra hne
  have hdisj := (List.nodup_flatMap.mp h.nodup).2
  have : Std.Symm (Function.onFun List.Disjoint
      fun handover : Handover => handover.slice.toRange.indices) := ⟨fun _ _ hxy => hxy.symm⟩
  exact hdisj.forall ha hb hne hia hib

/-- **No index has two MACs sent**, and none has a MAC sent and its keys transferred. -/
theorem HandedOnce.sent_unique (h : s.HandedOnce) {i : ℕ} {mac : Mac} (hi : (i, mac) ∈ s.sent) :
    (∀ mac', (i, mac') ∈ s.sent → mac' = mac) ∧ i ∉ s.transferred := by
  obtain ⟨a, ha, hia⟩ := List.mem_flatMap.mp hi
  refine ⟨fun mac' hi' => ?_, fun hi' => ?_⟩
  · obtain ⟨b, hb, hib⟩ := List.mem_flatMap.mp hi'
    obtain rfl := h.eq_of_mem ha hb (mem_indices_of_mem_sent hia) (mem_indices_of_mem_sent hib)
    cases a with
    | macs slice sent => exact eq_of_mem_zip List.nodup_range' hib hia
    | ot slice => exact absurd hia List.not_mem_nil
  · obtain ⟨b, hb, hib⟩ := List.mem_flatMap.mp hi'
    cases b with
    | macs slice sent => exact absurd hib List.not_mem_nil
    | ot slice =>
      obtain rfl := h.eq_of_mem ha hb (mem_indices_of_mem_sent hia) hib
      exact absurd hia List.not_mem_nil

end KeyStore

end Mpz
