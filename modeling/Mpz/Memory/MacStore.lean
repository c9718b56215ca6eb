import Mpz.Memory.KeyStore

/-!
# The MAC store

The MACs of the receiver.

## Main definitions

* `MacStore`, with `trySet`, `tryGetBits` and `prove`
-/

namespace Mpz

/-- Error for a MAC store. -/
inductive MacStoreError where
  /-- invalid slice -/
  | invalidSlice (slice : Slice)
  /-- MACs are not initialized -/
  | uninit (slice : Slice)
  /-- MACs are already set -/
  | alreadySet (slice : Slice)
  deriving DecidableEq, Repr

/-- `From<StoreError> for MacStoreError` -/
def MacStoreError.ofStore : StoreError → MacStoreError
  | .invalidSlice slice => .invalidSlice slice
  | .uninit slice => .uninit slice
  | .alreadySet slice => .alreadySet slice

/-- `Mac::PUBLIC` -/
def Mac.ofPublic (bit : Bool) : Mac := if bit then ⟨macOne⟩ else ⟨macZero⟩

/-- A linear store which manages correlated MACs. -/
structure MacStore where
  /-- The MACs. -/
  macs : Store Mac

namespace MacStore

/-- Creates a new MAC store. -/
def new : MacStore := ⟨.new⟩

/-- A call on the MACs. -/
def onMacs {α : Type} (m : Method (Store Mac) StoreError α) : Method MacStore MacStoreError α :=
  Method.zoom macs (fun _ macs => ⟨macs⟩) .ofStore m

/-- Returns whether all the MACs are set. -/
def isSet (self : MacStore) (slice : Slice) : Bool := self.macs.isSet slice

/-- Returns the ranges of set MACs. -/
def setRanges (self : MacStore) : RangeSet := self.macs.set

/-- Allocates uninitialized memory. -/
def alloc (len : ℕ) : Method MacStore MacStoreError Slice := onMacs (Store.alloc len)

/-- Returns MACs if they are set. -/
def tryGet (self : MacStore) (slice : Slice) : Outcome MacStoreError (List Mac) :=
  (self.macs.tryGet slice).mapErr .ofStore

/-- Sets MACs, returning an error if they are already set. -/
def trySet (slice : Slice) (macs : List Mac) : Method MacStore MacStoreError Unit :=
  onMacs (Store.trySet slice macs)

/-- Sets MACs for public data, returning an error if they are already set. -/
def trySetPublic (slice : Slice) (data : List Bool) : Method MacStore MacStoreError Unit :=
  onMacs (Store.trySet slice (data.map Mac.ofPublic))

/-- Returns the pointer bits of the MACs if they are set. -/
def tryGetBits (self : MacStore) (slice : Slice) : Outcome MacStoreError (List Bool) := do
  let macs ← self.tryGet slice
  return macs.map Mac.pointer

/-- The loop of `prove`: the pointer bits of the MACs, and their bytes. -/
def proveRanges (self : MacStore) :
    List Range → Outcome MacStoreError (List Bool × List (BitVec 8))
  | [] => .ok ([], [])
  | range :: ranges => do
    let macs ← self.tryGet (Slice.fromRange range)
    let (bits, bytes) ← self.proveRanges ranges
    return (macs.map Mac.pointer ++ bits, macs.flatMap Mac.toBytes ++ bytes)

/-- Proves MACs. -/
def prove (blake3 : Blake3) (self : MacStore) (ranges : RangeSet) :
    Outcome MacStoreError (List Bool × Hash) := do
  let (bits, bytes) ← self.proveRanges ranges.iter
  return (bits, blake3 bytes)

end MacStore

end Mpz
