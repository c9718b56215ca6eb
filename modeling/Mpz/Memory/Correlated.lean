import Mpz.Core.Block

/-!
# Keys, MACs and the global correlation

A MAC `M = k + x * Δ` authenticates the bit `x` under the key `k` and the global correlation `Δ`,
whose pointer bit is fixed to `1`. A `Delta` carries that fact, so the pointer bits of `M` and of
`k` always differ by the authenticated bit.

## Main definitions

* `Delta`, `Key`, `Mac`
* `Key.auth`, `Key.adjust`, `Mac.setPointer`

## Main results

* `Key.pointer_auth` — the pointer bit of a MAC is that of its key plus the bit
* `Key.auth_adjust` — derandomization: the adjusted key authenticates the new bit, with a clear
  pointer bit on the key and the bit itself on the MAC
-/

namespace Mpz

/-- The global correlation, whose pointer bit is `1`. -/
structure Delta where
  /-- The block. -/
  block : Block
  lsb_block : block.lsb = true

/-- MAC key. -/
structure Key where
  /-- The block. -/
  block : Block
  deriving DecidableEq, Repr

/-- MAC. -/
structure Mac where
  /-- The block. -/
  block : Block
  deriving DecidableEq, Repr

instance : Inhabited Key := ⟨⟨Block.zero⟩⟩

instance : Inhabited Mac := ⟨⟨Block.zero⟩⟩

attribute [simp] Delta.lsb_block

namespace Delta

/-- Creates a new Delta, setting the pointer bit to 1. -/
def new (value : Block) : Delta := ⟨value.setLsb true, Block.lsb_setLsb value true⟩

/-- The multiple of the correlation that a bit selects. -/
def select (self : Delta) (bit : Bool) : Block := if bit then self.block else Block.zero

@[simp] theorem select_true (delta : Delta) : delta.select true = delta.block := rfl

@[simp] theorem select_false (delta : Delta) : delta.select false = 0#128 := rfl

theorem select_xor (delta : Delta) (a b : Bool) :
    delta.select (a ^^ b) = delta.select a ^^^ delta.select b := by
  cases a <;> cases b <;> simp

@[simp] theorem lsb_select (delta : Delta) (bit : Bool) : (delta.select bit).lsb = bit := by
  cases bit <;> simp

end Delta

namespace Key

/-- Returns the pointer bit. -/
def pointer (self : Key) : Bool := self.block.lsb

/-- Adjusts the truth value of the corresponding MAC. -/
def adjust (self : Key) (adjust : Bool) (delta : Delta) : Key :=
  ⟨(self.block ^^^ delta.select adjust).setLsb false⟩

/-- Returns a MAC for the given bit. -/
def auth (self : Key) (bit : Bool) (delta : Delta) : Mac := ⟨self.block ^^^ delta.select bit⟩

/-- `Key + Key` -/
def add (self rhs : Key) : Key := ⟨self.block ^^^ rhs.block⟩

end Key

namespace Mac

/-- Returns the pointer bit. -/
def pointer (self : Mac) : Bool := self.block.lsb

/-- Sets the pointer bit. -/
def setPointer (self : Mac) (bit : Bool) : Mac := ⟨self.block.setLsb bit⟩

/-- `Mac + Mac` -/
def add (self rhs : Mac) : Mac := ⟨self.block ^^^ rhs.block⟩

@[simp] theorem pointer_setPointer (m : Mac) (bit : Bool) : (m.setPointer bit).pointer = bit :=
  Block.lsb_setLsb m.block bit

@[simp] theorem pointer_add (m m' : Mac) : (m.add m').pointer = (m.pointer ^^ m'.pointer) :=
  Block.lsb_xor _ _

end Mac

namespace Key

variable (delta : Delta)

@[simp] theorem pointer_adjust (k : Key) (a : Bool) : (k.adjust a delta).pointer = false :=
  Block.lsb_setLsb _ _

@[simp] theorem pointer_add (k k' : Key) : (k.add k').pointer = (k.pointer ^^ k'.pointer) :=
  Block.lsb_xor _ _

@[simp] theorem pointer_auth (k : Key) (x : Bool) :
    (k.auth x delta).pointer = (k.pointer ^^ x) := by
  simp [Mac.pointer, auth, pointer]

/-- The MACs of a sum are the sums of the MACs. -/
theorem auth_add (k k' : Key) (x x' : Bool) :
    (k.add k').auth (x ^^ x') delta = (k.auth x delta).add (k'.auth x' delta) := by
  simp only [auth, add, Mac.add, Delta.select_xor, Mac.mk.injEq]
  ac_rfl

/-- **Derandomization.** From a MAC on `r`, sending `r + x` to the key holder gives a MAC on `x`. -/
theorem auth_adjust (k : Key) (r x : Bool) :
    (k.adjust (r ^^ x) delta).auth x delta = (k.auth r delta).setPointer x := by
  have hlsb : (k.block ^^^ delta.select (r ^^ x)).lsb = (k.block.lsb ^^ (r ^^ x)) := by simp
  have hlsb' : (k.block ^^^ delta.select r).lsb = (k.block.lsb ^^ r) := by simp
  have hbit : ((k.block.lsb ^^ (r ^^ x)) = false) ↔ ((k.block.lsb ^^ r) = x) := by
    cases k.block.lsb <;> cases r <;> cases x <;> decide
  have hself : delta.select x ^^^ delta.select x = 0#128 := BitVec.xor_self
  simp only [auth, adjust, Mac.setPointer, Block.setLsb_eq_xor, hlsb, hlsb', hbit, Mac.mk.injEq]
  rw [Delta.select_xor]
  calc k.block ^^^ (delta.select r ^^^ delta.select x) ^^^
        (if (k.block.lsb ^^ r) = x then 0#128 else 1#128) ^^^ delta.select x
      = k.block ^^^ delta.select r ^^^ (if (k.block.lsb ^^ r) = x then 0#128 else 1#128) ^^^
          (delta.select x ^^^ delta.select x) := by ac_rfl
    _ = k.block ^^^ delta.select r ^^^ (if (k.block.lsb ^^ r) = x then 0#128 else 1#128) := by
        rw [hself, BitVec.xor_zero]

end Key

end Mpz
