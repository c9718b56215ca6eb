import Mpz.Hash.Vm
import Mpz.Hash.Words

/-!
# Input blocks

A hasher gathers the slices that it is given into blocks. A slice is split where a block is full, so
a block is a list of slices, and its bits come from as many updates as it took to fill it.

## Main definitions

* `Hasher.Block` — an input block
* `Hasher.partition` — a slice cut into blocks
* `Hasher.updateBlocks` — a slice added to the blocks of a buffer
* `Vm.HoldsBlocks`, `Vm.HoldsState` — what the blocks and the state of a hasher come to hold

## Main results

* `Vm.HoldsBlocks.partition`, `Vm.HoldsBlocks.update` — blocks hold the blocks of the message
-/

namespace Mpz

namespace Hasher

/-- An input block. -/
structure Block where
  /-- The slices. -/
  data : List Slice
  /-- Bitlength of `data`. -/
  len : ℕ
  sum_size : (data.map Slice.size).sum = len

namespace Block

/-- `Block::default` -/
def empty : Block := ⟨[], 0, rfl⟩

/-- `Block { data: vec![slice], len: slice.len() }` -/
def single (slice : Slice) : Block := ⟨[slice], slice.size, by simp⟩

/-- `block.data.push(slice); block.len += slice.len();` -/
def push (self : Block) (slice : Slice) : Block :=
  ⟨self.data ++ [slice], self.len + slice.size, by simp [self.sum_size]⟩

end Block

/-- The loop that partitions data into blocks of `n` bits. -/
def partition (n : ℕ) (data : Slice) : List Block :=
  if _h : 0 < data.size ∧ 0 < n then
    let parts := data.splitAt (min n data.size)
    .single parts.1 :: partition n parts.2
  else []
termination_by data.size
decreasing_by
  show data.size - min n data.size < data.size
  omega

/-- Adds data to a list of blocks of `n` bits. If the last block is not full, the data is added to
it, and the rest is partitioned into blocks. -/
def updateBlocks (n : ℕ) : List Block → Slice → List Block
  | [], data => partition n data
  | [block], data =>
    if block.len < n then
      let diff := n - block.len
      let parts := data.splitAt (min diff data.size)
      block.push parts.1 :: partition n parts.2
    else block :: partition n data
  | block :: next :: blocks, data => block :: updateBlocks n (next :: blocks) data

/-- The state of a hasher, which is allocated if there is none. -/
def getOrInitState (size : ℕ) (iv : List Bool) : Option Slice → Method Vm VmError Slice
  | some state => return state
  | none => Vm.allocPublic size iv

end Hasher

open Hasher

namespace Vm

/-- The blocks come to hold the parts of a list. -/
def HoldsBlocks (vm : Vm) (v : ℕ → Bool) (bs : List Hasher.Block) (parts : List (List Bool)) :
    Prop :=
  List.Forall₂ (fun block part => vm.Holds v block.data part) bs parts

variable {s t : Vm} {v : ℕ → Bool} {bs : List Hasher.Block} {parts : List (List Bool)}
    {data : Slice}
  {n : ℕ} {l bits part : List Bool} {block : Hasher.Block}

theorem Holds.len (h : s.Holds v block.data part) : block.len = part.length :=
  block.sum_size.symm.trans h.length

theorem Holds.push (h : s.Holds v block.data part) (hdata : s.Holds v [data] bits) :
    s.Holds v (block.push data).data (part ++ bits) := h.append hdata

theorem HoldsBlocks.of_leads (h : s.Leads t) (hs : s.HoldsBlocks v bs parts) :
    t.HoldsBlocks v bs parts := hs.imp fun _ _ hb => hb.of_leads h

theorem HoldsBlocks.findIdx (n : ℕ) (hbs : s.HoldsBlocks v bs parts) :
    bs.findIdx (·.len != n) = parts.findIdx (·.length != n) := by
  induction hbs with
  | nil => rfl
  | cons hblock _ ih => rw [List.findIdx_cons, List.findIdx_cons, hblock.len, ih]

theorem HoldsBlocks.sum_len (hbs : s.HoldsBlocks v bs parts) :
    (bs.map Hasher.Block.len).sum = parts.flatten.length := by
  induction hbs with
  | nil => rfl
  | cons hblock _ ih =>
    rw [List.map_cons, List.sum_cons, ih, hblock.len, List.flatten_cons, List.length_append]

/-- **The parts of a slice** are the blocks of what it holds. -/
theorem HoldsBlocks.partition (hn : 0 < n) (h : s.Holds v [data] bits) :
    s.HoldsBlocks v (partition n data) (blocks n bits) := by
  induction hsize : data.size using Nat.strong_induction_on generalizing data bits with
  | _ m ih =>
  rw [Hasher.partition]
  have hlen := h.size
  split
  case isTrue hpos =>
    have hne : bits ≠ [] := by
      rintro rfl
      rw [List.length_nil] at hlen
      omega
    have hmin : min n data.size ≤ data.size := Nat.min_le_right _ _
    obtain ⟨hleft, hright⟩ := h.splitAt hmin
    rw [take_min_length hlen] at hleft
    rw [drop_min_length hlen] at hright
    rw [blocks_of_ne_nil hn hne]
    refine .cons hleft (ih _ ?_ hright rfl)
    show data.size - min n data.size < m
    omega
  case isFalse hpos =>
    have hnil : bits = [] := List.length_eq_zero_iff.mp (by omega)
    rw [hnil, blocks_nil]
    exact .nil

/-- **What is added to the blocks of a list** makes them the blocks of the longer list. -/
theorem HoldsBlocks.update (hn : 0 < n) (hbs : s.HoldsBlocks v bs (blocks n l))
    (h : s.Holds v [data] bits) : s.HoldsBlocks v (updateBlocks n bs data)
    (blocks n (l ++ bits)) := by
  induction bs generalizing l with
  | nil =>
    have hl : l = [] := by
      by_contra hl
      rw [blocks_of_ne_nil hn hl] at hbs
      cases hbs
    rw [hl, List.nil_append]
    exact HoldsBlocks.partition hn h
  | cons block bs ih =>
    have hl : l ≠ [] := by
      rintro rfl
      rw [blocks_nil] at hbs
      cases hbs
    rw [blocks_of_ne_nil hn hl] at hbs
    obtain ⟨hblock, hrest⟩ := List.forall₂_cons.mp hbs
    cases bs with
    | nil =>
      -- The last block holds all of the list.
      have hle : l.length ≤ n := by
        by_contra hlt
        rw [blocks_of_ne_nil hn (by rw [ne_eq, List.drop_eq_nil_iff]; omega)] at hrest
        cases hrest
      rw [List.take_of_length_le hle] at hblock
      rw [updateBlocks]
      split
      case isTrue hlt =>
        rw [hblock.len] at hlt ⊢
        obtain ⟨hleft, hright⟩ := h.splitAt (Nat.min_le_right (n - l.length) data.size)
        rw [take_min_length h.size] at hleft
        rw [drop_min_length h.size] at hright
        rw [blocks_of_ne_nil hn (List.append_ne_nil_of_left_ne_nil hl bits), List.take_append,
          List.drop_append, List.take_of_length_le hle, List.drop_of_length_le hle,
          List.nil_append]
        exact .cons (hblock.push hleft) (HoldsBlocks.partition hn hright)
      case isFalse hlt =>
        rw [hblock.len] at hlt
        rw [blocks_append hn (by omega)]
        exact .cons hblock (HoldsBlocks.partition hn h)
    | cons next bs =>
      have hlt : n < l.length := by
        by_contra hle
        rw [List.drop_of_length_le (by omega), blocks_nil] at hrest
        cases hrest
      rw [updateBlocks, blocks_of_ne_nil hn (List.append_ne_nil_of_left_ne_nil hl bits),
        List.take_append_of_le_length hlt.le, List.drop_append_of_le_length hlt.le]
      exact .cons hblock (ih hrest)

/-! ### The state -/

/-- The state comes to hold the bits. Without a state they are the initial value. -/
def HoldsState (vm : Vm) (v : ℕ → Bool) (iv : List Bool) : Option Slice → List Bool → Prop
  | some state, bits => vm.Holds v [state] bits
  | none, bits => bits = iv

theorem HoldsState.of_leads {iv : List Bool} {state : Option Slice} (h : s.Leads t)
    (hs : s.HoldsState v iv state bits) : t.HoldsState v iv state bits := by
  cases state with
  | some state => exact Holds.of_leads h hs
  | none => exact hs

theorem HoldsState.gives_getOrInitState {size : ℕ} {iv : List Bool} {state : Option Slice}
    (hiv : iv.length = size) (hs : s.HoldsState v iv state bits) :
    Gives (getOrInitState size iv state) s fun state t => t.Holds v [state] bits := by
  cases state with
  | some state => exact .pure hs
  | none =>
    obtain rfl : bits = iv := hs
    exact (gives_allocPublic hiv s).mono fun state t _ ht => ht.1 v

end Vm

end Mpz
