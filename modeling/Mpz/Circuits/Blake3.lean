import Mathlib.Data.Fin.Tuple.Basic
import Mathlib.Data.Fin.VecNotation
import Mathlib.Data.List.OfFn
import Mathlib.Tactic.FinCases
import Mpz.Circuits.Live

/-!
# The compression function of Blake3

The circuit takes a message block and a state of sixteen words each, the least significant bit of a
word first. Words are added by ripple-carry adders and rotated by moving their nodes, so that a
rotation to the right is one of the nodes to the left. The last step writes each half of the state
over words that it has read.

## Main definitions

* `Blake3Circuit.mix`, `round`, `permute`, `compressInternal`, `compress` — the circuit
* `Blake3Circuit.Reference` — the function on words
* `Blake3Circuit.bits` — the bits of some words
* `Blake3Circuit.Fresh` — words whose nodes are all different

## Main results

* `Blake3Circuit.gives_mix`, `gives_round`, `gives_compressInternal` — each part of the circuit
  computes its function
* `Blake3Circuit.compress_correct` — the circuit is built, and evaluates to the function on all
  blocks and states
-/

namespace Mpz

namespace Blake3Circuit

open CircuitBuilder

variable {ε σ α : Type}

/-- `std::array::from_fn`, whose callback may change a receiver. -/
def fromFn : (n : ℕ) → (Fin n → Method σ ε α) → Method σ ε (Fin n → α)
  | 0, _ => return Fin.elim0
  | n + 1, f => do
    let a ← f 0
    let as ← fromFn n fun i => f i.succ
    return Fin.cons a as

/-- The nodes of a word. -/
abbrev Word : Type := Fin 32 → ℕ

/-- The nodes of a state. -/
abbrev State : Type := Fin 16 → Word

/-- The nodes of a message block. -/
abbrev Msg : Type := Fin 16 → Word

/-- Bitwise XOR of two nbit values. -/
def xor {N : ℕ} (a b : Fin N → ℕ) : Method CircuitBuilder ε (Fin N → ℕ) := fromFn N fun n =>
  addXorGate (a n) (b n)

/-- `nodes.as_slice().try_into().unwrap()` -/
def intoWord (nodes : List ℕ) : Method CircuitBuilder ε Word :=
  if h : nodes.length = 32 then return fun i => nodes.get (i.cast h.symm) else Method.panic

/-- The sum of two words. -/
def add (a b : Word) : Method CircuitBuilder ε Word := do
  let sum ← wrappingAdd (List.ofFn a) (List.ofFn b)
  intoWord sum

/-- `word.rotate_left(k)` -/
def rotateLeft (word : Word) (k : Fin 32) : Word := fun i => word (i + k)

/-- Permutation schedule used in Blake3 hashing. -/
def msgPermutation : Fin 16 → Fin 16 := ![2, 6, 3, 10, 7, 0, 4, 13, 1, 11, 12, 5, 9, 14, 15, 8]

/-- Mix function used in Blake3 hashing. -/
def mix (state : State) (msg : Msg) (a b c d : Fin 16) (mx my : Fin 16) :
    Method CircuitBuilder ε State := do
  let state := Function.update state a (← add (state a) (state b))
  let state := Function.update state a (← add (state a) (msg mx))
  let state := Function.update state d (← xor (state d) (state a))
  let state := Function.update state d (rotateLeft (state d) 16)
  let state := Function.update state c (← add (state c) (state d))
  let state := Function.update state b (← xor (state b) (state c))
  let state := Function.update state b (rotateLeft (state b) 12)
  let state := Function.update state a (← add (state a) (state b))
  let state := Function.update state a (← add (state a) (msg my))
  let state := Function.update state d (← xor (state d) (state a))
  let state := Function.update state d (rotateLeft (state d) 8)
  let state := Function.update state c (← add (state c) (state d))
  let state := Function.update state b (← xor (state b) (state c))
  let state := Function.update state b (rotateLeft (state b) 7)
  return state

/-- Round function used in Blake3 hashing. -/
def round (state : State) (msg : Msg) : Method CircuitBuilder ε State := do
  -- Mix columns.
  let state ← mix state msg 0 4 8 12 0 1
  let state ← mix state msg 1 5 9 13 2 3
  let state ← mix state msg 2 6 10 14 4 5
  let state ← mix state msg 3 7 11 15 6 7
  -- Mix diagonals.
  let state ← mix state msg 0 5 10 15 8 9
  let state ← mix state msg 1 6 11 12 10 11
  let state ← mix state msg 2 7 8 13 12 13
  mix state msg 3 4 9 14 14 15

/-- Permute function used in Blake3 hashing. -/
def permute (msg : Msg) : Msg := fun i => msg (msgPermutation i)

/-- Rounds, with the message permuted behind each of them. -/
def rounds : ℕ → State → Msg → Method CircuitBuilder ε (State × Msg)
  | 0, state, msg => return (state, msg)
  | n + 1, state, msg => do
    let state ← round state msg
    rounds n state (permute msg)

/-- The last loop. The second XOR reads the state that went in. -/
def feedForward (state : State) : List (Fin 8) → State → Method CircuitBuilder ε State
  | [], runningState => return runningState
  | i :: is, runningState => do
    let runningState := Function.update runningState (Fin.castAdd 8 i)
      (← xor (runningState (Fin.castAdd 8 i)) (runningState (Fin.natAdd 8 i)))
    let runningState := Function.update runningState (Fin.natAdd 8 i)
      (← xor (runningState (Fin.natAdd 8 i)) (state (Fin.castAdd 8 i)))
    feedForward state is runningState

/-- Compress function used in Blake3 hashing. -/
def compressInternal (msg : Msg) (state : State) : Method CircuitBuilder ε State := do
  let (runningState, msg) ← rounds 6 state msg
  let runningState ← round runningState msg
  feedForward state (List.finRange 8) runningState

/-- What is added to the builder. -/
def compressNodes : Method CircuitBuilder ε Unit := do
  let msg : Msg ← fromFn 16 fun _ => fromFn 32 fun _ => addInput
  let state : State ← fromFn 16 fun _ => fromFn 32 fun _ => addInput
  let output ← compressInternal msg state
  Method.forEach (fun word => Method.forEach addOutput (List.ofFn word)) (List.ofFn output)

/-- What is added to a new builder is built, and `unwrap` is called on the circuit. -/
def built (m : Method CircuitBuilder Empty Unit) : Outcome Empty Circuit :=
  match m .new with
  | (.ok (), builder) =>
    match builder.build with
    | .ok circ => .ok circ
    | _ => .panic
  | (.err e, _) => .err e
  | (.panic, _) => .panic

/-- Returns a Blake3 compression circuit. -/
def compress : Outcome Empty Circuit := built compressNodes

/-! ### The function on words -/

namespace Reference

/-- A state of words. -/
abbrev Words : Type := Fin 16 → BitVec 32

/-- One quarter of a round. -/
def mix (state : Words) (a b c d : Fin 16) (mx my : BitVec 32) : Words :=
  let state := Function.update state a (state a + state b + mx)
  let state := Function.update state d ((state d ^^^ state a).rotateRight 16)
  let state := Function.update state c (state c + state d)
  let state := Function.update state b ((state b ^^^ state c).rotateRight 12)
  let state := Function.update state a (state a + state b + my)
  let state := Function.update state d ((state d ^^^ state a).rotateRight 8)
  let state := Function.update state c (state c + state d)
  Function.update state b ((state b ^^^ state c).rotateRight 7)

/-- A round: the columns are mixed, and then the diagonals. -/
def round (state m : Words) : Words :=
  let state := mix state 0 4 8 12 (m 0) (m 1)
  let state := mix state 1 5 9 13 (m 2) (m 3)
  let state := mix state 2 6 10 14 (m 4) (m 5)
  let state := mix state 3 7 11 15 (m 6) (m 7)
  let state := mix state 0 5 10 15 (m 8) (m 9)
  let state := mix state 1 6 11 12 (m 10) (m 11)
  let state := mix state 2 7 8 13 (m 12) (m 13)
  mix state 3 4 9 14 (m 14) (m 15)

/-- The message schedule: which word of the block stands where in each of the rounds. -/
def schedule : List (Fin 16 → Fin 16) :=
  [![0, 1, 2, 3, 4, 5, 6, 7, 8, 9, 10, 11, 12, 13, 14, 15],
    ![2, 6, 3, 10, 7, 0, 4, 13, 1, 11, 12, 5, 9, 14, 15, 8],
    ![3, 4, 10, 12, 13, 2, 7, 14, 6, 5, 9, 0, 11, 15, 8, 1],
    ![10, 7, 12, 9, 14, 3, 13, 15, 4, 0, 11, 2, 5, 8, 1, 6],
    ![12, 13, 9, 11, 15, 10, 14, 8, 7, 2, 5, 3, 0, 1, 6, 4],
    ![9, 14, 11, 5, 8, 12, 15, 1, 13, 3, 0, 10, 2, 6, 4, 7],
    ![11, 15, 5, 0, 1, 9, 8, 6, 14, 10, 2, 12, 3, 4, 7, 13]]

/-- Rounds, each of which reads the block in an order of its own. -/
def rounds (orders : List (Fin 16 → Fin 16)) (state block : Words) : Words :=
  orders.foldl (fun state order => round state fun i => block (order i)) state

/-- **The compression function**: seven rounds, and the two halves of the state, of which the first
is XORed with the second one, and the second one with the first half of the state that went in. -/
def compress (block state : Words) : Words :=
  let v := rounds schedule state block
  Fin.append (fun i : Fin 8 => v (Fin.castAdd 8 i) ^^^ v (Fin.natAdd 8 i))
    fun i => v (Fin.natAdd 8 i) ^^^ state (Fin.castAdd 8 i)

end Reference

/-- The items of an array of arrays, one array after the other. -/
def flat {m k : ℕ} (f : Fin m → Fin k → α) : List α := (List.ofFn fun i => List.ofFn (f i)).flatten

/-- The bits of some words, the least significant bit of each first. -/
def bits (words : Reference.Words) : List Bool := flat fun i (j : Fin 32) => (words i).getLsbD j

/-! ### Arrays of arrays -/

section Flat

variable {β : Type} {m k : ℕ} {f : Fin m → Fin k → α}

theorem flat_eq (f : Fin m → Fin k → α) : flat f = List.ofFn fun x : Fin (m * k) =>
    f x.divNat x.modNat := by
  rw [List.ofFn_mul, flat]
  congr 1
  refine List.ofFn_inj.mpr (funext fun i => List.ofFn_inj.mpr (funext fun j => ?_))
  have hk : 0 < k := j.pos
  congr 1
  · refine Fin.ext ?_
    rw [Fin.coe_divNat]
    show i.val = (i.val * k + j.val) / k
    rw [Nat.mul_comm, Nat.mul_add_div hk, Nat.div_eq_of_lt j.isLt, Nat.add_zero]
  · refine Fin.ext ?_
    rw [Fin.coe_modNat]
    show j.val = (i.val * k + j.val) % k
    rw [Nat.mul_comm, Nat.mul_add_mod, Nat.mod_eq_of_lt j.isLt]

theorem map_flat (g : α → β) (f : Fin m → Fin k → α) :
    (flat f).map g = flat fun i j => g (f i j) := by
  rw [flat, flat, List.map_flatten, List.map_ofFn]
  congr 2
  exact funext fun i => List.map_ofFn

theorem length_flat (f : Fin m → Fin k → α) :
    (flat f).length = m * k := by rw [flat_eq, List.length_ofFn]

theorem mem_flat {a : α} : a ∈ flat f ↔ ∃ i j, f i j = a := by
  simp only [flat, List.mem_flatten, List.mem_ofFn]
  constructor
  · rintro ⟨l, ⟨i, rfl⟩, ha⟩
    obtain ⟨j, rfl⟩ := List.mem_ofFn.mp ha
    exact ⟨i, j, rfl⟩
  · rintro ⟨i, j, rfl⟩
    exact ⟨_, ⟨i, rfl⟩, List.mem_ofFn.mpr ⟨j, rfl⟩⟩

theorem nodup_flat (h : ∀ i i' j j', f i j = f i' j' → i = i' ∧ j = j') : (flat f).Nodup := by
  rw [flat_eq, List.nodup_ofFn]
  intro x y hxy
  obtain ⟨hdiv, hmod⟩ := h _ _ _ _ hxy
  have hdiv' : x.val / k = y.val / k := congrArg Fin.val hdiv
  have hmod' : x.val % k = y.val % k := congrArg Fin.val hmod
  exact Fin.ext (by rw [← Nat.div_add_mod x.val k, hdiv', hmod', Nat.div_add_mod])

theorem getElem?_flat (f : Fin m → Fin k → α) (i : Fin m) (j : Fin k) :
    (flat f)[k * i.val + j.val]? = some (f i j) := by
  have hk : 0 < k := j.pos
  have hlt : k * i.val + j.val < m * k := by
    calc k * i.val + j.val < k * i.val + k := Nat.add_lt_add_left j.isLt _
      _ = k * (i.val + 1) := (Nat.mul_succ _ _).symm
      _ ≤ m * k := by rw [Nat.mul_comm m]; exact Nat.mul_le_mul_left _ i.isLt
  rw [flat_eq, List.getElem?_ofFn, dif_pos hlt]
  congr 2
  · refine Fin.ext ?_
    rw [Fin.coe_divNat, Nat.mul_add_div hk, Nat.div_eq_of_lt j.isLt, Nat.add_zero]
  · refine Fin.ext ?_
    rw [Fin.coe_modNat, Nat.mul_add_mod, Nat.mod_eq_of_lt j.isLt]

end Flat

/-! ### Words -/

theorem testBit_ofBits (bits : List Bool) (i : ℕ) :
    (ofBits bits).testBit i = bits.getD i false := by
  induction bits generalizing i with
  | nil => rw [ofBits, Nat.zero_testBit, List.getD_nil]
  | cons bit bits ih =>
    rw [ofBits]
    cases i with
    | zero =>
      rw [List.getD_cons_zero, Nat.testBit_zero, Nat.add_mul_mod_self_left]
      cases bit <;> rfl
    | succ i =>
      have hdiv : (bit.toNat + 2 * ofBits bits) / 2 = ofBits bits := by
        have := Bool.toNat_le bit
        cases bit <;> simp only [Bool.toNat_true, Bool.toNat_false] <;> omega
      rw [List.getD_cons_succ, Nat.testBit_succ, hdiv, ih]

theorem ofBits_ofFn (w : BitVec 32) : ofBits (List.ofFn fun i : Fin 32 => w.getLsbD i) =
    w.toNat := by
  refine Nat.eq_of_testBit_eq fun i => ?_
  rw [testBit_ofBits, BitVec.testBit_toNat, List.getD_eq_getElem?_getD, List.getElem?_ofFn]
  split
  case isTrue => rfl
  case isFalse h => rw [BitVec.getLsbD_of_ge w i (by omega), Option.getD_none]

/-- The nodes of a word come to be its bits, and none of them is a constant. -/
def HoldsWord (b : CircuitBuilder) (v : ℕ → Bool) (nodes : Word) (w : BitVec 32) : Prop :=
  ∀ i : Fin 32, b.Live (nodes i) ∧ b.Holds v (nodes i) (w.getLsbD i)

variable {b b' : CircuitBuilder} {v : ℕ → Bool} {n : ℕ} {xs ys : Word} {x y : BitVec 32}

namespace HoldsWord

theorem of_extends (h : HoldsWord b v xs x) (hb : b.Extends b') : HoldsWord b' v xs x :=
  fun i => ⟨(h i).1.of_extends hb, (h i).2.of_extends hb⟩

theorem live (h : HoldsWord b v xs x) : ∀ x ∈ List.ofFn xs, b.Live x := by
  intro x hx
  obtain ⟨i, rfl⟩ := List.mem_ofFn.mp hx
  exact (h i).1

theorem holdsBits (h : HoldsWord b v xs x) :
    b.HoldsBits v (List.ofFn xs) (List.ofFn fun i : Fin 32 => x.getLsbD i) := by
  refine List.forall₂_iff_get.mpr ⟨by rw [List.length_ofFn, List.length_ofFn], fun i hi _ => ?_⟩
  rw [List.length_ofFn] at hi
  rw [List.get_eq_getElem, List.get_eq_getElem, List.getElem_ofFn, List.getElem_ofFn]
  exact (h ⟨i, hi⟩).2

/-- **A rotation** to the right is one of the nodes to the left. -/
theorem rotateLeft (h : HoldsWord b v xs x) (k : Fin 32) :
    HoldsWord b v (rotateLeft xs k) (x.rotateRight k) := by
  intro i
  have hbit : (x.rotateRight k).getLsbD i = x.getLsbD (i + k : Fin 32) := by
    rw [BitVec.getLsbD_rotateRight, Nat.mod_eq_of_lt k.isLt, Fin.val_add]
    have hi := i.isLt
    have hk := k.isLt
    by_cases hlt : i.val < 32 - k.val
    · rw [decide_eq_true hlt, cond_true, Nat.mod_eq_of_lt (by omega), Nat.add_comm]
    · rw [decide_eq_false hlt, cond_false, decide_eq_true hi, Bool.true_and]
      congr 1
      omega
  rw [hbit]
  exact h (i + k)

end HoldsWord

/-- The nodes of a state come to be its bits. -/
def HoldsState (b : CircuitBuilder) (v : ℕ → Bool) (nodes : State) (words : Reference.Words) :
    Prop :=
  ∀ i, HoldsWord b v (nodes i) (words i)

theorem HoldsState.of_extends {s : State} {S : Reference.Words} (h : HoldsState b v s S)
    (hb : b.Extends b') :
    HoldsState b' v s S := fun i => (h i).of_extends hb

theorem HoldsState.update {s : State} {S : Reference.Words} (h : HoldsState b v s S) (k : Fin 16)
    (hx : HoldsWord b v xs x) : HoldsState b v (Function.update s k xs)
    (Function.update S k x) := by
  intro i
  by_cases hi : i = k
  · subst hi
    rwa [Function.update_self, Function.update_self]
  · rw [Function.update_of_ne hi, Function.update_of_ne hi]
    exact h i

theorem gives_intoWord {zs : List ℕ} (hlen : zs.length = 32) {φ : Word → CircuitBuilder → Prop}
    (h : φ (fun i => zs.get (i.cast hlen.symm)) b) :
    Gives (intoWord zs : Method CircuitBuilder ε Word) b φ := by
  unfold intoWord
  rw [dif_pos hlen]
  exact .pure h

/-- **A sum of words.** -/
theorem gives_add (hb : Building b n) (hx : HoldsWord b v xs x) (hy : HoldsWord b v ys y) :
    Gives (add xs ys : Method CircuitBuilder ε Word) b fun zs b' => Building b' n ∧
      HoldsWord b' v zs (x + y) := by
  have hlen : (List.ofFn xs).length = (List.ofFn ys).length := by
    rw [List.length_ofFn, List.length_ofFn]
  refine ((hb.wrappingAdd hx.live hy.live hlen).and
    (gives_wrappingAdd hx.holdsBits hy.holdsBits hlen)).bind
    fun zs b₁ h₁ hzs => ?_
  obtain ⟨⟨hb₁, hlive⟩, rs, hrs, hrlen, hval⟩ := hzs
  rw [List.length_ofFn] at hrlen hval
  rw [ofBits_ofFn, ofBits_ofFn, ← BitVec.toNat_add] at hval
  have hzlen : zs.length = 32 := hrs.length_eq.trans hrlen
  refine gives_intoWord hzlen ⟨hb₁, fun i => ⟨hlive _ (List.get_mem _ _), ?_⟩⟩
  have hi : i.val < rs.length := hrlen.symm ▸ i.isLt
  have hbit : (x + y).getLsbD i = rs[i.val] := by
    rw [← BitVec.testBit_toNat, ← hval, testBit_ofBits, List.getD_eq_getElem?_getD,
      List.getElem?_eq_getElem hi, Option.getD_some]
  rw [hbit]
  exact (List.forall₂_iff_get.mp hrs).2 i.val (hzlen.symm ▸ i.isLt) hi

/-- **Gates at all positions**, each of which gives a node of its own. -/
theorem gives_fromFn {k : ℕ} {f : Fin k → Method CircuitBuilder ε ℕ}
    {φ : Fin k → ℕ → CircuitBuilder → Prop} (hb : Building b n)
    (hf : ∀ i b', b.Extends b' → Building b' n → Gives (f i) b' fun z b'' =>
      (Building b'' n ∧ b'.feedId ≤ z ∧ z < b''.feedId) ∧ φ i z b'')
    (hφ : ∀ i z b' b'', b'.Extends b'' → φ i z b' → φ i z b'') :
    Gives (fromFn k f) b fun zs b' => Building b' n ∧ (∀ i, b.feedId ≤ zs i ∧ zs i < b'.feedId) ∧
      Function.Injective zs ∧ ∀ i, φ i (zs i) b' := by
  induction k generalizing b with
  | zero => exact .pure ⟨hb, fun i => i.elim0, fun i => i.elim0, fun i => i.elim0⟩
  | succ k ih =>
    unfold fromFn
    refine (hf 0 b (.refl b) hb).bind fun z b₁ h₁ hz => ?_
    obtain ⟨⟨hb₁, hle, hlt⟩, hz⟩ := hz
    refine (ih hb₁ (fun i b' hb' => hf i.succ b' (h₁.trans hb')) fun i => hφ i.succ).bind
      fun zs b₂ h₂ hzs => ?_
    obtain ⟨hb₂, hrange, hinj, hzs⟩ := hzs
    refine .pure ⟨hb₂, Fin.cases ⟨hle, hlt.trans_le h₂.le⟩ fun i =>
      ⟨h₁.le.trans (hrange i).1, (hrange i).2⟩, Fin.cons_injective_iff.mpr ⟨?_, hinj⟩,
        Fin.cases (hφ 0 z b₁ b₂ h₂ hz) hzs⟩
    rintro ⟨i, hi⟩
    have := (hrange i).1
    omega

/-- **An XOR of words** has nodes of its own. -/
theorem gives_xor (hb : Building b n) (hx : HoldsWord b v xs x) (hy : HoldsWord b v ys y) :
    Gives (xor xs ys : Method CircuitBuilder ε Word) b fun zs b' =>
      Building b' n ∧ HoldsWord b' v zs (x ^^^ y) ∧ (∀ i, b.feedId ≤ zs i) ∧
        Function.Injective zs := by
  refine (gives_fromFn (φ := fun i z b' => b'.Holds v z ((x ^^^ y).getLsbD i)) hb
    (fun i b' h' hb' => ?_)
    fun i z b' b'' h h' => h'.of_extends h).mono fun zs b₁ _ hzs => ?_
  · have hx := hx.of_extends h' i
    have hy := hy.of_extends h' i
    rw [BitVec.getLsbD_xor]
    exact (hb'.addXorGate hx.1 hy.1).and (gives_addXorGate hx.2 hy.2)
  · obtain ⟨hb₁, hrange, hinj, hzs⟩ := hzs
    exact ⟨hb₁, fun i => ⟨Building.live_of_le (hrange i).1 (hrange i).2, hzs i⟩, fun i =>
      (hrange i).1, hinj⟩

/-! ### Rounds -/

/-- The builder is in order, and the nodes of the state and the message come to be their bits. -/
structure Holding (n : ℕ) (v : ℕ → Bool) (s : State) (S : Reference.Words) (m : Msg)
    (M : Reference.Words) (b : CircuitBuilder) : Prop where
  building : Building b n
  state : HoldsState b v s S
  msg : HoldsState b v m M

section Rounds

variable {s : State} {m : Msg} {S M : Reference.Words}

theorem Holding.update (h : Holding n v s S m M b) (hb : b.Extends b') (hb' : Building b' n)
    (k : Fin 16) (hx : HoldsWord b' v xs x) : Holding n v (Function.update s k xs)
    (Function.update S k x) m M b' :=
  ⟨hb', (h.state.of_extends hb).update k hx, h.msg.of_extends hb⟩

/-- A word of the state becomes a sum. -/
theorem Holding.add (h : Holding n v s S m M b) (hx : HoldsWord b v xs x) (hy : HoldsWord b v ys y)
    (k : Fin 16) :
    Gives (add xs ys : Method CircuitBuilder ε Word) b fun zs =>
      Holding n v (Function.update s k zs) (Function.update S k (x + y)) m M :=
  (gives_add h.building hx hy).mono fun _ _ hb hzs => h.update hb hzs.1 k hzs.2

/-- A word of the state becomes an XOR, rotated. -/
theorem Holding.xor (h : Holding n v s S m M b) (hx : HoldsWord b v xs x) (hy : HoldsWord b v ys y)
    (k : Fin 16) (r : Fin 32) :
    Gives (xor xs ys : Method CircuitBuilder ε Word) b fun zs =>
      Holding n v (Function.update (Function.update s k zs) k
        (rotateLeft (Function.update s k zs k) r))
        (Function.update S k ((x ^^^ y).rotateRight r)) m M :=
  (gives_xor h.building hx hy).mono fun zs b' hb hzs => by
    rw [Function.update_self, Function.update_idem]
    exact h.update hb hzs.1 k (hzs.2.1.rotateLeft r)

/-- **The mix function.** -/
theorem gives_mix (h : Holding n v s S m M b) (a b' c d mx my : Fin 16) :
    Gives (mix s m a b' c d mx my : Method CircuitBuilder ε State) b fun t =>
      Holding n v t (Reference.mix S a b' c d (M mx) (M my)) m M := by
  obtain ⟨T, hT⟩ : ∃ T, Reference.mix S a b' c d (M mx) (M my) = T := ⟨_, rfl⟩
  rw [hT]
  unfold Reference.mix at hT
  extract_lets S₁ S₂ S₃ S₄ S₅ S₆ S₇ at hT
  unfold mix
  refine (h.add (h.state a) (h.state b') a).bind fun w₁ b₁ _ h => ?_
  refine (h.add (h.state a) (h.msg mx) a).bind fun w₂ b₂ _ h => ?_
  -- Two additions in a row are one step on words.
  rw [Function.update_self a (S a + S b') S, Function.update_idem (f := S)] at h
  change Holding n v _ S₁ m M b₂ at h
  refine (h.xor (h.state d) (h.state a) d 16).bind fun w₃ b₃ _ h => ?_
  change Holding n v _ S₂ m M b₃ at h
  refine (h.add (h.state c) (h.state d) c).bind fun w₄ b₄ _ h => ?_
  change Holding n v _ S₃ m M b₄ at h
  refine (h.xor (h.state b') (h.state c) b' 12).bind fun w₅ b₅ _ h => ?_
  change Holding n v _ S₄ m M b₅ at h
  refine (h.add (h.state a) (h.state b') a).bind fun w₆ b₆ _ h => ?_
  refine (h.add (h.state a) (h.msg my) a).bind fun w₇ b₇ _ h => ?_
  rw [Function.update_self a (S₄ a + S₄ b') S₄, Function.update_idem (f := S₄)] at h
  change Holding n v _ S₅ m M b₇ at h
  refine (h.xor (h.state d) (h.state a) d 8).bind fun w₈ b₈ _ h => ?_
  change Holding n v _ S₆ m M b₈ at h
  refine (h.add (h.state c) (h.state d) c).bind fun w₉ b₉ _ h => ?_
  change Holding n v _ S₇ m M b₉ at h
  refine (h.xor (h.state b') (h.state c) b' 7).bind fun w₀ b₀ _ h => ?_
  exact .pure (hT ▸ h)

/-- **The round function.** -/
theorem gives_round (h : Holding n v s S m M b) :
    Gives (round s m : Method CircuitBuilder ε State) b fun t =>
      Holding n v t (Reference.round S M) m M := by
  unfold round
  refine (gives_mix h 0 4 8 12 0 1).bind fun s b₁ _ h => ?_
  refine (gives_mix h 1 5 9 13 2 3).bind fun s b₂ _ h => ?_
  refine (gives_mix h 2 6 10 14 4 5).bind fun s b₃ _ h => ?_
  refine (gives_mix h 3 7 11 15 6 7).bind fun s b₄ _ h => ?_
  refine (gives_mix h 0 5 10 15 8 9).bind fun s b₅ _ h => ?_
  refine (gives_mix h 1 6 11 12 10 11).bind fun s b₆ _ h => ?_
  refine (gives_mix h 2 7 8 13 12 13).bind fun s b₇ _ h => ?_
  exact gives_mix h 3 4 9 14 14 15

/-- The orders in which the rounds read a message that is permuted behind each of them. -/
def iterates (k : ℕ) : List (Fin 16 → Fin 16) := (List.range k).map fun r => msgPermutation^[r]

theorem iterates_succ (k : ℕ) : iterates (k + 1) = iterates k ++ [msgPermutation^[k]] := by
  rw [iterates, List.range_succ, List.map_append, List.map_singleton, iterates]

theorem rounds_iterates_succ (k : ℕ) : Reference.rounds (iterates (k + 1)) S M =
    Reference.rounds (iterates k) (Reference.round S M) fun i => M (msgPermutation i) := by
  simp only [Reference.rounds, iterates, List.range_succ_eq_map, List.map_cons, List.map_map,
    List.foldl_cons, List.foldl_map, Function.comp_apply, Function.iterate_zero, id,
    Function.iterate_succ_apply']

/-- **Some rounds.** What is left is the message of the next one. -/
theorem gives_rounds (k : ℕ) (h : Holding n v s S m M b) :
    Gives (rounds k s m : Method CircuitBuilder ε (State × Msg)) b fun out b' =>
      Holding n v out.1 (Reference.rounds (iterates k) S M) out.2
        (fun i => M (msgPermutation^[k] i)) b' := by
  induction k generalizing s m S M b with
  | zero => exact .pure h
  | succ k ih =>
    unfold rounds
    refine (gives_round h).bind fun t b₁ h₁ ht => ?_
    rw [rounds_iterates_succ]
    simp only [Function.iterate_succ_apply']
    exact ih ⟨ht.building, ht.state, fun i => ht.msg (msgPermutation i)⟩

/-- The message is permuted so that every round reads it in the order of the schedule. -/
theorem schedule_eq : Reference.schedule = iterates 7 := by
  unfold Reference.schedule iterates
  simp only [List.range_succ, List.range_zero, List.nil_append, List.cons_append, List.map_cons,
    List.map_nil, List.cons.injEq, and_true]
  decide

end Rounds

/-! ### The last loop -/

/-- The words of some places have different nodes, all from a bound on. -/
structure Fresh (start : ℕ) (U : Fin 16 → Prop) (s : State) : Prop where
  le : ∀ i, U i → ∀ j, start ≤ s i j
  inj : ∀ i i' j j', U i → U i' → s i j = s i' j' → i = i' ∧ j = j'

theorem Fresh.update {start bound : ℕ} {U : Fin 16 → Prop} {s : State} (h : Fresh start U s)
    (hlt : ∀ i, U i → ∀ j, s i j < bound) (hstart : start ≤ bound) (k : Fin 16)
    (hle : ∀ j, bound ≤ xs j) (hinj : Function.Injective xs) : Fresh start (fun i => U i ∨ i = k)
    (Function.update s k xs) := by
  constructor
  · intro i hi j
    by_cases hik : i = k
    · rw [hik, Function.update_self]
      exact hstart.trans (hle j)
    · rw [Function.update_of_ne hik]
      exact h.le i (hi.resolve_right hik) j
  · intro i i' j j' hi hi' heq
    by_cases hik : i = k
    · by_cases hik' : i' = k
      · rw [hik, hik', Function.update_self] at heq
        exact ⟨hik.trans hik'.symm, hinj heq⟩
      · rw [hik, Function.update_self, Function.update_of_ne hik'] at heq
        have hlt' := hlt i' (hi'.resolve_right hik') j'
        have hle' := hle j
        omega
    · by_cases hik' : i' = k
      · rw [hik', Function.update_self, Function.update_of_ne hik] at heq
        have hlt' := hlt i (hi.resolve_right hik) j
        have hle' := hle j'
        omega
      · rw [Function.update_of_ne hik, Function.update_of_ne hik'] at heq
        exact h.inj i i' j j' (hi.resolve_right hik) (hi'.resolve_right hik') heq

/-- One turn of the last loop, on words. -/
def feedStep (H : Reference.Words) (V : Reference.Words) (i : Fin 8) : Reference.Words :=
  let V := Function.update V (Fin.castAdd 8 i) (V (Fin.castAdd 8 i) ^^^ V (Fin.natAdd 8 i))
  Function.update V (Fin.natAdd 8 i) (V (Fin.natAdd 8 i) ^^^ H (Fin.castAdd 8 i))

/-- **The last loop.** All words that it writes have nodes of their own. -/
theorem gives_feedForward {h s : State} {H V : Reference.Words} {start : ℕ} {U : Fin 16 → Prop}
    (is : List (Fin 8)) (hb : Building b n) (hh : HoldsState b v h H) (hs : HoldsState b v s V)
    (hU : Fresh start U s) (hstart : start ≤ b.feedId) :
    Gives (feedForward h is s : Method CircuitBuilder ε State) b fun t b' =>
      Building b' n ∧ HoldsState b' v t (is.foldl (feedStep H) V) ∧
        Fresh start (fun k => U k ∨ ∃ i ∈ is, k = Fin.castAdd 8 i ∨ k = Fin.natAdd 8 i) t := by
  induction is generalizing s V U b with
  | nil => exact .pure ⟨hb, hs, ⟨fun i hi => hU.le i (by simpa using hi), fun i i' j j' hi hi' =>
      hU.inj i i' j j' (by simpa using hi) (by simpa using hi')⟩⟩
  | cons i is ih =>
    unfold feedForward
    refine (gives_xor hb (hs _) (hs _)).bind fun w₁ b₁ h₁ hw₁ => ?_
    obtain ⟨hb₁, hw₁, hle₁, hinj₁⟩ := hw₁
    have hs₁ := (hs.of_extends h₁).update (Fin.castAdd 8 i) hw₁
    have hU₁ := hU.update (fun k _ j => (hs k j).1.lt) hstart (Fin.castAdd 8 i) hle₁ hinj₁
    refine (gives_xor hb₁ (hs₁ _) ((hh.of_extends h₁) _)).bind fun w₂ b₂ h₂ hw₂ => ?_
    obtain ⟨hb₂, hw₂, hle₂, hinj₂⟩ := hw₂
    have hs₂ := (hs₁.of_extends h₂).update (Fin.natAdd 8 i) hw₂
    have hU₂ := hU₁.update (fun k _ j => (hs₁ k j).1.lt) (hstart.trans h₁.le)
      (Fin.natAdd 8 i) hle₂ hinj₂
    refine (ih hb₂ ((hh.of_extends h₁).of_extends h₂) hs₂ hU₂
      ((hstart.trans h₁.le).trans h₂.le)).mono
      fun t b₃ _ ht => ⟨ht.1, ht.2.1, ?_⟩
    have hsub : ∀ k, (U k ∨ ∃ j ∈ i :: is, k = Fin.castAdd 8 j ∨ k = Fin.natAdd 8 j) →
        ((U k ∨ k = Fin.castAdd 8 i) ∨ k = Fin.natAdd 8 i) ∨ ∃ j ∈ is, k = Fin.castAdd 8 j ∨
        k = Fin.natAdd 8 j := by
      rintro k (hk | ⟨j, hj, hk⟩)
      · exact .inl (.inl (.inl hk))
      · rcases List.mem_cons.mp hj with rfl | hj
        · exact .inl (hk.imp_left .inr)
        · exact .inr ⟨j, hj, hk⟩
    exact ⟨fun k hk => ht.2.2.le k (hsub k hk), fun k k' j j' hk hk' =>
      ht.2.2.inj k k' j j' (hsub k hk) (hsub k' hk')⟩

/-- What the last loop comes to. -/
theorem foldl_feedStep (H V : Reference.Words) :
    (List.finRange 8).foldl (feedStep H) V =
      Fin.append (fun i : Fin 8 => V (Fin.castAdd 8 i) ^^^ V (Fin.natAdd 8 i))
        fun i => V (Fin.natAdd 8 i) ^^^ H (Fin.castAdd 8 i) := by
  funext k
  fin_cases k <;> rfl

/-- Every word of a state is written by the last loop. -/
theorem exists_half (k : Fin 16) : ∃ i ∈ List.finRange 8, k = Fin.castAdd 8 i ∨
    k = Fin.natAdd 8 i :=
  Fin.addCases (m := 8) (n := 8) (fun i => ⟨i, List.mem_finRange i, .inl rfl⟩)
    (fun i => ⟨i, List.mem_finRange i, .inr rfl⟩) k

/-- The last loop as a whole. -/
theorem gives_feedForward_all {h s : State} {H V : Reference.Words} {start : ℕ} (hb : Building b n)
    (hh : HoldsState b v h H) (hs : HoldsState b v s V) (hstart : start ≤ b.feedId) :
    Gives (feedForward h (List.finRange 8) s : Method CircuitBuilder ε State) b fun t b' =>
      Building b' n ∧
        HoldsState b' v t (Fin.append (fun i : Fin 8 => V (Fin.castAdd 8 i) ^^^ V (Fin.natAdd 8 i))
          fun i => V (Fin.natAdd 8 i) ^^^ H (Fin.castAdd 8 i)) ∧
        Fresh start (fun _ => True) t := by
  refine (gives_feedForward (U := fun _ => False) (List.finRange 8) hb hh hs
    ⟨nofun, nofun⟩ hstart).mono
    fun t b' _ ht => ⟨ht.1, ?_, ?_⟩
  · rw [← foldl_feedStep]
    exact ht.2.1
  · exact ⟨fun k _ => ht.2.2.le k (.inr (exists_half k)), fun k k' j j' _ _ =>
      ht.2.2.inj k k' j j' (.inr (exists_half k)) (.inr (exists_half k'))⟩

/-- **The compression function**, whose words have nodes of their own. -/
theorem gives_compressInternal {msg : Msg} {state : State} {M S : Reference.Words}
    (hb : Building b n) (hm : HoldsState b v msg M) (hs : HoldsState b v state S) :
    Gives (compressInternal msg state : Method CircuitBuilder ε State) b fun t b' =>
      Building b' n ∧ HoldsState b' v t (Reference.compress M S) ∧
        Fresh b.feedId (fun _ => True) t := by
  unfold compressInternal
  refine (gives_rounds 6 ⟨hb, hs, hm⟩).bind ?_
  rintro ⟨s₁, m₁⟩ b₁ h₁ hS'
  dsimp only at hS' ⊢
  refine (gives_round hS').bind fun t b₂ h₂ ht => ?_
  have hV : Reference.rounds Reference.schedule S M =
      Reference.round (Reference.rounds (iterates 6) S M) fun i => M (msgPermutation^[6] i) := by
    rw [schedule_eq, iterates_succ, Reference.rounds, List.foldl_append]
    rfl
  rw [← hV] at ht
  rw [Reference.compress]
  exact gives_feedForward_all ht.building ((hs.of_extends h₁).of_extends h₂) ht.state
    (h₁.le.trans h₂.le)

/-! ### Inputs and outputs -/

/-- The method adds some inputs, and gives back what their ids make. -/
def AddsInputs (m : Method CircuitBuilder ε α) (k : ℕ) (r : ℕ → α) : Prop :=
  ∀ b : CircuitBuilder, ∃ b', m b = (.ok (r b.feedId), b') ∧ b'.feedId = b.feedId + k ∧
    b'.inputs = b.inputs ++ List.range' b.feedId k ∧ b'.gates = b.gates ∧ b'.outputs = b.outputs

theorem addsInputs_addInput : AddsInputs (addInput : Method CircuitBuilder ε ℕ) 1 id :=
  fun b => ⟨(addInput (ε := ε) b).2, rfl, rfl, rfl, rfl, rfl⟩

theorem AddsInputs.fromFn {m : Method CircuitBuilder ε α} {k : ℕ} {r : ℕ → α} (h : AddsInputs m k r)
    (l : ℕ) :
    AddsInputs (fromFn l fun _ => m) (k * l) fun start i => r (start + k * i) := by
  induction l with
  | zero =>
    refine fun b => ⟨b, ?_, rfl, (List.append_nil _).symm, rfl, rfl⟩
    unfold Blake3Circuit.fromFn
    exact congrArg (fun f => (Outcome.ok f, b)) (funext fun i => i.elim0)
  | succ l ih =>
    intro b
    obtain ⟨b₁, hrun, hfeed, hin, hgates, hout⟩ := h b
    obtain ⟨b₂, hrun', hfeed', hin', hgates', hout'⟩ := ih b₁
    refine ⟨b₂, ?_, by rw [hfeed', hfeed, Nat.mul_succ]; omega, ?_, hgates'.trans hgates,
      hout'.trans hout⟩
    · unfold Blake3Circuit.fromFn
      rw [Method.bind_apply_of_ok hrun, Method.bind_apply_of_ok hrun']
      refine congrArg (fun f => (Outcome.ok f, b₂)) (funext (Fin.cases rfl fun i => ?_))
      show r (b₁.feedId + k * i) = r (b.feedId + k * i.succ)
      rw [hfeed, Fin.val_succ, Nat.mul_succ, Nat.add_assoc, Nat.add_comm k]
    · rw [hin', hin, hfeed, List.append_assoc, Nat.mul_succ, Nat.add_comm (k * l),
        List.range'_append_1]

/-- The words of an array are added, from the next feed on. -/
theorem addsInputs_words :
    AddsInputs (fromFn 16 fun _ => fromFn 32 fun _ => addInput : Method CircuitBuilder ε State) 512
      fun start i j => start + 32 * i + j := by
  have h := ((addsInputs_addInput (ε := ε)).fromFn 32).fromFn 16
  simpa only [Nat.one_mul, id] using h

theorem length_bits (words : Reference.Words) : (bits words).length = 512 := length_flat _

theorem getElem?_bits (words : Reference.Words) (i : Fin 16) (j : Fin 32) :
    (bits words)[32 * i.val + j.val]? = some ((words i).getLsbD j) :=
  getElem?_flat (fun i (j : Fin 32) => (words i).getLsbD j) i j

/-- The inputs of a builder without gates come to be what is assigned to them. -/
theorem holdsState_inputs {bits : List Bool} {words : Reference.Words} {start : ℕ}
    (hgates : b.gates = []) (hfeed : start + 2 + 512 ≤ b.feedId)
    (hbits : ∀ (i : Fin 16) (j : Fin 32), bits[start + (32 * i.val + j.val)]? =
      some ((words i).getLsbD j)) :
    HoldsState b (fun i => bits.getD (i - 2) false) (fun i j => start + 2 + 32 * i + j) words := by
  intro i j
  have hi := i.isLt
  have hj := j.isLt
  have hlt : start + 2 + 32 * i.val + j.val < b.feedId := by omega
  have hle : 2 ≤ start + 2 + 32 * i.val + j.val := by omega
  refine ⟨⟨hle, hlt⟩, hlt, ?_⟩
  rw [CircuitBuilder.value, hgates, List.foldl_nil, constants_of_le hle,
    show start + 2 + 32 * i.val + j.val - 2 = start + (32 * i.val + j.val) by
    omega, List.getD_eq_getElem?_getD,
    hbits, Option.getD_some]

theorem forEach_addOutput (l : List ℕ) (b : CircuitBuilder) :
    Method.forEach (ε := ε) addOutput l b = (.ok (), { b with outputs := b.outputs ++ l }) := by
  induction l generalizing b with
  | nil =>
    rw [List.append_nil]
    rfl
  | cons x l ih =>
    refine (ih _).trans ?_
    rw [List.append_assoc, List.singleton_append]

theorem forEach_outputs (l : List Word) (b : CircuitBuilder) :
    Method.forEach (ε := ε) (fun word => Method.forEach addOutput (List.ofFn word)) l b =
      (.ok (), { b with outputs := b.outputs ++ (l.map fun word => List.ofFn word).flatten }) := by
  induction l generalizing b with
  | nil =>
    rw [List.map_nil, List.flatten_nil, List.append_nil]
    rfl
  | cons word l ih =>
    rw [Method.forEach, Method.bind_apply_of_ok (forEach_addOutput (List.ofFn word) b), ih,
      List.map_cons, List.flatten_cons, List.append_assoc]

/-- What the builder holds when the inputs are added. -/
theorem exists_inputs (block state : Reference.Words) :
    ∃ (msg : Msg) (s : State) (b b' : CircuitBuilder),
      (fromFn 16 fun _ => fromFn 32 fun _ => addInput : Method CircuitBuilder ε State) .new =
        (.ok msg, b) ∧
      (fromFn 16 fun _ => fromFn 32 fun _ => addInput : Method CircuitBuilder ε State) b =
        (.ok s, b') ∧
      Building b' 1024 ∧
      HoldsState b' (fun i => (bits block ++ bits state).getD (i - 2) false) msg block ∧
      HoldsState b' (fun i => (bits block ++ bits state).getD (i - 2) false) s state := by
  obtain ⟨b₁, hrun₁, hfeed₁, hin₁, hgates₁, hout₁⟩ := addsInputs_words (ε := ε) .new
  obtain ⟨b₂, hrun₂, hfeed₂, hin₂, hgates₂, hout₂⟩ := addsInputs_words (ε := ε) b₁
  have hnew : (CircuitBuilder.new).feedId = 2 := rfl
  have hnew' : (CircuitBuilder.new).inputs = [] := rfl
  have h₁ : b₁.feedId = 512 + 2 := by rw [hfeed₁, hnew]
  have h₂ : b₂.feedId = 2 + 1024 := by rw [hfeed₂, h₁]
  have hgates : b₂.gates = [] := hgates₂.trans hgates₁
  refine ⟨_, _, b₁, b₂, hrun₁, hrun₂,
    ⟨⟨?_, by rw [h₂, hgates, List.length_nil], ?_, by rw [hgates]; nofun⟩,
    hout₂.trans hout₁⟩, ?_, ?_⟩
  · rw [hin₂, hin₁, h₁, hnew, hnew', List.nil_append, Nat.add_comm 512 2, List.range'_append_1]
  · rw [hgates, List.map_nil, List.length_nil, List.range'_zero]
  · rw [hnew, ← Nat.zero_add 2]
    refine holdsState_inputs hgates (by omega) fun i j => ?_
    have hi := i.isLt
    have hj := j.isLt
    rw [Nat.zero_add, List.getElem?_append_left (by rw [length_bits]; omega), getElem?_bits]
  · rw [h₁]
    refine holdsState_inputs hgates (by omega) fun i j => ?_
    rw [List.getElem?_append_right (by rw [length_bits]; omega), length_bits,
      Nat.add_sub_cancel_left, getElem?_bits]

theorem built_eq {m : Method CircuitBuilder Empty Unit} {circ : Circuit} (hm : m .new = (.ok (), b))
    (hb : b.build = .ok circ) : built m = .ok circ := by
  unfold built
  rw [hm]
  dsimp only
  rw [hb]

/-- The four steps of the circuit, from any builder: nothing may be evaluated on a concrete one. -/
theorem compressNodes_eq {msg s output : State} {b₀ b₁ b₂ b₃ b₄ : CircuitBuilder}
    (h₁ : (fromFn 16 fun _ => fromFn 32 fun _ => addInput : Method CircuitBuilder ε State) b₀ =
      (.ok msg, b₁))
    (h₂ : (fromFn 16 fun _ => fromFn 32 fun _ => addInput : Method CircuitBuilder ε State) b₁ =
      (.ok s, b₂))
    (h₃ : (compressInternal msg s : Method CircuitBuilder ε State) b₂ = (.ok output, b₃))
    (h₄ : Method.forEach (ε := ε) (fun word => Method.forEach addOutput (List.ofFn word))
      (List.ofFn output) b₃ =
      (.ok (), b₄)) : compressNodes (ε := ε) b₀ = (.ok (), b₄) := by
  unfold compressNodes
  rw [Method.bind_apply_of_ok h₁, Method.bind_apply_of_ok h₂, Method.bind_apply_of_ok h₃, h₄]

/-- What the builder holds when all nodes are added, for some block and state. -/
theorem exists_compressNodes (block state : Reference.Words) :
    ∃ b : CircuitBuilder, compressNodes (ε := Empty) .new = (.ok (), b) ∧ b.Ordered 1024 ∧
      Ordered.Outputs b 1024 ∧
      b.outputs.map (b.value fun i => (bits block ++ bits state).getD (i - 2) false) =
        bits (Reference.compress block state) := by
  obtain ⟨msg, s, b₁, b₂, hrun₁, hrun₂, hbuilding, hblock, hstate⟩ :=
    exists_inputs (ε := Empty) block state
  obtain ⟨output, b₃, hrun₃, hext, hbuild, houtput, hfresh⟩ :=
    gives_compressInternal (ε := Empty) hbuilding hblock hstate
  have hstart : 2 + 1024 ≤ b₂.feedId := by
    rw [hbuilding.ordered.feedId]
    exact Nat.le_add_right _ _
  have houts : Method.forEach (ε := Empty) (fun word => Method.forEach addOutput (List.ofFn word))
      (List.ofFn output)
      b₃ = (.ok (), { b₃ with outputs := flat output }) := by
    rw [forEach_outputs, hbuild.outputs, List.nil_append, List.map_ofFn]
    rfl
  have hordered : Ordered { b₃ with outputs := flat output } 1024 :=
    ⟨hbuild.ordered.inputs, hbuild.ordered.feedId, hbuild.ordered.writes, hbuild.ordered.reads⟩
  have hdiff : Ordered.Outputs { b₃ with outputs := flat output } 1024 := by
    refine ⟨nodup_flat fun i i' j j' => hfresh.inj i i' j j' trivial trivial, fun x hx => ?_⟩
    obtain ⟨i, j, rfl⟩ := mem_flat.mp hx
    exact ⟨hstart.trans (hfresh.le i trivial j), (houtput i j).1.lt⟩
  refine ⟨_, compressNodes_eq hrun₁ hrun₂ hrun₃ houts, hordered, hdiff, ?_⟩
  refine (map_flat (b₃.value fun i => (bits block ++ bits state).getD (i - 2) false) output).trans
    ?_
  exact congrArg flat (funext fun i => funext fun j => (houtput i j).2.value)

/-- **The compression circuit** is built, and on the bits of every message block and every state it
evaluates to the bits of all sixteen words of the compression function. -/
theorem compress_correct :
    ∃ circ, compress = .ok circ ∧ ∀ block state : Reference.Words,
      circ.evaluate (bits block ++ bits state) = .ok (bits (Reference.compress block state)) := by
  have hrun : ∀ block state : Reference.Words, ∃ circ, compress = .ok circ ∧
      circ.evaluate (bits block ++ bits state) = .ok (bits (Reference.compress block state)) := by
    intro block state
    obtain ⟨b, hnodes, hordered, houts, hvalue⟩ := exists_compressNodes block state
    have hlen : (bits block ++ bits state).length = 512 + 512 := by
      rw [List.length_append, length_bits, length_bits]
    obtain ⟨circ, hbuild, heval⟩ := hordered.evaluate_build houts hlen
    exact ⟨circ, built_eq hnodes hbuild, by rw [heval, hvalue]⟩
  obtain ⟨circ, hcirc, -⟩ := hrun (fun _ => 0) fun _ => 0
  refine ⟨circ, hcirc, fun block state => ?_⟩
  obtain ⟨circ', hcirc', heval⟩ := hrun block state
  obtain rfl := Outcome.ok.inj (hcirc.symm.trans hcirc')
  exact heval

end Blake3Circuit

end Mpz
