import Mpz.Memory.Correlated

/-!
# Half gates

One AND gate, garbled as two half gates and evaluated from the active labels. The tweakable hash is
a parameter, a function of the tweak and of the block; the tweak of a gate is its gate id, written
as a 128-bit integer.

## Main definitions

* `EncryptedGate`, `EncryptedGateBatch`
* `Garbler.andGate`, `Evaluator.andGate`

## Main results

* `Evaluator.andGate_garble` — evaluating a garbled gate gives the label of the conjunction
-/

namespace Mpz

/-- The hash in place of the tweakable circular correlation-robust one. -/
abbrev Tccr := BitVec 128 → Block → Block

/-- The tweak of a gate id: `(gid as u128).to_be_bytes()`, as the integer that the bytes encode. -/
def tweak (gid : ℕ) : BitVec 128 := BitVec.ofNat 128 gid

/-- Encrypted gate truth table. -/
structure EncryptedGate where
  /-- The garbled row of the garbler half gate. -/
  tg : Block
  /-- The garbled row of the evaluator half gate. -/
  te : Block
  deriving DecidableEq, Repr

instance : Inhabited EncryptedGate := ⟨⟨Block.zero, Block.zero⟩⟩

/-- A batch of encrypted gates. -/
abbrev EncryptedGateBatch := List EncryptedGate

/-- Computes half-gate garbled AND gate. -/
def Garbler.andGate (tccr : Tccr) (x₀ y₀ : Block) (delta : Delta) (gid : ℕ) :
    Block × EncryptedGate :=
  let x₁ := x₀ ^^^ delta.block
  let y₁ := y₀ ^^^ delta.block
  let pa := x₀.lsb
  let pb := y₀.lsb
  let j := tweak gid
  let k := tweak (gid + 1)
  let hx₀ := tccr j x₀
  let hy₀ := tccr k y₀
  let hx₁ := tccr j x₁
  let hy₁ := tccr k y₁
  -- Garbled row of garbler half-gate
  let tg := hx₀ ^^^ hx₁ ^^^ (Block.selectMask pb &&& delta.block)
  let wg := hx₀ ^^^ (Block.selectMask pa &&& tg)
  -- Garbled row of evaluator half-gate
  let te := hy₀ ^^^ hy₁ ^^^ x₀
  let we := hy₀ ^^^ (Block.selectMask pb &&& (te ^^^ x₀))
  (wg ^^^ we, ⟨tg, te⟩)

/-- Evaluates half-gate garbled AND gate. -/
def Evaluator.andGate (tccr : Tccr) (x y : Block) (encryptedGate : EncryptedGate) (gid : ℕ) :
    Block :=
  let sa := x.lsb
  let sb := y.lsb
  let j := tweak gid
  let k := tweak (gid + 1)
  let hx := tccr j x
  let hy := tccr k y
  let wg := hx ^^^ (encryptedGate.tg &&& Block.selectMask sa)
  let we := hy ^^^ (Block.selectMask sb &&& (encryptedGate.te ^^^ x))
  wg ^^^ we

/-! ### The two halves -/

variable (tccr : Tccr) (delta : Delta)

/-- The garbler half: from the label of `a` it yields the label of `a && pb`, where `pb` is the
right pointer bit. -/
theorem garblerHalf (x₀ h₀ h₁ : Block) (a pb : Bool) (tg : Block)
    (htg : tg = h₀ ^^^ h₁ ^^^ (Block.selectMask pb &&& delta.block)) :
    (if a then h₁ else h₀) ^^^ (tg &&& Block.selectMask (x₀ ^^^ delta.select a).lsb) =
      h₀ ^^^ (Block.selectMask x₀.lsb &&& tg) ^^^ delta.select (a && pb) := by
  have hlsb : (x₀ ^^^ delta.select a).lsb = (x₀.lsb ^^ a) := by simp
  rw [hlsb, BitVec.and_comm, Block.selectMask_and, Block.selectMask_and, htg, Block.selectMask_and]
  cases a <;> cases x₀.lsb <;> cases pb <;>
    simp only [Delta.select_true, Delta.select_false, Bool.false_xor, Bool.true_xor, Bool.not_true,
      Bool.not_false, Bool.and_true, Bool.and_false, if_true, if_false, Bool.false_eq_true] <;>
    grind

/-- The evaluator half: the evaluator knows `b ^^ pb`, and adds the label of `a` if it is set. -/
theorem evaluatorHalf (x₀ y₀ h₀ h₁ : Block) (a b : Bool) (te : Block)
    (hte : te = h₀ ^^^ h₁ ^^^ x₀) :
    (if b then h₁ else h₀) ^^^
        (Block.selectMask (y₀ ^^^ delta.select b).lsb &&& (te ^^^ (x₀ ^^^ delta.select a))) =
      h₀ ^^^ (Block.selectMask y₀.lsb &&& (te ^^^ x₀)) ^^^ delta.select (a && (b ^^ y₀.lsb)) := by
  have hlsb : (y₀ ^^^ delta.select b).lsb = (y₀.lsb ^^ b) := by simp
  rw [hlsb, Block.selectMask_and, Block.selectMask_and, hte]
  cases a <;> cases y₀.lsb <;> cases b <;>
    simp only [Delta.select_true, Delta.select_false, Bool.false_xor, Bool.true_xor, Bool.not_true,
      Bool.not_false, Bool.and_true, Bool.and_false, if_true, if_false, Bool.false_eq_true] <;>
    grind

/-- **Half gates are correct.** From the labels of `a` and `b`, the evaluator obtains the label of
`a && b`. -/
theorem Evaluator.andGate_garble (x₀ y₀ : Block) (a b : Bool) (gid : ℕ) :
    Evaluator.andGate tccr (x₀ ^^^ delta.select a) (y₀ ^^^ delta.select b)
        (Garbler.andGate tccr x₀ y₀ delta gid).2 gid =
      (Garbler.andGate tccr x₀ y₀ delta gid).1 ^^^ delta.select (a && b) := by
  have hash : ∀ (t : BitVec 128) (x : Block) (c : Bool), tccr t (x ^^^ delta.select c) =
      if c then tccr t (x ^^^ delta.block) else tccr t x := by
    intro t x c
    cases c <;> simp
  have hg := garblerHalf delta x₀ (tccr (tweak gid) x₀) (tccr (tweak gid) (x₀ ^^^ delta.block)) a
    y₀.lsb _ rfl
  have he := evaluatorHalf delta x₀ y₀ (tccr (tweak (gid + 1)) y₀)
    (tccr (tweak (gid + 1)) (y₀ ^^^ delta.block)) a b _ rfl
  have hsel : delta.select (a && b) =
      delta.select (a && y₀.lsb) ^^^ delta.select (a && (b ^^ y₀.lsb)) := by
    rw [← Delta.select_xor]
    congr 1
    cases a <;> cases b <;> cases y₀.lsb <;> rfl
  simp only [Evaluator.andGate, Garbler.andGate, hash]
  rw [hg, he, hsel]
  ac_rfl

end Mpz
