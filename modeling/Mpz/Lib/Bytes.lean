import Mathlib.Algebra.Order.Ring.Nat
import Mathlib.Data.List.GetD

/-!
# Bytes of numbers

## Main definitions

* `leBytes`, `beBytes` — the bytes of a number, least or most significant first
* `ofLeBytes`, `ofBeBytes` — the number of some bytes

## Main results

* `ofLeBytes_leBytes`, `leBytes_ofLeBytes` — numbers below a power of 256 are lists of bytes
* `beBytes_eq`, `ofBeBytes_eq` — the other order is the reverse
* `testBit_eq_leBytes` — the bits of a number are those of its bytes
-/

namespace Mpz

/-- The bytes of a number, least significant first. -/
def leBytes : ℕ → ℕ → List (BitVec 8)
  | 0, _ => []
  | n + 1, v => BitVec.ofNat 8 v :: leBytes n (v / 2 ^ 8)

/-- The bytes of a number, most significant first. -/
def beBytes : ℕ → ℕ → List (BitVec 8)
  | 0, _ => []
  | n + 1, v => beBytes n (v / 2 ^ 8) ++ [BitVec.ofNat 8 v]

/-- The number of some bytes, least significant first. -/
def ofLeBytes : List (BitVec 8) → ℕ
  | [] => 0
  | b :: bytes => b.toNat + 2 ^ 8 * ofLeBytes bytes

/-- The number of some bytes, most significant first. -/
def ofBeBytes (bytes : List (BitVec 8)) : ℕ := bytes.foldl (fun v b => b.toNat + 2 ^ 8 * v) 0

variable {n v : ℕ} {bytes bytes' : List (BitVec 8)}

theorem length_leBytes (n v : ℕ) : (leBytes n v).length = n := by
  induction n generalizing v with
  | zero => rfl
  | succ n ih => rw [leBytes, List.length_cons, ih]

theorem beBytes_eq (n v : ℕ) : beBytes n v = (leBytes n v).reverse := by
  induction n generalizing v with
  | zero => rfl
  | succ n ih => rw [beBytes, ih, leBytes, List.reverse_cons]

theorem ofBeBytes_eq (bytes : List (BitVec 8)) : ofBeBytes bytes = ofLeBytes bytes.reverse := by
  have hfoldr : ∀ l, ofLeBytes l = l.foldr (fun b v => b.toNat + 2 ^ 8 * v) 0 := fun l => by
    induction l with
    | nil => rfl
    | cons b l ih => rw [ofLeBytes, List.foldr_cons, ih]
  rw [hfoldr, List.foldr_reverse, ofBeBytes]

theorem ofLeBytes_lt (bytes : List (BitVec 8)) : ofLeBytes bytes < 2 ^ (8 * bytes.length) := by
  induction bytes with
  | nil => exact Nat.one_pos
  | cons b bytes ih =>
    have hb : b.toNat < 2 ^ 8 := b.isLt
    rw [ofLeBytes, List.length_cons, Nat.mul_succ, Nat.add_comm, Nat.pow_add,
      Nat.mul_comm _ (2 ^ 8)]
    calc 2 ^ 8 * ofLeBytes bytes + b.toNat < 2 ^ 8 * ofLeBytes bytes + 2 ^ 8 :=
      Nat.add_lt_add_left hb _
      _ = 2 ^ 8 * (ofLeBytes bytes + 1) := by rw [Nat.mul_succ]
      _ ≤ 2 ^ 8 * 2 ^ (8 * bytes.length) := Nat.mul_le_mul_left _ ih

/-- **The bytes of a number give it back.** -/
theorem ofLeBytes_leBytes (h : v < 2 ^ (8 * n)) : ofLeBytes (leBytes n v) = v := by
  induction n generalizing v with
  | zero => exact (Nat.lt_one_iff.mp h).symm
  | succ n ih =>
    have hv : v / 2 ^ 8 < 2 ^ (8 * n) := by
      rw [Nat.mul_succ, Nat.pow_add] at h
      exact Nat.div_lt_of_lt_mul (Nat.mul_comm (2 ^ 8) _ ▸ h)
    rw [leBytes, ofLeBytes, ih hv, BitVec.toNat_ofNat, Nat.mod_add_div]

/-- **Bytes are those of their number.** -/
theorem leBytes_ofLeBytes (bytes : List (BitVec 8)) :
    leBytes bytes.length (ofLeBytes bytes) = bytes := by
  induction bytes with
  | nil => rfl
  | cons b bytes ih =>
    have hb : b.toNat < 2 ^ 8 := b.isLt
    rw [List.length_cons, leBytes, ofLeBytes, Nat.add_mul_div_left _ _ (Nat.two_pow_pos 8),
      Nat.div_eq_of_lt hb, Nat.zero_add, ih]
    congr 1
    rw [← BitVec.toNat_inj, BitVec.toNat_ofNat, Nat.add_mul_mod_self_left, Nat.mod_eq_of_lt hb]

theorem leBytes_eq_map (n v : ℕ) : leBytes n v = (List.range n).map fun k =>
    BitVec.ofNat 8 (v >>> (8 * k)) := by
  induction n generalizing v with
  | zero => rfl
  | succ n ih =>
    rw [leBytes, ih, List.range_succ_eq_map, List.map_cons, List.map_map]
    congr 1
    refine List.map_congr_left fun k _ => ?_
    rw [Function.comp_apply, Nat.succ_eq_add_one, Nat.mul_succ, Nat.add_comm, Nat.shiftRight_add,
      Nat.shiftRight_eq_div_pow v 8]

/-- The bits of a number are those of its bytes. -/
theorem testBit_eq_leBytes {i : ℕ} (h : i < 8 * n) :
    v.testBit i = ((leBytes n v).getD (i / 8) 0#8).getLsbD (i % 8) := by
  have hlt : i % 8 < 8 := Nat.mod_lt i (by decide)
  have hk : i / 8 < n := Nat.div_lt_of_lt_mul h
  rw [leBytes_eq_map, List.getD_eq_getElem?_getD, List.getElem?_map, List.getElem?_range hk,
    Option.map_some, Option.getD_some, BitVec.getLsbD_ofNat, decide_eq_true hlt, Bool.true_and,
    Nat.testBit_shiftRight,
    Nat.div_add_mod]

end Mpz
