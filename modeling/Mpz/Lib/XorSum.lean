import Mathlib.Data.List.Basic

/-!
# Sums by xor

## Main definitions

* `xorAll` — the xor of a list

## Main results

* `xorAll_append`, `xorAll_map_xor`, `xorAll_set` — the xor of lists that are made of others
* `xorAll_filter_split` — a selection is cut in two
* `foldl_xor` — a loop that adds to an accumulator
-/

namespace Mpz

variable {w : ℕ} {α : Type}

/-- The xor of a list. -/
def xorAll : List (BitVec w) → BitVec w
  | [] => 0#w
  | x :: l => x ^^^ xorAll l

@[simp] theorem xorAll_nil : xorAll ([] : List (BitVec w)) = 0#w := rfl

@[simp] theorem xorAll_cons (x : BitVec w) (l : List (BitVec w)) :
    xorAll (x :: l) = x ^^^ xorAll l := rfl

/-- What is added on both sides of a sum goes out. -/
theorem xor_xor_cancel_left (x y : BitVec w) : x ^^^ (x ^^^ y) = y := by
  rw [← BitVec.xor_assoc, BitVec.xor_self, BitVec.zero_xor]

theorem xor_xor_cancel_right (x y : BitVec w) : x ^^^ y ^^^ y = x := by
  rw [BitVec.xor_assoc, BitVec.xor_self, BitVec.xor_zero]

theorem xorAll_map_zero (l : List α) : xorAll (l.map fun _ => 0#w) = 0#w := by
  induction l with
  | nil => rfl
  | cons x l ih => rw [List.map_cons, xorAll_cons, ih, BitVec.xor_zero]

theorem xorAll_append (l k : List (BitVec w)) : xorAll (l ++ k) = xorAll l ^^^ xorAll k := by
  induction l with
  | nil => rw [List.nil_append, xorAll_nil, BitVec.zero_xor]
  | cons x l ih => rw [List.cons_append, xorAll_cons, xorAll_cons, ih, BitVec.xor_assoc]

/-- The sums may be made one by one. -/
theorem xorAll_map_xor (f g : α → BitVec w) (l : List α) :
    xorAll (l.map fun x => f x ^^^ g x) = xorAll (l.map f) ^^^ xorAll (l.map g) := by
  induction l with
  | nil => simp
  | cons x l ih =>
    have hswap : g x ^^^ (xorAll (l.map f) ^^^ xorAll (l.map g)) =
        xorAll (l.map f) ^^^ (g x ^^^ xorAll (l.map g)) := by
      rw [← BitVec.xor_assoc, BitVec.xor_comm (g x), BitVec.xor_assoc]
    rw [List.map_cons, List.map_cons, List.map_cons, xorAll_cons, xorAll_cons, xorAll_cons, ih,
      BitVec.xor_assoc, BitVec.xor_assoc, hswap]

/-- One element is replaced. -/
theorem xorAll_set {l : List (BitVec w)} {i : ℕ} (h : i < l.length) (y : BitVec w) :
    xorAll (l.set i y) = xorAll l ^^^ l[i] ^^^ y := by
  induction l generalizing i with
  | nil => cases h
  | cons x l ih =>
    cases i with
    | zero =>
      rw [List.set_cons_zero, xorAll_cons, xorAll_cons, List.getElem_cons_zero, BitVec.xor_comm x,
        xor_xor_cancel_right, BitVec.xor_comm]
    | succ i =>
      have hi : i < l.length := Nat.lt_of_succ_lt_succ h
      rw [List.set_cons_succ, xorAll_cons, xorAll_cons, ih hi, List.getElem_cons_succ,
        ← BitVec.xor_assoc, ← BitVec.xor_assoc]

/-- A loop that adds to an accumulator. -/
theorem foldl_xor (f : α → BitVec w) (l : List α) (acc : BitVec w) :
    l.foldl (fun acc x => acc ^^^ f x) acc = acc ^^^ xorAll (l.map f) := by
  induction l generalizing acc with
  | nil => rw [List.foldl_nil, List.map_nil, xorAll_nil, BitVec.xor_zero]
  | cons x l ih => rw [List.foldl_cons, ih, List.map_cons, xorAll_cons, BitVec.xor_assoc]

/-- The sum over the elements that a condition selects. -/
theorem xorAll_filter (p : α → Bool) (f : α → BitVec w) (l : List α) :
    xorAll ((l.filter p).map f) = xorAll (l.map fun x => if p x then f x else 0#w) := by
  induction l with
  | nil => rfl
  | cons x l ih =>
    cases hx : p x with
    | true => rw [List.filter_cons_of_pos hx, List.map_cons, List.map_cons, xorAll_cons,
        xorAll_cons, ih, hx, if_pos rfl]
    | false =>
      rw [List.filter_cons_of_neg (by simp [hx]), List.map_cons, xorAll_cons, ih, hx,
        if_neg Bool.false_ne_true, BitVec.zero_xor]

/-- A selection is cut in two. -/
theorem xorAll_filter_split {p q r : α → Bool} (f : α → BitVec w) {l : List α}
    (h : ∀ x ∈ l, p x = (q x ^^ r x) ∧ ¬ (q x = true ∧ r x = true)) :
    xorAll ((l.filter p).map f) = xorAll ((l.filter q).map f) ^^^ xorAll ((l.filter r).map f) := by
  rw [xorAll_filter, xorAll_filter, xorAll_filter, ← xorAll_map_xor]
  refine congrArg xorAll (List.map_congr_left fun x hx => ?_)
  obtain ⟨hp, hnot⟩ := h x hx
  rw [hp]
  cases hq : q x <;> cases hr : r x <;> simp_all

end Mpz
