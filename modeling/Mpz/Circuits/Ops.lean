import Mpz.Circuits.Builder
import Mathlib.Algebra.Order.Ring.Nat
import Mathlib.Data.Nat.ModEq

/-!
# Arithmetic circuits

Numbers are lists of nodes, the least significant bit first. Addition is a ripple of full adders,
where the first position has no carry in and the last one no carry out. Subtraction adds the
complement with a carry in, and has underflowed where no carry comes out.

## Main definitions

* `ofBits` — the number of some bits
* `fullAdder`, `wrappingAdd`, `wrappingSub`, `switch`, `addMod` — the circuits
* `CircuitBuilder.HoldsBits`, `CircuitBuilder.number` — nodes with a value, and their number

## Main results

* `CircuitBuilder.gives_wrappingAdd`, `gives_wrappingSub`, `gives_switch`, `gives_addMod`
* `arithmetic_correct` — all of them, at every width and under every assignment
-/

namespace Mpz

/-- The number of some bits, the least significant first. -/
def ofBits : List Bool → ℕ
  | [] => 0
  | bit :: bits => bit.toNat + 2 * ofBits bits

theorem ofBits_lt (bits : List Bool) : ofBits bits < 2 ^ bits.length := by
  induction bits with
  | nil => exact Nat.one_pos
  | cons bit bits ih =>
    have hbit := Bool.toNat_le bit
    rw [ofBits, List.length_cons, Nat.pow_succ]
    omega

/-- The complement. -/
theorem ofBits_map_not (bits : List Bool) :
    ofBits (bits.map not) + ofBits bits + 1 = 2 ^ bits.length := by
  induction bits with
  | nil => rfl
  | cons bit bits ih =>
    rw [List.map_cons, ofBits, ofBits, List.length_cons, Nat.pow_succ]
    cases bit <;> simp only [Bool.not_false, Bool.not_true, Bool.toNat_true, Bool.toNat_false] <;>
      omega

theorem ofBits_append_false (bits : List Bool) : ofBits (bits ++ [false]) = ofBits bits := by
  induction bits with
  | nil => rfl
  | cons bit bits ih => rw [List.cons_append, ofBits, ofBits, ih]

/-- The most significant bit of a number that has room without it is zero. -/
theorem ofBits_dropLast {bits : List Bool} {n : ℕ} (hlen : bits.length = n + 1)
    (hlt : ofBits bits < 2 ^ n) : ofBits bits.dropLast = ofBits bits := by
  induction bits generalizing n with
  | nil => cases hlen
  | cons bit bits ih =>
    cases bits with
    | nil =>
      obtain rfl : n = 0 := by simpa using hlen.symm
      rw [ofBits, ofBits] at hlt
      rw [ofBits, ofBits, List.dropLast_singleton, ofBits]
      omega
    | cons next bits =>
      obtain ⟨n, rfl⟩ : ∃ m, n = m + 1 := ⟨bits.length, by simpa using hlen.symm⟩
      rw [ofBits, Nat.pow_succ] at hlt
      have hrest : ofBits (next :: bits).dropLast = ofBits (next :: bits) :=
        ih (Nat.add_right_cancel hlen) (by omega)
      rw [List.dropLast_cons_of_ne_nil (List.cons_ne_nil _ _), ofBits, hrest, ← ofBits]

/-! ### The circuits -/

section

variable {ε : Type}

open CircuitBuilder

/-- Binary full-adder. -/
def fullAdder (a b cIn : ℕ) : Method CircuitBuilder ε (ℕ × ℕ) := do
  -- SUM = A ⊕ B ⊕ C_IN
  let ab ← addXorGate a b
  let sum ← addXorGate ab cIn
  -- C_OUT = C_IN ⊕ ((A ⊕ C_IN) ^ (B ⊕ C_IN))
  let acIn ← addXorGate a cIn
  let bcIn ← addXorGate b cIn
  let and ← addAndGate acIn bcIn
  let cOut ← addXorGate and cIn
  return (sum, cOut)

/-- Binary full-adder which does not compute the carry-out bit. -/
def fullAdderNoCarryOut (a b cIn : ℕ) : Method CircuitBuilder ε ℕ := do
  let ab ← addXorGate a b
  addXorGate ab cIn

/-- Binary half-adder. -/
def halfAdder (a b : ℕ) : Method CircuitBuilder ε (ℕ × ℕ) := do
  let sum ← addXorGate a b
  let cOut ← addAndGate a b
  return (sum, cOut)

/-- Position `n` of an addition of `len` bits. -/
def wrappingAddAt (len n cOut a b : ℕ) : Method CircuitBuilder ε (ℕ × ℕ) :=
  if n = 0 then
    -- no carry in
    halfAdder a b
  else if n < len - 1 then
    fullAdder a b cOut
  else do
    -- On the last iteration we don't compute the carry-out bit.
    let sum ← fullAdderNoCarryOut a b cOut
    return (sum, cOut)

/-- The loop of an addition of `len` bits, from position `n` on. -/
def wrappingAddFrom (len : ℕ) : ℕ → ℕ → List ℕ → List ℕ → Method CircuitBuilder ε (List ℕ)
  | n, cOut, a :: as, b :: bs => do
    let (sum, cOut) ← wrappingAddAt len n cOut a b
    let sums ← wrappingAddFrom len (n + 1) cOut as bs
    return sum :: sums
  | _, _, _, _ => return []

/-- Add two nbit values together, wrapping on overflow. -/
def wrappingAdd (a b : List ℕ) : Method CircuitBuilder ε (List ℕ) :=
  if a.length ≠ b.length then
    Method.panic
  else
    wrappingAddFrom a.length 0 getConstZero a b

/-- A circuit with one output at each position. -/
def mapNodes (f : ℕ → Method CircuitBuilder ε ℕ) : List ℕ → Method CircuitBuilder ε (List ℕ)
  | [] => return []
  | a :: as => do
    let z ← f a
    let zs ← mapNodes f as
    return z :: zs

/-- The loop of a subtraction, which adds the complement. -/
def wrappingSubFrom : ℕ → List ℕ → List ℕ → Method CircuitBuilder ε (List ℕ × ℕ)
  | bOut, a :: as, bInv :: bs => do
    let (diff, bOut) ← fullAdder a bInv bOut
    let (diffs, bOut) ← wrappingSubFrom bOut as bs
    return (diff :: diffs, bOut)
  | bOut, _, _ => return ([], bOut)

/-- Subtract two nbit values, wrapping on underflow. -/
def wrappingSub (a b : List ℕ) : Method CircuitBuilder ε (List ℕ × ℕ) :=
  if a.length ≠ b.length then
    Method.panic
  else do
    let bInv ← mapNodes addInvGate b
    -- Set first b_in to 1, which adds 1 to b_inv.
    let (diff, bOut) ← wrappingSubFrom getConstOne a bInv
    -- underflow occurred if b_out is 0
    let underflow ← addInvGate bOut
    return (diff, underflow)

/-- The loop of a switch. -/
def switchFrom (toggle notToggle : ℕ) : List ℕ → List ℕ → Method CircuitBuilder ε (List ℕ)
  | a :: as, b :: bs => do
    let aAndNotToggle ← addAndGate a notToggle
    let bAndToggle ← addAndGate b toggle
    let z ← addXorGate aAndNotToggle bAndToggle
    let zs ← switchFrom toggle notToggle as bs
    return z :: zs
  | _, _ => return []

/-- Switch between two nbit values. If `toggle` is 0, the result is `a`, otherwise it is `b`. -/
def switch (a b : List ℕ) (toggle : ℕ) : Method CircuitBuilder ε (List ℕ) :=
  if a.length ≠ b.length then
    Method.panic
  else do
    let notToggle ← addInvGate toggle
    switchFrom toggle notToggle a b

/-- Add two numbers modulo a constant modulus. -/
def addMod (a b modulus : List ℕ) : Method CircuitBuilder ε (List ℕ) :=
  if a.length ≠ b.length ∨ a.length ≠ modulus.length then
    Method.panic
  else do
    -- Tack on an extra bit to absorb overflow
    let a := a ++ [getConstZero]
    let b := b ++ [getConstZero]
    let modulus := modulus ++ [getConstZero]
    let sum ← wrappingAdd a b
    let (rem, underflow) ← wrappingSub sum modulus
    -- if sum < modulus { sum } else { sum - modulus }
    let sumReduced ← switch rem sum underflow
    -- Pop off the extra bit
    return sumReduced.dropLast

end

namespace CircuitBuilder

variable {ε : Type} {b b' : CircuitBuilder} {v : ℕ → Bool} {x y c : ℕ} {p q r : Bool}
  {xs ys ms : List ℕ} {ps qs rs : List Bool}

/-- The nodes are those of the builder, and come to be the bits. -/
def HoldsBits (b : CircuitBuilder) (v : ℕ → Bool) (nodes : List ℕ) (bits : List Bool) : Prop :=
  List.Forall₂ (b.Holds v) nodes bits

theorem HoldsBits.of_extends (h : b.HoldsBits v xs ps) (hb : b.Extends b') : b'.HoldsBits v xs ps :=
  h.imp fun _ _ h => h.of_extends hb

theorem HoldsBits.append_zero (h : b.HoldsBits v xs ps) :
    b.HoldsBits v (xs ++ [getConstZero]) (ps ++ [false]) :=
  List.rel_append h (.cons (.zero b v) .nil)

theorem HoldsBits.dropLast (h : b.HoldsBits v xs ps) : b.HoldsBits v xs.dropLast ps.dropLast := by
  rw [List.dropLast_eq_take, List.dropLast_eq_take, h.length_eq]
  exact List.forall₂_take _ h

/-! ### Adders -/

theorem gives_fullAdder (hx : b.Holds v x p) (hy : b.Holds v y q) (hc : b.Holds v c r) :
    Gives (fullAdder x y c : Method CircuitBuilder ε (ℕ × ℕ)) b fun out b' =>
      ∃ s t, b'.Holds v out.1 s ∧ b'.Holds v out.2 t ∧
        s.toNat + 2 * t.toNat = p.toNat + q.toNat + r.toNat := by
  refine (gives_addXorGate hx hy).bind fun ab b₁ h₁ hab => ?_
  have hx := hx.of_extends h₁
  have hy := hy.of_extends h₁
  have hc := hc.of_extends h₁
  refine (gives_addXorGate hab hc).bind fun sum b₂ h₂ hsum => ?_
  have hx := hx.of_extends h₂
  have hy := hy.of_extends h₂
  have hc := hc.of_extends h₂
  refine (gives_addXorGate hx hc).bind fun acIn b₃ h₃ hac => ?_
  have hc := hc.of_extends h₃
  refine (gives_addXorGate (hy.of_extends h₃) hc).bind fun bcIn b₄ h₄ hbc => ?_
  have hc := hc.of_extends h₄
  refine (gives_addAndGate (hac.of_extends h₄) hbc).bind fun and b₅ h₅ hand => ?_
  have hc := hc.of_extends h₅
  refine (gives_addXorGate hand hc).bind fun cOut b₆ h₆ hout => ?_
  refine .pure ⟨_, _, (((hsum.of_extends h₃).of_extends h₄).of_extends h₅).of_extends h₆, hout, ?_⟩
  cases p <;> cases q <;> cases r <;> rfl

theorem gives_fullAdderNoCarryOut (hx : b.Holds v x p) (hy : b.Holds v y q) (hc : b.Holds v c r) :
    Gives (fullAdderNoCarryOut x y c : Method CircuitBuilder ε ℕ) b fun out b' =>
      b'.Holds v out (p ^^ q ^^ r) := by
  refine (gives_addXorGate hx hy).bind fun ab b₁ h₁ hab => ?_
  exact gives_addXorGate hab (hc.of_extends h₁)

theorem gives_halfAdder (hx : b.Holds v x p) (hy : b.Holds v y q) :
    Gives (halfAdder x y : Method CircuitBuilder ε (ℕ × ℕ)) b fun out b' =>
      ∃ s t, b'.Holds v out.1 s ∧ b'.Holds v out.2 t ∧
        s.toNat + 2 * t.toNat = p.toNat + q.toNat := by
  refine (gives_addXorGate hx hy).bind fun sum b₁ h₁ hsum => ?_
  refine (gives_addAndGate (hx.of_extends h₁) (hy.of_extends h₁)).bind fun cOut b₂ h₂ hout => ?_
  refine .pure ⟨_, _, hsum.of_extends h₂, hout, ?_⟩
  cases p <;> cases q <;> rfl

theorem toNat_xor_mod_two (p q r : Bool) :
    (p ^^ q ^^ r).toNat = (p.toNat + q.toNat + r.toNat) % 2 := by
  cases p <;> cases q <;> cases r <;> rfl

/-- One more position of an addition. -/
theorem add_position {s t p q r P Q R n : ℕ} (hbit : s + 2 * t = p + q + r) (hs : s < 2)
    (hrest : R = (P + Q + t) % 2 ^ n) :
    s + 2 * R = (p + 2 * P + (q + 2 * Q) + r) % 2 ^ (n + 1) := by
  have hsum : p + 2 * P + (q + 2 * Q) + r = s + 2 * (P + Q + t) := by omega
  have hmod : 2 * (P + Q + t) % (2 * 2 ^ n) = 2 * ((P + Q + t) % 2 ^ n) :=
    Nat.mul_mod_mul_left _ _ _
  have hpos : 0 < 2 ^ n := Nat.two_pow_pos n
  have hlt : (P + Q + t) % 2 ^ n < 2 ^ n := Nat.mod_lt _ hpos
  have hwhole : s + 2 * ((P + Q + t) % 2 ^ n) < 2 * 2 ^ n := by omega
  rw [hsum, hrest, Nat.pow_succ, Nat.mul_comm (2 ^ n) 2, Nat.add_mod s, hmod,
    Nat.mod_eq_of_lt (show s < 2 * 2 ^ n by omega), Nat.mod_eq_of_lt hwhole]

/-- The last positions of two numbers. -/
theorem HoldsBits.cons_inv (h : b.HoldsBits v (x :: xs) ps) :
    ∃ p ps', ps = p :: ps' ∧ b.Holds v x p ∧ b.HoldsBits v xs ps' := by
  obtain ⟨p, ps', hx, hxs, rfl⟩ := List.forall₂_cons_left_iff.mp h
  exact ⟨p, ps', rfl, hx, hxs⟩

/-- The adder of a position behind the first one. Its carry is right where there is a position
behind it. -/
theorem gives_wrappingAddAt {n len : ℕ} (hn : n ≠ 0) (hlen : n + xs.length + 1 = len)
    (hx : b.Holds v x p) (hy : b.Holds v y q) (hc : b.Holds v c r) :
    Gives (wrappingAddAt len n c x y : Method CircuitBuilder ε (ℕ × ℕ)) b fun out b' =>
      ∃ s t, b'.Holds v out.1 s ∧ b'.Holds v out.2 t ∧
        s.toNat = (p.toNat + q.toNat + r.toNat) % 2 ∧
        (xs ≠ [] → s.toNat + 2 * t.toNat = p.toNat + q.toNat + r.toNat) := by
  unfold wrappingAddAt
  rw [if_neg hn]
  split
  case isTrue hlt =>
    refine (gives_fullAdder hx hy hc).mono fun out b' _ hout => ?_
    obtain ⟨s, t, hs, ht, hsum⟩ := hout
    have := Bool.toNat_le s
    exact ⟨s, t, hs, ht, by omega, fun _ => hsum⟩
  case isFalse hlt =>
    -- The last position.
    refine (gives_fullAdderNoCarryOut hx hy hc).bind fun sum b₁ h₁ hsum => ?_
    refine .pure ⟨_, r, hsum, hc.of_extends h₁, toNat_xor_mod_two p q r, fun hne => ?_⟩
    have := List.length_pos_iff.mpr hne
    omega

/-- **The loop of an addition** behind its first position. The induction is on the positions that
remain, with the carry that comes in. -/
theorem gives_wrappingAddFrom {n len : ℕ} (hn : n ≠ 0) (hlen : n + xs.length = len)
    (hx : b.HoldsBits v xs ps) (hy : b.HoldsBits v ys qs) (hxy : xs.length = ys.length)
    (hc : b.Holds v c r) :
    Gives (wrappingAddFrom len n c xs ys : Method CircuitBuilder ε (List ℕ)) b fun zs b' =>
      ∃ rs, b'.HoldsBits v zs rs ∧ rs.length = ps.length ∧
        ofBits rs = (ofBits ps + ofBits qs + r.toNat) % 2 ^ ps.length := by
  induction xs generalizing b n c r ps ys qs with
  | nil =>
    cases hx
    unfold wrappingAddFrom
    refine .pure ⟨[], .nil, rfl, ?_⟩
    rw [List.length_nil, Nat.pow_zero, Nat.mod_one, ofBits]
  | cons x xs ih =>
    obtain ⟨y, ys, rfl⟩ := List.exists_cons_of_length_eq_add_one hxy.symm
    obtain ⟨p, ps, rfl, hx, hxs⟩ := hx.cons_inv
    obtain ⟨q, qs, rfl, hy, hys⟩ := hy.cons_inv
    rw [List.length_cons] at hlen
    rw [List.length_cons, List.length_cons, Nat.add_right_cancel_iff] at hxy
    unfold wrappingAddFrom
    refine (gives_wrappingAddAt hn (by omega) hx hy hc).bind fun out b₁ h₁ hout => ?_
    obtain ⟨s, t, hs, ht, hmod, hsum⟩ := hout
    refine (ih (Nat.succ_ne_zero n) (by omega) (hxs.of_extends h₁) (hys.of_extends h₁) hxy ht).bind
      fun zs b₂ h₂ hzs => ?_
    obtain ⟨rs, hrs, hlen', hval⟩ := hzs
    have hlength : (s :: rs).length = (p :: ps).length := by
      rw [List.length_cons, hlen', List.length_cons]
    refine .pure ⟨s :: rs, .cons (hs.of_extends h₂) hrs, hlength, ?_⟩
    rw [ofBits, ofBits, ofBits, List.length_cons]
    rcases eq_or_ne xs [] with rfl | hne
    · obtain rfl := List.length_eq_zero_iff.mp hxy.symm
      cases hxs
      cases hys
      rw [List.length_nil] at hlen'
      rw [List.length_eq_zero_iff.mp hlen']
      simp only [ofBits, List.length_nil]
      omega
    · exact add_position (hsum hne) (Nat.lt_succ_of_le (Bool.toNat_le s)) hval

/-- **Addition**, at every width. -/
theorem gives_wrappingAdd (hx : b.HoldsBits v xs ps) (hy : b.HoldsBits v ys qs)
    (hxy : xs.length = ys.length) :
    Gives (wrappingAdd xs ys : Method CircuitBuilder ε (List ℕ)) b fun zs b' =>
      ∃ rs, b'.HoldsBits v zs rs ∧ rs.length = ps.length ∧
        ofBits rs = (ofBits ps + ofBits qs) % 2 ^ ps.length := by
  unfold wrappingAdd
  rw [if_neg (not_not.mpr hxy)]
  cases xs with
  | nil =>
    cases hx
    unfold wrappingAddFrom
    refine .pure ⟨[], .nil, rfl, ?_⟩
    rw [List.length_nil, Nat.pow_zero, Nat.mod_one, ofBits]
  | cons x xs =>
    obtain ⟨y, ys, rfl⟩ := List.exists_cons_of_length_eq_add_one hxy.symm
    obtain ⟨p, ps, rfl, hx, hxs⟩ := hx.cons_inv
    obtain ⟨q, qs, rfl, hy, hys⟩ := hy.cons_inv
    rw [List.length_cons, List.length_cons, Nat.add_right_cancel_iff] at hxy
    unfold wrappingAddFrom wrappingAddAt
    rw [if_pos rfl]
    refine (gives_halfAdder hx hy).bind fun out b₁ h₁ hout => ?_
    obtain ⟨s, t, hs, ht, hsum⟩ := hout
    refine (gives_wrappingAddFrom one_ne_zero (by rw [List.length_cons, Nat.add_comm])
      (hxs.of_extends h₁) (hys.of_extends h₁) hxy ht).bind fun zs b₂ h₂ hzs => ?_
    obtain ⟨rs, hrs, hlen', hval⟩ := hzs
    refine .pure ⟨s :: rs, .cons (hs.of_extends h₂) hrs,
      by rw [List.length_cons, hlen', List.length_cons], ?_⟩
    rw [ofBits, ofBits, ofBits, List.length_cons,
      ← Nat.add_zero (p.toNat + 2 * ofBits ps + (q.toNat + 2 * ofBits qs))]
    exact add_position (by rw [hsum]; rfl) (Nat.lt_succ_of_le (Bool.toNat_le s)) hval

/-! ### Subtraction -/

/-- A circuit with one output at each position. -/
theorem gives_mapNodes {f : ℕ → Method CircuitBuilder ε ℕ} {g : Bool → Bool}
    (hf : ∀ {b : CircuitBuilder} {x p}, b.Holds v x p → Gives (f x) b fun z b' =>
      b'.Holds v z (g p))
    (hx : b.HoldsBits v xs ps) :
    Gives (mapNodes f xs) b fun zs b' => b'.HoldsBits v zs (ps.map g) := by
  induction xs generalizing b ps with
  | nil =>
    cases hx
    exact .pure .nil
  | cons x xs ih =>
    obtain ⟨p, ps, rfl, hx, hxs⟩ := hx.cons_inv
    unfold mapNodes
    refine (hf hx).bind fun z b₁ h₁ hz => ?_
    refine (ih (hxs.of_extends h₁)).bind fun zs b₂ h₂ hzs => ?_
    exact .pure (.cons (hz.of_extends h₂) hzs)

/-- **The loop of a subtraction** is an addition that gives its carry back. -/
theorem gives_wrappingSubFrom (hx : b.HoldsBits v xs ps) (hy : b.HoldsBits v ys qs)
    (hxy : xs.length = ys.length) (hc : b.Holds v c r) :
    Gives (wrappingSubFrom c xs ys : Method CircuitBuilder ε (List ℕ × ℕ)) b fun out b' =>
      ∃ rs t, b'.HoldsBits v out.1 rs ∧ b'.Holds v out.2 t ∧ rs.length = ps.length ∧
        ofBits rs + 2 ^ ps.length * t.toNat = ofBits ps + ofBits qs + r.toNat := by
  induction xs generalizing b c r ps ys qs with
  | nil =>
    cases hx
    cases ys with
    | nil =>
      cases hy
      unfold wrappingSubFrom
      refine .pure ⟨[], r, .nil, hc, rfl, ?_⟩
      rw [List.length_nil, Nat.pow_zero, Nat.one_mul, ofBits]
    | cons => cases hxy
  | cons x xs ih =>
    obtain ⟨y, ys, rfl⟩ := List.exists_cons_of_length_eq_add_one hxy.symm
    obtain ⟨p, ps, rfl, hx, hxs⟩ := hx.cons_inv
    obtain ⟨q, qs, rfl, hy, hys⟩ := hy.cons_inv
    rw [List.length_cons, List.length_cons, Nat.add_right_cancel_iff] at hxy
    unfold wrappingSubFrom
    refine (gives_fullAdder hx hy hc).bind fun out b₁ h₁ hout => ?_
    obtain ⟨s, t, hs, ht, hsum⟩ := hout
    refine (ih (hxs.of_extends h₁) (hys.of_extends h₁) hxy ht).bind fun out b₂ h₂ hzs => ?_
    obtain ⟨rs, t', hrs, ht', hlen, hval⟩ := hzs
    refine .pure ⟨s :: rs, t', .cons (hs.of_extends h₂) hrs, ht',
      by rw [List.length_cons, hlen, List.length_cons], ?_⟩
    rw [ofBits, ofBits, ofBits, List.length_cons, Nat.pow_succ, Nat.mul_right_comm]
    omega

/-- A difference modulo `2 ^ n`, as it comes out of the adders. -/
theorem sub_position {n p q r t : ℕ} (hp : p < 2 ^ n) (hr : r < 2 ^ n) (ht : t ≤ 1)
    (h : r + 2 ^ n * t + q = p + 2 ^ n) :
    r = (p + 2 ^ n - q) % 2 ^ n ∧ (t = 0 ↔ p < q) := by
  obtain rfl | rfl : t = 0 ∨ t = 1 := by omega
  · rw [show p + 2 ^ n - q = r by omega, Nat.mod_eq_of_lt hr]
    exact ⟨rfl, by omega⟩
  · rw [show p + 2 ^ n - q = r + 2 ^ n by omega, Nat.add_mod_right, Nat.mod_eq_of_lt hr]
    exact ⟨rfl, by omega⟩

/-- **Subtraction**, at every width. -/
theorem gives_wrappingSub (hx : b.HoldsBits v xs ps) (hy : b.HoldsBits v ys qs)
    (hxy : xs.length = ys.length) :
    Gives (wrappingSub xs ys : Method CircuitBuilder ε (List ℕ × ℕ)) b fun out b' =>
      ∃ rs, b'.HoldsBits v out.1 rs ∧ rs.length = ps.length ∧
        ofBits rs = (ofBits ps + 2 ^ ps.length - ofBits qs) % 2 ^ ps.length ∧
        b'.Holds v out.2 (decide (ofBits ps < ofBits qs)) := by
  have hpq : ps.length = qs.length := by rw [← hx.length_eq, ← hy.length_eq, hxy]
  unfold wrappingSub
  rw [if_neg (not_not.mpr hxy)]
  refine (gives_mapNodes gives_addInvGate hy).bind fun bInv b₁ h₁ hinv => ?_
  have hlen : xs.length = bInv.length := by
    rw [hinv.length_eq, List.length_map, ← hy.length_eq, hxy]
  refine (gives_wrappingSubFrom (hx.of_extends h₁) hinv hlen (.one b₁ v)).bind fun out b₂ h₂ hout =>
    ?_
  obtain ⟨rs, t, hrs, ht, hlen', hval⟩ := hout
  refine (gives_addInvGate ht).bind fun underflow b₃ h₃ hunder => ?_
  have hsub := sub_position (ofBits_lt ps) (hlen' ▸ ofBits_lt rs) (Bool.toNat_le t)
    (q := ofBits qs) <| by
    have hnot := ofBits_map_not qs
    rw [hval, Bool.toNat_true, hpq]
    omega
  refine .pure ⟨rs, hrs.of_extends h₃, hlen', hsub.1, ?_⟩
  have hbit : (!t) = decide (ofBits ps < ofBits qs) := by
    rw [← decide_eq_decide.mpr hsub.2]
    cases t <;> rfl
  rwa [← hbit]

/-! ### Switches -/

theorem gives_switchFrom {toggle notToggle : ℕ} (hx : b.HoldsBits v xs ps)
    (hy : b.HoldsBits v ys qs) (hxy : xs.length = ys.length) (ht : b.Holds v toggle r)
    (hn : b.Holds v notToggle !r) :
    Gives (switchFrom toggle notToggle xs ys : Method CircuitBuilder ε (List ℕ)) b fun zs b' =>
      b'.HoldsBits v zs (if r then qs else ps) := by
  induction xs generalizing b ps ys qs with
  | nil =>
    cases hx
    cases ys with
    | nil =>
      cases hy
      unfold switchFrom
      exact .pure (by rw [ite_self]; exact .nil)
    | cons => cases hxy
  | cons x xs ih =>
    obtain ⟨y, ys, rfl⟩ := List.exists_cons_of_length_eq_add_one hxy.symm
    obtain ⟨p, ps, rfl, hx, hxs⟩ := hx.cons_inv
    obtain ⟨q, qs, rfl, hy, hys⟩ := hy.cons_inv
    rw [List.length_cons, List.length_cons, Nat.add_right_cancel_iff] at hxy
    unfold switchFrom
    refine (gives_addAndGate hx hn).bind fun z₁ b₁ h₁ hz₁ => ?_
    refine (gives_addAndGate (hy.of_extends h₁) (ht.of_extends h₁)).bind fun z₂ b₂ h₂ hz₂ => ?_
    refine (gives_addXorGate (hz₁.of_extends h₂) hz₂).bind fun z b₃ h₃ hz => ?_
    have hb := (h₁.trans h₂).trans h₃
    refine (ih (hxs.of_extends hb) (hys.of_extends hb) hxy (ht.of_extends hb)
      (hn.of_extends hb)).bind fun zs b₄ h₄ hzs => ?_
    refine .pure ?_
    have hbit : (p && !r ^^ q && r) = if r then q else p := by
      cases p <;> cases q <;> cases r <;> rfl
    have hz := hbit ▸ hz.of_extends h₄
    cases r
    · exact .cons hz hzs
    · exact .cons hz hzs

/-- **A switch.** -/
theorem gives_switch {toggle : ℕ} (hx : b.HoldsBits v xs ps) (hy : b.HoldsBits v ys qs)
    (hxy : xs.length = ys.length) (ht : b.Holds v toggle r) :
    Gives (switch xs ys toggle : Method CircuitBuilder ε (List ℕ)) b fun zs b' =>
      b'.HoldsBits v zs (if r then qs else ps) := by
  unfold switch
  rw [if_neg (not_not.mpr hxy)]
  refine (gives_addInvGate ht).bind fun notToggle b₁ h₁ hn => ?_
  exact gives_switchFrom (hx.of_extends h₁) (hy.of_extends h₁) hxy (ht.of_extends h₁) hn

/-! ### Modular addition -/

/-- **Addition modulo a number**, of two numbers below it. -/
theorem gives_addMod (hx : b.HoldsBits v xs ps) (hy : b.HoldsBits v ys qs)
    (hm : b.HoldsBits v ms rs) (hxy : xs.length = ys.length) (hxm : xs.length = ms.length) :
    Gives (addMod xs ys ms : Method CircuitBuilder ε (List ℕ)) b fun zs b' =>
      ∃ bits, b'.HoldsBits v zs bits ∧ bits.length = ps.length ∧
        (ofBits ps < ofBits rs → ofBits qs < ofBits rs →
          ofBits bits = (ofBits ps + ofBits qs) % ofBits rs) := by
  unfold addMod
  rw [if_neg (by omega)]
  dsimp only
  have hlen : (xs ++ [getConstZero]).length = (ys ++ [getConstZero]).length := by
    rw [List.length_append, List.length_append, hxy]
  refine (gives_wrappingAdd hx.append_zero hy.append_zero hlen).bind fun sum b₁ h₁ hsum => ?_
  obtain ⟨ss, hss, hslen, hsval⟩ := hsum
  rw [List.length_append, List.length_singleton] at hslen
  rw [ofBits_append_false, ofBits_append_false, List.length_append, List.length_singleton] at hsval
  have hlen : sum.length = (ms ++ [getConstZero]).length := by
    rw [hss.length_eq, hslen, List.length_append, List.length_singleton, ← hxm, hx.length_eq]
  refine (gives_wrappingSub hss (hm.append_zero.of_extends h₁) hlen).bind fun out b₂ h₂ hout => ?_
  obtain ⟨ds, hds, hdlen, hdval, hunder⟩ := hout
  rw [ofBits_append_false] at hdval hunder
  have hlen : out.1.length = sum.length := by rw [hds.length_eq, hdlen, hss.length_eq]
  refine (gives_switch hds (hss.of_extends h₂) hlen hunder).bind fun zs b₃ h₃ hzs => ?_
  refine .pure ⟨_, hzs.dropLast, ?_, fun hp hq => ?_⟩
  · rw [List.length_dropLast]
    split <;> omega
  have hrlen : rs.length = ps.length := by rw [← hm.length_eq, ← hxm, hx.length_eq]
  have hr : ofBits rs < 2 ^ ps.length := hrlen ▸ ofBits_lt rs
  have hpow : 2 ^ (ps.length + 1) = 2 * 2 ^ ps.length := by rw [Nat.pow_succ, Nat.mul_comm]
  rw [Nat.mod_eq_of_lt (by omega)] at hsval
  have hmod : ofBits (if decide (ofBits ss < ofBits rs) then ss else ds) =
      (ofBits ps + ofBits qs) % ofBits rs := by
    split
    case isTrue hlt => rw [hsval, Nat.mod_eq_of_lt (hsval ▸ of_decide_eq_true hlt)]
    case isFalse hlt =>
      have hle : ofBits rs ≤ ofBits ps + ofBits qs := by
        rw [← hsval]
        exact not_lt.mp (of_decide_eq_false (Bool.not_eq_true _ ▸ hlt))
      have hsub : ofBits ss + 2 ^ ss.length - ofBits rs =
          ofBits ps + ofBits qs - ofBits rs + 2 ^ ss.length := by omega
      rw [hdval, hsub, Nat.add_mod_right, Nat.mod_eq_of_lt (by rw [hslen]; omega),
        Nat.mod_eq_sub_mod hle, Nat.mod_eq_of_lt (by omega)]
  rw [ofBits_dropLast (n := ps.length) (by split <;> omega), hmod]
  rw [hmod]
  exact (Nat.mod_lt _ (by omega)).trans hr

/-! ### Numbers -/

/-- The number that the nodes come to be. -/
def number (b : CircuitBuilder) (v : ℕ → Bool) (nodes : List ℕ) :
    ℕ := ofBits (nodes.map (b.value v))

theorem HoldsBits.of_lt (h : ∀ x ∈ xs, x < b.feedId) (v : ℕ → Bool) :
    b.HoldsBits v xs (xs.map (b.value v)) := by
  refine List.forall₂_map_right_iff.mpr (List.forall₂_same.mpr fun x hx => ?_)
  exact ⟨h x hx, rfl⟩

theorem HoldsBits.map_value (h : b.HoldsBits v xs ps) : xs.map (b.value v) = ps := by
  refine List.forall₂_eq_eq_eq ▸ List.forall₂_map_left_iff.mpr (h.imp fun _ _ h => h.value)

end CircuitBuilder

open CircuitBuilder

/-- **Arithmetic circuits are correct**, at every width, from every builder, on any of its nodes and
under every assignment. -/
theorem arithmetic_correct {ε : Type} (b : CircuitBuilder) (xs ys ms : List ℕ) (toggle : ℕ)
    (hx : ∀ x ∈ xs, x < b.feedId) (hy : ∀ y ∈ ys, y < b.feedId) (hm : ∀ m ∈ ms, m < b.feedId)
    (ht : toggle < b.feedId) (hxy : xs.length = ys.length) (hxm : xs.length = ms.length) :
    Gives (wrappingAdd xs ys : Method CircuitBuilder ε (List ℕ)) b (fun zs b' =>
      zs.length = xs.length ∧
      ∀ v, b'.number v zs = (b.number v xs + b.number v ys) % 2 ^ xs.length) ∧
    Gives (wrappingSub xs ys : Method CircuitBuilder ε (List ℕ × ℕ)) b (fun out b' =>
      out.1.length = xs.length ∧
      ∀ v, b'.number v out.1 = (b.number v xs + 2 ^ xs.length - b.number v ys) % 2 ^ xs.length ∧
        (b'.value v out.2 ↔ b.number v xs < b.number v ys)) ∧
    Gives (switch xs ys toggle : Method CircuitBuilder ε (List ℕ)) b (fun zs b' =>
      zs.length = xs.length ∧
      ∀ v, b'.number v zs = if b.value v toggle then b.number v ys else b.number v xs) ∧
    Gives (addMod xs ys ms : Method CircuitBuilder ε (List ℕ)) b (fun zs b' =>
      zs.length = xs.length ∧
      ∀ v, b.number v xs < b.number v ms → b.number v ys < b.number v ms →
        b'.number v zs = (b.number v xs + b.number v ys) % b.number v ms) := by
  have hlen : ∀ v, (xs.map (b.value v)).length = xs.length := fun v => List.length_map _
  refine ⟨?_, ?_, ?_, ?_⟩
  · refine (Gives.forall fun v => gives_wrappingAdd (.of_lt hx v) (.of_lt hy v) hxy).mono
      fun zs b' _ h => ⟨?_, fun v => ?_⟩
    · obtain ⟨rs, hrs, hlen', -⟩ := h fun _ => false
      rw [hrs.length_eq, hlen', hlen]
    · obtain ⟨rs, hrs, -, hval⟩ := h v
      rw [number, hrs.map_value, hval, hlen, number, number]
  · refine (Gives.forall fun v => gives_wrappingSub (.of_lt hx v) (.of_lt hy v) hxy).mono
      fun out b' _ h => ⟨?_, fun v => ?_⟩
    · obtain ⟨rs, hrs, hlen', -⟩ := h fun _ => false
      rw [hrs.length_eq, hlen', hlen]
    · obtain ⟨rs, hrs, -, hval, hunder⟩ := h v
      rw [number, hrs.map_value, hval, hlen, number, number, hunder.value]
      exact ⟨rfl, decide_eq_true_iff⟩
  · refine (Gives.forall fun v => gives_switch (.of_lt hx v) (.of_lt hy v) hxy ⟨ht, rfl⟩).mono
      fun zs b' _ h => ⟨?_, fun v => ?_⟩
    · have hlen' := (h fun _ => false).length_eq
      rw [hlen']
      split
      · rw [List.length_map, hxy]
      · exact hlen _
    · rw [number, (h v).map_value, number, number]
      split <;> rfl
  · refine (Gives.forall fun v =>
      gives_addMod (.of_lt hx v) (.of_lt hy v) (.of_lt hm v) hxy hxm).mono
      fun zs b' _ h => ⟨?_, fun v => ?_⟩
    · obtain ⟨rs, hrs, hlen', -⟩ := h fun _ => false
      rw [hrs.length_eq, hlen', hlen]
    · obtain ⟨rs, hrs, -, hval⟩ := h v
      rw [number, number, number, number, hrs.map_value]
      exact hval

/-- Two bits, of which one is an input and one a constant, and the modulus three. -/
theorem arithmetic_correct_two :
    let b : CircuitBuilder := (addInput (ε := Empty) .new).2
    Gives (addMod [2, 0] [1, 0] [1, 1] : Method CircuitBuilder Empty (List ℕ)) b (fun zs b' =>
      zs.length = 2 ∧
      ∀ v, b.number v [2, 0] < b.number v [1, 1] → b.number v [1, 0] < b.number v [1, 1] →
        b'.number v zs = (b.number v [2, 0] + b.number v [1, 0]) % b.number v [1, 1]) :=
  (arithmetic_correct _ [2, 0] [1, 0] [1, 1] 2 (by decide) (by decide) (by decide) (by decide) rfl
    rfl).2.2.2

end Mpz
