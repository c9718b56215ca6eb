import Mathlib.Algebra.Field.Basic
import Mathlib.Tactic.LinearCombination
import Mpz.Lib.Method

/-!
# Random oblivious linear evaluation

The two sides hold shares whose product is the sum of their other shares, `ab = x + y`. A side takes
as many shares as it asks for from what is available. In a correct pair the shares of one place are
correlated, however many the two sides have taken, and in whatever order.

The multiplicative shares are random. `Adjust` replaces them with those that are wanted.

## Main definitions

* `OLEShare`, `Adjust` — a share, and its adjustment
* `ROLESender`, `ROLEReceiver` — the interfaces
* `CorrectROLE` — what is expected of an implementation
* `IdealROLE` — one side of the ideal functionality

## Main results

* `Adjust.finish` — adjusted shares are correlated again
* `IdealROLE.correct` — the ideal functionality is correct
-/

namespace Mpz

/-- Share of an OLE. -/
structure OLEShare (F : Type) where
  /-- Additive share. -/
  add : F
  /-- Multiplicative share. -/
  mul : F
  deriving DecidableEq, Repr

/-- The product of the multiplicative shares is the sum of the additive ones. -/
def OLEShare.Correlated {F : Type} [CommRing F] (s r : OLEShare F) : Prop :=
  s.mul * r.mul = s.add + r.add

instance {F : Type} [CommRing F] [DecidableEq F] (s r : OLEShare F) : Decidable (s.Correlated r) :=
  inferInstanceAs (Decidable (_ = _))

/-! ### Adjustment -/

/-- OLE adjustment protocol. -/
structure Adjust (F : Type) where
  /-- The multiplicative share that is wanted. -/
  target : F
  /-- The share that there is. -/
  share : OLEShare F
  deriving DecidableEq, Repr

section

variable {F : Type} [CommRing F]

/-- Adjusts the multiplicative share to the target. -/
def OLEShare.adjust (share : OLEShare F) (target : F) : Adjust F := ⟨target, share⟩

namespace Adjust

/-- Returns adjustment offset. -/
def offset (self : Adjust F) : F := self.share.mul + self.target

/-- Finishes the adjustment as the OLE sender. -/
def senderFinish (self : Adjust F) (offset : F) : OLEShare F :=
  ⟨self.share.add - self.share.mul * offset, self.target⟩

/-- Finishes the adjustment as the OLE receiver. -/
def receiverFinish (self : Adjust F) (offset : F) : OLEShare F :=
  ⟨self.share.add + offset * self.target, self.target⟩

/-- Shares that each side has adjusted by the offset of the other are correlated. -/
theorem finish (s r : Adjust F) (h : s.share.Correlated r.share) :
    (s.senderFinish r.offset).Correlated (r.receiverFinish s.offset) := by
  show s.target * r.target =
    (s.share.add - s.share.mul * (r.share.mul + r.target)) +
      (r.share.add + (s.share.mul + s.target) * r.target)
  have h : s.share.mul * r.share.mul = s.share.add + r.share.add := h
  linear_combination h

end Adjust

end

/-! ### The interfaces -/

/-- Output of the ROLE functionality. -/
structure ROLEOutput (F : Type) where
  /-- OLE identifier. -/
  id : ℕ
  /-- Shares of the ROLE. -/
  shares : List (OLEShare F)
  deriving DecidableEq, Repr

/-- Random OLE sender. -/
class ROLESender (S : Type) (F E : outParam Type) where
  /-- The number of preprocessed ROLE available. -/
  available : S → ℕ
  /-- Returns `count` ROLE, if available. -/
  trySendRole : ℕ → Method S E (ROLEOutput F)

/-- Random OLE receiver. -/
class ROLEReceiver (R : Type) (F E : outParam Type) where
  /-- The number of preprocessed ROLE available. -/
  available : R → ℕ
  /-- Returns `count` ROLE, if available. -/
  tryRecvRole : ℕ → Method R E (ROLEOutput F)

/-- The shares of one place are correlated. -/
def CorrelatedShares {F : Type} [CommRing F] (ss rs : List (OLEShare F)) : Prop :=
  ∀ (i : ℕ) (s r : OLEShare F), ss[i]? = some s → rs[i]? = some r → s.Correlated r

/-- A sender and a receiver that work together. `Refill` is what else can happen to the two. -/
structure CorrectROLE (S R : Type) {F E E' : Type} [CommRing F] [ROLESender S F E]
    [ROLEReceiver R F E'] (Refill : S × R → S × R → Prop) where
  /-- These shares were taken from the sender, and from the receiver. -/
  Rel : List (OLEShare F) → List (OLEShare F) → S → R → Prop
  correlated : ∀ {ss rs s r}, Rel ss rs s r → CorrelatedShares ss rs
  send : ∀ {ss rs s r n}, Rel ss rs s r → n ≤ ROLESender.available s →
    ∃ o s', ROLESender.trySendRole n s = (.ok o, s') ∧ o.shares.length = n ∧
      Rel (ss ++ o.shares) rs s' r
  recv : ∀ {ss rs s r n}, Rel ss rs s r → n ≤ ROLEReceiver.available r →
    ∃ o r', ROLEReceiver.tryRecvRole n r = (.ok o, r') ∧ o.shares.length = n ∧
      Rel ss (rs ++ o.shares) s r'
  refill : ∀ {ss rs s r s' r'}, Rel ss rs s r → Refill (s, r) (s', r') → Rel ss rs s' r'

namespace CorrelatedShares

variable {F : Type} [CommRing F] {ss rs a b : List (OLEShare F)}

/-- What the sender takes next belongs to what the receiver is ahead by. -/
theorem right (h : CorrelatedShares (ss ++ a) rs) : CorrelatedShares a (rs.drop ss.length) := by
  intro i s r hs hr
  rw [List.getElem?_drop] at hr
  refine h (ss.length + i) s r ?_ hr
  rwa [List.getElem?_append_right (Nat.le_add_right _ _), Nat.add_sub_cancel_left]

/-- What the receiver takes next belongs to what the sender is ahead by. -/
theorem left (h : CorrelatedShares ss (rs ++ b)) : CorrelatedShares (ss.drop rs.length) b := by
  intro i s r hs hr
  rw [List.getElem?_drop] at hs
  refine h (rs.length + i) s r hs ?_
  rwa [List.getElem?_append_right (Nat.le_add_right _ _), Nat.add_sub_cancel_left]

end CorrelatedShares

theorem CorrelatedShares.append {F : Type} [CommRing F] {ss rs ss' rs' : List (OLEShare F)}
    (h : CorrelatedShares ss rs) (hlen : ss.length = rs.length) (h' : CorrelatedShares ss' rs') :
    CorrelatedShares (ss ++ ss') (rs ++ rs') := by
  intro i s r hs hr
  rw [List.getElem?_append] at hs hr
  rw [hlen] at hs
  split at hs
  next hi =>
    rw [if_pos hi] at hr
    exact h i s r hs hr
  next hi =>
    rw [if_neg hi] at hr
    exact h' _ s r hs hr

/-! ### The ideal functionality -/

/-- Not enough ROLEs: available, requested. -/
inductive IdealROLEError where
  /-- not enough ROLEs -/
  | notEnough (available requested : ℕ)
  deriving DecidableEq, Repr

/-- One side of the ideal functionality. -/
structure IdealROLE (F : Type) where
  /-- The next transfer id. -/
  oleId : ℕ
  /-- The shares that are available. -/
  shares : List (OLEShare F)
  deriving DecidableEq, Repr

namespace IdealROLE

variable {F : Type}

/-- Takes shares. -/
def tryRole (count : ℕ) : Method (IdealROLE F) IdealROLEError (ROLEOutput F) := do
  let self ← Method.get
  if count > self.shares.length then Method.throw (.notEnough self.shares.length count)
  else do
    Method.modify fun s => { s with
      oleId := s.oleId + 1
      shares := s.shares.drop count }
    return ⟨self.oleId, self.shares.take count⟩

instance : ROLESender (IdealROLE F) F IdealROLEError := ⟨fun s => s.shares.length, tryRole⟩

instance : ROLEReceiver (IdealROLE F) F IdealROLEError := ⟨fun s => s.shares.length, tryRole⟩

/-- A flush makes correlated shares for both sides. -/
def Refill [CommRing F] (p q : IdealROLE F × IdealROLE F) : Prop :=
  ∃ ss rs, ss.length = rs.length ∧ CorrelatedShares ss rs ∧
    q = ({ p.1 with shares := p.1.shares ++ ss }, { p.2 with shares := p.2.shares ++ rs })

theorem tryRole_eq {s : IdealROLE F} {n : ℕ} (h : n ≤ s.shares.length) :
    tryRole n s = (.ok ⟨s.oleId, s.shares.take n⟩, ⟨s.oleId + 1, s.shares.drop n⟩) := by
  rw [tryRole, Method.get_bind, if_neg (Nat.not_lt.mpr h)]
  rfl

/-- **The ideal functionality is correct.** -/
def correct [CommRing F] : CorrectROLE (IdealROLE F) (IdealROLE F) Refill where
  Rel ss rs s r := (ss ++ s.shares).length = (rs ++ r.shares).length ∧
    CorrelatedShares (ss ++ s.shares) (rs ++ r.shares)
  correlated h i s r hs hr := by
    refine h.2 i s r ?_ ?_
    · rwa [List.getElem?_append_left (List.getElem?_eq_some_iff.mp hs).1]
    · rwa [List.getElem?_append_left (List.getElem?_eq_some_iff.mp hr).1]
  send h hn := by
    refine ⟨_, _, tryRole_eq hn, ?_, ?_⟩
    · exact List.length_take.trans (min_eq_left hn)
    · rwa [List.append_assoc, List.take_append_drop]
  recv h hn := by
    refine ⟨_, _, tryRole_eq hn, ?_, ?_⟩
    · exact List.length_take.trans (min_eq_left hn)
    · rwa [List.append_assoc, List.take_append_drop]
  refill h hr := by
    obtain ⟨ss', rs', hlen, hcorr, heq⟩ := hr
    obtain ⟨rfl, rfl⟩ := Prod.mk.injEq .. ▸ heq
    rw [← List.append_assoc, ← List.append_assoc]
    refine ⟨?_, h.2.append h.1 hcorr⟩
    rw [List.length_append, h.1, hlen, ← List.length_append]

end IdealROLE

end Mpz
