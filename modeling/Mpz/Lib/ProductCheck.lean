import Mathlib.Algebra.BigOperators.Group.List.Basic
import Mathlib.Algebra.BigOperators.Ring.List
import Mathlib.Tactic.Ring

/-!
# The product check over a commutative ring

A prover holds MACs `m`, a verifier holds keys `k = m + x * Δ` for the values `x` that the MACs
authenticate. For three MACs that claim a product, the verifier's `kx * ky + Δ * kz` is a
polynomial in `Δ` whose two lower coefficients the prover knows, and whose leading coefficient
is `x * y + z`. Over a ring of characteristic two that is zero exactly for a true product.

## Main definitions

* `ProductClaim` — three MACs and the values they authenticate
* `constCoeff`, `linCoeff`, `leadCoeff` — the coefficients of the combined key polynomial

## Main results

* `ProductClaim.keyTerm_eq`, `sum_keyTerm` — the key polynomial of one claim, of many
* `sum_mask` — the same identity, of degree one, for the masks
-/

namespace Mpz

variable {R : Type*} [CommRing R]

/-- Three MACs, and the values they authenticate. -/
structure ProductClaim (R : Type*) where
  /-- The MAC of the left factor. -/
  mx : R
  /-- The MAC of the right factor. -/
  my : R
  /-- The MAC of the product. -/
  mz : R
  /-- The left factor. -/
  x : R
  /-- The right factor. -/
  y : R
  /-- The claimed product. -/
  z : R

namespace ProductClaim

/-- What the verifier computes from its keys. -/
def keyTerm (delta : R) (c : ProductClaim R) : R :=
  (c.mx + c.x * delta) * (c.my + c.y * delta) + delta * (c.mz + c.z * delta)

/-- **The key polynomial.** -/
theorem keyTerm_eq (delta : R) (c : ProductClaim R) :
    c.keyTerm delta =
      c.mx * c.my + delta * (c.x * c.my + c.y * c.mx + c.mz) +
        delta ^ 2 * (c.x * c.y + c.z) := by
  rw [keyTerm]
  ring

end ProductClaim

/-- The constant coefficient of the combination of claims with their challenges. -/
def constCoeff (l : List (ProductClaim R × R)) : R := (l.map fun p => p.1.mx * p.1.my * p.2).sum

/-- The linear coefficient. -/
def linCoeff (l : List (ProductClaim R × R)) : R :=
  (l.map fun p => (p.1.x * p.1.my + p.1.y * p.1.mx + p.1.mz) * p.2).sum

/-- The leading coefficient: the challenges of the false claims, in characteristic two. -/
def leadCoeff (l : List (ProductClaim R × R)) : R :=
  (l.map fun p => (p.1.x * p.1.y + p.1.z) * p.2).sum

/-- **The combined key polynomial.** -/
theorem sum_keyTerm (delta : R) (l : List (ProductClaim R × R)) :
    (l.map fun p => p.1.keyTerm delta * p.2).sum =
      constCoeff l + delta * linCoeff l + delta ^ 2 * leadCoeff l := by
  induction l with
  | nil => simp [constCoeff, linCoeff, leadCoeff]
  | cons p l ih =>
    simp only [constCoeff, linCoeff, leadCoeff, List.map_cons, List.sum_cons] at ih ⊢
    rw [ih, ProductClaim.keyTerm_eq]
    ring

/-- The masks: MACs `k + c * Δ`, combined with fixed coefficients. -/
theorem sum_mask (delta : R) (l : List (R × R × R)) :
    (l.map fun p => (p.1 + p.2.1 * delta) * p.2.2).sum =
      (l.map fun p => p.1 * p.2.2).sum + delta * (l.map fun p => p.2.1 * p.2.2).sum := by
  induction l with
  | nil => simp
  | cons p l ih =>
    simp only [List.map_cons, List.sum_cons, ih]
    ring

end Mpz
