import Mpz.Core.Gf128
import Mpz.Lib.ProductCheck

/-!
# Extension field VOLE from subfield VOLE

The 128 subfield correlations are packed into one correlation over the field, with the monomials
as coefficients.

## Main definitions

* `Zk.voleSender`, `Zk.voleReceiver`

## Main results

* `Zk.vole_correct` — the sender's share is the receiver's pair, as a line in the correlation
-/

namespace Mpz.Zk

open Block

/-- Computes extension field VOLE share as the sender: `B`. -/
def voleSender (keys : List Block) : Block := innPrdtRed keys monomials

/-- Computes extension field VOLE share as the receiver: `A_0` and `A_1`. -/
def voleReceiver (choices : List Bool) (ev : List Block) : Block × Block :=
  (innPrdtRed ev monomials, fromLsb0Iter choices)

/-- The field element of a bit. -/
noncomputable def bitGf (b : Bool) : Gf128 := if b then 1 else 0

theorem toGf_ite (b : Bool) (x : Block) : (if b then x else 0#128).toGf = bitGf b * x.toGf := by
  cases b <;> simp [bitGf]

theorem toGf_fromLsb0Iter_zip {choices : List Bool} (h : choices.length = 128) :
    (fromLsb0Iter choices).toGf =
      ((choices.zip monomials).map fun p => bitGf p.1 * p.2.toGf).sum := by
  rw [toGf_fromLsb0Iter]
  congr 1
  refine List.ext_getElem (by simp [h]) fun i hi _ => ?_
  have hi' : i < choices.length := by simpa [h] using hi
  simp only [List.getElem_map, List.getElem_range, List.getElem_zip, getElem_monomials,
    List.getD_eq_getElem?_getD, List.getElem?_eq_getElem hi', Option.getD_some]
  cases choices[i] <;> simp [bitGf]

/-- **The packed correlation.** -/
theorem vole_correct (delta : Block) {keys ev : List Block} {choices : List Bool}
    (hkeys : keys.length = 128) (hchoices : choices.length = 128)
    (hev : ev = List.zipWith (fun k c => k ^^^ if c then delta else 0#128) keys choices) :
    (voleReceiver choices ev).1.toGf =
      (voleSender keys).toGf + delta.toGf * (voleReceiver choices ev).2.toGf := by
  have hmask := sum_mask delta.toGf (List.zipWith (fun (kc : Block × Bool) m =>
    (kc.1.toGf, bitGf kc.2, m.toGf)) (keys.zip choices) monomials)
  rw [voleReceiver, voleSender, toGf_innPrdtRed, toGf_innPrdtRed, toGf_fromLsb0Iter_zip hchoices]
  have h1 : ((ev.zip monomials).map fun p => p.1.toGf * p.2.toGf) =
      (List.zipWith (fun (kc : Block × Bool) m => (kc.1.toGf, bitGf kc.2, m.toGf))
        (keys.zip choices) monomials).map fun p => (p.1 + p.2.1 * delta.toGf) * p.2.2 := by
    refine List.ext_getElem (by simp [hev, hkeys, hchoices]) fun i hi _ => ?_
    simp [hev, toGf_ite]
  have h2 : ((keys.zip monomials).map fun p => p.1.toGf * p.2.toGf) =
      (List.zipWith (fun (kc : Block × Bool) m => (kc.1.toGf, bitGf kc.2, m.toGf))
        (keys.zip choices) monomials).map fun p => p.1 * p.2.2 := by
    refine List.ext_getElem (by simp [hkeys, hchoices]) fun i hi _ => ?_
    simp
  have h3 : ((choices.zip monomials).map fun p => bitGf p.1 * p.2.toGf) =
      (List.zipWith (fun (kc : Block × Bool) m => (kc.1.toGf, bitGf kc.2, m.toGf))
        (keys.zip choices) monomials).map fun p => p.2.1 * p.2.2 := by
    refine List.ext_getElem (by simp [hkeys, hchoices]) fun i hi _ => ?_
    simp
  rw [h1, h2, h3, hmask]

end Mpz.Zk
