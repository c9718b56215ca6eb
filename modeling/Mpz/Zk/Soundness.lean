import Mpz.Zk.Check

/-!
# The check is a polynomial in the correlation

For any buffered triples, the verifier's combination of keys is the prover's message read as a line
in `Δ`, plus `Δ ^ 2` times the coefficients of the gates whose claimed product is wrong. A message
that differs from the honest one shifts the line.

## Main definitions

* `Zk.keysOf` — the verifier's buffer, for the prover's
* `Zk.falseProducts` — the coefficients of the wrong gates

## Main results

* `Zk.toGf_verifier` — the verifier's combination
* `Zk.checkVerifier_accepts_iff` — acceptance of an arbitrary message
-/

namespace Mpz.Zk

open Block

/-- The verifier's buffer: the keys of the prover's MACs, and the same adjust bits. -/
def keysOf (delta : Delta) (c : Check) : Check := ⟨c.triples.map (Triple.keys delta), c.adjust⟩

/-- The coefficients of the gates whose output bit is not the product of the input bits. -/
def falseProducts (l : List (Triple × Block)) : List Block :=
  (l.filter fun tc => tc.1.z.lsb != (tc.1.x.lsb && tc.1.y.lsb)).map Prod.snd

/-- The keys that the sender holds for the receiver's evaluations. -/
def evOf (delta : Delta) (keys : List Block) (choices : List Bool) : List Block :=
  List.zipWith (fun k c => k ^^^ delta.select c) keys choices

theorem bitGf_xor (a b : Bool) : bitGf (a ^^ b) = bitGf a + bitGf b := by
  have two : (1 + 1 : Gf128) = 0 := CharTwo.add_self_eq_zero 1
  cases a <;> cases b <;> simp [bitGf, two]

theorem bitGf_and (a b : Bool) : bitGf (a && b) = bitGf a * bitGf b := by
  cases a <;> cases b <;> simp [bitGf]

/-- The leading coefficient is the sum over the wrong gates. -/
theorem leadCoeff_claims (l : List (Triple × Block)) :
    leadCoeff (claims l) = ((falseProducts l).map toGf).sum := by
  have hbit : ∀ t : Triple, t.claim.x * t.claim.y + t.claim.z =
      bitGf (t.z.lsb != (t.x.lsb && t.y.lsb)) := by
    intro t
    simp only [Triple.claim]
    rw [← bitGf_and, ← bitGf_xor, Bool.xor_comm]
  induction l with
  | nil => rfl
  | cons tc l ih =>
    have hcons : leadCoeff (claims (tc :: l)) =
        bitGf (tc.1.z.lsb != (tc.1.x.lsb && tc.1.y.lsb)) * tc.2.toGf + leadCoeff (claims l) := by
      rw [← hbit]
      rfl
    rw [hcons, ih, falseProducts, falseProducts, List.filter_cons]
    split
    case isTrue h =>
      rw [h, List.map_cons, List.map_cons, List.sum_cons, bitGf, if_pos rfl, one_mul]
    case isFalse h =>
      rw [Bool.eq_false_iff.mpr h, bitGf, if_neg Bool.false_ne_true, zero_mul, zero_add]

section

variable (sizes : ℕ → List ℕ) (env : CheckEnv) (delta : Delta) (c : Check) (t : Transcript)

theorem stateSegments_keysOf : (keysOf delta c).stateSegments sizes env t =
    (c.stateSegments sizes env t).map fun s => s.map fun tc => (tc.1.keys delta, tc.2) := by
  have habs : (keysOf delta c).absorbed env t = c.absorbed env t := rfl
  rw [Check.stateSegments, habs, keysOf, List.length_map, segments_map]
  rfl

/-- **The verifier's combination of keys**, as a polynomial in the correlation. -/
theorem toGf_verifier {keys : List Block} {choices : List Bool} (hkeys : keys.length = 128)
    (hchoices : choices.length = 128) :
    (verifierSum delta.block ((keysOf delta c).stateSegments sizes env t) ^^^
        voleSender keys).toGf =
      (c.honestUV sizes env choices (evOf delta keys choices) t).u.toGf +
        delta.block.toGf * (c.honestUV sizes env choices (evOf delta keys choices) t).v.toGf +
        delta.block.toGf ^ 2 *
          ((falseProducts (c.stateSegments sizes env t).flatten).map toGf).sum := by
  have hvole := vole_correct delta.block hkeys hchoices
    (rfl : evOf delta keys choices = _)
  have two : (2 : Gf128) = 0 := CharTwo.two_eq_zero
  simp only [Check.honestUV, toGf_xor]
  rw [stateSegments_keysOf, toGf_verifierSum, sum_keyTerm, ← leadCoeff_claims,
    toGf_proverSum_fst, toGf_proverSum_snd, hvole]
  linear_combination
    -(delta.block.toGf * (voleReceiver choices (evOf delta keys choices)).2.toGf) * two

/-- The coefficients of the triples, in order. -/
def coefficients : List Block := (c.stateSegments sizes env t).flatten.map Prod.snd

/-- Segments that cut the triples give each its coefficient. -/
theorem flatten_stateSegments (hsizes : ∀ n, (sizes n).sum = n) :
    (c.stateSegments sizes env t).flatten = c.triples.zip (coefficients sizes env c t) := by
  have hfst : (c.stateSegments sizes env t).flatten.map Prod.fst = c.triples :=
    flatten_segments env _ _ (hsizes _).ge
  exact List.zip_of_prod hfst rfl

/-- **Soundness identity.** Whatever the bits that the MACs claim, however the triples are cut into
segments, and whatever message arrives in place of the honest one, the verifier accepts exactly
when the shifted line meets the wrong gates' coefficients at the correlation. -/
theorem checkVerifier_accepts_iff (hsizes : ∀ n, (sizes n).sum = n) {keys : List Block}
    {choices : List Bool} (hkeys : keys.length = 128) (hchoices : choices.length = 128)
    (uv' : UV) :
    ∃ uv, (Check.checkProverIn sizes env choices (evOf delta keys choices) (c, t)).1 = .ok uv ∧
      ((Check.checkVerifierIn sizes env delta.block keys uv' (keysOf delta c, t)).1 = .ok () ↔
        delta.block.toGf ^ 2 *
            ((falseProducts (c.triples.zip (coefficients sizes env c t))).map toGf).sum +
          delta.block.toGf * (uv.v.toGf + uv'.v.toGf) + (uv.u.toGf + uv'.u.toGf) = 0) := by
  have hev : (evOf delta keys choices).length = 128 := by simp [evOf, hkeys, hchoices]
  refine ⟨c.honestUV sizes env choices (evOf delta keys choices) t, ?_, ?_⟩
  · rw [Check.checkProverIn_eq sizes env hchoices hev]
  · rw [Check.checkVerifierIn_eq sizes env delta.block hkeys,
      ← flatten_stateSegments _ _ _ _ hsizes]
    have hok : ∀ p : Prop, ∀ [Decidable p],
        (if p then .ok () else .err .invalid : Outcome CheckError Unit) = .ok () ↔ p := by
      intro p _
      split <;> simp_all
    rw [hok, ← toGf_inj, toGf_verifier sizes env delta c t hkeys hchoices, toGf_xor, toGf_gfmul,
      ← sub_eq_zero]
    have two : (2 : Gf128) = 0 := CharTwo.two_eq_zero
    constructor <;> intro h
    · linear_combination h + (uv'.u.toGf + delta.block.toGf * uv'.v.toGf) * two
    · linear_combination h - (uv'.u.toGf + delta.block.toGf * uv'.v.toGf) * two

end

/-- An environment whose coefficients are their own positions. -/
def countingEnv : CheckEnv where
  rawBytes _ := []
  finalize t := BitVec.ofNat 256 t.length
  chi _ _ i := BitVec.ofNat 128 (i + 1)

/-- A gate that claims `1 * 1 = 0`, and a forged message, over the segments of the check itself. -/
theorem checkVerifier_accepts_iff_forged :
    ∃ uv, (Check.checkProverIn (chunkSizes segmentSize) countingEnv (List.replicate 128 true)
        (evOf (.new 2#128) (List.replicate 128 5#128) (List.replicate 128 true))
        (⟨[⟨1#128, 3#128, 4#128⟩], [true]⟩, [])).1 = .ok uv ∧
      ((Check.checkVerifierIn (chunkSizes segmentSize) countingEnv (Delta.new 2#128).block
          (List.replicate 128 5#128) ⟨7#128, 9#128⟩
          (keysOf (.new 2#128) ⟨[⟨1#128, 3#128, 4#128⟩], [true]⟩, [])).1 = .ok () ↔
        (Delta.new 2#128).block.toGf ^ 2 *
            ((falseProducts (List.zip [⟨1#128, 3#128, 4#128⟩] (coefficients (chunkSizes segmentSize)
              countingEnv ⟨[⟨1#128, 3#128, 4#128⟩], [true]⟩ []))).map toGf).sum +
          (Delta.new 2#128).block.toGf * (uv.v.toGf + toGf 9#128) +
          (uv.u.toGf + toGf 7#128) = 0) :=
  checkVerifier_accepts_iff (chunkSizes segmentSize) countingEnv (.new 2#128)
    ⟨[⟨1#128, 3#128, 4#128⟩], [true]⟩ [] (sum_chunkSizes segmentSize) List.length_replicate
    List.length_replicate ⟨7#128, 9#128⟩

end Mpz.Zk
