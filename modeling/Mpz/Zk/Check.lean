import Mpz.Lib.Buffer
import Mpz.Lib.Lists
import Mpz.Lib.Method
import Mpz.Lib.Requests
import Mpz.Memory.Correlated
import Mpz.Zk.Vole

/-!
# The consistency check

Prover and verifier buffer one triple and one adjust bit for every AND gate of the circuits they
run. The check absorbs the adjust bits into the transcript, derives one coefficient per triple from
it, and compares a combination of the prover's MACs with one of the verifier's keys.

The hash and the stream of coefficients are parameters: `CheckEnv.finalize` of the bytes absorbed so
far, and `CheckEnv.chi`, the position-th block of a stream of the generator. So are the bytes that
the storage of a bit vector holds. The triples are processed in segments whose sizes are an argument
of `checkProverIn` and `checkVerifierIn`; `checkProver` and `checkVerifier` take segments of
`segmentSize`.

## Main definitions

* `Zk.Check`, with `reserve`, `write`, `wantsCheck`, `total`
* `Zk.Check.checkProver`, `Zk.Check.checkVerifier`

## Main results

* `Zk.toGf_proverSum_fst`, `Zk.toGf_proverSum_snd`, `Zk.toGf_verifierSum` — the segments add up
  to the coefficients of the key polynomial
* `Zk.Check.checkProverIn_eq`, `Zk.Check.checkVerifierIn_eq` — what a check with 128 correlations
  returns, and the buffers it leaves
-/

namespace Mpz.Zk

open Block

/-- Chunk size for parallel processing of consistency check. -/
def segmentSize : ℕ := 512

/-- Values sent from the prover to the verifier for the consistency check. -/
structure UV where
  /-- `U` -/
  u : Block
  /-- `V` -/
  v : Block
  deriving DecidableEq, Repr

/-- The MACs, or the keys, of one AND gate. -/
structure Triple where
  /-- The left input. -/
  x : Block
  /-- The right input. -/
  y : Block
  /-- The output. -/
  z : Block
  deriving DecidableEq, Repr

instance : Inhabited Triple := ⟨⟨zero, zero, zero⟩⟩

/-- The buffers of the check. -/
structure Check where
  /-- The triples to check. -/
  triples : List Triple
  /-- Their adjust bits. -/
  adjust : List Bool
  deriving DecidableEq, Repr

/-- An error of the check. -/
inductive CheckError where
  /-- incorrect number of sVOLE instances provided -/
  | sVole
  /-- invalid consistency check -/
  | invalid
  deriving DecidableEq, Repr

/-- The bytes that a hasher has absorbed. -/
abbrev Transcript := List (BitVec 8)

/-- What the check uses of its dependencies. -/
structure CheckEnv where
  /-- The bytes of a bit vector's storage. They are a function of the bits where the storage holds
  no bits but these, as it does while no check has failed: a failed check leaves the bits of its
  triples behind. -/
  rawBytes : List Bool → List (BitVec 8)
  /-- The digest of the bytes absorbed so far, as a seed. -/
  finalize : Transcript → BitVec 256
  /-- The block that a generator with this seed yields, on a stream, at a position. -/
  chi : BitVec 256 → ℕ → ℕ → Block

namespace Check

/-- The default value. -/
def empty : Check := ⟨[], []⟩

/-- Reserves capacity for at least `n` AND gates, returns the starting index. -/
def reserve (self : Check) (n : ℕ) : ℕ × Check :=
  let idx := self.triples.length
  (idx, ⟨resize self.triples (idx + n) default, resize self.adjust (idx + n) false⟩)

/-- Writes the triples and the adjust bits of a circuit. The slices must have the lengths of their
sources. -/
def write (self : Check) (idx : ℕ) (triples : List Triple) (adjust : List Bool) : Option Check :=
  if adjust.length = triples.length then do
    let triples ← copyFrom self.triples idx triples
    let adjust ← copyFrom self.adjust idx adjust
    some ⟨triples, adjust⟩
  else none

/-- Returns `true` if there are gates to check. -/
def wantsCheck (self : Check) : Bool := !self.triples.isEmpty

/-- Returns the total number of triples that need to be checked. -/
def total (self : Check) : ℕ := self.triples.length

/-- The bytes of the adjust bits that the transcript absorbs. -/
def adjustBytes (env : CheckEnv) (self : Check) : Transcript :=
  (env.rawBytes self.adjust).take ((self.adjust.length + 7) / 8)

end Check

/-! ### The terms -/

/-- The sizes of `n` elements in chunks. -/
def chunkSizes (size n : ℕ) : List ℕ :=
  List.replicate (n / size) size ++ if n % size = 0 then [] else [n % size]

/-- The segments of the triples, every triple with its coefficient: the one at the triple's
position in the stream of its segment. -/
def segments (env : CheckEnv) (sizes : List ℕ) (seed : BitVec 256) (triples : List Triple) :
    List (List (Triple × Block)) :=
  (sizes.splitLengths triples).mapIdx fun streamId segment =>
    segment.mapIdx fun i triple => (triple, env.chi seed streamId i)

/-- The prover's `compute_terms`. The LSB of a MAC contains the authenticated bit. -/
def computeTerms (triple : Triple) (chi : Block) : Block × Block :=
  let u := (triple.x.gfmul triple.y).gfmul chi
  let a10 := if triple.x.lsb then triple.y else zero
  let a11 := if triple.y.lsb then triple.x else zero
  let v := (a10 ^^^ a11 ^^^ triple.z).gfmul chi
  (u, v)

/-- The verifier's `compute_term`. -/
def computeTerm (triple : Triple) (chi delta : Block) : Block :=
  let b := triple.x.gfmul triple.y ^^^ delta.gfmul triple.z
  b.gfmul chi

/-- The prover's `process_segment`. -/
def proverSegment (segment : List (Triple × Block)) : Block × Block :=
  segment.foldl (fun acc tc =>
    (acc.1 ^^^ (computeTerms tc.1 tc.2).1, acc.2 ^^^ (computeTerms tc.1 tc.2).2)) (zero, zero)

/-- The verifier's `process_segment`. -/
def verifierSegment (delta : Block) (segment : List (Triple × Block)) : Block :=
  segment.foldl (fun acc tc => acc ^^^ computeTerm tc.1 tc.2 delta) zero

/-- The prover's segments, added up. -/
def proverSum (segments : List (List (Triple × Block))) : Block × Block :=
  (segments.map proverSegment).foldl (fun uv uv' => (uv.1 ^^^ uv'.1, uv.2 ^^^ uv'.2)) (zero, zero)

/-- The verifier's segments, added up. -/
def verifierSum (delta : Block) (segments : List (List (Triple × Block))) : Block :=
  (segments.map (verifierSegment delta)).foldl (· ^^^ ·) zero

/-! ### The check -/

namespace Check

/-- `slice.try_into()` to an array of 128. -/
def array128 {σ α : Type} (l : List α) : Method σ CheckError (List α) :=
  if l.length = 128 then pure l else .throw .sVole

/-- Executes the prover check over segments of the given sizes, returning `U` and `V`. -/
def checkProverIn (sizes : ℕ → List ℕ) (env : CheckEnv) (svoleChoices : List Bool)
    (svoleEv : List Block) : Method (Check × Transcript) CheckError UV := do
  .modify fun s => (s.1, s.2 ++ s.1.adjustBytes env)
  let s ← .get
  let seed := env.finalize s.2
  let (u, v) := proverSum (segments env (sizes s.1.triples.length) seed s.1.triples)
  -- Keep the capacity for the next check; still consumed on error.
  .modify fun s => ({ s.1 with triples := [] }, s.2)
  let choices ← array128 svoleChoices
  let ev ← array128 svoleEv
  let (a0, a1) := voleReceiver choices ev
  let u := u ^^^ a0
  let v := v ^^^ a1
  .modify fun s => (s.1, s.2 ++ u.toBytes ++ v.toBytes)
  .modify fun s => ({ s.1 with adjust := [] }, s.2)
  return ⟨u, v⟩

/-- Executes the verifier check over segments of the given sizes. -/
def checkVerifierIn (sizes : ℕ → List ℕ) (env : CheckEnv) (delta : Block)
    (svoleKeys : List Block) (uv : UV) : Method (Check × Transcript) CheckError Unit := do
  .modify fun s => (s.1, s.2 ++ s.1.adjustBytes env)
  let s ← .get
  let seed := env.finalize s.2
  let w := verifierSum delta (segments env (sizes s.1.triples.length) seed s.1.triples)
  -- Same as above: keep the capacity, consume the triples even on error.
  .modify fun s => ({ s.1 with triples := [] }, s.2)
  let keys ← array128 svoleKeys
  let b := voleSender keys
  let w := w ^^^ b
  .modify fun s => (s.1, s.2 ++ uv.u.toBytes ++ uv.v.toBytes)
  .modify fun s => ({ s.1 with adjust := [] }, s.2)
  if w ≠ uv.u ^^^ delta.gfmul uv.v then .throw .invalid else pure ()

/-- Executes the prover check, returning `U` and `V`. -/
def checkProver (env : CheckEnv) (svoleChoices : List Bool) (svoleEv : List Block) :
    Method (Check × Transcript) CheckError UV :=
  checkProverIn (chunkSizes segmentSize) env svoleChoices svoleEv

/-- Executes the verifier check. -/
def checkVerifier (env : CheckEnv) (delta : Block) (svoleKeys : List Block) (uv : UV) :
    Method (Check × Transcript) CheckError Unit :=
  checkVerifierIn (chunkSizes segmentSize) env delta svoleKeys uv

end Check

/-! ### The sums in the field -/

/-- The claim of a triple of MACs: each authenticates its least significant bit. -/
noncomputable def Triple.claim (t : Triple) : ProductClaim Gf128 where
  mx := t.x.toGf
  my := t.y.toGf
  mz := t.z.toGf
  x := bitGf t.x.lsb
  y := bitGf t.y.lsb
  z := bitGf t.z.lsb

/-- The claims of a list, with their coefficients. -/
noncomputable def claims (l : List (Triple × Block)) : List (ProductClaim Gf128 × Gf128) :=
  l.map fun tc => (tc.1.claim, tc.2.toGf)

/-- The keys of MACs that authenticate their least significant bits. -/
def Triple.keys (delta : Delta) (t : Triple) : Triple where
  x := t.x ^^^ delta.select t.x.lsb
  y := t.y ^^^ delta.select t.y.lsb
  z := t.z ^^^ delta.select t.z.lsb

theorem toGf_foldl_xor_map {α : Type} (f : α → Block) (l : List α) (acc : Block) :
    (l.foldl (fun acc a => acc ^^^ f a) acc).toGf =
      acc.toGf + (l.map fun a => (f a).toGf).sum := by
  induction l generalizing acc with
  | nil => simp
  | cons a l ih => rw [List.foldl_cons, ih, toGf_xor, List.map_cons, List.sum_cons, add_assoc]

theorem foldl_pair_xor {α : Type} (f : α → Block × Block) (l : List α) (acc : Block × Block) :
    l.foldl (fun acc a => (acc.1 ^^^ (f a).1, acc.2 ^^^ (f a).2)) acc =
      (l.foldl (fun acc a => acc ^^^ (f a).1) acc.1,
        l.foldl (fun acc a => acc ^^^ (f a).2) acc.2) := by
  induction l generalizing acc with
  | nil => rfl
  | cons a l ih => rw [List.foldl_cons, ih, List.foldl_cons, List.foldl_cons]

theorem sum_map_flatten {α : Type} (f : α → Gf128) (l : List (List α)) :
    (l.map fun s => (s.map f).sum).sum = (l.flatten.map f).sum := by
  induction l with
  | nil => rfl
  | cons s l ih =>
    rw [List.map_cons, List.sum_cons, ih, List.flatten_cons, List.map_append, List.sum_append]

theorem proverSegment_eq (segment : List (Triple × Block)) : proverSegment segment =
    (segment.foldl (fun acc tc => acc ^^^ (computeTerms tc.1 tc.2).1) zero,
      segment.foldl (fun acc tc => acc ^^^ (computeTerms tc.1 tc.2).2) zero) := by
  rw [proverSegment, foldl_pair_xor fun tc : Triple × Block => computeTerms tc.1 tc.2]

theorem proverSum_eq (segs : List (List (Triple × Block))) : proverSum segs =
    (segs.foldl (fun acc s => acc ^^^ (proverSegment s).1) zero,
      segs.foldl (fun acc s => acc ^^^ (proverSegment s).2) zero) := by
  rw [proverSum, List.foldl_map, foldl_pair_xor proverSegment]

theorem toGf_proverSum_fst (segs : List (List (Triple × Block))) :
    (proverSum segs).1.toGf = constCoeff (claims segs.flatten) := by
  have hterm : ∀ tc : Triple × Block, (computeTerms tc.1 tc.2).1.toGf =
      tc.1.claim.mx * tc.1.claim.my * tc.2.toGf := by
    intro tc
    simp only [computeTerms, toGf_gfmul, Triple.claim]
  simp only [proverSum_eq, proverSegment_eq, toGf_foldl_xor_map, zero, toGf_zero, zero_add, hterm,
    sum_map_flatten, constCoeff, claims, List.map_map, Function.comp_def]

theorem toGf_proverSum_snd (segs : List (List (Triple × Block))) :
    (proverSum segs).2.toGf = linCoeff (claims segs.flatten) := by
  have hterm : ∀ tc : Triple × Block, (computeTerms tc.1 tc.2).2.toGf =
      (tc.1.claim.x * tc.1.claim.my + tc.1.claim.y * tc.1.claim.mx + tc.1.claim.mz) *
        tc.2.toGf := by
    intro tc
    simp only [computeTerms, zero, toGf_gfmul, toGf_xor, toGf_ite, Triple.claim]
  simp only [proverSum_eq, proverSegment_eq, toGf_foldl_xor_map, zero, toGf_zero, zero_add, hterm,
    sum_map_flatten, linCoeff, claims, List.map_map, Function.comp_def]

theorem toGf_select (delta : Delta) (b : Bool) :
    (delta.select b).toGf = bitGf b * delta.block.toGf := toGf_ite b delta.block

theorem toGf_verifierSum (delta : Delta) (segs : List (List (Triple × Block))) :
    (verifierSum delta.block (segs.map fun s => s.map fun tc => (tc.1.keys delta, tc.2))).toGf =
      ((claims segs.flatten).map fun p => p.1.keyTerm delta.block.toGf * p.2).sum := by
  have hterm : ∀ tc : Triple × Block, (computeTerm (tc.1.keys delta) tc.2 delta.block).toGf =
      tc.1.claim.keyTerm delta.block.toGf * tc.2.toGf := by
    intro tc
    simp only [computeTerm, toGf_gfmul, toGf_xor, Triple.keys, toGf_select, Triple.claim,
      ProductClaim.keyTerm]
  simp only [verifierSum, verifierSegment, toGf_foldl_xor_map, List.map_map, Function.comp_def,
    zero, toGf_zero, zero_add, List.foldl_map, hterm, sum_map_flatten, claims]

/-! ### The segments -/

section Segments

variable (env : CheckEnv) (sizes : List ℕ) (seed : BitVec 256)

/-- The coefficients do not depend on the triples. -/
theorem segments_map (f : Triple → Triple) (triples : List Triple) :
    segments env sizes seed (triples.map f) =
      (segments env sizes seed triples).map fun s => s.map fun tc => (f tc.1, tc.2) := by
  simp only [segments, List.splitLengths_map, List.mapIdx_map, List.map_mapIdx]

/-- Every triple is processed once, in order. -/
theorem flatten_segments {triples : List Triple} (h : triples.length ≤ sizes.sum) :
    (segments env sizes seed triples).flatten.map Prod.fst = triples := by
  have hfst : ∀ (streamId : ℕ) (segment : List Triple),
      (segment.mapIdx fun i triple => (triple, env.chi seed streamId i)).map Prod.fst =
        segment := by
    intro streamId segment
    rw [List.map_mapIdx, List.mapIdx_self]
  rw [segments, List.map_flatten, List.map_mapIdx]
  simp only [hfst, List.mapIdx_self]
  exact List.flatten_splitLengths _ _ h

end Segments

theorem sum_chunkSizes (size n : ℕ) : (chunkSizes size n).sum = n := by
  have hdiv := Nat.div_add_mod n size
  rw [chunkSizes, List.sum_append, List.sum_replicate, smul_eq_mul, mul_comm]
  split
  · simpa using by omega
  · simpa using hdiv

/-! ### What a check returns -/

namespace Check

variable (sizes : ℕ → List ℕ) (env : CheckEnv)

/-- The transcript behind the adjust bits. -/
def absorbed (c : Check) (t : Transcript) : Transcript := t ++ c.adjustBytes env

/-- The segments that a check on this state processes. -/
def stateSegments (c : Check) (t : Transcript) : List (List (Triple × Block)) :=
  segments env (sizes c.triples.length) (env.finalize (c.absorbed env t)) c.triples

/-- The message of an honest prover. -/
def honestUV (choices : List Bool) (ev : List Block) (c : Check) (t : Transcript) : UV where
  u := (proverSum (c.stateSegments sizes env t)).1 ^^^ (voleReceiver choices ev).1
  v := (proverSum (c.stateSegments sizes env t)).2 ^^^ (voleReceiver choices ev).2

theorem checkProverIn_eq {choices : List Bool} {ev : List Block} (hchoices : choices.length = 128)
    (hev : ev.length = 128) (c : Check) (t : Transcript) :
    checkProverIn sizes env choices ev (c, t) =
      (.ok (c.honestUV sizes env choices ev t), (empty, c.absorbed env t ++
        (c.honestUV sizes env choices ev t).u.toBytes ++
        (c.honestUV sizes env choices ev t).v.toBytes)) := by
  simp only [checkProverIn, Method.modify_bind, Method.get_bind, array128, hchoices, hev, if_true,
    Method.pure_bind', Method.pure_apply]
  rfl

theorem checkVerifierIn_eq (delta : Block) {keys : List Block} (hkeys : keys.length = 128)
    (uv : UV) (c : Check) (t : Transcript) :
    checkVerifierIn sizes env delta keys uv (c, t) =
      (if verifierSum delta (c.stateSegments sizes env t) ^^^ voleSender keys =
          uv.u ^^^ delta.gfmul uv.v then .ok () else .err .invalid,
        (empty, c.absorbed env t ++ uv.u.toBytes ++ uv.v.toBytes)) := by
  simp only [checkVerifierIn, Method.modify_bind, Method.get_bind, array128, hkeys, if_true,
    Method.pure_bind', Method.ite_apply]
  by_cases h : verifierSum delta (c.stateSegments sizes env t) ^^^ voleSender keys =
      uv.u ^^^ delta.gfmul uv.v
  · rw [if_pos h]
    exact if_neg (not_not.mpr h)
  · rw [if_neg h]
    exact if_pos h

end Check

end Mpz.Zk
