import Mpz.Circuits.Circuit

/-!
# Two parties walking one circuit

Garbler and evaluator, or prover and verifier, run the gates of a circuit over labels of their own,
each in a buffer that may be longer than the circuit and hold labels of an earlier run. `Agree`
compares both with the plain evaluation on the wires written so far: the labels `k` and `m` of a
wire with bit `x` satisfy `R x k m`.

XOR, inverter and identity gates need no message. A party handles them by `FreeOps`, and keeps the
agreement as soon as its two operations respect `R`.

## Main definitions

* `Agree` — the agreement of two label buffers with the plain wires
* `Walk` — the agreement, in front of the gates that remain
* `FreeOps`, `FreeOps.apply` — the gates that need no message
* `FreeOps.Respect` — the two parties' operations respect the relation of their labels

## Main results

* `Agree.apply`, `Agree.write` — one free gate, run by all three; one gate run by hand
* `Walk.init` — the walk starts with inputs that satisfy the relation
* `Walk.free`, `Walk.and` — what one gate does to it
* `Walk.outputs` — the outputs read at the end satisfy the relation
-/

namespace Mpz

variable {α β : Type}

/-- The labels of two parties stand for the plain bits on the wires of `known`. -/
structure Agree (R : Bool → α → β → Prop) (feedCount : ℕ) (known : List ℕ) (v : List Bool)
    (a : List α) (b : List β) : Prop where
  length_v : feedCount ≤ v.length
  length_a : feedCount ≤ a.length
  length_b : feedCount ≤ b.length
  related : ∀ i ∈ known, ∃ x k m, v[i]? = some x ∧ a[i]? = some k ∧ b[i]? = some m ∧ R x k m

/-- How a party computes the gates that need no message. -/
structure FreeOps (α : Type) where
  /-- The label of an XOR gate. -/
  xor : α → α → α
  /-- The label of an inverter gate. -/
  inv : α → α

/-- A gate that needs no message. -/
def FreeOps.apply (ops : FreeOps α) (labels : List α) : Gate → Option (List α)
  | .xor x y z => do
    let a ← labels[x]?
    let b ← labels[y]?
    writeAt labels z (ops.xor a b)
  | .and _ _ _ => none
  | .inv x z => do
    let a ← labels[x]?
    writeAt labels z (ops.inv a)
  | .id x z => do
    let a ← labels[x]?
    writeAt labels z a

/-- The operations of two parties respect the relation of their labels. -/
structure FreeOps.Respect (R : Bool → α → β → Prop) (opsA : FreeOps α) (opsB : FreeOps β) :
    Prop where
  xor : ∀ {x y k k' m m'}, R x k m → R y k' m' → R (x ^^ y) (opsA.xor k k') (opsB.xor m m')
  inv : ∀ {x k m}, R x k m → R (!x) (opsA.inv k) (opsB.inv m)

namespace Agree

variable {R : Bool → α → β → Prop} {feedCount : ℕ} {known : List ℕ} {v : List Bool}
  {a : List α} {b : List β}

theorem mono {known' : List ℕ} (h : Agree R feedCount known v a b) (hsub : known' ⊆ known) :
    Agree R feedCount known' v a b :=
  { h with related := fun i hi => h.related i (hsub hi) }

/-- Writing related labels to one wire makes that wire known. -/
theorem write (h : Agree R feedCount known v a b) {z : ℕ} (hz : z < feedCount) {x : Bool} {k : α}
    {m : β} (hR : R x k m) :
    ∃ v' a' b', writeAt v z x = some v' ∧ writeAt a z k = some a' ∧ writeAt b z m = some b' ∧
      Agree R feedCount (z :: known) v' a' b' := by
  have hv := h.length_v
  have ha := h.length_a
  have hb := h.length_b
  refine ⟨_, _, _, writeAt_of_lt (by omega) _, writeAt_of_lt (by omega) _,
    writeAt_of_lt (by omega) _, ?_⟩
  refine ⟨by simpa using hv, by simpa using ha, by simpa using hb, fun i hi => ?_⟩
  by_cases hiz : z = i
  · subst hiz
    exact ⟨x, k, m, List.getElem?_set_self (by omega), List.getElem?_set_self (by omega),
      List.getElem?_set_self (by omega), hR⟩
  · have hmem : i ∈ known := (List.mem_cons.mp hi).resolve_left (Ne.symm hiz)
    rw [List.getElem?_set_ne hiz, List.getElem?_set_ne hiz, List.getElem?_set_ne hiz]
    exact h.related i hmem

/-- **A free gate keeps the agreement**, and makes the wire it writes known. -/
theorem apply (h : Agree R feedCount known v a b) {opsA : FreeOps α} {opsB : FreeOps β}
    (hops : FreeOps.Respect R opsA opsB) {g : Gate} (hg : g.isAnd = false)
    (hreads : ∀ i ∈ g.reads, i ∈ known) (hz : g.z < feedCount) :
    ∃ v' a' b', evaluateGate v g = some v' ∧ opsA.apply a g = some a' ∧ opsB.apply b g = some b' ∧
      Agree R feedCount (g.z :: known) v' a' b' := by
  cases g with
  | xor x y z =>
    obtain ⟨p, k, m, hp, hk, hm, hR⟩ := h.related x (hreads x (by simp [Gate.reads]))
    obtain ⟨p', k', m', hp', hk', hm', hR'⟩ := h.related y (hreads y (by simp [Gate.reads]))
    simpa [evaluateGate, FreeOps.apply, Gate.z, hp, hk, hm, hp', hk', hm'] using
      h.write hz (hops.xor hR hR')
  | and x y z => simp [Gate.isAnd] at hg
  | inv x z =>
    obtain ⟨p, k, m, hp, hk, hm, hR⟩ := h.related x (hreads x (by simp [Gate.reads]))
    simpa [evaluateGate, FreeOps.apply, Gate.z, hp, hk, hm] using h.write hz (hops.inv hR)
  | id x z =>
    obtain ⟨p, k, m, hp, hk, hm, hR⟩ := h.related x (hreads x (by simp [Gate.reads]))
    simpa [evaluateGate, FreeOps.apply, Gate.z, hp, hk, hm] using h.write hz hR

/-- The inputs, copied to the front of the three buffers. -/
theorem init (v : List Bool) {bits : List Bool} {keys : List α} {macs : List β} {n : ℕ}
    (hn : n ≤ feedCount)
    (hbits : bits.length = n) (hkeys : keys.length = n) (hmacs : macs.length = n)
    (hR : ∀ (i : ℕ) x k m, bits[i]? = some x → keys[i]? = some k → macs[i]? = some m → R x k m)
    (hv : feedCount ≤ v.length) (ha : feedCount ≤ a.length) (hb : feedCount ≤ b.length) :
    ∃ v' a' b', copyFrom v 0 bits = some v' ∧ copyFrom a 0 keys = some a' ∧
      copyFrom b 0 macs = some b' ∧ Agree R feedCount (List.range' 0 n) v' a' b' := by
  have hv' : copyFrom v 0 bits = some _ := copyFrom_of_le (by omega)
  have ha' : copyFrom a 0 keys = some _ := copyFrom_of_le (by omega)
  have hb' : copyFrom b 0 macs = some _ := copyFrom_of_le (by omega)
  refine ⟨_, _, _, hv', ha', hb', ⟨?_, ?_, ?_, fun i hi => ?_⟩⟩
  · rwa [length_of_copyFrom hv']
  · rwa [length_of_copyFrom ha']
  · rwa [length_of_copyFrom hb']
  · have hin : i < n := by have := List.mem_range'_1.mp hi; omega
    refine ⟨bits[i], keys[i], macs[i], ?_, ?_, ?_, hR i _ _ _ (List.getElem?_eq_getElem _)
      (List.getElem?_eq_getElem _) (List.getElem?_eq_getElem _)⟩
    · rw [getElem?_copyFrom hv', if_pos (by omega), Nat.sub_zero, List.getElem?_eq_getElem]
    · rw [getElem?_copyFrom ha', if_pos (by omega), Nat.sub_zero, List.getElem?_eq_getElem]
    · rw [getElem?_copyFrom hb', if_pos (by omega), Nat.sub_zero, List.getElem?_eq_getElem]

/-- **The outputs agree.** -/
theorem outputs (h : Agree R feedCount known v a b) {r : Range} (hr : r.start ≤ r.stop)
    (hstop : r.stop ≤ feedCount) (hknown : ∀ i ∈ r.indices, i ∈ known) :
    ∃ xs ks ms, slice v r = some xs ∧ slice a r = some ks ∧ slice b r = some ms ∧
      xs.length = r.len ∧ ks.length = r.len ∧ ms.length = r.len ∧
      ∀ j < r.len, ∃ x k m, xs[j]? = some x ∧ ks[j]? = some k ∧ ms[j]? = some m ∧ R x k m := by
  have hv := slice_eq_some.mpr ⟨⟨hr, hstop.trans h.length_v⟩, rfl⟩
  have ha := slice_eq_some.mpr ⟨⟨hr, hstop.trans h.length_a⟩, rfl⟩
  have hb := slice_eq_some.mpr ⟨⟨hr, hstop.trans h.length_b⟩, rfl⟩
  refine ⟨_, _, _, hv, ha, hb, length_of_slice hv, length_of_slice ha, length_of_slice hb,
    fun j hj => ?_⟩
  rw [getElem?_slice hv hj, getElem?_slice ha hj, getElem?_slice hb hj]
  refine h.related _ (hknown _ (Range.mem_indices.mpr ?_))
  rw [Range.len] at hj
  omega

end Agree

/-! ### The walk -/

/-- Both parties are in front of `gates`, and agree with a plain evaluation that will leave the
wires `result`. -/
structure Walk (R : Bool → α → β → Prop) (feedCount : ℕ) (result : Option (List Bool))
    (known : List ℕ) (gates : List Gate) (a : List α) (b : List β) : Prop where
  reads : GatesRead known gates
  z_lt : ∀ g ∈ gates, g.z < feedCount
  covers : ∀ i < feedCount, i ∈ known ∨ ∃ g ∈ gates, g.z = i
  wires : ∃ v, Agree R feedCount known v a b ∧ evaluateGates v gates = result

namespace Walk

variable {R : Bool → α → β → Prop} {feedCount : ℕ} {result : Option (List Bool)}
  {known : List ℕ} {g : Gate} {gates : List Gate} {a : List α} {b : List β}

theorem covers_cons (h : Walk R feedCount result known (g :: gates) a b) :
    ∀ i < feedCount, i ∈ g.z :: known ∨ ∃ g' ∈ gates, g'.z = i := by
  intro i hi
  rcases h.covers i hi with hk | ⟨g', hg', rfl⟩
  · exact .inl (List.mem_cons_of_mem _ hk)
  · rcases List.mem_cons.mp hg' with rfl | hg'
    · exact .inl List.mem_cons_self
    · exact .inr ⟨g', hg', rfl⟩

/-- The walk past a gate, from the wires that the gate leaves. -/
theorem past (h : Walk R feedCount result known (g :: gates) a b) {v v' : List Bool}
    {a' : List α} {b' : List β} (hv : evaluateGates v (g :: gates) = result)
    (hg : evaluateGate v g = some v') (hagree : Agree R feedCount (g.z :: known) v' a' b') :
    Walk R feedCount result (g.z :: known) gates a' b' where
  reads := h.reads.2
  z_lt g' hg' := h.z_lt g' (List.mem_cons_of_mem _ hg')
  covers := h.covers_cons
  wires := ⟨v', hagree, by simpa [evaluateGates, hg] using hv⟩

/-- A free gate. -/
theorem free (h : Walk R feedCount result known (g :: gates) a b) {opsA : FreeOps α}
    {opsB : FreeOps β} (hops : FreeOps.Respect R opsA opsB) (hg : g.isAnd = false) :
    ∃ a' b', opsA.apply a g = some a' ∧ opsB.apply b g = some b' ∧
      Walk R feedCount result (g.z :: known) gates a' b' := by
  obtain ⟨v, hagree, hv⟩ := h.wires
  obtain ⟨v', a', b', hv', ha', hb', hagree'⟩ :=
    hagree.apply hops hg h.reads.1 (h.z_lt g List.mem_cons_self)
  exact ⟨a', b', ha', hb', h.past hv hv' hagree'⟩

/-- An AND gate: the labels of its inputs, and what follows from related labels of its output. -/
theorem and {x y z : ℕ} (h : Walk R feedCount result known (.and x y z :: gates) a b) :
    ∃ p q kx mx ky my, a[x]? = some kx ∧ b[x]? = some mx ∧ a[y]? = some ky ∧ b[y]? = some my ∧
      R p kx mx ∧ R q ky my ∧
      ∀ k m, R (p && q) k m → ∃ a' b', writeAt a z k = some a' ∧ writeAt b z m = some b' ∧
        Walk R feedCount result (z :: known) gates a' b' := by
  obtain ⟨v, hagree, hv⟩ := h.wires
  obtain ⟨p, kx, mx, hp, hkx, hmx, hRx⟩ := hagree.related x (h.reads.1 x (by simp [Gate.reads]))
  obtain ⟨q, ky, my, hq, hky, hmy, hRy⟩ := hagree.related y (h.reads.1 y (by simp [Gate.reads]))
  refine ⟨p, q, kx, mx, ky, my, hkx, hmx, hky, hmy, hRx, hRy, fun k m hR => ?_⟩
  obtain ⟨v', a', b', hv', ha', hb', hagree'⟩ := hagree.write (h.z_lt _ List.mem_cons_self) hR
  refine ⟨a', b', ha', hb', h.past hv ?_ hagree'⟩
  rw [evaluateGate, hp, hq]
  exact hv'

/-- **The start of a walk.** The inputs are copied to the front of both buffers. -/
theorem init {circ : Circuit} (hwf : circ.WellFormed) {bits : List Bool} (keys : List α)
    (macs : List β) (hbits : bits.length = circ.inputs.len)
    (hkeys : keys.length = circ.inputs.len) (hmacs : macs.length = circ.inputs.len)
    (hR : ∀ (i : ℕ) x k m, bits[i]? = some x → keys[i]? = some k → macs[i]? = some m → R x k m)
    (ha : circ.feedCount ≤ a.length) (hb : circ.feedCount ≤ b.length) :
    ∃ feeds a' b', copyFrom (List.replicate circ.feedCount false) 0 bits = some feeds ∧
      copyFrom a 0 keys = some a' ∧ copyFrom b 0 macs = some b' ∧
      Walk R circ.feedCount (evaluateGates feeds circ.gates) circ.inputs.indices circ.gates
        a' b' := by
  obtain ⟨feeds, a', b', hfeeds, ha', hb', hagree⟩ :=
    Agree.init (List.replicate circ.feedCount false) hwf.inputs_le hbits hkeys hmacs hR
      List.length_replicate.ge ha hb
  refine ⟨feeds, a', b', hfeeds, ha', hb', hwf.reads, hwf.z_lt, fun i hi => hwf.mem_known hi,
    feeds, ?_, rfl⟩
  rwa [hwf.inputs_indices]

/-- **The end of a walk.** The outputs of the plain evaluation and the labels of the outputs. -/
theorem outputs (h : Walk R feedCount result known [] a b) {r : Range}
    (hr : r.start ≤ r.stop ∧ r.stop ≤ feedCount) :
    ∃ xs ks ms, (result >>= fun feeds => slice feeds r) = some xs ∧ slice a r = some ks ∧
      slice b r = some ms ∧ xs.length = r.len ∧ ks.length = r.len ∧ ms.length = r.len ∧
      ∀ j < r.len, ∃ x k m, xs[j]? = some x ∧ ks[j]? = some k ∧ ms[j]? = some m ∧ R x k m := by
  obtain ⟨v, hagree, hv⟩ := h.wires
  have hknown : ∀ i ∈ r.indices, i ∈ known := by
    intro i hi
    simpa using h.covers i ((Range.mem_indices.mp hi).2.trans_le hr.2)
  obtain ⟨xs, ks, ms, hxs, hrest⟩ := hagree.outputs hr.1 hr.2 hknown
  refine ⟨xs, ks, ms, ?_, hrest⟩
  rw [← hv]
  exact hxs

end Walk

end Mpz
