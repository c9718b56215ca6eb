import Mpz.Zk.Execution

/-!
# Running a circuit again

An execution hands out its iterator, or its consumer, as often as it is asked. Every pass starts at
the first gate with the counter reset, and pushes its triples and adjust bits behind those of the
passes before it. `finish` copies all of them to the place reserved for one pass.

So a pass that is finished after others have taken bits is written with theirs, in front of it, and
over the place of the next circuit, or past the end of the buffers. When no bit was taken before,
the pass is written alone.

## Main definitions

* `Zk.Shared.others` — what the other circuits do to the check
* `Zk.ProverExecute.passes`, `Zk.VerifierExecute.passes` — the passes before the last one
* `Zk.ProverInputs.Reruns`, `Zk.VerifierInputs.Reruns` — the last pass is the one that is written

## Main results

* `Zk.ProverIter.Ready.drain`, `Zk.VerifierConsumer.Ready.feed` — what one pass pushes
* `Zk.rerun_serves` — the passes for which the last one is written
-/

namespace Mpz

/-! ### The gates of a well-formed circuit -/

/-- The gate reads and writes the first `n` feeds. -/
def Gate.InFeeds (n : ℕ) (g : Gate) : Prop := (∀ i ∈ g.reads, i < n) ∧ g.z < n

theorem GatesRead.reads_lt {n : ℕ} {known : List ℕ} {gates : List Gate}
    (h : GatesRead known gates) (hknown : ∀ i ∈ known, i < n) (hz : ∀ g ∈ gates, g.z < n) :
    ∀ g ∈ gates, ∀ i ∈ g.reads, i < n := by
  induction gates generalizing known with
  | nil => exact fun g hg => absurd hg List.not_mem_nil
  | cons gate gates ih =>
    have hcons : ∀ i ∈ gate.z :: known, i < n := by
      intro i hi
      rcases List.mem_cons.mp hi with rfl | hi
      · exact hz gate List.mem_cons_self
      · exact hknown i hi
    intro g hg i hi
    rcases List.mem_cons.mp hg with rfl | hg
    · exact hknown i (h.1 i hi)
    · exact ih h.2 hcons (fun g hg => hz g (List.mem_cons_of_mem _ hg)) g hg i hi

theorem Circuit.WellFormed.inFeeds {c : Circuit} (h : c.WellFormed) :
    ∀ g ∈ c.gates, g.InFeeds c.feedCount := by
  have hinputs : ∀ i ∈ c.inputs.indices, i < c.feedCount := fun i hi =>
    List.mem_range.mp (h.writes.mem_iff.mp (List.mem_append_left _ hi))
  exact fun g hg => ⟨h.reads.reads_lt hinputs h.z_lt g hg, h.z_lt g hg⟩

theorem Gate.InFeeds.getElem? {α : Type} {labels : List α} {g : Gate}
    (h : g.InFeeds labels.length) {i : ℕ} (hi : i ∈ g.reads) : ∃ a, labels[i]? = some a :=
  ⟨_, List.getElem?_eq_getElem (h.1 i hi)⟩

/-- A free gate inside the feeds succeeds. -/
theorem FreeOps.exists_apply {α : Type} (ops : FreeOps α) {labels : List α} {g : Gate}
    (h : g.InFeeds labels.length) (hg : g.isAnd = false) :
    ∃ labels', ops.apply labels g = some labels' ∧ labels'.length = labels.length := by
  have hwrite : ∀ a, writeAt labels g.z a = some (labels.set g.z a) := fun a =>
    writeAt_of_lt h.2 a
  cases g with
  | xor x y z =>
    obtain ⟨a, ha⟩ := h.getElem? (i := x) (by simp [Gate.reads])
    obtain ⟨b, hb⟩ := h.getElem? (i := y) (by simp [Gate.reads])
    exact ⟨labels.set z (ops.xor a b), by simpa [FreeOps.apply, Gate.z, ha, hb] using hwrite _,
      List.length_set⟩
  | and x y z => simp [Gate.isAnd] at hg
  | inv x z =>
    obtain ⟨a, ha⟩ := h.getElem? (i := x) (by simp [Gate.reads])
    exact ⟨labels.set z (ops.inv a), by simpa [FreeOps.apply, Gate.z, ha] using hwrite _,
      List.length_set⟩
  | id x z =>
    obtain ⟨a, ha⟩ := h.getElem? (i := x) (by simp [Gate.reads])
    exact ⟨labels.set z a, by simpa [FreeOps.apply, Gate.z, ha] using hwrite _,
      List.length_set⟩

namespace Zk

/-! ### One pass of the prover -/

/-- The iterator is in front of `gates` of a circuit, with its counter at the AND gates before. -/
structure ProverIter.Ready (circ : Circuit) (gates : List Gate) (it : ProverIter) : Prop where
  length_macs : it.macs.length = circ.feedCount
  inFeeds : ∀ g ∈ gates, g.InFeeds circ.feedCount
  length_gateMasks : it.gateMasks.length = circ.andCount
  length_gateMacs : it.gateMacs.length = circ.andCount
  andCount_eq : it.andCount = circ.andCount
  count : it.counter + andGates gates = circ.andCount

namespace ProverIter.Ready

variable {circ : Circuit} {g : Gate} {gates : List Gate} {it : ProverIter}

theorem head (h : it.Ready circ (g :: gates)) : g.InFeeds it.macs.length := by
  rw [h.length_macs]
  exact h.inFeeds g List.mem_cons_self

/-- A free gate. -/
theorem free (h : it.Ready circ (g :: gates)) (hg : g.isAnd = false) :
    ∃ macs, proverOps.apply it.macs g = some macs ∧
      ({ it with macs } : ProverIter).Ready circ gates := by
  obtain ⟨macs, hmacs, hlen⟩ := proverOps.exists_apply h.head hg
  refine ⟨macs, hmacs, { h with
    length_macs := hlen.trans h.length_macs
    inFeeds := fun g' hg' => h.inFeeds g' (List.mem_cons_of_mem _ hg')
    count := ?_ }⟩
  simpa [andGates, hg] using h.count

/-- An AND gate pushes one triple and one adjust bit. -/
theorem and {x y z : ℕ} (h : it.Ready circ (.and x y z :: gates)) :
    ∃ bit triple it', it.nextGates (.and x y z :: gates) = (if it'.counter ≥ it'.andCount then
        (it'.nextGates gates).bind fun (bit', it'') =>
          if bit'.isNone then some (some bit, it'') else none
        else some (some bit, it')) ∧
      it'.Ready circ gates ∧ it'.gates = gates ∧ it'.triples = it.triples ++ [triple] ∧
      it'.adjust = it.adjust ++ [bit] := by
  have hcount := h.count
  rw [show andGates (.and x y z :: gates) = andGates gates + 1 by
    simp [andGates, List.countP_cons, Gate.isAnd]] at hcount
  have hlt : it.counter < it.gateMacs.length := by rw [h.length_gateMacs]; omega
  have hlt' : it.counter < it.gateMasks.length := by rw [h.length_gateMasks]; omega
  obtain ⟨mx, hmx⟩ := h.head.getElem? (i := x) (by simp [Gate.reads])
  obtain ⟨my, hmy⟩ := h.head.getElem? (i := y) (by simp [Gate.reads])
  have hwrite := writeAt_of_lt h.head.2
    ((it.gateMacs[it.counter]).setPointer (mx.pointer && my.pointer))
  refine ⟨_, _, _, nextGates_and hmx hmy (List.getElem?_eq_getElem hlt)
    (List.getElem?_eq_getElem hlt') hwrite rfl, { h with
      length_macs := List.length_set.trans h.length_macs
      inFeeds := fun g' hg' => h.inFeeds g' (List.mem_cons_of_mem _ hg')
      count := by simp only; omega }, rfl, rfl, rfl⟩

theorem le_counter_iff (h : it.Ready circ gates) :
    it.counter ≥ it.andCount ↔ ¬ 0 < andGates gates := by
  have := h.count
  rw [h.andCount_eq]
  omega

/-- Where no AND gate remains, the iterator runs to the end and pushes nothing. -/
theorem tail (h : it.Ready circ gates) (h0 : andGates gates = 0) :
    ∃ it', it.nextGates gates = some (none, it') ∧ it'.Ready circ [] ∧ it'.gates = [] ∧
      it'.triples = it.triples ∧ it'.adjust = it.adjust := by
  induction gates generalizing it with
  | nil => exact ⟨{ it with gates := [] }, rfl, { h with }, rfl, rfl, rfl⟩
  | cons g gates ih =>
    have hg : g.isAnd = false := by
      simpa using List.countP_eq_zero.mp h0 g List.mem_cons_self
    have h0' : andGates gates = 0 := by simpa [andGates, hg] using h0
    obtain ⟨macs, hmacs, h'⟩ := h.free hg
    obtain ⟨it', hnext, hend⟩ := ih h' h0'
    refine ⟨it', ?_, hend⟩
    rw [nextGates_free hg, hmacs]
    exact hnext

/-- Where an AND gate remains, the iterator yields a bit and pushes it, with one triple. -/
theorem next (h : it.Ready circ gates) (hpos : 0 < andGates gates) :
    ∃ bit triple it', it.nextGates gates = some (some bit, it') ∧ it'.Ready circ it'.gates ∧
      it'.triples = it.triples ++ [triple] ∧ it'.adjust = it.adjust ++ [bit] ∧
      andGates it'.gates + 1 = andGates gates := by
  induction gates generalizing it with
  | nil => simp [andGates] at hpos
  | cons g gates ih =>
    by_cases hg : g.isAnd = false
    · have hcount : andGates (g :: gates) = andGates gates := by simp [andGates, hg]
      obtain ⟨macs, hmacs, h'⟩ := h.free hg
      obtain ⟨bit, triple, it', hnext, hend⟩ := ih h' (hcount ▸ hpos)
      refine ⟨bit, triple, it', ?_, by rw [hcount]; exact hend⟩
      rw [nextGates_free hg, hmacs]
      exact hnext
    · obtain ⟨x, y, z, rfl⟩ := Gate.exists_eq_and (Bool.of_not_eq_false hg)
      obtain ⟨bit, triple, it₁, hnext, h₁, hgates, htriples, hadjust⟩ := h.and
      have hcount : andGates (.and x y z :: gates) = andGates gates + 1 := by
        simp [andGates, List.countP_cons, Gate.isAnd]
      rw [hcount]
      by_cases hmore : 0 < andGates gates
      · refine ⟨bit, triple, it₁, ?_, by rwa [hgates], htriples, hadjust, by rw [hgates]⟩
        rw [hnext, if_neg (by rw [h₁.le_counter_iff]; exact not_not.mpr hmore)]
      · -- The last AND gate runs the free gates behind it.
        have hlast : andGates gates = 0 := by omega
        obtain ⟨it', hnext', h', hnil, htriples', hadjust'⟩ := h₁.tail hlast
        refine ⟨bit, triple, it', ?_, by rwa [hnil], by rw [htriples', htriples],
          by rw [hadjust', hadjust], by rw [hnil, hlast]; rfl⟩
        rw [hnext, if_pos (h₁.le_counter_iff.mpr hmore), hnext']
        rfl

end ProverIter.Ready

/-- `k` calls of `next`, whatever they yield. -/
def ProverIter.advance : ℕ → ProverIter → Option ProverIter
  | 0, self => some self
  | k + 1, self => do
    let (_, self) ← self.next
    advance k self

namespace ProverIter.Ready

variable {circ : Circuit} {it : ProverIter}

/-- **A partial pass** pushes one triple and one adjust bit for every AND gate it reaches. -/
theorem advance (h : it.Ready circ it.gates) (k : ℕ) :
    ∃ it' triples bits, it.advance k = some it' ∧ it'.triples = it.triples ++ triples ∧
      it'.adjust = it.adjust ++ bits ∧ triples.length = min k (andGates it.gates) ∧
      bits.length = min k (andGates it.gates) := by
  induction k generalizing it with
  | zero => exact ⟨it, [], [], rfl, by simp, by simp, by simp, by simp⟩
  | succ k ih =>
    by_cases hpos : 0 < andGates it.gates
    · obtain ⟨bit, triple, it₁, hnext, h₁, htriples, hadjust, hcount⟩ := h.next hpos
      obtain ⟨it', ts, bits, hadv, hts, hbits, hlt, hlb⟩ := ih h₁
      refine ⟨it', triple :: ts, bit :: bits, ?_, by simp [hts, htriples], by simp [hbits, hadjust],
        by rw [List.length_cons, hlt]; omega, by rw [List.length_cons, hlb]; omega⟩
      rw [ProverIter.advance, ProverIter.next, hnext]
      exact hadv
    · have h0 : andGates it.gates = 0 := by omega
      obtain ⟨it₁, hnext, h₁, hnil, htriples, hadjust⟩ := h.tail h0
      obtain ⟨it', ts, bits, hadv, hts, hbits, hlt, hlb⟩ := ih (hnil ▸ h₁)
      rw [hnil, show andGates [] = 0 from rfl, Nat.min_zero] at hlt hlb
      refine ⟨it', ts, bits, ?_, by rw [hts, htriples], by rw [hbits, hadjust], by omega, by omega⟩
      rw [ProverIter.advance, ProverIter.next, hnext]
      exact hadv

/-- **A full pass** yields the adjust bits it pushes, one for every AND gate. -/
theorem drain (h : it.Ready circ it.gates) {fuel : ℕ} (hfuel : andGates it.gates < fuel) :
    ∃ it' triples bits, it.drain fuel = some (bits, it') ∧ it'.triples = it.triples ++ triples ∧
      it'.adjust = it.adjust ++ bits ∧ triples.length = andGates it.gates ∧
      bits.length = andGates it.gates ∧ it'.Ready circ [] := by
  induction fuel generalizing it with
  | zero => omega
  | succ fuel ih =>
    by_cases hpos : 0 < andGates it.gates
    · obtain ⟨bit, triple, it₁, hnext, h₁, htriples, hadjust, hcount⟩ := h.next hpos
      obtain ⟨it', ts, bits, hdrain, hts, hbits, hlt, hlb, hend⟩ := ih h₁ (by omega)
      refine ⟨it', triple :: ts, bit :: bits, ?_, by simp [hts, htriples], by simp [hbits, hadjust],
        by rw [List.length_cons, hlt]; omega, by rw [List.length_cons, hlb]; omega, hend⟩
      rw [ProverIter.drain, ProverIter.next, hnext]
      simp only [Option.bind_eq_bind, Option.bind_some, hdrain]
    · have h0 : andGates it.gates = 0 := by omega
      obtain ⟨it', hnext, hend, hnil, htriples, hadjust⟩ := h.tail h0
      refine ⟨it', [], [], ?_, by simp [htriples], by simp [hadjust], by simp [h0], by simp [h0],
        hend⟩
      rw [ProverIter.drain, ProverIter.next, hnext]
      rfl

end ProverIter.Ready

/-! ### One pass of the verifier -/

/-- The consumer is in front of `gates` of a circuit, with its counter at the AND gates before. -/
structure VerifierConsumer.Ready (circ : Circuit) (gates : List Gate) (c : VerifierConsumer) :
    Prop where
  length_keys : c.keys.length = circ.feedCount
  inFeeds : ∀ g ∈ gates, g.InFeeds circ.feedCount
  length_gateKeys : c.gateKeys.length = circ.andCount
  andCount_eq : c.andCount = circ.andCount
  count : c.counter + andGates gates = circ.andCount

namespace VerifierConsumer.Ready

variable {circ : Circuit} {g : Gate} {gates : List Gate} {c : VerifierConsumer}

theorem head (h : c.Ready circ (g :: gates)) : g.InFeeds c.keys.length := by
  rw [h.length_keys]
  exact h.inFeeds g List.mem_cons_self

/-- A free gate. -/
theorem free (h : c.Ready circ (g :: gates)) (hg : g.isAnd = false) :
    ∃ keys, (verifierOps c.delta).apply c.keys g = some keys ∧
      ({ c with keys } : VerifierConsumer).Ready circ gates := by
  obtain ⟨keys, hkeys, hlen⟩ := (verifierOps c.delta).exists_apply h.head hg
  refine ⟨keys, hkeys, { h with
    length_keys := hlen.trans h.length_keys
    inFeeds := fun g' hg' => h.inFeeds g' (List.mem_cons_of_mem _ hg')
    count := ?_ }⟩
  simpa [andGates, hg] using h.count

/-- An AND gate pushes one triple and the adjust bit it is given. -/
theorem and {x y z : ℕ} (h : c.Ready circ (.and x y z :: gates)) (bit : Bool) :
    ∃ triple c', c.nextGates bit (.and x y z :: gates) =
        (if c'.wantsAdjust then some c' else c'.nextGates bit gates) ∧
      c'.Ready circ gates ∧ c'.gates = gates ∧ c'.triples = c.triples ++ [triple] ∧
      c'.adjust = c.adjust ++ [bit] := by
  have hcount := h.count
  rw [show andGates (.and x y z :: gates) = andGates gates + 1 by
    simp [andGates, List.countP_cons, Gate.isAnd]] at hcount
  have hlt : c.counter < c.gateKeys.length := by rw [h.length_gateKeys]; omega
  obtain ⟨kx, hkx⟩ := h.head.getElem? (i := x) (by simp [Gate.reads])
  obtain ⟨ky, hky⟩ := h.head.getElem? (i := y) (by simp [Gate.reads])
  have hwrite := writeAt_of_lt h.head.2 ((c.gateKeys[c.counter]).adjust bit c.delta)
  exact ⟨_, _, nextGates_and hkx hky (List.getElem?_eq_getElem hlt) hwrite rfl, { h with
    length_keys := List.length_set.trans h.length_keys
    inFeeds := fun g' hg' => h.inFeeds g' (List.mem_cons_of_mem _ hg')
    count := by simp only; omega }, rfl, rfl, rfl⟩

theorem wantsAdjust_iff (h : c.Ready circ gates) :
    c.wantsAdjust = true ↔ 0 < andGates gates := by
  have := h.count
  simp only [VerifierConsumer.wantsAdjust, decide_eq_true_eq, h.andCount_eq]
  omega

/-- Where no AND gate remains, the consumer runs to the end and pushes nothing. -/
theorem tail (h : c.Ready circ gates) (h0 : andGates gates = 0) (bit : Bool) :
    ∃ c', c.nextGates bit gates = some c' ∧ c'.Ready circ [] ∧ c'.gates = [] ∧
      c'.triples = c.triples ∧ c'.adjust = c.adjust := by
  induction gates generalizing c with
  | nil => exact ⟨{ c with gates := [] }, rfl, { h with }, rfl, rfl, rfl⟩
  | cons g gates ih =>
    have hg : g.isAnd = false := by
      simpa using List.countP_eq_zero.mp h0 g List.mem_cons_self
    have h0' : andGates gates = 0 := by simpa [andGates, hg] using h0
    obtain ⟨keys, hkeys, h'⟩ := h.free hg
    obtain ⟨c', hnext, hend⟩ := ih h' h0'
    refine ⟨c', ?_, hend⟩
    rw [nextGates_free bit hg, hkeys]
    exact hnext

/-- Where an AND gate remains, the consumer pushes the bit, with one triple. -/
theorem next (h : c.Ready circ gates) (hpos : 0 < andGates gates) (bit : Bool) :
    ∃ triple c', c.nextGates bit gates = some c' ∧ c'.Ready circ c'.gates ∧
      c'.triples = c.triples ++ [triple] ∧ c'.adjust = c.adjust ++ [bit] ∧
      andGates c'.gates + 1 = andGates gates := by
  induction gates generalizing c with
  | nil => simp [andGates] at hpos
  | cons g gates ih =>
    by_cases hg : g.isAnd = false
    · have hcount : andGates (g :: gates) = andGates gates := by simp [andGates, hg]
      obtain ⟨keys, hkeys, h'⟩ := h.free hg
      obtain ⟨triple, c', hnext, hend⟩ := ih h' (hcount ▸ hpos)
      refine ⟨triple, c', ?_, by rw [hcount]; exact hend⟩
      rw [nextGates_free bit hg, hkeys]
      exact hnext
    · obtain ⟨x, y, z, rfl⟩ := Gate.exists_eq_and (Bool.of_not_eq_false hg)
      obtain ⟨triple, c₁, hnext, h₁, hgates, htriples, hadjust⟩ := h.and bit
      have hcount : andGates (.and x y z :: gates) = andGates gates + 1 := by
        simp [andGates, List.countP_cons, Gate.isAnd]
      rw [hcount]
      by_cases hmore : 0 < andGates gates
      · refine ⟨triple, c₁, ?_, by rwa [hgates], htriples, hadjust, by rw [hgates]⟩
        rw [hnext, if_pos (h₁.wantsAdjust_iff.mpr hmore)]
      · have hlast : andGates gates = 0 := by omega
        obtain ⟨c', hnext', h', hnil, htriples', hadjust'⟩ := h₁.tail hlast bit
        refine ⟨triple, c', ?_, by rwa [hnil], by rw [htriples', htriples],
          by rw [hadjust', hadjust], by rw [hnil, hlast]; rfl⟩
        rw [hnext, if_neg (mt h₁.wantsAdjust_iff.mp hmore), hnext']

/-- **A pass of the consumer** pushes the bits it is fed, as far as there are AND gates. -/
theorem feed (h : c.Ready circ c.gates) (bits : List Bool) :
    ∃ c' triples, c.feed bits = some c' ∧ c'.triples = c.triples ++ triples ∧
      c'.adjust = c.adjust ++ bits.take (andGates c.gates) ∧
      triples.length = min bits.length (andGates c.gates) ∧ c'.Ready circ c'.gates ∧
      andGates c'.gates = andGates c.gates - bits.length := by
  induction bits generalizing c with
  | nil => exact ⟨c, [], rfl, by simp, by simp, by simp, h, by simp⟩
  | cons bit bits ih =>
    by_cases hpos : 0 < andGates c.gates
    · obtain ⟨triple, c₁, hnext, h₁, htriples, hadjust, hcount⟩ := h.next hpos bit
      obtain ⟨c', ts, hfeed, hts, hbits, hlt, hend, hleft⟩ := ih h₁
      refine ⟨c', triple :: ts, ?_, by simp [hts, htriples], ?_,
        by rw [List.length_cons, List.length_cons, hlt]; omega, hend,
        by rw [List.length_cons, hleft]; omega⟩
      · rw [VerifierConsumer.feed, VerifierConsumer.next, hnext]
        exact hfeed
      · rw [hbits, hadjust, ← hcount, List.take_succ_cons, List.append_assoc, List.singleton_append]
    · have h0 : andGates c.gates = 0 := by omega
      obtain ⟨c₁, hnext, h₁, hnil, htriples, hadjust⟩ := h.tail h0 bit
      obtain ⟨c', ts, hfeed, hts, hbits, hlt, hend, hleft⟩ := ih (hnil ▸ h₁)
      rw [hnil, show andGates [] = 0 from rfl] at hbits hlt hleft
      refine ⟨c', ts, ?_, by rw [hts, htriples], by
        rw [hbits, hadjust, h0, List.take_zero, List.take_zero], by rw [h0]; omega, hend, by omega⟩
      rw [VerifierConsumer.feed, VerifierConsumer.next, hnext]
      exact hfeed

end VerifierConsumer.Ready

/-! ### The check between the circuits -/

/-- What another circuit does to the check. -/
inductive Other where
  /-- It reserves a place. -/
  | reserve (n : ℕ)
  /-- It writes its place, and drops its clone. -/
  | write (idx : ℕ) (triples : List Triple) (adjust : List Bool)

namespace Shared

/-- One call of another circuit. -/
def other (self : Shared) : Other → Option Shared
  | .reserve n => some (self.reserve n).2
  | .write idx triples adjust => do
    let check ← self.check.write idx triples adjust
    some ⟨check, self.clones - 1⟩

/-- The calls of other circuits, one after the other. -/
def others (self : Shared) : List Other → Option Shared
  | [] => some self
  | o :: os => do
    let shared ← self.other o
    shared.others os

end Shared

theorem Check.write_eq_some {check after : Check} {idx : ℕ} {triples : List Triple}
    {adjust : List Bool} (h : check.write idx triples adjust = some after) :
    adjust.length = triples.length ∧ copyFrom check.triples idx triples = some after.triples ∧
      copyFrom check.adjust idx adjust = some after.adjust := by
  rw [Check.write] at h
  by_cases hlen : adjust.length = triples.length
  · rw [if_pos hlen] at h
    obtain ⟨ts, hts, h⟩ := Option.bind_eq_some_iff.mp h
    obtain ⟨bits, hbits, h⟩ := Option.bind_eq_some_iff.mp h
    obtain rfl := Option.some.inj h
    exact ⟨hlen, hts, hbits⟩
  · rw [if_neg hlen] at h
    exact absurd h (by simp)

/-- The buffers are of one length, and reach past a place. -/
structure Shared.Room (shared : Shared) (idx n : ℕ) : Prop where
  length_adjust : shared.check.adjust.length = shared.check.triples.length
  le : idx + n ≤ shared.check.triples.length

namespace Shared.Room

variable {s s' : Shared} {idx n : ℕ}

theorem reserve (s : Shared) (n : ℕ) : (s.reserve n).2.Room s.check.triples.length n where
  length_adjust := by simp [Shared.reserve, Check.reserve]
  le := by simp [Shared.reserve, Check.reserve]

/-- Nothing that another circuit does takes the place away. -/
theorem other (h : s.Room idx n) {o : Other} (ho : s.other o = some s') :
    s'.Room idx n := by
  cases o with
  | reserve k =>
    obtain rfl := Option.some.inj ho
    exact ⟨by simp [Shared.reserve, Check.reserve],
      h.le.trans (by simp [Shared.reserve, Check.reserve])⟩
  | write i triples adjust =>
    obtain ⟨check, hwrite, ho⟩ := Option.bind_eq_some_iff.mp ho
    obtain rfl := Option.some.inj ho
    obtain ⟨-, hts, hbits⟩ := Check.write_eq_some hwrite
    refine ⟨?_, ?_⟩
    · rw [length_of_copyFrom hts, length_of_copyFrom hbits, h.length_adjust]
    · rw [length_of_copyFrom hts]
      exact h.le

theorem others (h : s.Room idx n) {os : List Other} (hos : s.others os = some s') :
    s'.Room idx n := by
  induction os generalizing s with
  | nil =>
    obtain rfl := Option.some.inj hos
    exact h
  | cons o os ih =>
    obtain ⟨s₁, ho, hos⟩ := Option.bind_eq_some_iff.mp hos
    exact ih (h.other ho) hos

end Shared.Room

/-- The place at `idx` holds these triples and adjust bits, and every other entry is as before. -/
structure Check.Wrote (before after : Check) (idx : ℕ) (triples : List Triple)
    (adjust : List Bool) : Prop where
  triples_length : after.triples.length = before.triples.length
  adjust_length : after.adjust.length = before.adjust.length
  place : ∀ j < triples.length,
    after.triples[idx + j]? = triples[j]? ∧ after.adjust[idx + j]? = adjust[j]?
  frame : ∀ j, j < idx ∨ idx + triples.length ≤ j →
    after.triples[j]? = before.triples[j]? ∧ after.adjust[j]? = before.adjust[j]?

/-- A write that fits does exactly this. -/
theorem Check.exists_wrote {shared : Shared} {idx : ℕ} {triples : List Triple} {adjust : List Bool}
    (h : shared.Room idx triples.length) (hlen : adjust.length = triples.length) :
    ∃ after, shared.check.write idx triples adjust = some after ∧
      shared.check.Wrote after idx triples adjust := by
  have hle := h.le
  have ht : copyFrom shared.check.triples idx triples = some _ := copyFrom_of_le hle
  have ha : copyFrom shared.check.adjust idx adjust = some _ :=
    copyFrom_of_le (by rw [hlen, h.length_adjust]; exact hle)
  refine ⟨⟨_, _⟩, by rw [write, if_pos hlen, ht, ha]; rfl, length_of_copyFrom ht,
    length_of_copyFrom ha, fun j hj => ?_, fun j hj => ?_⟩
  · rw [getElem?_copyFrom ht, getElem?_copyFrom ha, hlen, if_pos (by omega), if_pos (by omega),
      Nat.add_sub_cancel_left]
    exact ⟨rfl, rfl⟩
  · rw [getElem?_copyFrom ht, getElem?_copyFrom ha, hlen, if_neg (by omega), if_neg (by omega)]
    exact ⟨rfl, rfl⟩

/-- Too many triples do not fit at the end of the buffers. -/
theorem Check.write_eq_none {check : Check} {idx : ℕ} {triples : List Triple} {adjust : List Bool}
    (h : check.triples.length < idx + triples.length) : check.write idx triples adjust = none := by
  rw [write]
  by_cases hlen : adjust.length = triples.length
  · rw [if_pos hlen, copyFrom, if_neg (by omega)]
    rfl
  · exact if_neg hlen

/-! ### The passes of the prover -/

namespace ProverExecute

/-- A pass that takes `k` adjust bits from the iterator, if there are so many. -/
def pass (k : ℕ) (self : ProverExecute) : Option ProverExecute := do
  let it ← self.iter.advance k
  some (self.afterIter it)

/-- Passes, one after the other. -/
def passes (self : ProverExecute) : List ℕ → Option ProverExecute
  | [] => some self
  | k :: ks => do
    let self ← self.pass k
    self.passes ks

/-- A last full pass, and `finish`: the call returns the outputs of the pass, the place of the
circuit holds the triples and the adjust bits that the pass has pushed, and nothing else changes. -/
def Finishes (self : ProverExecute) (shared : Shared) : Prop :=
  ∃ bits it triples macs check,
    self.iter.drain (self.andCount + 1) = some (bits, it) ∧
    it.triples = self.triples ++ triples ∧ it.adjust = self.adjust ++ bits ∧
    triples.length = self.andCount ∧ bits.length = self.andCount ∧
    slice it.macs self.circ.outputs = some macs ∧
    self.run (self.andCount + 1) shared = (.ok (bits, macs), ⟨check, shared.clones - 1⟩) ∧
    shared.check.Wrote check self.checkIdx triples bits

theorem finish_of_write_eq_none (self : ProverExecute) {shared : Shared}
    (hcounter : self.counter = self.andCount)
    (hwrite : shared.check.write self.checkIdx self.triples self.adjust = none) :
    self.finish shared = (.panic, ⟨shared.check, shared.clones - 1⟩) := by
  rw [finish, Method.modify_bind, Method.ite_apply, if_neg (not_not.mpr hcounter),
    Method.get_bind]
  simp only [hwrite, Outcome.ofOption_none]
  rfl

/-- The execution of a well-formed circuit, with the triples of earlier passes. -/
structure Between (circ : Circuit) (checkIdx n : ℕ) (x : ProverExecute) : Prop where
  circ_eq : x.circ = circ
  checkIdx_eq : x.checkIdx = checkIdx
  andCount_eq : x.andCount = circ.andCount
  length_gateMasks : x.gateMasks.length = circ.andCount
  length_gateMacs : x.gateMacs.length = circ.andCount
  length_triples : x.triples.length = n
  length_adjust : x.adjust.length = n

variable {circ : Circuit} {checkIdx n : ℕ} {x : ProverExecute}

theorem Between.ready (h : x.Between circ checkIdx n) (hwf : circ.WellFormed) :
    x.iter.Ready circ x.iter.gates where
  length_macs := by simp [iter, h.circ_eq]
  inFeeds := by
    simp only [iter, h.circ_eq]
    exact hwf.inFeeds
  length_gateMasks := h.length_gateMasks
  length_gateMacs := h.length_gateMacs
  andCount_eq := h.andCount_eq
  count := by simpa [iter, h.circ_eq] using hwf.and_count

theorem Between.andGates_iter (h : x.Between circ checkIdx n) (hwf : circ.WellFormed) :
    andGates x.iter.gates = circ.andCount := by
  rw [iter, h.circ_eq]
  exact hwf.and_count

/-- A pass adds the bits it takes. -/
theorem Between.pass (h : x.Between circ checkIdx n) (hwf : circ.WellFormed) (k : ℕ) :
    ∃ x', x.pass k = some x' ∧ x'.Between circ checkIdx (n + min k circ.andCount) := by
  obtain ⟨it, ts, bits, hadv, hts, hbits, hlt, hlb⟩ := (h.ready hwf).advance k
  rw [h.andGates_iter hwf] at hlt hlb
  refine ⟨x.afterIter it, ?_, { h with
    length_triples := ?_
    length_adjust := ?_ }⟩
  · rw [ProverExecute.pass, hadv]
    rfl
  · change it.triples.length = _
    rw [hts, List.length_append, hlt]
    exact congrArg (· + _) h.length_triples
  · change it.adjust.length = _
    rw [hbits, List.length_append, hlb]
    exact congrArg (· + _) h.length_adjust

theorem Between.passes (h : x.Between circ checkIdx n) (hwf : circ.WellFormed) (ks : List ℕ) :
    ∃ x', x.passes ks = some x' ∧
      x'.Between circ checkIdx (n + (ks.map (min · circ.andCount)).sum) := by
  induction ks generalizing x n with
  | nil => exact ⟨x, rfl, h⟩
  | cons k ks ih =>
    obtain ⟨x₁, hpass, h₁⟩ := h.pass hwf k
    obtain ⟨x', hpasses, h'⟩ := ih h₁
    refine ⟨x', ?_, ?_⟩
    · rw [ProverExecute.passes, hpass]
      exact hpasses
    · rwa [List.map_cons, List.sum_cons, ← Nat.add_assoc]

/-- The full pass after `n` bits, and what is left to write. -/
theorem Between.run (h : x.Between circ checkIdx n) (hwf : circ.WellFormed) :
    ∃ bits it triples macs, x.iter.drain (circ.andCount + 1) = some (bits, it) ∧
      it.triples = x.triples ++ triples ∧ it.adjust = x.adjust ++ bits ∧
      triples.length = circ.andCount ∧ bits.length = circ.andCount ∧
      slice it.macs circ.outputs = some macs ∧
      ∀ shared, (∀ check, shared.check.write checkIdx it.triples it.adjust = some check →
          x.run (circ.andCount + 1) shared =
            (.ok (bits, macs), ⟨check, shared.clones - 1⟩)) ∧
        (shared.check.write checkIdx it.triples it.adjust = none →
          (x.run (circ.andCount + 1) shared).1 = .panic) := by
  have hgates := h.andGates_iter hwf
  obtain ⟨it, ts, bits, hdrain, hts, hbits, hlt, hlb, hend⟩ :=
    (h.ready hwf).drain (by rw [hgates]; exact Nat.lt_succ_self _)
  obtain ⟨macs, hslice⟩ : ∃ macs, slice it.macs circ.outputs = some macs :=
    ⟨_, slice_eq_some.mpr ⟨by rw [hend.length_macs]; exact hwf.outputs_le, rfl⟩⟩
  have hcounter : it.counter = x.andCount := by
    simpa [andGates, h.andCount_eq] using hend.count
  refine ⟨bits, it, ts, macs, hdrain, hts, hbits, hlt.trans hgates, hlb.trans hgates, hslice,
    fun shared => ⟨fun check hwrite => ?_, fun hnone => ?_⟩⟩
  · have hfinish := finish_eq (x.afterIter it) hcounter
      (by rw [← h.checkIdx_eq] at hwrite; exact hwrite)
      (by rw [← h.circ_eq] at hslice; exact hslice)
    rw [ProverExecute.run, hdrain, Outcome.ofOption_some, Method.call_ok_bind]
    exact Method.bind_apply_of_ok hfinish
  · have hfinish := finish_of_write_eq_none (x.afterIter it) hcounter
      (by rw [← h.checkIdx_eq] at hnone; exact hnone)
    rw [ProverExecute.run, hdrain, Outcome.ofOption_some, Method.call_ok_bind]
    exact Method.bind_panic_iff.mpr (.inl (congrArg Prod.fst hfinish))

/-- The last pass is written alone where no bit was taken before. -/
theorem Between.finishes (h : x.Between circ checkIdx 0) (hwf : circ.WellFormed) {shared : Shared}
    (hroom : shared.Room checkIdx circ.andCount) : x.Finishes shared := by
  obtain ⟨bits, it, triples, macs, hdrain, hts, hbits, hlt, hlb, hslice, hrun⟩ := h.run hwf
  have hts' : it.triples = triples := by
    rw [hts, List.eq_nil_of_length_eq_zero h.length_triples, List.nil_append]
  have hbits' : it.adjust = bits := by
    rw [hbits, List.eq_nil_of_length_eq_zero h.length_adjust, List.nil_append]
  obtain ⟨check, hwrite, hwrote⟩ :=
    Check.exists_wrote (hlt.symm ▸ hroom) (hlb.trans hlt.symm)
  refine ⟨bits, it, triples, macs, check, ?_, hts, hbits, ?_, ?_, ?_, ?_, ?_⟩
  · rw [h.andCount_eq, hdrain]
  · rw [h.andCount_eq, hlt]
  · rw [h.andCount_eq, hlb]
  · rw [h.circ_eq, hslice]
  · rw [h.andCount_eq]
    exact (hrun shared).1 check (by rw [hts', hbits']; exact hwrite)
  · rw [h.checkIdx_eq]
    exact hwrote

/-- After other bits it does not fit at the end of the buffers. -/
theorem Between.not_finishes (h : x.Between circ checkIdx n) (hwf : circ.WellFormed) (hn : 0 < n)
    {shared : Shared} (hend : shared.check.triples.length = checkIdx + circ.andCount) :
    ¬ x.Finishes shared := by
  rintro ⟨bits', it', triples', macs', check, -, -, -, -, -, -, hok, -⟩
  obtain ⟨bits, it, triples, macs, hdrain, hts, hbits, hlt, hlb, hslice, hrun⟩ := h.run hwf
  have hnone : shared.check.write checkIdx it.triples it.adjust = none :=
    Check.write_eq_none (by rw [hts, List.length_append, hlt, h.length_triples]; omega)
  have hpanic := (hrun shared).2 hnone
  rw [h.andCount_eq] at hok
  rw [hok] at hpanic
  cases hpanic

end ProverExecute

/-- What the prover's execution of a well-formed circuit is given. -/
structure ProverInputs where
  /-- The circuit. -/
  circ : Circuit
  /-- The MACs of the inputs. -/
  macs : List Mac
  /-- The masks of the AND gates. -/
  gateMasks : List Bool
  /-- The MACs of the masks. -/
  gateMacs : List Mac
  wellFormed : circ.WellFormed
  length_macs : macs.length = circ.inputs.len
  length_gateMasks : gateMasks.length = circ.andCount
  length_gateMacs : gateMacs.length = circ.andCount

namespace ProverInputs

variable (inputs : ProverInputs)

/-- **The execution, run again.** However the check looks before, and whatever other circuits do to
it meanwhile: behind passes that take `ks` adjust bits, the last full pass is written alone. -/
def Reruns (ks : List ℕ) : Prop :=
  ∀ before : Prover, ∃ x after y,
    Prover.execute inputs.circ inputs.macs inputs.gateMasks inputs.gateMacs before =
      (.ok x, after) ∧
    x.passes ks = some y ∧
    ∀ os shared, after.shared.others os = some shared → y.Finishes shared

/-- The execution that `execute` returns. -/
def execution (checkIdx : ℕ) : ProverExecute where
  circ := inputs.circ
  macs := inputs.macs
  triples := []
  adjust := []
  gateMasks := inputs.gateMasks
  gateMacs := inputs.gateMacs
  checkIdx := checkIdx
  counter := 0
  andCount := inputs.circ.andCount

theorem execute_eq (before : Prover) :
    Prover.execute inputs.circ inputs.macs inputs.gateMasks inputs.gateMacs before =
      (.ok (inputs.execution before.shared.check.triples.length),
        ⟨(before.shared.reserve inputs.circ.andCount).2⟩) := by
  rw [Prover.execute, if_neg (not_not.mpr inputs.length_macs),
    if_neg (not_not.mpr inputs.length_gateMasks), if_neg (not_not.mpr inputs.length_gateMacs)]
  rfl

theorem between (checkIdx : ℕ) :
    (inputs.execution checkIdx).Between inputs.circ checkIdx 0 :=
  ⟨rfl, rfl, rfl, inputs.length_gateMasks, inputs.length_gateMacs, rfl, rfl⟩

/-- What the earlier passes took decides. -/
theorem reruns_iff (ks : List ℕ) :
    inputs.Reruns ks ↔ (ks.map (min · inputs.circ.andCount)).sum = 0 := by
  constructor
  · intro h
    obtain ⟨x, after, y, hexec, hpasses, hlast⟩ := h ⟨.empty⟩
    obtain ⟨hx, rfl⟩ := Prod.mk.inj (hexec.symm.trans (inputs.execute_eq ⟨.empty⟩))
    obtain rfl := Outcome.ok.inj hx
    obtain ⟨y', hpasses', hy⟩ := (inputs.between _).passes inputs.wellFormed ks
    obtain rfl := Option.some.inj (hpasses.symm.trans hpasses')
    by_contra hne
    refine hy.not_finishes inputs.wellFormed (by omega) ?_ (hlast [] _ rfl)
    simp [Shared.reserve, Check.reserve]
  · intro h before
    obtain ⟨y, hpasses, hy⟩ := (inputs.between _).passes inputs.wellFormed ks
    rw [h] at hy
    refine ⟨_, _, y, inputs.execute_eq before, hpasses,
      fun os shared hos => hy.finishes inputs.wellFormed ?_⟩
    exact (Shared.Room.reserve before.shared inputs.circ.andCount).others hos

end ProverInputs

/-! ### The passes of the verifier -/

namespace VerifierExecute

/-- A pass that feeds some adjust bits to the consumer. -/
def pass (bits : List Bool) (self : VerifierExecute) : Option VerifierExecute := do
  let consumer ← self.consumer
  let consumer ← consumer.feed bits
  some (self.afterConsumer consumer)

/-- Passes, one after the other. -/
def passes (self : VerifierExecute) : List (List Bool) → Option VerifierExecute
  | [] => some self
  | bits :: rest => do
    let self ← self.pass bits
    self.passes rest

/-- A last pass over the bits of every AND gate, and `finish`: the call returns the outputs of the
pass, the place of the circuit holds the triples and the adjust bits that the pass has pushed, and
nothing else changes. -/
def Finishes (self : VerifierExecute) (bits : List Bool) (shared : Shared) : Prop :=
  ∃ start consumer triples keys check,
    self.consumer = some start ∧ start.feed bits = some consumer ∧
    consumer.triples = self.triples ++ triples ∧ consumer.adjust = self.adjust ++ bits ∧
    triples.length = self.andCount ∧
    slice consumer.keys self.circ.outputs = some keys ∧
    self.run bits shared = (.ok keys, ⟨check, shared.clones - 1⟩) ∧
    shared.check.Wrote check self.checkIdx triples bits

theorem finish_of_write_eq_none (self : VerifierExecute) {shared : Shared}
    (hcounter : self.counter = self.andCount)
    (hwrite : shared.check.write self.checkIdx self.triples self.adjust = none) :
    self.finish shared = (.panic, ⟨shared.check, shared.clones - 1⟩) := by
  rw [finish, Method.modify_bind, Method.ite_apply, if_neg (by omega), Method.get_bind]
  simp only [hwrite, Outcome.ofOption_none]
  rfl

/-- The execution of a well-formed circuit, with the triples of earlier passes. -/
structure Between (circ : Circuit) (checkIdx n : ℕ) (x : VerifierExecute) : Prop where
  circ_eq : x.circ = circ
  checkIdx_eq : x.checkIdx = checkIdx
  andCount_eq : x.andCount = circ.andCount
  length_gateKeys : x.gateKeys.length = circ.andCount
  length_triples : x.triples.length = n
  length_adjust : x.adjust.length = n

variable {circ : Circuit} {checkIdx n : ℕ} {x : VerifierExecute}

theorem Between.ready (h : x.Between circ checkIdx n) (hwf : circ.WellFormed) :
    x.start.Ready circ x.start.gates where
  length_keys := by simp [start, h.circ_eq]
  inFeeds := by
    simp only [start, h.circ_eq]
    exact hwf.inFeeds
  length_gateKeys := h.length_gateKeys
  andCount_eq := h.andCount_eq
  count := by simpa [start, h.circ_eq] using hwf.and_count

/-- The consumer, before its first bit. -/
theorem Between.consumer (h : x.Between circ checkIdx n) (hwf : circ.WellFormed) :
    ∃ c, x.consumer = some c ∧ c.Ready circ c.gates ∧ andGates c.gates = circ.andCount ∧
      c.triples = x.triples ∧ c.adjust = x.adjust := by
  have hgates : andGates x.start.gates = circ.andCount := by
    rw [start, h.circ_eq]
    exact hwf.and_count
  by_cases h0 : x.andCount = 0
  · have h0' : andGates x.start.gates = 0 := by rw [hgates, ← h.andCount_eq, h0]
    obtain ⟨c, hnext, hready, hnil, hts, hbits⟩ := (h.ready hwf).tail h0' false
    refine ⟨c, (if_pos h0).trans hnext, by rwa [hnil], ?_, hts, hbits⟩
    rw [hnil, ← hgates, h0']
    rfl
  · exact ⟨x.start, if_neg h0, h.ready hwf, hgates, rfl, rfl⟩

/-- A pass adds the bits it is fed. -/
theorem Between.pass (h : x.Between circ checkIdx n) (hwf : circ.WellFormed) (bits : List Bool) :
    ∃ x', x.pass bits = some x' ∧
      x'.Between circ checkIdx (n + min bits.length circ.andCount) := by
  obtain ⟨c, hconsumer, hready, hgates, hts₀, hbits₀⟩ := h.consumer hwf
  obtain ⟨c', ts, hfeed, hts, hbits, hlt, -, -⟩ := hready.feed bits
  refine ⟨x.afterConsumer c', ?_, { h with
    length_triples := ?_
    length_adjust := ?_ }⟩
  · rw [VerifierExecute.pass, hconsumer, Option.bind_eq_bind, Option.bind_some, hfeed]
    rfl
  · change c'.triples.length = _
    rw [hts, List.length_append, hts₀, h.length_triples, hlt, hgates]
  · change c'.adjust.length = _
    rw [hbits, List.length_append, hbits₀, h.length_adjust, List.length_take, hgates,
      Nat.min_comm]

theorem Between.passes (h : x.Between circ checkIdx n) (hwf : circ.WellFormed)
    (passes : List (List Bool)) :
    ∃ x', x.passes passes = some x' ∧
      x'.Between circ checkIdx (n + (passes.map (min ·.length circ.andCount)).sum) := by
  induction passes generalizing x n with
  | nil => exact ⟨x, rfl, h⟩
  | cons bits rest ih =>
    obtain ⟨x₁, hpass, h₁⟩ := h.pass hwf bits
    obtain ⟨x', hpasses, h'⟩ := ih h₁
    refine ⟨x', ?_, ?_⟩
    · rw [VerifierExecute.passes, hpass]
      exact hpasses
    · rwa [List.map_cons, List.sum_cons, ← Nat.add_assoc]

/-- The full pass after `n` bits, and what is left to write. -/
theorem Between.run (h : x.Between circ checkIdx n) (hwf : circ.WellFormed) {bits : List Bool}
    (hlen : bits.length = circ.andCount) :
    ∃ c c' triples keys, x.consumer = some c ∧ c.feed bits = some c' ∧
      c'.triples = x.triples ++ triples ∧ c'.adjust = x.adjust ++ bits ∧
      triples.length = circ.andCount ∧ slice c'.keys circ.outputs = some keys ∧
      ∀ shared, (∀ check, shared.check.write checkIdx c'.triples c'.adjust = some check →
          x.run bits shared = (.ok keys, ⟨check, shared.clones - 1⟩)) ∧
        (shared.check.write checkIdx c'.triples c'.adjust = none →
          (x.run bits shared).1 = .panic) := by
  obtain ⟨c, hconsumer, hready, hgates, hts₀, hbits₀⟩ := h.consumer hwf
  obtain ⟨c', ts, hfeed, hts, hbits, hlt, hend, hleft⟩ := hready.feed bits
  rw [hgates, hlen, Nat.sub_self] at hleft
  obtain ⟨keys, hslice⟩ : ∃ keys, slice c'.keys circ.outputs = some keys :=
    ⟨_, slice_eq_some.mpr ⟨by rw [hend.length_keys]; exact hwf.outputs_le, rfl⟩⟩
  have hcounter : c'.counter = x.andCount := by
    rw [h.andCount_eq, ← hend.count, hleft, Nat.add_zero]
  refine ⟨c, c', ts, keys, hconsumer, hfeed, by rw [hts, hts₀], ?_, ?_, hslice,
    fun shared => ⟨fun check hwrite => ?_, fun hnone => ?_⟩⟩
  · rw [hbits, hbits₀, List.take_of_length_le (by omega)]
  · rw [hlt, hgates, hlen, Nat.min_self]
  · rw [VerifierExecute.run, hconsumer, Outcome.ofOption_some, Method.call_ok_bind, hfeed,
      Outcome.ofOption_some, Method.call_ok_bind]
    exact finish_eq (x.afterConsumer c') hcounter
      (by rw [← h.checkIdx_eq] at hwrite; exact hwrite)
      (by rw [← h.circ_eq] at hslice; exact hslice)
  · rw [VerifierExecute.run, hconsumer, Outcome.ofOption_some, Method.call_ok_bind, hfeed,
      Outcome.ofOption_some, Method.call_ok_bind]
    exact congrArg Prod.fst (finish_of_write_eq_none (x.afterConsumer c') hcounter
      (by rw [← h.checkIdx_eq] at hnone; exact hnone))

/-- The last pass is written alone where no bit was taken before. -/
theorem Between.finishes (h : x.Between circ checkIdx 0) (hwf : circ.WellFormed)
    {bits : List Bool} (hlen : bits.length = circ.andCount) {shared : Shared}
    (hroom : shared.Room checkIdx circ.andCount) : x.Finishes bits shared := by
  obtain ⟨c, c', triples, keys, hconsumer, hfeed, hts, hbits, hlt, hslice, hrun⟩ := h.run hwf hlen
  have hts' : c'.triples = triples := by
    rw [hts, List.eq_nil_of_length_eq_zero h.length_triples, List.nil_append]
  have hbits' : c'.adjust = bits := by
    rw [hbits, List.eq_nil_of_length_eq_zero h.length_adjust, List.nil_append]
  obtain ⟨check, hwrite, hwrote⟩ :=
    Check.exists_wrote (hlt.symm ▸ hroom) (hlen.trans hlt.symm)
  refine ⟨c, c', triples, keys, check, hconsumer, hfeed, hts, hbits, ?_, ?_, ?_, ?_⟩
  · rw [h.andCount_eq, hlt]
  · rw [h.circ_eq, hslice]
  · exact (hrun shared).1 check (by rw [hts', hbits']; exact hwrite)
  · rw [h.checkIdx_eq]
    exact hwrote

/-- After other bits it does not fit at the end of the buffers. -/
theorem Between.not_finishes (h : x.Between circ checkIdx n) (hwf : circ.WellFormed) (hn : 0 < n)
    {bits : List Bool} (hlen : bits.length = circ.andCount) {shared : Shared}
    (hend : shared.check.triples.length = checkIdx + circ.andCount) :
    ¬ x.Finishes bits shared := by
  rintro ⟨start, consumer, triples', keys', check, -, -, -, -, -, -, hok, -⟩
  obtain ⟨c, c', triples, keys, hconsumer, hfeed, hts, hbits, hlt, hslice, hrun⟩ := h.run hwf hlen
  have hnone : shared.check.write checkIdx c'.triples c'.adjust = none :=
    Check.write_eq_none (by rw [hts, List.length_append, hlt, h.length_triples]; omega)
  have hpanic := (hrun shared).2 hnone
  rw [hok] at hpanic
  cases hpanic

end VerifierExecute

/-- What the verifier's execution of a well-formed circuit is given. -/
structure VerifierInputs where
  /-- The circuit. -/
  circ : Circuit
  /-- The keys of the inputs. -/
  keys : List Key
  /-- The keys of the AND gates. -/
  gateKeys : List Key
  wellFormed : circ.WellFormed
  length_keys : keys.length = circ.inputs.len
  length_gateKeys : gateKeys.length = circ.andCount

namespace VerifierInputs

variable (inputs : VerifierInputs)

/-- **The execution, run again.** However the check looks before, and whatever other circuits do to
it meanwhile: behind passes that are fed `passes`, the last full pass is written alone. -/
def Reruns (passes : List (List Bool)) : Prop :=
  ∀ before : Verifier, ∃ x after y,
    Verifier.execute inputs.circ inputs.keys inputs.gateKeys before = (.ok x, after) ∧
    x.passes passes = some y ∧
    ∀ bits os shared, bits.length = inputs.circ.andCount →
      after.shared.others os = some shared → y.Finishes bits shared

/-- The execution that `execute` returns. -/
def execution (delta : Delta) (checkIdx : ℕ) : VerifierExecute where
  circ := inputs.circ
  delta := delta
  keys := inputs.keys
  gateKeys := inputs.gateKeys
  triples := []
  adjust := []
  checkIdx := checkIdx
  counter := 0
  andCount := inputs.circ.andCount

theorem execute_eq (before : Verifier) :
    Verifier.execute inputs.circ inputs.keys inputs.gateKeys before =
      (.ok (inputs.execution before.delta before.shared.check.triples.length),
        { before with shared := (before.shared.reserve inputs.circ.andCount).2 }) := by
  rw [Verifier.execute, if_neg (not_not.mpr inputs.length_keys),
    if_neg (not_not.mpr inputs.length_gateKeys)]
  rfl

theorem between (delta : Delta) (checkIdx : ℕ) :
    (inputs.execution delta checkIdx).Between inputs.circ checkIdx 0 :=
  ⟨rfl, rfl, rfl, inputs.length_gateKeys, rfl, rfl⟩

/-- What the earlier passes took decides. -/
theorem reruns_iff (passes : List (List Bool)) :
    inputs.Reruns passes ↔ (passes.map (min ·.length inputs.circ.andCount)).sum = 0 := by
  constructor
  · intro h
    obtain ⟨x, after, y, hexec, hpasses, hlast⟩ := h (.new ⟨1, by decide⟩)
    obtain ⟨hx, rfl⟩ := Prod.mk.inj (hexec.symm.trans (inputs.execute_eq _))
    obtain rfl := Outcome.ok.inj hx
    obtain ⟨y', hpasses', hy⟩ := (inputs.between _ _).passes inputs.wellFormed passes
    obtain rfl := Option.some.inj (hpasses.symm.trans hpasses')
    by_contra hne
    have hlen : (List.replicate inputs.circ.andCount false).length = inputs.circ.andCount :=
      List.length_replicate
    refine hy.not_finishes inputs.wellFormed (by omega) hlen ?_ (hlast _ [] _ hlen rfl)
    simp [Shared.reserve, Check.reserve]
  · intro h before
    obtain ⟨y, hpasses, hy⟩ := (inputs.between before.delta _).passes inputs.wellFormed passes
    rw [h] at hy
    refine ⟨_, _, y, inputs.execute_eq before, hpasses,
      fun bits os shared hlen hos => hy.finishes inputs.wellFormed hlen ?_⟩
    exact (Shared.Room.reserve before.shared inputs.circ.andCount).others hos

end VerifierInputs

/-! ### The passes that are written alone -/

/-- Nothing is taken from `f a` where either bound is zero. -/
theorem sum_map_min_eq_zero {α : Type} (f : α → ℕ) (n : ℕ) (l : List α) :
    (l.map fun a => min (f a) n).sum = 0 ↔ n = 0 ∨ ∀ a ∈ l, f a = 0 := by
  rw [List.sum_eq_zero_iff]
  by_cases hn : n = 0
  · simp [hn]
  · simp only [List.mem_map, forall_exists_index, and_imp, forall_apply_eq_imp_iff₂, hn, false_or]
    exact forall₂_congr fun a _ => by omega

/-- **Re-running a circuit.** On either side, the last full pass is written alone, whatever the
check and the other circuits, exactly when the circuit has no AND gate or no pass before it took an
adjust bit. -/
theorem rerun_serves (prover : ProverInputs) (ks : List ℕ) (verifier : VerifierInputs)
    (passes : List (List Bool)) :
    (prover.Reruns ks ↔ prover.circ.andCount = 0 ∨ ∀ k ∈ ks, k = 0) ∧
    (verifier.Reruns passes ↔ verifier.circ.andCount = 0 ∨ ∀ bits ∈ passes, bits = []) := by
  refine ⟨?_, ?_⟩
  · rw [prover.reruns_iff]
    exact sum_map_min_eq_zero _ _ _
  · rw [verifier.reruns_iff, sum_map_min_eq_zero]
    simp only [List.length_eq_zero_iff]

/-- The prover's inputs of a NAND gate, all of them zero. -/
def nandInputs : ProverInputs where
  circ := nandCircuit
  macs := [⟨0⟩, ⟨0⟩]
  gateMasks := [false]
  gateMacs := [⟨0⟩]
  wellFormed := nandCircuit_wellFormed
  length_macs := rfl
  length_gateMasks := rfl
  length_gateMacs := rfl

/-- One earlier pass over a NAND gate: `finish` writes two triples to the place of one. -/
theorem rerun_twice : ¬ nandInputs.Reruns [1] := by
  intro h
  obtain ⟨x, after, y, hexec, hpasses, hlast⟩ := h ⟨.empty⟩
  obtain ⟨hx, rfl⟩ := Prod.mk.inj (hexec.symm.trans (nandInputs.execute_eq _))
  obtain rfl := Outcome.ok.inj hx
  obtain ⟨bits, it, triples, macs, check, -, -, -, -, -, -, hok, -⟩ := hlast [] _ rfl
  have hpanic : ∀ z ∈ (nandInputs.execution 0).passes [1],
      (z.run (z.andCount + 1) ((Shared.empty.reserve 1).2)).1 = .panic := by decide +kernel
  have hok' : (y.run (y.andCount + 1) ((Shared.empty.reserve 1).2)).1 = .ok (bits, macs) :=
    congrArg Prod.fst hok
  rw [hpanic y hpasses] at hok'
  cases hok'

end Zk

end Mpz
