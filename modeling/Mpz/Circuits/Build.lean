import Mpz.Circuits.Builder

/-!
# The circuit of a builder

When a circuit is built its feeds are numbered once more: the inputs first, then what the gates
write in their order, and the outputs last. The ids are looked up in a table, so that an id outside
of the builder would be a panic, as would be more outputs than feeds.

## Main definitions

* `CircuitBuilder.build` — the circuit of a builder
* `CircuitBuilder.InRange` — all that the builder names are feeds of its own

## Main results

* `CircuitBuilder.exists_build` — a builder that names feeds of its own only, and has no more
  outputs than feeds, builds
-/

namespace Mpz

/-- `self.id -= offset` -/
def shiftNode (offset id : ℕ) : Option ℕ := if offset ≤ id then some (id - offset) else none

namespace Gate

/-- Shifts all the node IDs of the gate by the given offset. -/
def shiftLeft (offset : ℕ) : Gate → Option Gate
  | xor x y z => do return xor (← shiftNode offset x) (← shiftNode offset y) (← shiftNode offset z)
  | and x y z => do return and (← shiftNode offset x) (← shiftNode offset y) (← shiftNode offset z)
  | inv x z => do return inv (← shiftNode offset x) (← shiftNode offset z)
  | id x z => do return id (← shiftNode offset x) (← shiftNode offset z)

/-- The gate, with another feed to write. -/
def withZ (z : ℕ) : Gate → Gate
  | xor x y _ => xor x y z
  | and x y _ => and x y z
  | inv x _ => inv x z
  | id x _ => id x z

/-- The gate, with the feeds that it reads looked up. -/
def mapReads (idMap : List ℕ) : Gate → Option Gate
  | xor x y z => do return xor (← idMap[x]?) (← idMap[y]?) z
  | and x y z => do return and (← idMap[x]?) (← idMap[y]?) z
  | inv x z => do return inv (← idMap[x]?) z
  | id x z => do return id (← idMap[x]?) z

/-- All feeds of the gate are below the bound. -/
structure Below (n : ℕ) (gate : Gate) : Prop where
  z : gate.z < n
  reads : ∀ i ∈ gate.reads, i < n

end Gate

/-- Error for `CircuitBuilder`. -/
inductive BuilderError where
  | mk
  deriving DecidableEq, Repr

namespace CircuitBuilder

/-- The next id is given to an input. -/
def mapInput (ids : List ℕ × ℕ) (input : ℕ) : Option (List ℕ × ℕ) := do
  let idMap ← writeAt ids.1 input ids.2
  return (idMap, ids.2 + 1)

/-- An output is put at its place at the end. -/
def mapOutput (outputIdStart : ℕ) (idMap : List ℕ) (output : ℕ × ℕ) : Option (List ℕ) :=
  writeAt idMap output.1 (outputIdStart + output.2)

/-- The feed that a gate writes keeps the id it has, or is given the next one. -/
def mapGate (ids : List ℕ × ℕ × List Gate) (gate : Gate) : Option (List ℕ × ℕ × List Gate) := do
  let id ← ids.1[gate.z]?
  if id = 0 then
    let idMap ← writeAt ids.1 gate.z ids.2.1
    return (idMap, ids.2.1 + 1, ids.2.2 ++ [gate.withZ ids.2.1])
  else
    return (ids.1, ids.2.1, ids.2.2 ++ [gate.withZ id])

/-- Builds the circuit. -/
def build (self : CircuitBuilder) : Outcome BuilderError Circuit := .ofOption do
  let inputs ← self.inputs.mapM (shiftNode 2)
  let gates ← self.gates.mapM (Gate.shiftLeft 2)
  let outputs ← self.outputs.mapM (shiftNode 2)
  let feedCount := self.feedId - 2
  let (idMap, nextId) ← inputs.foldlM mapInput (List.replicate feedCount 0, 0)
  -- `feed_count - self.outputs.len()`
  guard (outputs.length ≤ feedCount)
  let idMap ← outputs.zipIdx.foldlM (mapOutput (feedCount - outputs.length)) idMap
  let (idMap, _, gates) ← gates.foldlM mapGate (idMap, nextId, [])
  let gates ← gates.mapM (Gate.mapReads idMap)
  return ⟨⟨0, inputs.length⟩, ⟨feedCount - outputs.length, feedCount⟩, gates, feedCount,
    self.andCount, self.xorCount⟩

/-! ### A builder that builds -/

section Option

variable {α β σ : Type} {l : List α}

theorem exists_mapM {f : α → Option β} {Q : β → Prop} (h : ∀ a ∈ l, ∃ b, f a = some b ∧ Q b) :
    ∃ l', l.mapM f = some l' ∧ (∀ b ∈ l', Q b) ∧ l'.length = l.length := by
  induction l with
  | nil => exact ⟨[], rfl, by simp, rfl⟩
  | cons a l ih =>
    obtain ⟨b, hb, hQ⟩ := h a List.mem_cons_self
    obtain ⟨l', hl', hall, hlen⟩ := ih fun a ha => h a (List.mem_cons_of_mem _ ha)
    refine ⟨b :: l', ?_, List.forall_mem_cons.mpr ⟨hQ, hall⟩, by simp [hlen]⟩
    simp [List.mapM_cons, hb, hl']

theorem exists_foldlM {f : σ → α → Option σ} {I : σ → Prop}
    (h : ∀ s, I s → ∀ a ∈ l, ∃ s', f s a = some s' ∧ I s') {s : σ} (hs : I s) :
    ∃ s', l.foldlM f s = some s' ∧ I s' := by
  induction l generalizing s with
  | nil => exact ⟨s, rfl, hs⟩
  | cons a l ih =>
    obtain ⟨t, ht, hI⟩ := h s hs a List.mem_cons_self
    obtain ⟨s', hs', hI'⟩ := ih (fun s hs a ha => h s hs a (List.mem_cons_of_mem _ ha)) hI
    exact ⟨s', by simp [List.foldlM_cons, ht, hs'], hI'⟩

end Option

/-- All that the builder names are feeds of its own, and no constants. -/
structure InRange (b : CircuitBuilder) : Prop where
  inputs : ∀ i ∈ b.inputs, 2 ≤ i ∧ i < b.feedId
  reads : ∀ gate ∈ b.gates, ∀ i ∈ gate.reads, 2 ≤ i ∧ i < b.feedId
  outputs : ∀ i ∈ b.outputs, 2 ≤ i ∧ i < b.feedId

variable {n i : ℕ} {gate : Gate} {idMap : List ℕ}

theorem exists_shiftNode (h : 2 ≤ i ∧ i < n) : ∃ j, shiftNode 2 i = some j ∧ j < n - 2 :=
  ⟨i - 2, if_pos h.1, by omega⟩

theorem exists_shiftLeft (hz : 2 ≤ gate.z ∧ gate.z < n) (hr : ∀ i ∈ gate.reads, 2 ≤ i ∧ i < n) :
    ∃ gate', gate.shiftLeft 2 = some gate' ∧ gate'.Below (n - 2) := by
  obtain ⟨k, hk, hkn⟩ := exists_shiftNode hz
  cases gate with
  | xor x y z | and x y z =>
    obtain ⟨i, hi, hin⟩ := exists_shiftNode (hr x (by simp [Gate.reads]))
    obtain ⟨j, hj, hjn⟩ := exists_shiftNode (hr y (by simp [Gate.reads]))
    rw [Gate.z] at hk
    refine ⟨_, by rw [Gate.shiftLeft, hi, hj, hk]; rfl, ?_⟩
    exact ⟨hkn, by simp [Gate.reads, hin, hjn]⟩
  | inv x z | id x z =>
    obtain ⟨i, hi, hin⟩ := exists_shiftNode (hr x (by simp [Gate.reads]))
    rw [Gate.z] at hk
    refine ⟨_, by rw [Gate.shiftLeft, hi, hk]; rfl, ?_⟩
    exact ⟨hkn, by simp [Gate.reads, hin]⟩

theorem exists_mapGate {ids : List ℕ × ℕ × List Gate}
    (hids : ids.1.length = n ∧ ∀ gate ∈ ids.2.2, ∀ i ∈ gate.reads, i < n) (hgate : gate.Below n) :
    ∃ ids', mapGate ids gate = some ids' ∧
      ids'.1.length = n ∧ ∀ gate ∈ ids'.2.2, ∀ i ∈ gate.reads, i < n := by
  have hreads : ∀ z, ∀ g ∈ ids.2.2 ++ [gate.withZ z], ∀ i ∈ g.reads, i < n := by
    intro z g hg i hi
    rcases List.mem_append.mp hg with hg | hg
    · exact hids.2 g hg i hi
    · rw [List.mem_singleton] at hg
      subst hg
      exact hgate.reads i (by cases gate <;> exact hi)
  have hz : gate.z < ids.1.length := hids.1.symm ▸ hgate.z
  rw [mapGate, List.getElem?_eq_getElem hz]
  by_cases h0 : ids.1[gate.z] = 0
  · refine ⟨(ids.1.set gate.z ids.2.1, ids.2.1 + 1, ids.2.2 ++ [gate.withZ ids.2.1]), ?_, ?_,
      hreads _⟩
    · simp [h0, writeAt_of_lt hz]
    · rw [List.length_set, hids.1]
  · exact ⟨(ids.1, ids.2.1, ids.2.2 ++ [gate.withZ ids.1[gate.z]]), by simp [h0], hids.1, hreads _⟩

theorem exists_mapReads (h : ∀ i ∈ gate.reads, i < idMap.length) :
    ∃ gate', gate.mapReads idMap = some gate' ∧ True := by
  cases gate with
  | xor x y z | and x y z =>
    have hx := List.getElem?_eq_getElem (h x (by simp [Gate.reads]))
    have hy := List.getElem?_eq_getElem (h y (by simp [Gate.reads]))
    exact ⟨_, by rw [Gate.mapReads, hx, hy]; rfl, trivial⟩
  | inv x z | id x z =>
    have hx := List.getElem?_eq_getElem (h x (by simp [Gate.reads]))
    exact ⟨_, by rw [Gate.mapReads, hx]; rfl, trivial⟩

/-- **The builder builds** when it names feeds of its own only, and no more outputs than feeds. -/
theorem exists_build {b : CircuitBuilder} (hb : b.InRange)
    (hlen : b.outputs.length ≤ b.feedId - 2) :
    ∃ circ, b.build = .ok circ := by
  obtain ⟨inputs, hinputs, hin, -⟩ := exists_mapM (f := shiftNode 2) fun i hi =>
    exists_shiftNode (hb.inputs i hi)
  obtain ⟨gates, hgates, hbelow, -⟩ := exists_mapM (f := Gate.shiftLeft 2) fun gate hgate =>
    exists_shiftLeft (b.writes gate hgate) (hb.reads gate hgate)
  obtain ⟨outputs, houtputs, hout, hlen'⟩ := exists_mapM (f := shiftNode 2) fun i hi =>
    exists_shiftNode (hb.outputs i hi)
  obtain ⟨⟨idMap, nextId⟩, hmap, hidMap⟩ := exists_foldlM (f := mapInput) (l := inputs)
    (I := fun ids => ids.1.length = b.feedId - 2)
    (fun ids hids i hi => ⟨(ids.1.set i ids.2, ids.2 + 1),
      by simp [mapInput, writeAt_of_lt (hids.symm ▸ hin i hi)], by simpa using hids⟩)
    (s := (List.replicate (b.feedId - 2) 0, 0)) List.length_replicate
  obtain ⟨idMap', hmap', hidMap'⟩ := exists_foldlM
    (f := mapOutput (b.feedId - 2 - outputs.length)) (l := outputs.zipIdx)
    (I := fun idMap => idMap.length = b.feedId - 2)
    (fun idMap hids p hp => ⟨_,
      writeAt_of_lt (hids.symm ▸ hout p.1 (List.fst_mem_of_mem_zipIdx hp)) _, by simpa using hids⟩)
      (s := idMap) hidMap
  obtain ⟨ids, hmapGate, hids, hreads⟩ := exists_foldlM (f := mapGate) (l := gates)
    (I := fun ids => ids.1.length = b.feedId - 2 ∧
      ∀ gate ∈ ids.2.2, ∀ i ∈ gate.reads, i < b.feedId - 2)
    (fun ids hids gate hgate => exists_mapGate hids (hbelow gate hgate))
    (s := (idMap', nextId, [])) ⟨hidMap', by simp⟩
  obtain ⟨gates', hgates', -⟩ := exists_mapM (f := Gate.mapReads ids.1) fun gate hgate =>
    exists_mapReads (hids.symm ▸ hreads gate hgate)
  have hguard : outputs.length ≤ b.feedId - 2 := hlen'.trans_le hlen
  refine ⟨⟨⟨0, inputs.length⟩, ⟨b.feedId - 2 - outputs.length, b.feedId - 2⟩, gates', b.feedId - 2,
    b.andCount, b.xorCount⟩, ?_⟩
  simp [build, hinputs, hgates, houtputs, hmap, hguard, hmap', hmapGate, hgates']

end CircuitBuilder

end Mpz
