import Mathlib.Data.List.Perm.Subperm
import Mpz.Circuits.Parse

/-!
# Texts from which the parser comes back

A gate is added when the wires that it reads have a feed; a wire that has none is an error. But the
second operand of a gate is optional in the pattern and unwrapped when the gate reads two wires, and
the outputs are looked up by a number that comes from the header alone.

## Main definitions

* `Assigned`, `Ordered` — the wires that have a feed, and gates in an order in which they can be
  added
* `Feeds.Inv` — the map has a feed of the builder for the assigned wires, and for no others
* `ParseReturns` — what a text must keep to

## Main results

* `Feeds.Inv.of_ordered`, `Feeds.Inv.panic_of_missing`, `Feeds.Inv.addGates_cases` — what the gates
  of a file do
* `Circuit.parseStr_returns_iff` — the parser comes back exactly from the texts that keep to that
-/

namespace Mpz

/-- The wire is an input, or one of the gates writes it. -/
def Assigned (inputs : ℕ) (gates : List UncheckedGate) (i : ℕ) : Prop :=
  i < inputs ∨ ∃ gate ∈ gates, gate.zref = i

/-- The gate reads assigned wires, two of them if it has to. -/
structure Reads (inputs : ℕ) (gates : List UncheckedGate) (gate : UncheckedGate) : Prop where
  xref : Assigned inputs gates gate.xref
  yref : gate.gateType.isBinary → ∃ y, gate.yref = some y ∧ Assigned inputs gates y

/-- Each gate reads wires that are inputs, or that a gate before it writes. -/
def Ordered (inputs : ℕ) : List UncheckedGate → List UncheckedGate → Prop
  | _, [] => True
  | prior, gate :: gates => Reads inputs prior gate ∧ Ordered inputs (prior ++ [gate]) gates

/-- A gate that reads two wires has only one, and all would have been well up to it. -/
def MissingOperand (inputs : ℕ) (prior : List UncheckedGate)
    (captured : List (Outcome ParseError UncheckedGate)) : Prop :=
  ∃ before gate later, captured = before.map .ok ++ .ok gate :: later ∧
    Ordered inputs prior before ∧
    gate.gateType.isBinary ∧ Assigned inputs (prior ++ before) gate.xref ∧ gate.yref = none

/-- What a text must keep to: the wires that the header counts are few enough, no gate misses its
second operand, and when all gates are well then the outputs are among the wires, and assigned. -/
structure ParseReturns (maxCapacity : ℕ) (header : Header)
    (captured : List (Outcome ParseError UncheckedGate)) : Prop where
  count : header.inputLengths.sum + header.gateCount < 2 ^ 64
  capacity : header.inputLengths.sum + header.gateCount ≤ maxCapacity
  operands : ¬ MissingOperand header.inputLengths.sum [] captured
  outputs : ∀ gates, captured = gates.map .ok → Ordered header.inputLengths.sum [] gates →
    header.outputLengths.sum ≤ header.inputLengths.sum + header.gateCount ∧
      ∀ i ∈ List.range' (header.inputLengths.sum + header.gateCount - header.outputLengths.sum)
        header.outputLengths.sum, Assigned header.inputLengths.sum gates i

variable {inputs i n : ℕ} {gates prior : List UncheckedGate} {gate : UncheckedGate}

theorem assigned_append :
    Assigned inputs (gates ++ [gate]) i ↔ i = gate.zref ∨ Assigned inputs gates i := by
  simp only [Assigned, List.mem_append, List.mem_singleton, or_and_right, exists_or, exists_eq_left]
  rw [eq_comm, ← or_assoc, or_comm]

/-- No more wires than inputs and gates are assigned. -/
theorem length_le_of_assigned {l : List ℕ} (hl : l.Nodup) (h : ∀ i ∈ l, Assigned inputs gates i) :
    l.length ≤ inputs + gates.length := by
  have hsub : l ⊆ List.range inputs ++ gates.map UncheckedGate.zref := by
    intro i hi
    rcases h i hi with hlt | ⟨gate, hgate, rfl⟩
    · exact List.mem_append_left _ (List.mem_range.mpr hlt)
    · exact List.mem_append_right _ (List.mem_map_of_mem hgate)
  simpa using (hl.subperm hsub).length_le

/-! ### Gates on nodes that are no constants -/

namespace CircuitBuilder

/-- The builder has one more gate, which writes a feed of its own. -/
structure Adds (b b' : CircuitBuilder) (gate : Gate) : Prop where
  feedId : b'.feedId = b.feedId + 1
  inputs : b'.inputs = b.inputs
  outputs : b'.outputs = b.outputs
  gates : b'.gates = b.gates ++ [gate]

variable {b b' : CircuitBuilder} {x y : ℕ}

theorem exists_addXorGate (b : CircuitBuilder) (hx : 2 ≤ x) (hy : 2 ≤ y) :
    ∃ b', (addXorGate x y : Method CircuitBuilder ParseError ℕ) b = (.ok b.feedId, b') ∧
      b.Adds b' (.xor x y b.feedId) := by
  unfold addXorGate
  rw [if_neg (by omega), if_neg (by omega), if_neg (by omega), if_neg (by omega), if_neg (by omega)]
  exact ⟨_, rfl, rfl, rfl, rfl, rfl⟩

theorem exists_addAndGate (b : CircuitBuilder) (hx : 2 ≤ x) (hy : 2 ≤ y) :
    ∃ b', (addAndGate x y : Method CircuitBuilder ParseError ℕ) b = (.ok b.feedId, b') ∧
      b.Adds b' (.and x y b.feedId) := by
  unfold addAndGate
  rw [if_neg (by omega), if_neg (by omega), if_neg (by omega)]
  exact ⟨_, rfl, rfl, rfl, rfl, rfl⟩

theorem exists_addInvGate (b : CircuitBuilder) (hx : 2 ≤ x) :
    ∃ b', (addInvGate x : Method CircuitBuilder ParseError ℕ) b = (.ok b.feedId, b') ∧
      b.Adds b' (.inv x b.feedId) := by
  unfold addInvGate
  rw [if_neg (by omega), if_neg (by omega)]
  exact ⟨_, rfl, rfl, rfl, rfl, rfl⟩

theorem exists_addIdGate (b : CircuitBuilder) (hx : 2 ≤ x) :
    ∃ b', (addIdGate x : Method CircuitBuilder ParseError ℕ) b = (.ok b.feedId, b') ∧
      b.Adds b' (.id x b.feedId) := by
  unfold addIdGate
  rw [if_neg (by omega), if_neg (by omega)]
  exact ⟨_, rfl, rfl, rfl, rfl, rfl⟩

/-- A gate on feeds of the builder leaves it in range. -/
theorem Adds.inRange {gate : Gate} (h : b.Adds b' gate) (hb : b.InRange)
    (hgate : ∀ i ∈ gate.reads, 2 ≤ i ∧ i < b.feedId) : b'.InRange := by
  have hlt : ∀ i, 2 ≤ i ∧ i < b.feedId → 2 ≤ i ∧ i < b'.feedId := by
    intro i hi
    rw [h.feedId]
    omega
  refine ⟨fun i hi => hlt i (hb.inputs i (h.inputs ▸ hi)), fun g hg i hi => hlt i ?_,
    fun i hi => hlt i (hb.outputs i (h.outputs ▸ hi))⟩
  rw [h.gates, List.mem_append, List.mem_singleton] at hg
  rcases hg with hg | rfl
  · exact hb.reads g hg i hi
  · exact hgate i hi

end CircuitBuilder

namespace Feeds

/-- After the inputs, the gates and a number of outputs: the map has a feed of the builder for the
wires that are assigned, and for no others. -/
structure Inv (inputs : ℕ) (gates : List UncheckedGate) (outputs : ℕ) (feeds : Feeds) : Prop where
  feedId : feeds.builder.feedId = 2 + inputs + gates.length
  inRange : feeds.builder.InRange
  outputs : feeds.builder.outputs.length = outputs
  assigned : ∀ i, Assigned inputs gates i ↔ ∃ node, feeds.feedMap i = some node
  node : ∀ i node, feeds.feedMap i = some node → 2 ≤ node ∧ node < feeds.builder.feedId

variable {self : Feeds} {captures : GateGroup → Option (List Char)} {outputs : ℕ}

namespace Inv

theorem new : Inv 0 [] 0 ⟨.new, fun _ => none⟩ :=
  ⟨rfl, ⟨by simp [CircuitBuilder.new], by simp [CircuitBuilder.new], by simp [CircuitBuilder.new]⟩,
    rfl, by simp [Assigned], by simp⟩

/-- One more wire is put to the feed that the builder gave it. -/
theorem put {b' : CircuitBuilder} {inputs' : ℕ} {gates' : List UncheckedGate}
    (h : Inv inputs gates outputs self) (hid : b'.feedId = self.builder.feedId + 1)
    (hcount : inputs' + gates'.length = inputs + gates.length + 1) (hrange : b'.InRange)
    (hout : b'.outputs = self.builder.outputs)
    (hassigned : ∀ j, Assigned inputs' gates' j ↔ j = i ∨ Assigned inputs gates j) :
    Inv inputs' gates' outputs
      ⟨b', Function.update self.feedMap i (some self.builder.feedId)⟩ := by
  have hfeedId := h.feedId
  refine ⟨?_, hrange, by rw [hout, h.outputs], fun j => ?_, fun j node hj => ?_⟩
  · dsimp only
    omega
  · rw [hassigned, h.assigned]
    rcases eq_or_ne j i with rfl | hne
    · simp
    · simp [hne]
  · dsimp only at hj ⊢
    rw [hid]
    rcases eq_or_ne j i with rfl | hne
    · rw [Function.update_self, Option.some.injEq] at hj
      have := self.builder.two_le
      omega
    · rw [Function.update_of_ne hne] at hj
      exact (h.node j node hj).imp_right Nat.lt_succ_of_lt

theorem addInput (h : Inv n [] outputs self) :
    ∃ self', Feeds.addInput n self = (.ok (), self') ∧ Inv (n + 1) [] outputs self' := by
  let b' : CircuitBuilder := (CircuitBuilder.addInput (ε := ParseError) self.builder).2
  have hrange : b'.InRange := by
    refine ⟨fun i hi => ?_, fun gate hgate i hi => ?_, fun i hi => ?_⟩
    · rcases List.mem_append.mp hi with hi | hi
      · exact (h.inRange.inputs i hi).imp_right Nat.lt_succ_of_lt
      · rw [List.mem_singleton.mp hi]
        exact ⟨self.builder.two_le, Nat.lt_succ_self _⟩
    · exact (h.inRange.reads gate hgate i hi).imp_right Nat.lt_succ_of_lt
    · exact (h.inRange.outputs i hi).imp_right Nat.lt_succ_of_lt
  refine ⟨⟨b', _⟩, rfl, h.put rfl ?_ hrange rfl fun j => ?_⟩
  · simp
  · simp only [Assigned, List.not_mem_nil, false_and, exists_false, or_false]
    omega

theorem addInputs (k : ℕ) (h : Inv n [] outputs self) :
    ∃ self', Method.forEach Feeds.addInput (List.range' n k) self = (.ok (), self') ∧
      Inv (n + k) [] outputs self' := by
  induction k generalizing n self with
  | zero => exact ⟨self, rfl, h⟩
  | succ k ih =>
    obtain ⟨t, ht, hinv⟩ := h.addInput
    obtain ⟨u, hu, hinv'⟩ := ih hinv
    refine ⟨u, ?_, by rwa [Nat.add_right_comm, Nat.add_assoc] at hinv'⟩
    rw [List.range'_succ, Method.forEach, Method.bind_apply_of_ok ht, hu]

theorem get_of_assigned (h : Inv inputs gates outputs self) (hi : Assigned inputs gates i) :
    ∃ node, Feeds.get i self = (.ok node, self) ∧ 2 ≤ node ∧ node < self.builder.feedId := by
  obtain ⟨node, hnode⟩ := (h.assigned i).mp hi
  exact ⟨node, by rw [Feeds.get, hnode], h.node i node hnode⟩

theorem get_of_not_assigned (h : Inv inputs gates outputs self) (hi : ¬ Assigned inputs gates i) :
    Feeds.get i self = (.err (.uninitializedFeed i), self) := by
  cases hnode : self.feedMap i with
  | none => rw [Feeds.get, hnode]
  | some node => exact absurd ((h.assigned i).mpr ⟨node, hnode⟩) hi

/-- A call of the builder that gives a new feed, which the wire is put to. -/
theorem build_insert {m : Method CircuitBuilder ParseError ℕ} {g : Gate} {zref : ℕ}
    (h : Inv inputs gates outputs self) (hz : gate.zref = zref)
    (hg : ∀ i ∈ g.reads, 2 ≤ i ∧ i < self.builder.feedId)
    (hm : ∃ b', m self.builder = (.ok self.builder.feedId, b') ∧ self.builder.Adds b' g) :
    ∃ self', (do let z ← Feeds.build m; Feeds.insert zref z) self = (.ok (), self') ∧
      Inv inputs (gates ++ [gate]) outputs self' := by
  obtain ⟨b', hb, hadds⟩ := hm
  subst hz
  refine ⟨⟨b', Function.update self.feedMap gate.zref (some self.builder.feedId)⟩, ?_,
    h.put hadds.feedId ?_ (hadds.inRange h.inRange hg) hadds.outputs fun _ => assigned_append⟩
  swap
  · rw [List.length_append, List.length_singleton, Nat.add_assoc]
  have hbuild : Feeds.build m self = (.ok self.builder.feedId, { self with builder := b' }) := by
    rw [Feeds.build, Method.zoom_apply, hb, Outcome.mapErr_ok]
  rw [Method.bind_apply_of_ok hbuild]
  rfl

/-- **A gate on assigned wires** is added, and its wire is assigned. -/
theorem addUnchecked (h : Inv inputs gates outputs self) (hreads : Reads inputs gates gate) :
    ∃ self', Feeds.addUnchecked gate self = (.ok (), self') ∧
      Inv inputs (gates ++ [gate]) outputs self' := by
  obtain ⟨x, hx, hx2⟩ := h.get_of_assigned hreads.xref
  obtain ⟨xref, yref, zref, gateType⟩ := gate
  cases gateType with
  | xor =>
    obtain ⟨i, rfl, hassigned⟩ := hreads.yref rfl
    obtain ⟨y, hy, hy2⟩ := h.get_of_assigned hassigned
    rw [Feeds.addUnchecked, Method.bind_apply_of_ok hx, Outcome.ofOption_some, Method.call_ok_bind,
      Method.bind_apply_of_ok hy]
    exact h.build_insert rfl (by simp [Gate.reads, hx2, hy2])
      (CircuitBuilder.exists_addXorGate _ hx2.1 hy2.1)
  | and =>
    obtain ⟨i, rfl, hassigned⟩ := hreads.yref rfl
    obtain ⟨y, hy, hy2⟩ := h.get_of_assigned hassigned
    rw [Feeds.addUnchecked, Method.bind_apply_of_ok hx, Outcome.ofOption_some, Method.call_ok_bind,
      Method.bind_apply_of_ok hy]
    exact h.build_insert rfl (by simp [Gate.reads, hx2, hy2])
      (CircuitBuilder.exists_addAndGate _ hx2.1 hy2.1)
  | inv =>
    rw [Feeds.addUnchecked, Method.bind_apply_of_ok hx]
    exact h.build_insert rfl (by simp [Gate.reads, hx2]) (CircuitBuilder.exists_addInvGate _ hx2.1)
  | id =>
    rw [Feeds.addUnchecked, Method.bind_apply_of_ok hx]
    exact h.build_insert rfl (by simp [Gate.reads, hx2]) (CircuitBuilder.exists_addIdGate _ hx2.1)

/-- **Where the second operand is missing, it is unwrapped.** -/
theorem addUnchecked_panic (h : Inv inputs gates outputs self) (htype : gate.gateType.isBinary)
    (hx : Assigned inputs gates gate.xref) (hy : gate.yref = none) :
    (Feeds.addUnchecked gate self).1 = .panic := by
  obtain ⟨x, hx, -⟩ := h.get_of_assigned hx
  obtain ⟨xref, yref, zref, gateType⟩ := gate
  obtain rfl : yref = none := hy
  cases gateType with
  | xor | and =>
    rw [Feeds.addUnchecked, Method.bind_apply_of_ok hx]
    rfl
  | inv | id => simp [GateType.isBinary] at htype

/-- In all other cases the gate is an error. -/
theorem addUnchecked_err (h : Inv inputs gates outputs self) (hreads : ¬ Reads inputs gates gate)
    (hmissing : ¬ (gate.gateType.isBinary ∧ Assigned inputs gates gate.xref ∧ gate.yref = none)) :
    ∃ e, (Feeds.addUnchecked gate self).1 = .err e := by
  obtain ⟨xref, yref, zref, gateType⟩ := gate
  by_cases hx : Assigned inputs gates xref
  · obtain ⟨x, hget, -⟩ := h.get_of_assigned hx
    have htype : gateType.isBinary = true := by
      by_contra hbin
      exact hreads ⟨hx, fun hb => absurd hb hbin⟩
    obtain ⟨y, rfl⟩ := Option.ne_none_iff_exists'.mp fun hy => hmissing ⟨htype, hx, hy⟩
    have hgety := h.get_of_not_assigned fun hassigned => hreads ⟨hx, fun _ => ⟨y, rfl, hassigned⟩⟩
    refine ⟨.uninitializedFeed y, ?_⟩
    cases gateType with
    | xor | and =>
      rw [Feeds.addUnchecked, Method.bind_apply_of_ok hget, Outcome.ofOption_some,
        Method.call_ok_bind, Method.bind_apply, hgety]
    | inv | id => simp [GateType.isBinary] at htype
  · refine ⟨.uninitializedFeed xref, ?_⟩
    cases gateType <;> rw [Feeds.addUnchecked, Method.bind_apply, h.get_of_not_assigned hx]

theorem addGate_of_parse (hparse : UncheckedGate.parse captures = .ok gate) (self : Feeds) :
    Feeds.addGate captures self = Feeds.addUnchecked gate self := by
  rw [Feeds.addGate, hparse, Method.call_ok_bind]

theorem addGate (h : Inv inputs gates outputs self)
    (hparse : UncheckedGate.parse captures = .ok gate) (hreads : Reads inputs gates gate) :
    ∃ self', Feeds.addGate captures self = (.ok (), self') ∧
      Inv inputs (gates ++ [gate]) outputs self' := by
  rw [addGate_of_parse hparse]
  exact h.addUnchecked hreads

/-! ### All gates -/

variable {captured : List (GateGroup → Option (List Char))}

/-- **Gates in order are all added.** -/
theorem of_ordered (h : Inv inputs prior outputs self)
    (hparse : captured.map UncheckedGate.parse = gates.map .ok)
    (hgates : Ordered inputs prior gates) :
    ∃ self', Method.forEach Feeds.addGate captured self = (.ok (), self') ∧
      Inv inputs (prior ++ gates) outputs self' := by
  induction captured generalizing prior gates self with
  | nil =>
    obtain rfl : gates = [] := by simpa using hparse.symm
    exact ⟨self, rfl, by rwa [List.append_nil]⟩
  | cons captures captured ih =>
    cases gates with
    | nil => simp at hparse
    | cons gate gates =>
      rw [List.map_cons, List.map_cons, List.cons.injEq] at hparse
      obtain ⟨t, ht, hinv⟩ := h.addGate hparse.1 hgates.1
      obtain ⟨u, hu, hinv'⟩ := ih hinv hparse.2 hgates.2
      refine ⟨u, ?_, by rwa [List.append_assoc] at hinv'⟩
      rw [Method.forEach, Method.bind_apply_of_ok ht, hu]

/-- **A missing operand is a panic.** -/
theorem panic_of_missing (h : Inv inputs prior outputs self)
    (hmissing : MissingOperand inputs prior (captured.map UncheckedGate.parse)) :
    (Method.forEach Feeds.addGate captured self).1 = .panic := by
  obtain ⟨before, gate, later, hparse, hordered, htype, hx, hy⟩ := hmissing
  induction before generalizing prior captured self with
  | nil =>
    cases captured with
    | nil => simp at hparse
    | cons captures captured =>
      rw [List.map_cons, List.map_nil, List.nil_append, List.cons.injEq] at hparse
      rw [List.append_nil] at hx
      exact Method.bind_panic_iff.mpr (.inl (by
        rw [addGate_of_parse hparse.1]
        exact h.addUnchecked_panic htype hx hy))
  | cons first before ih =>
    cases captured with
    | nil => simp at hparse
    | cons captures captured =>
      rw [List.map_cons, List.map_cons, List.cons_append, List.cons.injEq] at hparse
      obtain ⟨t, ht, hinv⟩ := h.addGate hparse.1 hordered.1
      refine Method.bind_panic_iff.mpr (.inr ⟨(), t, ht, ih hinv hparse.2 hordered.2 ?_⟩)
      rwa [List.append_assoc]

/-- **And there is nothing else**: gates that are not all added are an error, or one of them misses
its second operand. -/
theorem addGates_cases (h : Inv inputs prior outputs self)
    (hne : ∀ captures ∈ captured, UncheckedGate.parse captures ≠ .panic) :
    (∃ gates, captured.map UncheckedGate.parse = gates.map .ok ∧ Ordered inputs prior gates) ∨
      MissingOperand inputs prior (captured.map UncheckedGate.parse) ∨
      ∃ e, (Method.forEach Feeds.addGate captured self).1 = .err e := by
  induction captured generalizing prior self with
  | nil => exact .inl ⟨[], rfl, trivial⟩
  | cons captures captured ih =>
    cases hparse : UncheckedGate.parse captures with
    | panic => exact absurd hparse (hne captures List.mem_cons_self)
    | err e =>
      refine .inr (.inr ⟨e, ?_⟩)
      rw [Method.forEach, Method.bind_apply, Feeds.addGate, hparse]
      rfl
    | ok gate =>
      by_cases hreads : Reads inputs prior gate
      · obtain ⟨t, ht, hinv⟩ := h.addGate hparse hreads
        rw [List.map_cons, Method.forEach, Method.bind_apply_of_ok ht, hparse]
        rcases ih hinv fun c hc => hne c (List.mem_cons_of_mem _ hc) with
          ⟨gates, hgates, hordered⟩ | ⟨before, g, later, hcaptured, hordered, hg⟩ | herr
        · exact .inl ⟨gate :: gates, by rw [hgates, List.map_cons], hreads, hordered⟩
        · refine .inr (.inl ⟨gate :: before, g, later, ?_, ⟨hreads, hordered⟩, ?_⟩)
          · rw [hcaptured, List.map_cons, List.cons_append]
          · rwa [List.append_assoc] at hg
        · exact .inr (.inr herr)
      · by_cases hmissing : gate.gateType.isBinary ∧ Assigned inputs prior gate.xref ∧
          gate.yref = none
        · refine .inr (.inl ⟨[], gate, captured.map UncheckedGate.parse, ?_, trivial, ?_⟩)
          · rw [List.map_cons, hparse, List.map_nil, List.nil_append]
          · rwa [List.append_nil]
        · obtain ⟨e, he⟩ := h.addUnchecked_err hreads hmissing
          rw [← addGate_of_parse hparse] at he
          refine .inr (.inr ⟨e, ?_⟩)
          rw [Method.forEach, Method.bind_apply]
          rcases hrun : Feeds.addGate captures self with ⟨o, t⟩
          rw [hrun] at he
          obtain rfl : o = .err e := he
          rfl

/-! ### The outputs -/

theorem addOutput (h : Inv inputs gates outputs self) (hi : Assigned inputs gates i) :
    ∃ self', Feeds.addOutput i self = (.ok (), self') ∧ Inv inputs gates (outputs + 1) self' := by
  obtain ⟨node, hnode⟩ := (h.assigned i).mp hi
  refine ⟨{ self with builder := { self.builder with outputs := self.builder.outputs ++ [node] } },
    by rw [Feeds.addOutput, hnode]; rfl, ⟨h.feedId, ⟨h.inRange.inputs, h.inRange.reads, ?_⟩, ?_,
      h.assigned, h.node⟩⟩
  · intro j hj
    rcases List.mem_append.mp hj with hj | hj
    · exact h.inRange.outputs j hj
    · rw [List.mem_singleton.mp hj]
      exact h.node i node hnode
  · rw [List.length_append, List.length_singleton, h.outputs]

theorem forEach_addOutput {l : List ℕ} (h : Inv inputs gates outputs self)
    (hl : ∀ i ∈ l, Assigned inputs gates i) :
    ∃ self', Method.forEach Feeds.addOutput l self = (.ok (), self') ∧
      Inv inputs gates (outputs + l.length) self' := by
  induction l generalizing outputs self with
  | nil => exact ⟨self, rfl, h⟩
  | cons i l ih =>
    obtain ⟨t, ht, hinv⟩ := h.addOutput (hl i List.mem_cons_self)
    obtain ⟨u, hu, hinv'⟩ := ih hinv fun j hj => hl j (List.mem_cons_of_mem _ hj)
    refine ⟨u, ?_, by rwa [List.length_cons, Nat.add_comm l.length, ← Nat.add_assoc]⟩
    rw [Method.forEach, Method.bind_apply_of_ok ht, hu]

/-- An output that is not assigned is unwrapped all the same. -/
theorem forEach_addOutput_panic {l : List ℕ} (h : Inv inputs gates outputs self)
    (hl : ¬ ∀ i ∈ l, Assigned inputs gates i) :
    (Method.forEach Feeds.addOutput l self).1 = .panic := by
  induction l generalizing outputs self with
  | nil => simp at hl
  | cons i l ih =>
    by_cases hi : Assigned inputs gates i
    · obtain ⟨t, ht, hinv⟩ := h.addOutput hi
      refine Method.bind_panic_iff.mpr (.inr ⟨(), t, ht, ih hinv fun hall => hl ?_⟩)
      exact List.forall_mem_cons.mpr ⟨hi, hall⟩
    · refine Method.bind_panic_iff.mpr (.inl ?_)
      cases hnode : self.feedMap i with
      | none => rw [Feeds.addOutput, hnode]
      | some node => exact absurd ((h.assigned i).mpr ⟨node, hnode⟩) hi

/-- Outputs that are assigned are no more than there are feeds, so that the circuit is built. -/
theorem exists_build {start : ℕ} (h : Inv inputs gates outputs self)
    (hl : ∀ i ∈ List.range' start outputs, Assigned inputs gates i) :
    ∃ circ, self.builder.build = .ok circ := by
  refine CircuitBuilder.exists_build h.inRange ?_
  have := length_le_of_assigned List.nodup_range' hl
  rw [List.length_range'] at this
  rw [h.outputs, h.feedId]
  omega

variable {feedCount : ℕ} {outputLengths : List ℕ}

/-- **Outputs that are assigned** are added, and the circuit is built. -/
theorem addOutputs (h : Inv inputs gates 0 self) (hcount : feedCount < 2 ^ 64)
    (hle : outputLengths.sum ≤ feedCount)
    (hl : ∀ i ∈ List.range' (feedCount - outputLengths.sum) outputLengths.sum,
      Assigned inputs gates i) :
    ∃ self', Feeds.addOutputs feedCount outputLengths self = (.ok (), self') ∧
      ∃ circ, self'.builder.build = .ok circ := by
  obtain ⟨t, ht, hinv⟩ := h.forEach_addOutput hl
  rw [List.length_range', Nat.zero_add] at hinv
  refine ⟨t, ?_, hinv.exists_build hl⟩
  rw [Feeds.addOutputs, checkedSize_eq_some.mpr ⟨hle.trans_lt hcount, rfl⟩, Outcome.ofOption_some,
    Method.call_ok_bind, if_neg hle.not_gt, ht]

/-- Outputs that are too many, or not assigned, are a panic. -/
theorem addOutputs_panic (h : Inv inputs gates 0 self)
    (hl : ¬ (outputLengths.sum ≤ feedCount ∧
      ∀ i ∈ List.range' (feedCount - outputLengths.sum) outputLengths.sum,
        Assigned inputs gates i)) :
    (Feeds.addOutputs feedCount outputLengths self).1 = .panic := by
  rw [Feeds.addOutputs]
  by_cases hlt : outputLengths.sum < 2 ^ 64
  · rw [checkedSize_eq_some.mpr ⟨hlt, rfl⟩, Outcome.ofOption_some, Method.call_ok_bind]
    by_cases hle : outputLengths.sum ≤ feedCount
    · rw [if_neg hle.not_gt]
      exact h.forEach_addOutput_panic fun hall => hl ⟨hle, hall⟩
    · rw [if_pos (Nat.lt_of_not_le hle)]
      rfl
  · rw [checkedSize, if_neg hlt]
    rfl

end Inv

variable {inputs feedCount : ℕ} {captured : List (GateGroup → Option (List Char))}
  {outputLengths : List ℕ}

/-- After the inputs come the gates. -/
theorem exists_addAll (inputs feedCount : ℕ) (captured : List (GateGroup → Option (List Char)))
    (outputLengths : List ℕ) :
    ∃ self, Inv inputs [] 0 self ∧ addAll inputs feedCount captured outputLengths
      ⟨.new, fun _ => none⟩ =
      (do Method.forEach addGate captured; addOutputs feedCount outputLengths) self := by
  obtain ⟨self, hself, hinv⟩ := Inv.new.addInputs inputs
  rw [Nat.zero_add] at hinv
  exact ⟨self, hinv, by rw [addAll, Method.bind_apply_of_ok hself]⟩

theorem finish_of_panic {p : Outcome ParseError Unit × Feeds} (h : p.1 = .panic) :
    finish p = .panic := by
  obtain ⟨o, self⟩ := p
  obtain rfl : o = .panic := h
  rfl

end Feeds

namespace Circuit

variable {maxCapacity : ℕ} {digit : Char → Bool} {text : List Char} {header : Header}

theorem parseStr_of_header (hheader : readHeader digit text = .ok header)
    (hcount : header.inputLengths.sum + header.gateCount < 2 ^ 64)
    (hcapacity : header.inputLengths.sum + header.gateCount ≤ maxCapacity) :
    parseStr maxCapacity digit text =
      Feeds.finish (Feeds.addAll header.inputLengths.sum
        (header.inputLengths.sum + header.gateCount) ((gatePattern digit).capturesIter text)
        header.outputLengths ⟨.new, fun _ => none⟩) := by
  have hinputs : header.inputLengths.sum < 2 ^ 64 := (Nat.le_add_right _ _).trans_lt hcount
  rw [parseStr, hheader, Outcome.ok_bind, checkedSize_eq_some.mpr ⟨hinputs, rfl⟩,
    Outcome.ofOption_some, Outcome.ok_bind, checkedSize_eq_some.mpr ⟨hcount, rfl⟩,
    Outcome.ofOption_some, Outcome.ok_bind,
    if_neg hcapacity.not_gt]

/-- What the header counts has to be few enough. -/
theorem parseStr_panic_of_count (hheader : readHeader digit text = .ok header)
    (h : ¬ (header.inputLengths.sum + header.gateCount < 2 ^ 64 ∧
      header.inputLengths.sum + header.gateCount ≤ maxCapacity)) :
    parseStr maxCapacity digit text = .panic := by
  rw [parseStr, hheader, Outcome.ok_bind]
  by_cases hinputs : header.inputLengths.sum < 2 ^ 64
  · rw [checkedSize_eq_some.mpr ⟨hinputs, rfl⟩, Outcome.ofOption_some, Outcome.ok_bind]
    by_cases hcount : header.inputLengths.sum + header.gateCount < 2 ^ 64
    · rw [checkedSize_eq_some.mpr ⟨hcount, rfl⟩, Outcome.ofOption_some, Outcome.ok_bind,
        if_pos (Nat.lt_of_not_le fun hle => h ⟨hcount, hle⟩)]
    · rw [checkedSize, if_neg hcount]
      rfl
  · rw [checkedSize, if_neg hinputs]
    rfl

theorem parseStr_ne_panic (hheader : readHeader digit text = .ok header)
    (h : ParseReturns maxCapacity header
      (((gatePattern digit).capturesIter text).map UncheckedGate.parse)) :
    parseStr maxCapacity digit text ≠ .panic := by
  rw [parseStr_of_header hheader h.count h.capacity]
  obtain ⟨self, hinv, hrun⟩ := Feeds.exists_addAll header.inputLengths.sum
    (header.inputLengths.sum + header.gateCount) ((gatePattern digit).capturesIter text)
    header.outputLengths
  rw [hrun]
  have hne : ∀ captures ∈ (gatePattern digit).capturesIter text,
      UncheckedGate.parse captures ≠ .panic :=
    fun _ hc => UncheckedGate.parse_ne_panic hc
  rcases hinv.addGates_cases hne with ⟨gates, hgates, hordered⟩ | hmissing | ⟨e, he⟩
  · obtain ⟨t, ht, hinv'⟩ := hinv.of_ordered hgates hordered
    obtain ⟨hle, hall⟩ := h.outputs gates hgates hordered
    obtain ⟨u, hu, circ, hcirc⟩ := hinv'.addOutputs h.count hle hall
    rw [Method.bind_apply_of_ok ht, hu, Feeds.finish, hcirc, Outcome.mapErr_ok]
    exact fun heq => by cases heq
  · exact absurd hmissing h.operands
  · rcases hrun' : Method.forEach Feeds.addGate ((gatePattern digit).capturesIter text)
      self with ⟨o, t⟩
    rw [hrun'] at he
    obtain rfl : o = .err e := he
    rw [Method.bind_apply, hrun']
    exact fun heq => by cases heq

theorem parseReturns_of_ne_panic (hheader : readHeader digit text = .ok header)
    (h : parseStr maxCapacity digit text ≠ .panic) :
    ParseReturns maxCapacity header
      (((gatePattern digit).capturesIter text).map UncheckedGate.parse) := by
  have hcount := not_not.mp fun hcount => h (parseStr_panic_of_count hheader hcount)
  rw [parseStr_of_header hheader hcount.1 hcount.2] at h
  obtain ⟨self, hinv, hrun⟩ := Feeds.exists_addAll header.inputLengths.sum
    (header.inputLengths.sum + header.gateCount) ((gatePattern digit).capturesIter text)
    header.outputLengths
  have hne := fun hpanic => h (Feeds.finish_of_panic hpanic)
  rw [hrun] at hne
  refine ⟨hcount.1, hcount.2, fun hmissing => hne ?_, fun gates hgates hordered => ?_⟩
  · exact Method.bind_panic_iff.mpr (.inl (hinv.panic_of_missing hmissing))
  · obtain ⟨t, ht, hinv'⟩ := hinv.of_ordered hgates hordered
    by_contra hout
    exact hne (Method.bind_panic_iff.mpr (.inr ⟨(), t, ht, hinv'.addOutputs_panic hout⟩))

/-- **The parser comes back** exactly from the texts without a header, and from those with a header
that keep to it: the wires that it counts are few enough, no gate misses its second operand where
all was well up to it, and where all gates are well the outputs are among the wires, and
assigned. -/
theorem parseStr_returns_iff (maxCapacity : ℕ) (digit : Char → Bool) (text : List Char) :
    parseStr maxCapacity digit text ≠ .panic ↔
      ∀ header, readHeader digit text = .ok header → ParseReturns maxCapacity header
        (((gatePattern digit).capturesIter text).map UncheckedGate.parse) := by
  refine ⟨fun h header hheader => parseReturns_of_ne_panic hheader h, fun h => ?_⟩
  cases hheader : readHeader digit text with
  | ok header => exact parseStr_ne_panic hheader (h header hheader)
  | err e =>
    rw [parseStr, hheader]
    exact fun heq => by cases heq
  | panic => exact absurd hheader (readHeader_ne_panic digit text)

/-- An XOR gate with one operand. -/
theorem parseStr_panics :
    parseStr (2 ^ 58) Char.isDigit ['1', ' ', '3', '\n', '1', ' ', '1', '\n', '1', ' ', '1',
      '\n', '\n', '2', ' ', '1', ' ', '0', ' ', '2', ' ', 'X', 'O', 'R'] = .panic := by
  decide +kernel

end Circuit

end Mpz
