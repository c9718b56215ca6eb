import Mpz.Circuits.Interleaved
import Mpz.Circuits.Ops

/-!
# Circuits without constants

No gate is folded when none of its nodes is a constant, so that every gate writes a feed of its own.
Whatever is built of inputs by XOR gates, AND gates and additions keeps the order of the builder.

## Main definitions

* `CircuitBuilder.Live` — a node that is no constant
* `CircuitBuilder.Ordered` — the inputs come first, and every gate writes the next feed
* `CircuitBuilder.Building` — a builder in order, that has no outputs so far

## Main results

* `CircuitBuilder.Ordered.evaluate_build` — a circuit evaluates to what the outputs of its builder
  come to be
* `CircuitBuilder.Building.addXorGate`, `Building.addAndGate`, `Building.wrappingAdd` — circuits on
  live nodes keep the builder in order, and give live nodes
-/

namespace Mpz

namespace CircuitBuilder

variable {ε α : Type} {b b' : CircuitBuilder} {n x y c : ℕ} {xs ys : List ℕ}

/-- A method gives back one thing, so that all that is said of it holds at once. -/
theorem Gives.and {m : Method CircuitBuilder ε α} {φ ψ : α → CircuitBuilder → Prop}
    (hφ : Gives m b φ) (hψ : Gives m b ψ) : Gives m b fun a b' => φ a b' ∧ ψ a b' := by
  obtain ⟨a, b', hrun, hext, ha⟩ := hφ
  obtain ⟨a', b'', hrun', -, ha'⟩ := hψ
  obtain ⟨heq, rfl⟩ := Prod.mk.inj (hrun'.symm.trans hrun)
  obtain rfl := Outcome.ok.inj heq
  exact ⟨_, _, hrun, hext, ha, ha'⟩

/-- The node is one of the builder, and no constant. -/
structure Live (b : CircuitBuilder) (x : ℕ) : Prop where
  two_le : 2 ≤ x
  lt : x < b.feedId

theorem Live.of_extends (h : b.Live x) (hb : b.Extends b') :
    b'.Live x := ⟨h.two_le, h.lt.trans_le hb.le⟩

theorem live_pair (hx : b.Live x) (hy : b.Live y) : ∀ i ∈ [x, y], b.Live i :=
  List.forall_mem_cons.mpr ⟨hx, List.forall_mem_singleton.mpr hy⟩

/-! ### Builders in order -/

/-- The inputs come first, every gate writes the next feed, and reads feeds before it that are no
constants. -/
structure Ordered (b : CircuitBuilder) (n : ℕ) : Prop where
  inputs : b.inputs = List.range' 2 n
  feedId : b.feedId = 2 + n + b.gates.length
  writes : b.gates.map Gate.z = List.range' (2 + n) b.gates.length
  reads : ∀ gate ∈ b.gates, ∀ i ∈ gate.reads, 2 ≤ i ∧ i < gate.z

namespace Ordered

/-- Different outputs that gates write. -/
structure Outputs (b : CircuitBuilder) (n : ℕ) : Prop where
  nodup : b.outputs.Nodup
  mem : ∀ i ∈ b.outputs, 2 + n ≤ i ∧ i < b.feedId

/-- Gates that write the next feeds read what is known, where all feeds below are. -/
theorem gatesRead {known : List ℕ} {k : ℕ} {gates : List Gate}
    (hz : gates.map Gate.z = List.range' k gates.length)
    (hr : ∀ gate ∈ gates, ∀ i ∈ gate.reads, 2 ≤ i ∧ i < gate.z)
    (hknown : ∀ i, 2 ≤ i → i < k → i ∈ known) : GatesRead known gates := by
  induction gates generalizing known k with
  | nil => trivial
  | cons gate gates ih =>
    rw [List.map_cons, List.length_cons, List.range'_succ, List.cons.injEq] at hz
    obtain ⟨rfl, hz⟩ := hz
    refine ⟨fun i hi => ?_, ih hz (fun g hg => hr g (List.mem_cons_of_mem _ hg)) fun i hi hlt => ?_⟩
    · obtain ⟨htwo, hlt⟩ := hr gate List.mem_cons_self i hi
      exact hknown i htwo hlt
    · rcases Nat.lt_succ_iff_lt_or_eq.mp hlt with hlt | rfl
      · exact List.mem_cons_of_mem _ (hknown i hi hlt)
      · exact List.mem_cons_self

theorem linked (h : b.Ordered n) : b.Linked where
  perm := by
    rw [h.inputs, h.writes, List.range'_append_1, h.feedId, Nat.add_assoc, Nat.add_sub_cancel_left]
  reads := gatesRead h.writes h.reads fun i hi hlt => by
    rw [h.inputs]
    exact List.mem_range'_1.mpr ⟨hi, hlt⟩

theorem Outputs.written (ho : Outputs b n) (h : b.Ordered n) : b.Written where
  nodup := ho.nodup
  mem i hi := by
    rw [h.writes, List.mem_range'_1, ← h.feedId]
    exact ho.mem i hi

/-- **What the circuit evaluates to** is what the outputs of the builder come to be. -/
theorem evaluate_build (h : b.Ordered n) (ho : Outputs b n) {bits : List Bool}
    (hbits : bits.length = n) :
    ∃ circ, b.build = .ok circ ∧
      circ.evaluate bits = .ok (b.outputs.map (b.value fun i => bits.getD (i - 2) false)) := by
  have hbuild := h.linked.build_eq (ho.written h)
  refine ⟨_, hbuild, h.linked.evaluate_build (ho.written h) hbuild ?_ fun k i hk => ?_⟩
  · rw [h.inputs, List.length_range', hbits]
  · rw [h.inputs] at hk
    obtain ⟨hlt, rfl⟩ := List.getElem?_eq_some_iff.mp hk
    rw [List.getElem_range', Nat.one_mul, Nat.add_sub_cancel_left]

end Ordered

/-- The builder is in order, and has no outputs so far. -/
structure Building (b : CircuitBuilder) (n : ℕ) : Prop where
  ordered : b.Ordered n
  outputs : b.outputs = []

namespace Building

/-- A gate on live nodes writes the next feed. -/
theorem addGate (h : Building b n) {gate : ℕ → Gate} (hz : ∀ z, (gate z).z = z)
    (hreads : ∀ z, ∀ i ∈ (gate z).reads, b.Live i) :
    Gives (addGate gate hz : Method CircuitBuilder ε ℕ) b fun z b' =>
      Building b' n ∧ b.feedId ≤ z ∧ z < b'.feedId := by
  obtain ⟨z, b', hrun, hext, -⟩ := gives_addGate (b := b) (ε := ε) hz
  refine ⟨z, b', hrun, hext, ?_⟩
  obtain ⟨heq, rfl⟩ := Prod.mk.inj hrun
  obtain rfl := Outcome.ok.inj heq
  refine ⟨⟨⟨h.ordered.inputs, ?_, ?_, ?_⟩, h.outputs⟩, le_rfl, Nat.lt_succ_self _⟩
  · show b.feedId + 1 = 2 + n + (b.gates ++ [gate b.feedId]).length
    rw [List.length_append, List.length_singleton, h.ordered.feedId, Nat.add_assoc]
  · show (b.gates ++ [gate b.feedId]).map Gate.z =
      List.range' (2 + n) (b.gates ++ [gate b.feedId]).length
    rw [List.map_append, h.ordered.writes, List.length_append, List.length_singleton,
      List.range'_1_concat, List.map_singleton, hz, h.ordered.feedId]
  · intro g hg i hi
    rcases List.mem_append.mp hg with hg | hg
    · exact h.ordered.reads g hg i hi
    · obtain rfl := List.mem_singleton.mp hg
      exact ⟨(hreads _ i hi).two_le, (hz b.feedId).symm ▸ (hreads _ i hi).lt⟩

/-- A counter says nothing about the order. -/
theorem count (h : Building b n) {f : CircuitBuilder → CircuitBuilder}
    (hf : ∀ b, (f b).feedId = b.feedId ∧ (f b).gates = b.gates ∧ (f b).inputs = b.inputs ∧
      (f b).outputs = b.outputs)
    {z k : ℕ} (hk : k ≤ z) (hz : z < b.feedId) :
    Gives (do Method.modify f; return z : Method CircuitBuilder ε ℕ) b fun z b' =>
      Building b' n ∧ k ≤ z ∧ z < b'.feedId := by
  obtain ⟨hfeed, hgates, hinputs, houtputs⟩ := hf b
  refine ⟨z, f b, rfl, ⟨hfeed.ge, fun v i _ => by rw [value, hgates, value]⟩,
    ⟨⟨?_, ?_, ?_, ?_⟩, ?_⟩, hk, hfeed.symm ▸ hz⟩
  · exact hinputs.trans h.ordered.inputs
  · rw [hfeed, hgates, h.ordered.feedId]
  · rw [hgates, h.ordered.writes]
  · rw [hgates]
    exact h.ordered.reads
  · exact houtputs.trans h.outputs

theorem addXorGate (h : Building b n) (hx : b.Live x) (hy : b.Live y) :
    Gives (addXorGate x y : Method CircuitBuilder ε ℕ) b fun z b' =>
      Building b' n ∧ b.feedId ≤ z ∧ z < b'.feedId := by
  have hx2 := hx.two_le
  have hy2 := hy.two_le
  rw [CircuitBuilder.addXorGate, if_neg (by omega), if_neg (by omega), if_neg (by omega),
    if_neg (by omega), if_neg (by omega)]
  refine (h.addGate (fun _ => rfl) fun _ => ?_).bind fun z b₁ h₁ hz => ?_
  · exact live_pair hx hy
  · refine hz.1.count ?_ hz.2.1 hz.2.2
    exact fun _ => ⟨rfl, rfl, rfl, rfl⟩

theorem addAndGate (h : Building b n) (hx : b.Live x) (hy : b.Live y) :
    Gives (addAndGate x y : Method CircuitBuilder ε ℕ) b fun z b' =>
      Building b' n ∧ b.feedId ≤ z ∧ z < b'.feedId := by
  have hx2 := hx.two_le
  have hy2 := hy.two_le
  rw [CircuitBuilder.addAndGate, if_neg (by omega), if_neg (by omega), if_neg (by omega)]
  refine (h.addGate (fun _ => rfl) fun _ => ?_).bind fun z b₁ h₁ hz => ?_
  · exact live_pair hx hy
  · refine hz.1.count ?_ hz.2.1 hz.2.2
    exact fun _ => ⟨rfl, rfl, rfl, rfl⟩

/-- A node behind a builder is live. -/
theorem live_of_le {z : ℕ} (hz : b.feedId ≤ z) (hlt : z < b'.feedId) :
    b'.Live z := ⟨b.two_le.trans hz, hlt⟩

/-! ### Additions -/

theorem fullAdder (h : Building b n) (hx : b.Live x) (hy : b.Live y) (hc : b.Live c) :
    Gives (fullAdder x y c : Method CircuitBuilder ε (ℕ × ℕ)) b fun out b' =>
      Building b' n ∧ b'.Live out.1 ∧ b'.Live out.2 := by
  refine (h.addXorGate hx hy).bind fun ab b₁ h₁ hab => ?_
  have hx := hx.of_extends h₁
  have hy := hy.of_extends h₁
  have hc := hc.of_extends h₁
  refine (hab.1.addXorGate (live_of_le hab.2.1 hab.2.2) hc).bind fun sum b₂ h₂ hsum => ?_
  have hx := hx.of_extends h₂
  have hy := hy.of_extends h₂
  have hc := hc.of_extends h₂
  refine (hsum.1.addXorGate hx hc).bind fun acIn b₃ h₃ hac => ?_
  have hc := hc.of_extends h₃
  refine (hac.1.addXorGate (hy.of_extends h₃) hc).bind fun bcIn b₄ h₄ hbc => ?_
  have hc := hc.of_extends h₄
  refine (hbc.1.addAndGate ((live_of_le hac.2.1 hac.2.2).of_extends h₄)
    (live_of_le hbc.2.1 hbc.2.2)).bind
    fun and b₅ h₅ hand => ?_
  refine (hand.1.addXorGate (live_of_le hand.2.1 hand.2.2) (hc.of_extends h₅)).bind
    fun cOut b₆ h₆ hout => ?_
  exact .pure ⟨hout.1, ((((live_of_le hsum.2.1 hsum.2.2).of_extends h₃).of_extends h₄).of_extends
    h₅).of_extends h₆,
    live_of_le hout.2.1 hout.2.2⟩

theorem fullAdderNoCarryOut (h : Building b n) (hx : b.Live x) (hy : b.Live y) (hc : b.Live c) :
    Gives (fullAdderNoCarryOut x y c : Method CircuitBuilder ε ℕ) b fun out b' => Building b' n ∧
      b'.Live out := by
  refine (h.addXorGate hx hy).bind fun ab b₁ h₁ hab => ?_
  refine (hab.1.addXorGate (live_of_le hab.2.1 hab.2.2) (hc.of_extends h₁)).mono
    fun out b₂ _ hout => ?_
  exact ⟨hout.1, live_of_le hout.2.1 hout.2.2⟩

theorem halfAdder (h : Building b n) (hx : b.Live x) (hy : b.Live y) :
    Gives (halfAdder x y : Method CircuitBuilder ε (ℕ × ℕ)) b fun out b' =>
      Building b' n ∧ b'.Live out.1 ∧ b'.Live out.2 := by
  refine (h.addXorGate hx hy).bind fun sum b₁ h₁ hsum => ?_
  refine (hsum.1.addAndGate (hx.of_extends h₁) (hy.of_extends h₁)).bind fun cOut b₂ h₂ hout => ?_
  exact .pure ⟨hout.1, (live_of_le hsum.2.1 hsum.2.2).of_extends h₂, live_of_le hout.2.1 hout.2.2⟩

/-- The adder of a position. The first one has no carry in. -/
theorem wrappingAddAt (h : Building b n) {len k : ℕ} (hx : b.Live x) (hy : b.Live y)
    (hc : k ≠ 0 → b.Live c) :
    Gives (wrappingAddAt len k c x y : Method CircuitBuilder ε (ℕ × ℕ)) b fun out b' =>
      Building b' n ∧ b'.Live out.1 ∧ b'.Live out.2 := by
  unfold Mpz.wrappingAddAt
  split
  case isTrue => exact h.halfAdder hx hy
  case isFalse hk =>
    split
    case isTrue => exact h.fullAdder hx hy (hc hk)
    case isFalse =>
      refine (h.fullAdderNoCarryOut hx hy (hc hk)).bind fun sum b₁ h₁ hsum => ?_
      exact .pure ⟨hsum.1, hsum.2, (hc hk).of_extends h₁⟩

theorem wrappingAddFrom (h : Building b n) {len k : ℕ} (hx : ∀ x ∈ xs, b.Live x)
    (hy : ∀ y ∈ ys, b.Live y) (hc : k ≠ 0 → b.Live c) :
    Gives (wrappingAddFrom len k c xs ys : Method CircuitBuilder ε (List ℕ)) b fun zs b' =>
      Building b' n ∧ (∀ z ∈ zs, b'.Live z) := by
  induction xs generalizing b k c ys with
  | nil =>
    unfold Mpz.wrappingAddFrom
    exact .pure ⟨h, fun z hz => absurd hz List.not_mem_nil⟩
  | cons x xs ih =>
    cases ys with
    | nil =>
      unfold Mpz.wrappingAddFrom
      exact .pure ⟨h, fun z hz => absurd hz List.not_mem_nil⟩
    | cons y ys =>
      obtain ⟨hx, hxs⟩ := List.forall_mem_cons.mp hx
      obtain ⟨hy, hys⟩ := List.forall_mem_cons.mp hy
      unfold Mpz.wrappingAddFrom
      refine (h.wrappingAddAt hx hy hc).bind fun out b₁ h₁ hout => ?_
      refine (ih hout.1 (fun x hx => (hxs x hx).of_extends h₁)
        (fun y hy => (hys y hy).of_extends h₁)
        fun _ => hout.2.2).bind fun zs b₂ h₂ hzs => ?_
      exact .pure ⟨hzs.1, List.forall_mem_cons.mpr ⟨hout.2.1.of_extends h₂, hzs.2⟩⟩

/-- **An addition** of live nodes. -/
theorem wrappingAdd (h : Building b n) (hx : ∀ x ∈ xs, b.Live x) (hy : ∀ y ∈ ys, b.Live y)
    (hxy : xs.length = ys.length) :
    Gives (wrappingAdd xs ys : Method CircuitBuilder ε (List ℕ)) b fun zs b' =>
      Building b' n ∧ ∀ z ∈ zs, b'.Live z := by
  unfold Mpz.wrappingAdd
  rw [if_neg (not_not.mpr hxy)]
  exact h.wrappingAddFrom hx hy fun h0 => absurd rfl h0

end Building

end CircuitBuilder

end Mpz
