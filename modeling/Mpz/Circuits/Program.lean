import Mpz.Circuits.Interleaved
import Mpz.Circuits.Live

/-!
# Programs of a builder

A program is a sequence of calls of a builder. Its operands are nodes that the builder gave back
before, or constants. What a call means on bits is plain: an input takes the next bit, a gate
computes, an output gives a value. A circuit that is built from a program means the same, where its
outputs are nodes that different gates write.

## Main definitions

* `CircuitBuilder.Request`, `CircuitBuilder.Program` — calls, and the builder with the nodes it gave
  back
* `CircuitBuilder.Meaning` — the values of the nodes, and of the outputs

## Main results

* `CircuitBuilder.Simulates.next` — a call means what the builder does
* `CircuitBuilder.build_means` — a built circuit is well formed, and evaluates to what its program
  means
-/

namespace Mpz

namespace CircuitBuilder

/-- The calls of a builder. A node is named by its place among those that were given back; the first
two are the constants. -/
inductive Request where
  /-- `add_input` -/
  | addInput
  /-- `add_xor_gate` -/
  | addXorGate (x y : ℕ)
  /-- `add_and_gate` -/
  | addAndGate (x y : ℕ)
  /-- `add_inv_gate` -/
  | addInvGate (x : ℕ)
  /-- `add_id_gate` -/
  | addIdGate (x : ℕ)
  /-- `add_output` -/
  | addOutput (node : ℕ)
  deriving DecidableEq, Repr

/-- A builder, with the nodes that its caller has. -/
structure Program where
  /-- The builder. -/
  builder : CircuitBuilder
  /-- The nodes. -/
  nodes : List ℕ

namespace Program

/-- A new builder. The caller has the constants. -/
def new : Program := ⟨.new, [getConstZero, getConstOne]⟩

/-- A call that gives back a node. -/
def add (self : Program) (m : Method CircuitBuilder Empty ℕ) : Option Program :=
  match m self.builder with
  | (.ok node, builder) => some ⟨builder, self.nodes ++ [node]⟩
  | _ => none

/-- One call, on nodes that the caller has. -/
def next (self : Program) : Request → Option Program
  | .addInput => self.add CircuitBuilder.addInput
  | .addXorGate j k => do self.add (CircuitBuilder.addXorGate (← self.nodes[j]?) (← self.nodes[k]?))
  | .addAndGate j k => do self.add (CircuitBuilder.addAndGate (← self.nodes[j]?) (← self.nodes[k]?))
  | .addInvGate j => do self.add (CircuitBuilder.addInvGate (← self.nodes[j]?))
  | .addIdGate j => do self.add (CircuitBuilder.addIdGate (← self.nodes[j]?))
  | .addOutput j => do
    let node ← self.nodes[j]?
    let m : Method CircuitBuilder Empty Unit := CircuitBuilder.addOutput node
    return { self with builder := (m self.builder).2 }

end Program

/-- What the calls so far mean. -/
structure Meaning where
  /-- The values of the nodes. -/
  values : List Bool
  /-- The number of inputs. -/
  inputs : ℕ
  /-- The values of the outputs. -/
  outputs : List Bool
  deriving DecidableEq, Repr

namespace Meaning

/-- Before any call. -/
def new : Meaning := ⟨[false, true], 0, []⟩

/-- A node with a value. -/
def add (self : Meaning) (value : Bool) : Meaning := { self with values := self.values ++ [value] }

/-- What one call means. -/
def next (bits : List Bool) (self : Meaning) : Request → Option Meaning
  | .addInput => some { self.add (bits.getD self.inputs false) with inputs := self.inputs + 1 }
  | .addXorGate j k => do return self.add ((← self.values[j]?) ^^ (← self.values[k]?))
  | .addAndGate j k => do return self.add ((← self.values[j]?) && (← self.values[k]?))
  | .addInvGate j => do return self.add !(← self.values[j]?)
  | .addIdGate j => do return self.add (← self.values[j]?)
  | .addOutput j => do return { self with outputs := self.outputs ++ [← self.values[j]?] }

end Meaning

/-! ### What calls keep -/

variable {b b' : CircuitBuilder} {x y z : ℕ} {v : ℕ → Bool}

/-- The builder goes on by a gate, or none. -/
structure Kept (b b' : CircuitBuilder) : Prop where
  wired : b'.Wired
  inputs : b'.inputs = b.inputs
  outputs : b'.outputs = b.outputs

theorem Wired.kept (h : b.Wired) : b.Kept b := ⟨h, rfl, rfl⟩

theorem Wired.new : CircuitBuilder.new.Wired := ⟨.nil, trivial, rfl⟩

theorem Wired.live_mem (h : b.Wired) (hx : b.Live x) : x ∈ b.inputs ∨ x ∈ b.gates.map Gate.z := by
  refine List.mem_append.mp (h.perm.mem_iff.mpr (List.mem_range'_1.mpr ?_))
  have := hx.two_le
  have := hx.lt
  omega

/-- One more feed. -/
theorem range'_feedId (b : CircuitBuilder) :
    List.range' 2 (b.feedId + 1 - 2) = List.range' 2 (b.feedId - 2) ++ [b.feedId] := by
  have htwo := b.two_le
  have hsub : b.feedId + 1 - 2 = b.feedId - 2 + 1 := by omega
  have hlast : 2 + (b.feedId - 2) = b.feedId := by omega
  rw [hsub, List.range'_1_concat, hlast]

/-- A gate that writes the next feed. -/
theorem Wired.concat (h : b.Wired) {gate : Gate} (hz : gate.z = b.feedId)
    (hreads : ∀ i ∈ gate.reads, b.Live i) :
    (b.inputs ++ (b.gates ++ [gate]).map Gate.z).Perm (List.range' 2 (b.feedId + 1 - 2)) ∧
      GatesRead b.inputs (b.gates ++ [gate]) := by
  refine ⟨?_, h.reads.concat fun i hi => h.live_mem (hreads i hi)⟩
  rw [range'_feedId, List.map_append, List.map_singleton, hz, ← List.append_assoc]
  exact h.perm.append_right _

/-- A gate that is no AND gate. -/
theorem Wired.kept_addGate (h : b.Wired) {gate : ℕ → Gate} {hz : ∀ z, (gate z).z = z}
    (hreads : ∀ i ∈ (gate b.feedId).reads, b.Live i) (hand : (gate b.feedId).isAnd = false)
    (hrun : (addGate gate hz : Method CircuitBuilder Empty ℕ) b = (.ok z, b')) : b.Kept b' := by
  obtain ⟨-, rfl⟩ := Prod.mk.inj hrun
  obtain ⟨hperm, hread⟩ := h.concat (hz b.feedId) hreads
  refine ⟨⟨hperm, hread, ?_⟩, rfl, rfl⟩
  show andGates (b.gates ++ [gate b.feedId]) = b.andCount
  rw [andGates, List.countP_append, List.countP_singleton, hand, ← h.andCount]
  rfl

theorem kept_pure (h : b.Wired) {a : ℕ}
    (hrun : (pure a : Method CircuitBuilder Empty ℕ) b = (.ok z, b')) :
    b.Kept b' := by
  obtain ⟨-, rfl⟩ := Prod.mk.inj hrun
  exact h.kept

theorem Holds.live {p : Bool} (h : b.Holds v x p) (hzero : x ≠ 0) (hone : x ≠ 1) : b.Live x :=
  ⟨by omega, h.lt⟩

theorem Wired.kept_addInv (h : b.Wired) (hx : b.Live x)
    (hrun : (addGate (.inv x) fun _ => rfl : Method CircuitBuilder Empty ℕ) b = (.ok z, b')) :
    b.Kept b' := by
  refine h.kept_addGate ?_ ?_ hrun
  · exact List.forall_mem_singleton.mpr hx
  · rfl

theorem Wired.kept_addXorGate (h : b.Wired) {p q : Bool} (hx : b.Holds v x p) (hy : b.Holds v y q)
    (hrun : (addXorGate x y : Method CircuitBuilder Empty ℕ) b = (.ok z, b')) : b.Kept b' := by
  unfold addXorGate at hrun
  split at hrun
  case isTrue => exact kept_pure h hrun
  split at hrun
  case isTrue => exact kept_pure h hrun
  split at hrun
  case isTrue => exact kept_pure h hrun
  split at hrun
  case isTrue hzero hx0 hy0 hx1 => exact h.kept_addInv (hy.live hy0 (by omega)) hrun
  split at hrun
  case isTrue hzero hx0 hy0 hx1 hy1 => exact h.kept_addInv (hx.live hx0 hx1) hrun
  case isFalse hzero hx0 hy0 hx1 hy1 =>
    obtain ⟨-, rfl⟩ := Prod.mk.inj hrun
    have hreads : ∀ i ∈ (Gate.xor x y b.feedId).reads, b.Live i :=
      live_pair (hx.live hx0 hx1) (hy.live hy0 hy1)
    obtain ⟨hperm, hread⟩ := h.concat rfl hreads
    refine ⟨⟨hperm, hread, ?_⟩, rfl, rfl⟩
    show andGates (b.gates ++ [.xor x y b.feedId]) = b.andCount
    rw [andGates, List.countP_append, ← h.andCount]
    rfl

theorem Wired.kept_addAndGate (h : b.Wired) {p q : Bool} (hx : b.Holds v x p) (hy : b.Holds v y q)
    (hrun : (addAndGate x y : Method CircuitBuilder Empty ℕ) b = (.ok z, b')) : b.Kept b' := by
  unfold addAndGate at hrun
  split at hrun
  case isTrue => exact kept_pure h hrun
  split at hrun
  case isTrue => exact kept_pure h hrun
  split at hrun
  case isTrue => exact kept_pure h hrun
  case isFalse hzero hx1 hy1 =>
    obtain ⟨-, rfl⟩ := Prod.mk.inj hrun
    have hreads : ∀ i ∈ (Gate.and x y b.feedId).reads, b.Live i :=
      live_pair (hx.live (fun h => hzero (.inl h)) hx1) (hy.live (fun h => hzero (.inr h)) hy1)
    obtain ⟨hperm, hread⟩ := h.concat rfl hreads
    refine ⟨⟨hperm, hread, ?_⟩, rfl, rfl⟩
    show andGates (b.gates ++ [.and x y b.feedId]) = b.andCount + 1
    rw [andGates, List.countP_append, ← h.andCount]
    rfl

theorem Wired.kept_addInvGate (h : b.Wired) {p : Bool} (hx : b.Holds v x p)
    (hrun : (addInvGate x : Method CircuitBuilder Empty ℕ) b = (.ok z, b')) : b.Kept b' := by
  unfold addInvGate at hrun
  split at hrun
  case isTrue => exact kept_pure h hrun
  split at hrun
  case isTrue => exact kept_pure h hrun
  case isFalse hx0 hx1 => exact h.kept_addInv (hx.live hx0 hx1) hrun

theorem Wired.kept_addIdGate (h : b.Wired) {p : Bool} (hx : b.Holds v x p)
    (hrun : (addIdGate x : Method CircuitBuilder Empty ℕ) b = (.ok z, b')) : b.Kept b' := by
  unfold addIdGate at hrun
  split at hrun
  case isTrue => exact kept_pure h hrun
  split at hrun
  case isTrue => exact kept_pure h hrun
  case isFalse hx0 hx1 =>
    refine h.kept_addGate ?_ ?_ hrun
    · exact List.forall_mem_singleton.mpr (hx.live hx0 hx1)
    · rfl

/-! ### What calls mean -/

/-- The nodes and the outputs come to have their values. -/
structure Simulates (v : ℕ → Bool) (s : Program) (m : Meaning) : Prop where
  wired : s.builder.Wired
  nodes : List.Forall₂ (s.builder.Holds v) s.nodes m.values
  inputs : m.inputs = s.builder.inputs.length
  outputs : List.Forall₂ (s.builder.Holds v) s.builder.outputs m.outputs

namespace Simulates

variable {s s' : Program} {m : Meaning} {j k : ℕ}

theorem new (v : ℕ → Bool) : Simulates v .new .new :=
  ⟨.new, .cons (.zero .new v) (.cons (.one .new v) .nil), rfl, .nil⟩

/-- A node that the caller has comes to have its value. -/
theorem getElem? (h : Simulates v s m) {node : ℕ} (hnode : s.nodes[j]? = some node) :
    ∃ value, m.values[j]? = some value ∧ s.builder.Holds v node value := by
  obtain ⟨hj, rfl⟩ := List.getElem?_eq_some_iff.mp hnode
  have hj' : j < m.values.length := h.nodes.length_eq ▸ hj
  exact ⟨m.values[j], List.getElem?_eq_getElem hj', (List.forall₂_iff_get.mp h.nodes).2 j hj hj'⟩

/-- A gate gives back a node with a value. -/
theorem add (h : Simulates v s m) {call : Method CircuitBuilder Empty ℕ} {value : Bool}
    (hgives : Gives call s.builder fun z b' => b'.Holds v z value)
    (hkept : ∀ z b', call s.builder = (.ok z, b') → s.builder.Kept b')
    (hadd : s.add call = some s') :
    Simulates v s' (m.add value) := by
  obtain ⟨z, b', hrun, hext, hz⟩ := hgives
  rw [Program.add, hrun] at hadd
  obtain rfl := Option.some.inj hadd
  obtain ⟨hwired, hinputs, houtputs⟩ := hkept z b' hrun
  refine ⟨hwired, ?_, h.inputs.trans (congrArg List.length hinputs.symm), ?_⟩
  · exact List.rel_append (h.nodes.imp fun _ _ hx => hx.of_extends hext) (.cons hz .nil)
  · show List.Forall₂ _ b'.outputs m.outputs
    rw [houtputs]
    exact h.outputs.imp fun _ _ hx => hx.of_extends hext

/-- An input takes the next bit. -/
theorem addInput (h : Simulates v s m) {bits : List Bool}
    (hadd : s.add CircuitBuilder.addInput = some s')
    (hv : ∀ k i, s'.builder.inputs[k]? = some i → v i = bits.getD k false) :
    Simulates v s' { m.add (bits.getD m.inputs false) with inputs := m.inputs + 1 } := by
  obtain rfl := Option.some.inj hadd
  let b := s.builder
  have hvalue : ∀ w i, (b.gates.foldl Gate.write (constants w)) i = b.value w i := fun _ _ => rfl
  have hext : b.Extends ((CircuitBuilder.addInput : Method CircuitBuilder Empty ℕ) b).2 :=
    ⟨Nat.le_succ _, fun w i _ => hvalue w i⟩
  have hbit : v b.feedId = bits.getD m.inputs false := by
    refine hv m.inputs b.feedId ?_
    show (b.inputs ++ [b.feedId])[m.inputs]? = some b.feedId
    rw [h.inputs, List.getElem?_concat_length]
  refine ⟨⟨?_, h.wired.reads.mono (List.subset_append_left _ _), h.wired.andCount⟩, ?_, ?_, ?_⟩
  · show (b.inputs ++ [b.feedId] ++ b.gates.map Gate.z).Perm (List.range' 2 (b.feedId + 1 - 2))
    rw [range'_feedId, List.append_assoc]
    exact (List.perm_append_comm.append_left _).trans (by
      rw [← List.append_assoc]
      exact h.wired.perm.append_right _)
  · refine List.rel_append (h.nodes.imp fun _ _ hx => hx.of_extends hext)
      (.cons ⟨Nat.lt_succ_self _, ?_⟩ .nil)
    show b.gates.foldl Gate.write (constants v) b.feedId = bits.getD m.inputs false
    have hne : ∀ gate ∈ b.gates, b.feedId ≠ gate.z := fun gate hgate => (b.writes gate hgate).2.ne'
    rw [foldl_write_of_ne hne, constants_of_le b.two_le, hbit]
  · show m.inputs + 1 = (b.inputs ++ [b.feedId]).length
    rw [h.inputs, List.length_append, List.length_singleton]
  · exact h.outputs.imp fun _ _ hx => hx.of_extends hext

/-- An output has the value of its node. -/
theorem addOutput (h : Simulates v s m) {node : ℕ} {value : Bool}
    (hnode : s.builder.Holds v node value) :
    Simulates v { s with builder :=
      ((CircuitBuilder.addOutput node : Method CircuitBuilder Empty Unit) s.builder).2 }
      { m with outputs := m.outputs ++ [value] } := by
  have hext : s.builder.Extends
      ((CircuitBuilder.addOutput node : Method CircuitBuilder Empty Unit) s.builder).2 :=
    ⟨le_rfl, fun _ _ _ => rfl⟩
  exact ⟨⟨h.wired.perm, h.wired.reads, h.wired.andCount⟩, h.nodes.imp fun _ _ hx =>
    hx.of_extends hext, h.inputs, List.rel_append (h.outputs.imp fun _ _ hx => hx.of_extends hext)
      (.cons (hnode.of_extends hext) .nil)⟩

/-- The outputs are what their nodes come to be. -/
theorem outputs_eq (h : Simulates v s m) :
    m.outputs = s.builder.outputs.map (s.builder.value v) := by
  refine List.ext_getElem (by simpa using h.outputs.length_eq.symm) fun k hk hk' => ?_
  rw [List.getElem_map]
  exact ((List.forall₂_iff_get.mp h.outputs).2 k (by simpa using hk') hk).value.symm

/-- **A call means what the builder does.** -/
theorem next (h : Simulates v s m) {bits : List Bool} {request : Request}
    (hnext : s.next request = some s')
    (hv : ∀ k i, s'.builder.inputs[k]? = some i → v i = bits.getD k false) :
    ∃ m', m.next bits request = some m' ∧ Simulates v s' m' := by
  cases request with
  | addInput => exact ⟨_, rfl, h.addInput hnext hv⟩
  | addXorGate j k =>
    simp only [Program.next, Option.bind_eq_bind, Option.bind_eq_some_iff] at hnext
    obtain ⟨x, hx, y, hy, hadd⟩ := hnext
    obtain ⟨p, hp, hx⟩ := h.getElem? hx
    obtain ⟨q, hq, hy⟩ := h.getElem? hy
    refine ⟨m.add (p ^^ q), by simp [Meaning.next, hp, hq], ?_⟩
    exact h.add (gives_addXorGate hx hy) (fun _ _ => h.wired.kept_addXorGate hx hy) hadd
  | addAndGate j k =>
    simp only [Program.next, Option.bind_eq_bind, Option.bind_eq_some_iff] at hnext
    obtain ⟨x, hx, y, hy, hadd⟩ := hnext
    obtain ⟨p, hp, hx⟩ := h.getElem? hx
    obtain ⟨q, hq, hy⟩ := h.getElem? hy
    refine ⟨m.add (p && q), by simp [Meaning.next, hp, hq], ?_⟩
    exact h.add (gives_addAndGate hx hy) (fun _ _ => h.wired.kept_addAndGate hx hy) hadd
  | addInvGate j =>
    simp only [Program.next, Option.bind_eq_bind, Option.bind_eq_some_iff] at hnext
    obtain ⟨x, hx, hadd⟩ := hnext
    obtain ⟨p, hp, hx⟩ := h.getElem? hx
    refine ⟨m.add !p, by simp [Meaning.next, hp], ?_⟩
    exact h.add (gives_addInvGate hx) (fun _ _ => h.wired.kept_addInvGate hx) hadd
  | addIdGate j =>
    simp only [Program.next, Option.bind_eq_bind, Option.bind_eq_some_iff] at hnext
    obtain ⟨x, hx, hadd⟩ := hnext
    obtain ⟨p, hp, hx⟩ := h.getElem? hx
    refine ⟨m.add p, by simp [Meaning.next, hp], ?_⟩
    exact h.add (gives_addIdGate hx) (fun _ _ => h.wired.kept_addIdGate hx) hadd
  | addOutput j =>
    simp only [Program.next, Option.bind_eq_bind, Option.bind_eq_some_iff] at hnext
    obtain ⟨x, hx, hadd⟩ := hnext
    obtain ⟨p, hp, hx⟩ := h.getElem? hx
    obtain rfl := Option.some.inj hadd
    exact ⟨{ m with outputs := m.outputs ++ [p] }, by simp [Meaning.next, hp], h.addOutput hx⟩

end Simulates

/-! ### Runs of a program -/

section

variable {s s' : Program} {requests : List Request}

theorem Program.builder_of_add {m : Method CircuitBuilder Empty ℕ} (h : s.add m = some s') :
    s'.builder = (m s.builder).2 := by
  unfold Program.add at h
  split at h
  case h_1 node builder hrun =>
    obtain rfl := Option.some.inj h
    exact (congrArg Prod.snd hrun).symm
  case h_2 => cases h

/-- A call adds an input at the end, or none. -/
theorem Program.exists_inputs {request : Request} (h : s.next request = some s') :
    ∃ rest, s'.builder.inputs = s.builder.inputs ++ rest ∧ rest.length =
      [request].count .addInput := by
  cases request with
  | addInput =>
    rw [Program.builder_of_add (m := CircuitBuilder.addInput) h]
    exact ⟨[s.builder.feedId], rfl, rfl⟩
  | addXorGate j k =>
    simp only [Program.next, Option.bind_eq_bind, Option.bind_eq_some_iff] at h
    obtain ⟨x, -, y, -, hadd⟩ := h
    rw [Program.builder_of_add hadd]
    unfold addXorGate
    split_ifs <;> exact ⟨[], (List.append_nil _).symm, rfl⟩
  | addAndGate j k =>
    simp only [Program.next, Option.bind_eq_bind, Option.bind_eq_some_iff] at h
    obtain ⟨x, -, y, -, hadd⟩ := h
    rw [Program.builder_of_add hadd]
    unfold addAndGate
    split_ifs <;> exact ⟨[], (List.append_nil _).symm, rfl⟩
  | addInvGate j =>
    simp only [Program.next, Option.bind_eq_bind, Option.bind_eq_some_iff] at h
    obtain ⟨x, -, hadd⟩ := h
    rw [Program.builder_of_add hadd]
    unfold addInvGate
    split_ifs <;> exact ⟨[], (List.append_nil _).symm, rfl⟩
  | addIdGate j =>
    simp only [Program.next, Option.bind_eq_bind, Option.bind_eq_some_iff] at h
    obtain ⟨x, -, hadd⟩ := h
    rw [Program.builder_of_add hadd]
    unfold addIdGate
    split_ifs <;> exact ⟨[], (List.append_nil _).symm, rfl⟩
  | addOutput j =>
    simp only [Program.next, Option.bind_eq_bind, Option.bind_eq_some_iff] at h
    obtain ⟨x, -, hadd⟩ := h
    obtain rfl := Option.some.inj hadd
    exact ⟨[], (List.append_nil _).symm, rfl⟩

/-- **A program means what the builder does.** The induction is on the calls, the last one first. -/
theorem simulates_of_run (bits : List Bool) (hrun : requests.foldlM Program.next .new = some s)
    (hv : ∀ k i, s.builder.inputs[k]? = some i → v i = bits.getD k false) :
    ∃ m, requests.foldlM (Meaning.next bits) .new = some m ∧ Simulates v s m := by
  induction requests using List.reverseRecOn generalizing s with
  | nil =>
    obtain rfl := Option.some.inj hrun
    exact ⟨.new, rfl, .new v⟩
  | append_singleton requests request ih =>
    rw [List.foldlM_append, Option.bind_eq_bind, Option.bind_eq_some_iff] at hrun
    obtain ⟨s₀, hrun, hlast⟩ := hrun
    have hnext : s₀.next request = some s := by simpa using hlast
    obtain ⟨rest, hrest, -⟩ := Program.exists_inputs hnext
    obtain ⟨m₀, hm, hsim⟩ := ih hrun fun k i hk => hv k i (by
      rw [hrest, List.getElem?_append_left (List.getElem?_eq_some_iff.mp hk).1, hk])
    obtain ⟨m, hm', hsim'⟩ := hsim.next hnext hv
    refine ⟨m, ?_, hsim'⟩
    rw [List.foldlM_append, hm, Option.bind_eq_bind, Option.bind_some, List.foldlM_cons, hm',
      Option.bind_eq_bind, Option.bind_some]
    rfl

/-- There are as many inputs as calls that add one. -/
theorem length_inputs_of_run (hrun : requests.foldlM Program.next .new = some s) :
    s.builder.inputs.length = requests.count .addInput := by
  induction requests using List.reverseRecOn generalizing s with
  | nil =>
    obtain rfl := Option.some.inj hrun
    rfl
  | append_singleton requests request ih =>
    rw [List.foldlM_append, Option.bind_eq_bind, Option.bind_eq_some_iff] at hrun
    obtain ⟨s₀, hrun, hlast⟩ := hrun
    have hnext : s₀.next request = some s := by simpa using hlast
    obtain ⟨rest, hrest, hlen⟩ := Program.exists_inputs hnext
    rw [hrest, List.length_append, ih hrun, hlen, List.count_append]

/-- An assignment that gives the inputs some bits. -/
def assignment (b : CircuitBuilder) (bits : List Bool) (i : ℕ) :
    Bool := bits.getD (b.inputs.idxOf i) false

theorem Wired.assignment_eq {b : CircuitBuilder} (h : b.Wired) (bits : List Bool) :
    ∀ k i, b.inputs[k]? = some i → b.assignment bits i = bits.getD k false := by
  intro k i hk
  obtain ⟨hlt, rfl⟩ := List.getElem?_eq_some_iff.mp hk
  rw [assignment, (List.nodup_append.mp h.linked.nodup).1.idxOf_getElem k hlt]

/-- The builder of a program is wired, and its outputs are feeds. -/
theorem wired_of_run (hrun : requests.foldlM Program.next .new = some s) :
    s.builder.Wired ∧ ∀ i ∈ s.builder.outputs, i < s.builder.feedId := by
  obtain ⟨m, -, hsim⟩ := simulates_of_run (v := fun _ => false) [] hrun fun _ _ _ => rfl
  refine ⟨hsim.wired, fun i hi => ?_⟩
  obtain ⟨k, hk, rfl⟩ := List.getElem_of_mem hi
  exact ((List.forall₂_iff_get.mp hsim.outputs).2 k hk (hsim.outputs.length_eq ▸ hk)).lt

/-- The outputs are different nodes, and none is a constant or an input. -/
structure Proper (b : CircuitBuilder) : Prop where
  nodup : b.outputs.Nodup
  two_le : ∀ node ∈ b.outputs, 2 ≤ node
  not_input : ∀ node ∈ b.outputs, node ∉ b.inputs

theorem Proper.written (h : b.Proper) (hwired : b.Wired) (hlt : ∀ i ∈ b.outputs, i < b.feedId) :
    b.Written :=
  ⟨h.nodup, fun i hi => (hwired.live_mem ⟨h.two_le i hi, hlt i hi⟩).resolve_left (h.not_input i hi)⟩

end

/-- **A built circuit means what its program means**: it is well formed, its outputs are the last of
its feeds, and it evaluates to the values of the outputs, for every program, in whatever order it
adds inputs and gates, whose outputs are different nodes and neither constants nor inputs. -/
theorem build_means (requests : List Request) (s : Program)
    (hrun : requests.foldlM Program.next .new = some s) (hproper : s.builder.Proper) :
    ∃ circ, s.builder.build = .ok circ ∧ circ.WellFormed ∧ circ.outputs.stop = circ.feedCount ∧
      circ.inputs.len = requests.count .addInput ∧
      ∀ bits, bits.length = circ.inputs.len →
        ∃ m, requests.foldlM (Meaning.next bits) .new = some m ∧ circ.evaluate bits =
          .ok m.outputs := by
  obtain ⟨hwired, hlt⟩ := wired_of_run hrun
  have hwritten := hproper.written hwired hlt
  have hbuild := hwired.linked.build_eq hwritten
  refine ⟨_, hbuild, hwired.wellFormed hwritten hbuild, rfl, ?_, fun bits hbits => ?_⟩
  · exact length_inputs_of_run hrun
  · obtain ⟨m, hm, hsim⟩ := simulates_of_run bits hrun (hwired.assignment_eq bits)
    refine ⟨m, hm, ?_⟩
    rw [hwired.linked.evaluate_build hwritten hbuild hbits (hwired.assignment_eq bits),
      hsim.outputs_eq]

/-- An input between two gates, the first of which is folded. -/
def nandRequests : List Request :=
  [.addInput, .addAndGate 2 1, .addInput, .addAndGate 3 4, .addInvGate 5, .addOutput 6]

/-- Its output is a node that a gate writes. -/
theorem exists_nand : ∃ s, nandRequests.foldlM Program.next .new = some s ∧ s.builder.Proper := by
  obtain ⟨s, hrun⟩ : ∃ s, nandRequests.foldlM Program.next .new = some s := ⟨_, rfl⟩
  have hbuilder : s.builder.outputs = [5] ∧ s.builder.inputs = [2, 3] := by
    obtain rfl := Option.some.inj hrun
    exact ⟨rfl, rfl⟩
  refine ⟨s, hrun, ?_, ?_, ?_⟩ <;> simp [hbuilder]

/-- A program that adds an input after a gate. -/
theorem build_means_nand : ∃ s circ, nandRequests.foldlM Program.next .new = some s ∧
    s.builder.build = .ok circ ∧ circ.WellFormed ∧ circ.outputs.stop = circ.feedCount ∧
    circ.inputs.len = nandRequests.count .addInput ∧
      ∀ bits, bits.length = circ.inputs.len →
        ∃ m, nandRequests.foldlM (Meaning.next bits) .new = some m ∧ circ.evaluate bits =
          .ok m.outputs := by
  obtain ⟨s, hrun, hproper⟩ := exists_nand
  obtain ⟨circ, hcirc⟩ := build_means nandRequests s hrun hproper
  exact ⟨s, circ, hrun, hcirc⟩

example : nandRequests.foldlM (Meaning.next [true, false]) .new =
    some ⟨[false, true, true, true, false, false, true], 2, [true]⟩ := by decide

end CircuitBuilder

end Mpz
