import Mpz.IdealVm.Queue

/-!
# What ideal machines execute

A call is executed when its inputs are committed. Its inputs are then there and stay as they are, so
what the outputs hold is what the circuit makes of the inputs, then and later, and what the peer has
made of them.

## Main definitions

* `Done` — a call whose outputs are what its circuit makes of its inputs
* `VmStore.Extends` — what is committed stays so, and as it is
* `Vm.Inv` — what holds of a machine, with some calls taken from its stack
* `Agree`, `Pair` — what two machines agree on, and the two together

## Main results

* `Circuit.exists_evaluate` — a well-formed circuit is evaluated
* `Done.of_extends` — what was executed stays so
* `Pair.executeCall` — a call is executed, and to what the peer has
-/

namespace Mpz

namespace Circuit

theorem reads_lt {n : ℕ} {known : List ℕ} {gates : List Gate} (h : GatesRead known gates)
    (hknown : ∀ i ∈ known, i < n) (hz : ∀ g ∈ gates, g.z < n) :
    ∀ g ∈ gates, ∀ i ∈ g.reads, i < n := by
  induction gates generalizing known with
  | nil => simp
  | cons gate gates ih =>
    intro g hg
    rcases List.mem_cons.mp hg with rfl | hg
    · exact fun i hi => hknown i (h.1 i hi)
    · refine ih h.2 (fun i hi => ?_) (fun g hg => hz g (List.mem_cons_of_mem _ hg)) g hg
      rcases List.mem_cons.mp hi with rfl | hi
      · exact hz gate List.mem_cons_self
      · exact hknown i hi

theorem exists_evaluateGate {wires : List Bool} {gate : Gate} (hz : gate.z < wires.length)
    (hr : ∀ i ∈ gate.reads, i < wires.length) :
    ∃ wires', evaluateGate wires gate = some wires' ∧ wires'.length = wires.length := by
  cases gate with
  | xor x y z | and x y z =>
    have hx := List.getElem?_eq_getElem (hr x (by simp [Gate.reads]))
    have hy := List.getElem?_eq_getElem (hr y (by simp [Gate.reads]))
    refine ⟨_, by rw [evaluateGate, hx, hy]; exact writeAt_of_lt hz _, List.length_set ..⟩
  | inv x z | id x z =>
    have hx := List.getElem?_eq_getElem (hr x (by simp [Gate.reads]))
    refine ⟨_, by rw [evaluateGate, hx]; exact writeAt_of_lt hz _, List.length_set ..⟩

theorem exists_evaluateGates {gates : List Gate} {wires : List Bool}
    (h : ∀ g ∈ gates, g.z < wires.length ∧ ∀ i ∈ g.reads, i < wires.length) :
    ∃ wires', evaluateGates wires gates = some wires' ∧ wires'.length = wires.length := by
  induction gates generalizing wires with
  | nil => exact ⟨wires, rfl, rfl⟩
  | cons gate gates ih =>
    obtain ⟨hz, hr⟩ := h gate List.mem_cons_self
    obtain ⟨w, hw, hlen⟩ := exists_evaluateGate hz hr
    have hrest : ∀ g ∈ gates, g.z < w.length ∧ ∀ i ∈ g.reads, i < w.length := fun g hg => by
      rw [hlen]
      exact h g (List.mem_cons_of_mem _ hg)
    obtain ⟨w', hw', hlen'⟩ := ih hrest
    exact ⟨w', by rw [evaluateGates, hw]; exact hw', hlen'.trans hlen⟩

/-- **A circuit is evaluated on as many bits as it has inputs**, to as many as it has outputs. -/
theorem exists_evaluate {c : Circuit} (h : c.WellFormed) {input : List Bool}
    (hlen : input.length = c.inputs.len) :
    ∃ out, c.evaluate input = .ok out ∧ out.length = c.outputs.len := by
  have hle : 0 + input.length ≤ (List.replicate c.feedCount false).length := by
    rw [List.length_replicate, Nat.zero_add, hlen]
    exact h.inputs_le
  have hcopy := copyFrom_of_le hle
  have hfeeds := (length_of_copyFrom hcopy).trans List.length_replicate
  have hknown : ∀ i ∈ c.inputs.indices, i < c.feedCount := fun i hi =>
    List.mem_range.mp (h.writes.mem_iff.mp (List.mem_append_left _ hi))
  obtain ⟨w, hw, hwlen⟩ := exists_evaluateGates fun g hg => by
    rw [hfeeds]
    exact ⟨h.z_lt g hg, reads_lt h.reads hknown h.z_lt g hg⟩
  have hslice : slice w c.outputs = some _ :=
    slice_eq_some.mpr ⟨⟨h.outputs_le.1, by rw [hwlen, hfeeds]; exact h.outputs_le.2⟩, rfl⟩
  refine ⟨_, ?_, length_of_slice hslice⟩
  rw [evaluate_eq h hlen hcopy, hw, Option.bind_eq_bind, Option.bind_some, hslice,
    Outcome.ofOption_some]

end Circuit

namespace IdealVm

variable {dataStore dataStore' : BitStore} {slice : Slice} {slices : List Slice}

/-! ### Reading inputs -/

/-- The slice is there, and lies in the memory when it is empty. -/
def There (dataStore : BitStore) (slice : Slice) : Prop :=
  slice.toRange.toSet ⊆ dataStore.set ∧ (slice.size = 0 → slice.ptr ≤ dataStore.items.length)

theorem tryGet_congr (h : There dataStore slice) (h' : There dataStore' slice)
    (hcell : ∀ i ∈ slice.toRange.toSet, dataStore'.cell i = dataStore.cell i) :
    dataStore'.tryGet slice = dataStore.tryGet slice := by
  obtain ⟨data, hget⟩ := exists_tryGet h.1 h.2
  obtain ⟨data', hget'⟩ := exists_tryGet h'.1 h'.2
  obtain ⟨hlen, -, hall⟩ := getElem?_of_tryGet hget
  obtain ⟨hlen', -, hall'⟩ := getElem?_of_tryGet hget'
  rw [hget, hget']
  congr 1
  refine List.ext_getElem? fun j => ?_
  by_cases hj : j < slice.size
  · rw [hall j hj, hall' j hj]
    refine hcell _ ?_
    rw [Slice.mem_toRange]
    omega
  · rw [List.getElem?_eq_none (by omega), List.getElem?_eq_none (by omega)]

theorem readInputs_congr (h : ∀ slice ∈ slices, There dataStore slice ∧ There dataStore' slice ∧
      ∀ i ∈ slice.toRange.toSet, dataStore'.cell i = dataStore.cell i) :
    Vm.readInputs dataStore' slices = Vm.readInputs dataStore slices := by
  induction slices with
  | nil => rfl
  | cons slice slices ih =>
    obtain ⟨hs, hs', hcell⟩ := h slice List.mem_cons_self
    rw [Vm.readInputs, Vm.readInputs, tryGet_congr hs hs' hcell,
      ih fun s hs => h s (List.mem_cons_of_mem _ hs)]

theorem exists_readInputs (h : ∀ slice ∈ slices, There dataStore slice) :
    ∃ bits, Vm.readInputs dataStore slices = some bits ∧ bits.length =
      (slices.map Slice.size).sum := by
  induction slices with
  | nil => exact ⟨[], rfl, rfl⟩
  | cons slice slices ih =>
    obtain ⟨hsub, hle⟩ := h slice List.mem_cons_self
    obtain ⟨data, hget⟩ := exists_tryGet hsub hle
    obtain ⟨rest, hrest, hlen⟩ := ih fun s hs => h s (List.mem_cons_of_mem _ hs)
    refine ⟨data ++ rest, by simp [Vm.readInputs, hget, hrest], ?_⟩
    rw [List.length_append, (getElem?_of_tryGet hget).1, hlen, List.map_cons, List.sum_cons]

/-! ### Calls that were executed -/

/-- The index is committed, as input or as output. -/
def VmStore.Committed (s : VmStore) (i : ℕ) : Prop :=
  i ∈ s.view.input.complete ∨ i ∈ s.view.output.complete

/-- The inputs of the call are committed, and the outputs hold what the circuit makes of them. -/
structure Done (s : VmStore) (call : Call) (output : Slice) : Prop where
  inputs : ∀ slice ∈ call.inputs, s.view.isCommitted slice.toRange = true
  value : ∃ bits out, Vm.readInputs s.dataStore call.inputs = some bits ∧
    call.circ.evaluate bits = .ok out ∧ out.length = output.size ∧
    ∀ j < output.size, s.dataStore.cell (output.ptr + j) = out[j]?

variable {s s' : VmStore} {call : Call}

theorem VmStore.committed_of_isCommitted (h : s.view.isCommitted slice.toRange = true) {i : ℕ}
    (hi : i ∈ slice.toRange.toSet) : s.Committed i := by
  rw [View.isCommitted, Bool.or_eq_true, decide_eq_true_eq, decide_eq_true_eq] at h
  exact h.imp (fun h => h hi) fun h => h hi

/-- What is committed is there. -/
theorem VmStore.At.set_of_committed {i : ℕ} (h : s.At i) (hi : s.Committed i) :
    i ∈ s.dataStore.set := by
  rcases hi with hi | hi
  · exact (h.complete hi).2
  · exact (h.out_set (h.out_complete hi)).mp hi

/-- The store goes on: what is committed stays so, and as it is. -/
structure VmStore.Extends (s s' : VmStore) : Prop where
  length : s.dataStore.items.length ≤ s'.dataStore.items.length
  input : s.view.input.complete ⊆ s'.view.input.complete
  output : s.view.output.complete ⊆ s'.view.output.complete
  cell : ∀ i, s.Committed i → s'.dataStore.cell i = s.dataStore.cell i

theorem VmStore.Extends.isCommitted (h : s.Extends s') {range : Range}
    (hc : s.view.isCommitted range = true) : s'.view.isCommitted range = true := by
  rw [View.isCommitted, Bool.or_eq_true, decide_eq_true_eq, decide_eq_true_eq] at hc ⊢
  exact hc.imp (fun hc => hc.trans h.input) fun hc => hc.trans h.output

theorem VmStore.Extends.there (h : s.Extends s') (hs : ∀ i, s.At i)
    (hc : s.view.isCommitted slice.toRange = true)
    (hle : slice.size = 0 → slice.ptr ≤ s.dataStore.items.length) :
    There s.dataStore slice ∧ There s'.dataStore slice ∧
      ∀ i ∈ slice.toRange.toSet, s'.dataStore.cell i = s.dataStore.cell i := by
  have hset : slice.toRange.toSet ⊆ s.dataStore.set := fun i hi =>
    (hs i).set_of_committed (committed_of_isCommitted hc hi)
  have hcell : ∀ i ∈ slice.toRange.toSet, s'.dataStore.cell i = s.dataStore.cell i := fun i hi =>
    h.cell i (committed_of_isCommitted hc hi)
  refine ⟨⟨hset, hle⟩, ⟨fun i hi => ?_, fun hzero => (hle hzero).trans h.length⟩, hcell⟩
  rw [← Store.cell_isSome, hcell i hi, Store.cell_isSome]
  exact hset hi

/-- **What was executed stays so**, when the store goes on. -/
theorem Done.of_extends {output : Slice} (hd : Done s call output) (h : s.Extends s')
    (hs : ∀ i, s.At i) (hout : output.toRange.toSet ⊆ s.view.output.complete)
    (hle : ∀ slice ∈ call.inputs, slice.size = 0 → slice.ptr ≤ s.dataStore.items.length) :
    Done s' call output := by
  obtain ⟨bits, out, hbits, heval, hlen, hcells⟩ := hd.value
  refine ⟨fun slice hslice => h.isCommitted (hd.inputs slice hslice), bits, out, ?_, heval, hlen,
    fun j hj => ?_⟩
  · rw [readInputs_congr fun slice hslice =>
      h.there hs (hd.inputs slice hslice) (hle slice hslice), hbits]
  · rw [h.cell _ (.inr (hout ?_)), hcells j hj]
    rw [Slice.mem_toRange]
    omega

/-! ### The machines -/


/-- What holds of a machine when the calls `hand` were taken from its stack, and are not
executed. -/
structure Vm.Inv (hand : List (ℕ × Call × Slice)) (vm : Vm) : Prop where
  len : vm.store.dataStore.items.length = vm.store.view.len
  pending : vm.store.pending = false
  sets : ∀ i, vm.store.At i
  queued : vm.store.Queued
  resolved : vm.store.Resolved
  calls : ∀ p ∈ vm.calls, p.2.size = p.1.circ.outputs.len ∧
    p.2.toRange.toSet ⊆ vm.store.view.output.all ∧
    ∀ slice ∈ p.1.inputs, slice.size = 0 → slice.ptr ≤ vm.store.dataStore.items.length
  disjoint : vm.calls.Pairwise fun p q => Disjoint p.2.toRange.toSet q.2.toRange.toSet
  entry : ∀ e ∈ hand ++ vm.callStack, vm.calls[e.1]? = some e.2 ∧ e.1 ∉ vm.executed
  nodup : ((hand ++ vm.callStack).map Prod.fst).Nodup
  executed_nodup : vm.executed.Nodup
  done : ∀ n ∈ vm.executed, ∃ p, vm.calls[n]? = some p ∧ Done vm.store p.1 p.2 ∧
    p.2.toRange.toSet ⊆ vm.store.view.output.complete
  complete : ∀ i ∈ vm.store.view.output.complete, ∃ n ∈ vm.executed, ∃ p, vm.calls[n]? = some p ∧
    i ∈ p.2.toRange.toSet

/-- What two machines agree on: the memory and the calls, who knows which input, what is committed,
and the bits that are committed on both sides. -/
structure Agree (a b : Vm) : Prop where
  calls : a.calls = b.calls
  len : a.store.view.len = b.store.view.len
  outputs : a.store.view.output.all = b.store.view.output.all
  uninit : a.store.view.vis.uninit = b.store.view.vis.uninit
  pub : a.store.view.vis.publicRanges = b.store.view.vis.publicRanges
  priv : a.store.view.vis.privateRanges = b.store.view.vis.blindRanges
  blind : a.store.view.vis.blindRanges = b.store.view.vis.privateRanges
  complete : a.store.view.input.complete = b.store.view.input.complete
  input : a.store.view.flush.input = b.store.view.flush.peerInput
  peerInput : a.store.view.flush.peerInput = b.store.view.flush.input
  cell : ∀ i, a.store.Committed i → b.store.Committed i → a.store.dataStore.cell i =
    b.store.dataStore.cell i

theorem Agree.symm {a b : Vm} (h : Agree a b) : Agree b a where
  calls := h.calls.symm
  len := h.len.symm
  outputs := h.outputs.symm
  uninit := h.uninit.symm
  pub := h.pub.symm
  priv := h.blind.symm
  blind := h.priv.symm
  complete := h.complete.symm
  input := h.peerInput.symm
  peerInput := h.input.symm
  cell i hb ha := (h.cell i ha hb).symm

variable {a b : Vm} {hand : List (ℕ × Call × Slice)} {e : ℕ × Call × Slice}

namespace Vm

theorem Inv.drop (h : Inv hand a) : Inv [] a :=
  { h with
    entry := fun e he => h.entry e (List.mem_append_right _ he)
    nodup := by
      have := h.nodup
      rw [List.map_append] at this
      exact this.of_append_right }

theorem isReady_iff {call : Call} :
    a.isReady call = true ↔ ∀ slice ∈ call.inputs, a.store.view.isCommitted slice.toRange =
      true := by
  rw [isReady, List.all_eq_true]

/-- Two calls that share an output index are the same. -/
theorem Inv.eq_of_mem (h : Inv hand a) {n m : ℕ} {p q : Call × Slice} (hn : a.calls[n]? = some p)
    (hm : a.calls[m]? = some q) {i : ℕ} (hp : i ∈ p.2.toRange.toSet) (hq : i ∈ q.2.toRange.toSet) :
    n = m := by
  obtain ⟨hnlt, rfl⟩ := List.getElem?_eq_some_iff.mp hn
  obtain ⟨hmlt, rfl⟩ := List.getElem?_eq_some_iff.mp hm
  have hdisj := List.pairwise_iff_getElem.mp h.disjoint
  rcases lt_trichotomy n m with hlt | heq | hlt
  · exact absurd hq (Finset.disjoint_left.mp (hdisj n m hnlt hmlt hlt) hp)
  · exact heq
  · exact absurd hp (Finset.disjoint_left.mp (hdisj m n hmlt hnlt hlt) hq)

/-- Nothing of the output of a call that was not executed is complete. -/
theorem Inv.not_complete (h : Inv (e :: hand) a) {i : ℕ} (hi : i ∈ e.2.2.toRange.toSet) :
    i ∉ a.store.view.output.complete := by
  intro hc
  obtain ⟨hcall, hne⟩ := h.entry e (List.mem_append_left _ List.mem_cons_self)
  obtain ⟨n, hn, p, hp, hip⟩ := h.complete i hc
  exact hne (h.eq_of_mem hcall hp hi hip ▸ hn)

/-- The inputs of a call that is ready are there. -/
theorem Inv.there (h : Inv hand a) {p : Call × Slice} (hp : p ∈ a.calls)
    (hready : a.isReady p.1 = true) :
    ∀ slice ∈ p.1.inputs, There a.store.dataStore slice := fun slice hslice =>
  ⟨fun i hi => (h.sets i).set_of_committed
      (VmStore.committed_of_isCommitted (isReady_iff.mp hready slice hslice) hi),
    (h.calls p hp).2.2 slice hslice⟩

theorem executeCall_apply {bits out : List Bool}
    (hbits : readInputs a.store.dataStore e.2.1.inputs = some bits)
    (hout : e.2.1.circ.evaluate bits = .ok out) : executeCall e a =
      (do
        onStore (VmStore.setOutput e.2.2 out)
        onStore (VmStore.markOutputComplete e.2.2)
        onStore VmStore.flushDecode) { a with executed := a.executed ++ [e.1] } := by
  have heval : evaluate e.2.1.circ bits = some out := by
    rw [evaluate, hout]
  rw [executeCall, Method.get_bind, hbits, Outcome.ofOption_some, Method.call_ok_bind, heval,
    Outcome.ofOption_some, Method.call_ok_bind, Method.modify_bind]

/-- What a call leaves behind when its output is written. -/
theorem executeCall_of_pos {bits out : List Bool} (h : Inv (e :: hand) a)
    (hbits : readInputs a.store.dataStore e.2.1.inputs = some bits)
    (hout : e.2.1.circ.evaluate bits = .ok out) (hlen : out.length = e.2.2.size)
    (hpos : 0 < e.2.2.size) :
    ∃ dataStore decode,
      executeCall e a = (.ok (), { a with
        executed := a.executed ++ [e.1]
        store := { a.store with
          dataStore
          decode
          view := { a.store.view with output := { a.store.view.output with
            complete := a.store.view.output.complete ∪ e.2.2.toRange.toSet } } } }) ∧
      dataStore.items.length = a.store.dataStore.items.length ∧
      (∀ i, i ∈ dataStore.set ↔ i ∈ a.store.dataStore.set ∨ i ∈ e.2.2.toRange.toSet) ∧
      (∀ i, dataStore.cell i =
        if i ∈ e.2.2.toRange.toSet then out[i - e.2.2.ptr]? else a.store.dataStore.cell i) ∧
      VmStore.Queued { a.store with
          dataStore
          decode
          view := { a.store.view with output := { a.store.view.output with
            complete := a.store.view.output.complete ∪ e.2.2.toRange.toSet } } } ∧
      VmStore.Resolved { a.store with
          dataStore
          decode
          view := { a.store.view with output := { a.store.view.output with
            complete := a.store.view.output.complete ∪ e.2.2.toRange.toSet } } } := by
  obtain ⟨hcall, -⟩ := h.entry e (List.mem_append_left _ List.mem_cons_self)
  obtain ⟨-, hsub, -⟩ := h.calls e.2 (List.mem_of_getElem? hcall)
  have hnot : ∀ i ∈ e.2.2.toRange.toSet, i ∉ a.store.dataStore.set := fun i hi hset =>
    h.not_complete hi (((h.sets i).out_set (hsub hi)).mpr hset)
  have hfirst : e.2.2.ptr ∈ e.2.2.toRange.toSet := by
    rw [Slice.mem_toRange]
    omega
  have hlast : e.2.2.ptr + e.2.2.size - 1 ∈ e.2.2.toRange.toSet := by
    rw [Slice.mem_toRange]
    omega
  have hle : e.2.2.toRange.stop ≤ a.store.dataStore.items.length := by
    have hlt := (a.store.view.vis.cover _).mpr (.inl ((h.sets _).out (hsub hlast)))
    rw [a.store.view.len_vis, ← h.len] at hlt
    rw [Slice.stop_toRange]
    omega
  have hput : Store.trySet e.2.2 out a.store.dataStore =
      (.ok (), a.store.dataStore.put e.2.2 out hle) := by
    rw [Store.trySet_of_le (fun hall => hnot _ hfirst (hall hfirst)) hle, if_pos hlen]
  have hset : ∀ i, i ∈ (a.store.dataStore.put e.2.2 out hle).set ↔
      i ∈ a.store.dataStore.set ∨ i ∈ e.2.2.toRange.toSet := fun i => by
    rw [Store.set_put, Finset.mem_union]
  have hcell := Store.cell_trySet hput
  have hqueued : VmStore.Queued { a.store with
      dataStore := a.store.dataStore.put e.2.2 out hle
      view := { a.store.view with output := { a.store.view.output with
        complete := a.store.view.output.complete ∪ e.2.2.toRange.toSet } } } :=
    h.queued.frame fun i hi => ⟨(hset i).mpr (.inl hi), fun hio => ⟨hio, by
      rw [hcell, if_neg fun hmem => hnot i hmem hi]⟩⟩
  obtain ⟨decode, hflush, hq, hr⟩ := hqueued.exists_flushDecode
  refine ⟨_, decode, ?_, Store.length_put hle, hset, hcell, hq, hr⟩
  have hset' : onStore (VmStore.setOutput e.2.2 out) { a with executed := a.executed ++ [e.1] } =
      (.ok (), { a with
        executed := a.executed ++ [e.1]
        store := { a.store with dataStore := a.store.dataStore.put e.2.2 out hle } }) := by
    rw [onStore, Method.zoom_apply, VmStore.setOutput, VmStore.onData, Method.zoom_apply, hput]
    rfl
  have hmark : onStore (VmStore.markOutputComplete e.2.2) { a with
        executed := a.executed ++ [e.1]
        store := { a.store with dataStore := a.store.dataStore.put e.2.2 out hle } } =
      (.ok (), { a with
        executed := a.executed ++ [e.1]
        store := { a.store with
          dataStore := a.store.dataStore.put e.2.2 out hle
          view := { a.store.view with output := { a.store.view.output with
            complete := a.store.view.output.complete ∪ e.2.2.toRange.toSet } } } }) := by
    rw [onStore, Method.zoom_apply, VmStore.markOutputComplete, VmStore.onView, Method.zoom_apply]
    simp only [View.setOutput_of_subset hsub]
    rfl
  rw [executeCall_apply hbits hout, Method.bind_apply_of_ok hset', Method.bind_apply_of_ok hmark,
    onStore, Method.zoom_apply]
  simp only [hflush]
  rfl

/-- A call without outputs cannot be written, which is an error. -/
theorem executeCall_of_zero {bits out : List Bool}
    (hbits : readInputs a.store.dataStore e.2.1.inputs = some bits)
    (hout : e.2.1.circ.evaluate bits = .ok out) (hzero : e.2.2.size = 0) :
    ∃ err, executeCall e a = (.err err, { a with executed := a.executed ++ [e.1] }) := by
  have hempty : e.2.2.toRange.toSet ⊆ a.store.dataStore.set := by
    intro i hi
    rw [Slice.mem_toRange] at hi
    omega
  refine ⟨.store (.alreadySet e.2.2), ?_⟩
  rw [executeCall_apply hbits hout, Method.bind_apply, onStore, Method.zoom_apply,
    VmStore.setOutput, VmStore.onData, Method.zoom_apply, Store.trySet_of_subset hempty]
  rfl

end Vm

/-- Two machines, the first of which has taken some calls from its stack. -/
structure Pair (hand : List (ℕ × Call × Slice)) (a b : Vm) : Prop where
  left : a.Inv hand
  right : b.Inv []
  agree : Agree a b

theorem Pair.symm (h : Pair [] a b) : Pair [] b a := ⟨h.right, h.left, h.agree.symm⟩

/-- **A call whose inputs are committed is executed**, and where the peer has executed it, to the
same. -/
theorem Pair.executeCall (h : Pair (e :: hand) a b) (hready : a.isReady e.2.1 = true) :
    ∃ o a', Vm.executeCall e a = (o, a') ∧ o ≠ .panic ∧ Pair hand a' b ∧
      a.store.Extends a'.store := by
  have hinv := h.left
  obtain ⟨hcall, hne⟩ := hinv.entry e (List.mem_append_left _ List.mem_cons_self)
  have hmem := List.mem_of_getElem? hcall
  obtain ⟨hsize, hsub, hle⟩ := hinv.calls e.2 hmem
  obtain ⟨bits, hbits, hbitslen⟩ := exists_readInputs (hinv.there hmem hready)
  obtain ⟨out, hout, houtlen⟩ := Circuit.exists_evaluate e.2.1.wellFormed
    (hbitslen.trans e.2.1.length)
  have hlen : out.length = e.2.2.size := houtlen.trans hsize.symm
  have hentry : ∀ e' ∈ hand ++ a.callStack, a.calls[e'.1]? = some e'.2 ∧ e'.1 ∉ a.executed ++
      [e.1] := by
    intro e' he'
    obtain ⟨hcall', hne'⟩ := hinv.entry e' (by
      rw [List.cons_append]
      exact List.mem_cons_of_mem _ he')
    refine ⟨hcall', fun hmem => ?_⟩
    rcases List.mem_append.mp hmem with hmem | hmem
    · exact hne' hmem
    · have hnodup := hinv.nodup
      rw [List.cons_append, List.map_cons, List.nodup_cons] at hnodup
      rw [List.mem_singleton] at hmem
      exact hnodup.1 (hmem ▸ List.mem_map_of_mem he')
  have hnodup : ((hand ++ a.callStack).map Prod.fst).Nodup := by
    have hnodup := hinv.nodup
    rw [List.cons_append, List.map_cons, List.nodup_cons] at hnodup
    exact hnodup.2
  have hexecuted : (a.executed ++ [e.1]).Nodup := by
    rw [List.nodup_append]
    refine ⟨hinv.executed_nodup, List.nodup_singleton _, fun n hn m hm => ?_⟩
    rw [List.mem_singleton] at hm
    rintro rfl
    exact hne (hm ▸ hn)
  rcases Nat.eq_zero_or_pos e.2.2.size with hzero | hpos
  · obtain ⟨err, hrun⟩ := Vm.executeCall_of_zero hbits hout hzero
    refine ⟨.err err, _, hrun, (fun heq => by cases heq), ⟨{ hinv with
      entry := hentry, nodup := hnodup, executed_nodup := hexecuted, done := ?_, complete := ?_ },
      h.right, { h.agree with }⟩,
        ⟨le_rfl, Finset.Subset.refl _, Finset.Subset.refl _, fun _ _ => rfl⟩⟩
    · intro n hn
      rcases List.mem_append.mp hn with hn | hn
      · exact hinv.done n hn
      · rw [List.mem_singleton.mp hn]
        refine ⟨e.2, hcall, ⟨Vm.isReady_iff.mp hready, bits, out, hbits, hout, hlen, ?_⟩, ?_⟩
        · intro j hj
          omega
        · intro i hi
          rw [Slice.mem_toRange] at hi
          omega
    · intro i hi
      obtain ⟨n, hn, hrest⟩ := hinv.complete i hi
      exact ⟨n, List.mem_append_left _ hn, hrest⟩
  · obtain ⟨dataStore, decode, hrun, hitems, hset, hcell, hq, hr⟩ :=
      Vm.executeCall_of_pos hinv hbits hout hlen hpos
    have hnotin : ∀ i, a.store.Committed i → i ∉ e.2.2.toRange.toSet := by
      intro i hi hmem
      rcases hi with hi | hi
      · exact ((hinv.sets i).complete hi).1 ((hinv.sets i).out (hsub hmem))
      · exact hinv.not_complete hmem hi
    have hext : a.store.Extends { a.store with
        dataStore
        decode
        view := { a.store.view with output := { a.store.view.output with
          complete := a.store.view.output.complete ∪ e.2.2.toRange.toSet } } } :=
      ⟨hitems.ge, Finset.Subset.refl _, Finset.subset_union_left, fun i hi => by
        rw [hcell, if_neg (hnotin i hi)]⟩
    have hdone : Done { a.store with
        dataStore
        decode
        view := { a.store.view with output := { a.store.view.output with
          complete := a.store.view.output.complete ∪ e.2.2.toRange.toSet } } } e.2.1 e.2.2 := by
      refine ⟨fun slice hslice => hext.isCommitted (Vm.isReady_iff.mp hready slice hslice), bits,
        out, ?_, hout, hlen, fun j hj => ?_⟩
      · rw [readInputs_congr fun slice hslice => hext.there hinv.sets
          (Vm.isReady_iff.mp hready slice hslice) (hle slice hslice), hbits]
      · have hjmem : e.2.2.ptr + j ∈ e.2.2.toRange.toSet := by
          rw [Slice.mem_toRange]
          omega
        rw [hcell, if_pos hjmem, Nat.add_sub_cancel_left]
    refine ⟨.ok (), _, hrun, (fun heq => by cases heq), ⟨{
      len := hitems.trans hinv.len
      pending := hinv.pending
      sets := fun i => ?_
      queued := hq
      resolved := hr
      calls := fun p hp => ?_
      disjoint := hinv.disjoint
      entry := hentry
      nodup := hnodup
      executed_nodup := hexecuted
      done := ?_
      complete := ?_ }, h.right, { h.agree with cell := ?_ }⟩, hext⟩
    · obtain ⟨h1, h2, h3, h4, h5, h6, h7, h8, h9⟩ := (hinv.sets i).output hsub hset
      exact ⟨h1, h2, h3, h4, h5, h6, h7, h8, h9⟩
    · obtain ⟨h1, h2, h3⟩ := hinv.calls p hp
      exact ⟨h1, h2, fun slice hslice hzero => (h3 slice hslice hzero).trans hitems.ge⟩
    · intro n hn
      rcases List.mem_append.mp hn with hn | hn
      · obtain ⟨p, hp, hd, hc⟩ := hinv.done n hn
        exact ⟨p, hp, hd.of_extends hext hinv.sets hc (hinv.calls p (List.mem_of_getElem? hp)).2.2,
          hc.trans Finset.subset_union_left⟩
      · rw [List.mem_singleton.mp hn]
        exact ⟨e.2, hcall, hdone, Finset.subset_union_right⟩
    · intro i hi
      rcases Finset.mem_union.mp hi with hi | hi
      · obtain ⟨n, hn, hrest⟩ := hinv.complete i hi
        exact ⟨n, List.mem_append_left _ hn, hrest⟩
      · exact ⟨e.1, List.mem_append_right _ (List.mem_singleton_self _), e.2, hcall, hi⟩
    · intro i hia hib
      by_cases hi : i ∈ e.2.2.toRange.toSet
      · -- the peer has executed the same call, and its inputs agree
        have hbout : i ∈ b.store.view.output.complete := by
          rcases hib with hib | hib
          · have huninit := (hinv.sets i).out (hsub hi)
            rw [h.agree.uninit] at huninit
            exact absurd huninit ((h.right.sets i).complete hib).1
          · exact hib
        obtain ⟨n, hn, p, hp, hip⟩ := h.right.complete i hbout
        have hcall' := hcall
        rw [h.agree.calls] at hcall'
        obtain rfl := h.right.eq_of_mem hcall' hp hi hip
        obtain rfl := Option.some.inj (hcall'.symm.trans hp)
        obtain ⟨p', hp', hd, -⟩ := h.right.done _ hn
        obtain rfl := Option.some.inj (hcall'.symm.trans hp')
        obtain ⟨bits', out', hbits', hout', -, hcells'⟩ := hd.value
        have hsame : Vm.readInputs b.store.dataStore e.2.1.inputs =
            Vm.readInputs a.store.dataStore e.2.1.inputs :=
          readInputs_congr fun slice hslice => by
            have hac := Vm.isReady_iff.mp hready slice hslice
            have hbc := hd.inputs slice hslice
            refine ⟨hinv.there hmem hready slice hslice,
              ⟨fun k hk => (h.right.sets k).set_of_committed
              (VmStore.committed_of_isCommitted hbc hk), ?_⟩, fun k hk => (h.agree.cell k
                (VmStore.committed_of_isCommitted hac hk)
                (VmStore.committed_of_isCommitted hbc hk)).symm⟩
            rw [h.right.len, ← h.agree.len, ← hinv.len]
            exact hle slice hslice
        rw [hsame, hbits, Option.some.injEq] at hbits'
        subst hbits'
        rw [hout, Outcome.ok.injEq] at hout'
        subst hout'
        have hi' := hi
        rw [Slice.mem_toRange] at hi'
        have hj := hcells' (i - e.2.2.ptr) (by omega)
        rw [Nat.add_sub_cancel' hi'.1] at hj
        rw [hj]
        exact (hcell i).trans (if_pos hi)
      · have hia' : a.store.Committed i := hia.imp_right fun hc =>
          (Finset.mem_union.mp hc).resolve_right hi
        exact ((hcell i).trans (if_neg hi)).trans (h.agree.cell i hia' hib)

end IdealVm

end Mpz
