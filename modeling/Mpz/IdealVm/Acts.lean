import Mpz.IdealVm.Execute
import Mpz.Lib.Run

/-!
# Two ideal machines in a mirrored program

Both parties make the same allocations, marks, commitments and calls, each assigns what it sees,
requests what it wants to be decoded and executes when it likes, and they flush together. A call
that is refused is ignored.

A flush asserts that the peer sends as much as it expects, so a commitment has to be accepted by
both or by none. And an assignment neither looks at what is committed nor answers the requests that
wait for it.

## Main definitions

* `Machines`, `Act`, `Act.step` — the two machines, and what happens to them
* `Act.Meets` — what an act has to keep to

## Main results

* `Pair.execute`, `Pair.alloc`, `Pair.callRaw`, `Pair.mark`, `Pair.assign`, `Pair.decode`,
  `Pair.commit`, `Pair.flush` — each act comes back, and keeps what holds of the two
-/

namespace Mpz.IdealVm

/-- The two parties. -/
inductive Side where
  | left
  | right
  deriving DecidableEq, Repr

/-- The two machines. -/
structure Machines where
  left : Vm
  right : Vm

namespace Machines

/-- The machine of a party. -/
def get (m : Machines) : Side → Vm
  | .left => m.left
  | .right => m.right

/-- The machine of a party is replaced. -/
def set (m : Machines) (vm : Vm) : Side → Machines
  | .left => { m with left := vm }
  | .right => { m with right := vm }

/-- Two new machines. -/
def new : Machines := ⟨.new, .new⟩

end Machines

/-- What a party sees of an input that is known to `owner`, or to both. -/
def visibility (owner : Option Side) (side : Side) : Visibility :=
  match owner with
  | none => .pub
  | some owner => if owner = side then .priv else .blind

/-- What happens to the machines. -/
inductive Act where
  /-- Both allocate. -/
  | alloc (size : ℕ)
  /-- Both mark a slice, as known to one party or to both. -/
  | mark (owner : Option Side) (slice : Slice)
  /-- A party assigns data. -/
  | assign (side : Side) (slice : Slice) (data : List Bool)
  /-- Both commit a slice. -/
  | commit (slice : Slice)
  /-- Both make a call. -/
  | call (call : Call)
  /-- A party requests a slice to be decoded. -/
  | decode (side : Side) (slice : Slice)
  /-- A party executes. -/
  | execute (side : Side)
  /-- Both flush. -/
  | flush

/-- The machine behind a call that comes back, with a value or with an error that is ignored. -/
def comesBack {α : Type} : Outcome VmStoreError α × Vm → Option Vm
  | (.panic, _) => none
  | (_, vm) => some vm

namespace Machines

variable {α : Type}

/-- Each party makes its call. -/
def both (m : Machines) (f : Side → Method Vm VmStoreError α) : Option Machines := do
  let left ← comesBack (f .left m.left)
  let right ← comesBack (f .right m.right)
  return ⟨left, right⟩

/-- One party makes a call. -/
def one (m : Machines) (side : Side) (f : Method Vm VmStoreError α) : Option Machines := do
  let vm ← comesBack (f (m.get side))
  return m.set vm side

/-- The flush of both. A party that has something to flush sends and waits for the peer. -/
def flush (m : Machines) : Option Machines :=
  match m.left.store.wantsFlush, m.right.store.wantsFlush with
  | false, false => some m
  | true, true =>
    match Vm.onStore VmStore.sendFlush m.left, Vm.onStore VmStore.sendFlush m.right with
    | (.ok left, l), (.ok right, r) => do
      let l ← comesBack (Vm.onStore (VmStore.receiveFlush right) l)
      let r ← comesBack (Vm.onStore (VmStore.receiveFlush left) r)
      return ⟨l, r⟩
    | _, _ => none
  | _, _ => none

end Machines

/-- The machines behind an act, if it comes back on both sides. -/
def Act.step (m : Machines) : Act → Option Machines
  | alloc size => m.both fun _ => Vm.onStore (VmStore.allocRaw size)
  | mark owner slice => m.both fun side =>
      Vm.onStore (VmStore.markRaw (visibility owner side) slice)
  | assign side slice data => m.one side (Vm.onStore (VmStore.assignRaw slice data))
  | commit slice => m.both fun _ => Vm.onStore (VmStore.commitRaw slice)
  | call c => m.both fun _ => Vm.callRaw c
  | decode side slice => m.one side (Vm.onStore (VmStore.decodeRaw slice))
  | execute side => m.one side Vm.execute
  | flush => m.flush

/-- What an assignment that writes has to keep to: its data fits, it changes nothing that is
committed, and it does not complete what a request waits for. -/
structure VmStore.MayAssign (s : VmStore) (slice : Slice) (data : List Bool) : Prop where
  length : data.length = slice.size
  committed : ∀ i ∈ slice.toRange.toSet, s.Committed i → data[i - slice.ptr]? = s.dataStore.cell i
  waiting : ∀ op ∈ s.decode.buffer,
    ¬ op.slice.toRange.toSet ⊆ s.dataStore.set ∪ slice.toRange.toSet

/-- What an act has to keep to. A mark is of memory that is allocated, an assignment changes nothing
that is committed and completes nothing that is waited for, a commitment is accepted by both or by
none, and public inputs are then the same on both sides. An empty slice lies in the memory. -/
def Act.Meets (m : Machines) : Act → Prop
  | alloc _ | execute _ | flush => True
  | mark _ slice => slice.toRange.stop ≤ m.left.store.view.len
  | assign side slice data =>
    (m.get side).store.Writes slice → (m.get side).store.MayAssign slice data
  | commit slice =>
    (m.left.store.view.CanCommit slice.toRange ↔ m.right.store.view.CanCommit slice.toRange) ∧
      (m.left.store.view.CanCommit slice.toRange →
        ∀ i ∈ slice.toRange.toSet ∩ m.left.store.view.vis.publicRanges,
          m.left.store.dataStore.cell i = m.right.store.dataStore.cell i)
  | call c => ∀ slice ∈ c.inputs, slice.size = 0 → slice.ptr ≤ m.left.store.view.len
  | decode _ slice => slice.size = 0 → slice.ptr ≤ m.left.store.view.len

/-! ### Executing -/

variable {a b : Vm} {hand : List (ℕ × Call × Slice)}

theorem VmStore.Extends.refl (s : VmStore) : s.Extends s :=
  ⟨le_rfl, Finset.Subset.refl _, Finset.Subset.refl _, fun _ _ => rfl⟩

theorem Pair.executeCalls (h : Pair hand a b) (hready : ∀ e ∈ hand, a.isReady e.2.1 = true) :
    ∃ o a', Method.forEach Vm.executeCall hand a = (o, a') ∧ o ≠ .panic ∧ Pair [] a' b := by
  induction hand generalizing a with
  | nil => exact ⟨.ok (), a, rfl, (fun heq => by cases heq), h⟩
  | cons e hand ih =>
    obtain ⟨o, a', hrun, hne, hpair, hext⟩ := h.executeCall (hready e List.mem_cons_self)
    cases o with
    | ok u =>
      obtain ⟨o', a'', hrun', hne', hpair'⟩ := ih hpair fun e' he' =>
        Vm.isReady_iff.mpr fun slice hslice => hext.isCommitted
          (Vm.isReady_iff.mp (hready e' (List.mem_cons_of_mem _ he')) slice hslice)
      exact ⟨o', a'', by rw [Method.forEach, Method.bind_apply_of_ok hrun, hrun'], hne', hpair'⟩
    | err err =>
      refine ⟨.err err, a', ?_, hne, hpair.left.drop, hpair.right, hpair.agree⟩
      rw [Method.forEach, Method.bind_apply, hrun]
    | panic => exact absurd rfl hne

/-- The calls that are ready are taken from the stack. -/
theorem Vm.Inv.take (h : a.Inv []) :
    Vm.Inv (a.callStack.filter fun entry => a.isReady entry.2.1)
      { a with callStack := a.callStack.filter fun entry => !a.isReady entry.2.1 } := by
  have hperm : (a.callStack.filter (fun entry => a.isReady entry.2.1) ++
      a.callStack.filter fun entry => !a.isReady entry.2.1).Perm a.callStack :=
    List.filter_append_perm _ _
  exact { h with
    entry := fun e he => h.entry e (hperm.mem_iff.mp he)
    nodup := (hperm.map Prod.fst).nodup_iff.mpr h.nodup }

/-- **A round of calls**, and all rounds. -/
theorem Pair.executeRounds (fuel : ℕ) (h : Pair [] a b) :
    ∃ o a', Vm.executeRounds fuel a = (o, a') ∧ o ≠ .panic ∧ Pair [] a' b := by
  induction fuel generalizing a with
  | zero => exact ⟨.ok (), a, rfl, (fun heq => by cases heq), h⟩
  | succ fuel ih =>
    rw [Vm.executeRounds, Method.get_bind]
    by_cases hnil : (a.callStack.filter fun entry => a.isReady entry.2.1) = []
    · simp only [hnil, if_true]
      exact ⟨.ok (), a, rfl, (fun heq => by cases heq), h⟩
    · simp only [hnil, if_false]
      rw [Method.modify_bind]
      have hpair : Pair (a.callStack.filter fun entry => a.isReady entry.2.1)
          { a with callStack := a.callStack.filter fun entry => !a.isReady entry.2.1 } b :=
        ⟨h.left.take, h.right, { h.agree with }⟩
      obtain ⟨o, a', hrun, hne, hpair'⟩ := hpair.executeCalls fun e he => (List.mem_filter.mp he).2
      cases o with
      | ok u =>
        rw [Method.bind_apply_of_ok hrun]
        exact ih hpair'
      | err err => exact ⟨.err err, a', by rw [Method.bind_apply, hrun], hne, hpair'⟩
      | panic => exact absurd rfl hne

theorem Pair.execute (h : Pair [] a b) :
    ∃ o a', Vm.execute a = (o, a') ∧ o ≠ .panic ∧ Pair [] a' b := by
  rw [Vm.execute, Method.get_bind]
  exact h.executeRounds _

/-! ### Allocating, and making calls -/

/-- New cells hold nothing. -/
theorem cell_extend (dataStore : BitStore) (data : List Bool) (i : ℕ) :
    (dataStore.extend data).cell i = dataStore.cell i := by
  rw [Store.cell, Store.cell]
  by_cases hi : i ∈ dataStore.set
  · rw [if_pos (show i ∈ (dataStore.extend data).set from hi), if_pos hi]
    exact List.getElem?_append_left (dataStore.lt_length i hi)
  · rw [if_neg (show i ∉ (dataStore.extend data).set from hi), if_neg hi]

/-- Memory is allocated, for inputs or for outputs. -/
theorem Vm.Inv.alloc {size : ℕ} (h : a.Inv []) (view : View)
    (hlen : view.len = a.store.view.len + size) (hvis : view.vis = a.store.view.vis.alloc size)
    (hassigned : view.input.assigned = a.store.view.input.assigned)
    (hcomplete : view.input.complete = a.store.view.input.complete)
    (hout : ∀ i, i ∈ view.output.all →
      i ∈ a.store.view.output.all ∨ i ∈ (a.store.view.nextRange size).toSet)
    (hout' : a.store.view.output.all ⊆ view.output.all)
    (houtput : view.output.complete = a.store.view.output.complete)
    (hflush : view.flush = a.store.view.flush) :
    Vm.Inv [] { a with store := { a.store with
      dataStore := a.store.dataStore.extend (List.replicate size false), view } } := by
  have hcell := cell_extend a.store.dataStore (List.replicate size false)
  have hitems : (a.store.dataStore.extend (List.replicate size false)).items.length =
      a.store.dataStore.items.length + size := by
    rw [Store.extend, List.length_append, List.length_replicate]
  have hext : a.store.Extends { a.store with
      dataStore := a.store.dataStore.extend (List.replicate size false), view } :=
    ⟨hitems ▸ Nat.le_add_right _ _, hcomplete.ge, houtput.ge, fun i _ => hcell i⟩
  exact { h with
    len := by
      show (a.store.dataStore.extend (List.replicate size false)).items.length = view.len
      rw [hitems, h.len, hlen]
    sets := fun i => (h.sets i).alloc h.len rfl hvis hassigned hcomplete (hout i)
      (fun hi => hout' hi)
      houtput hflush
    queued := h.queued.frame fun i hi => ⟨hi, fun hio => ⟨(hout i hio).resolve_right fun hnew => by
      have hlt := a.store.dataStore.lt_length i hi
      rw [h.len] at hlt
      exact absurd (Range.mem_toSet.mp hnew).1 (Nat.not_le.mpr hlt), hcell i⟩⟩
    calls := fun p hp => by
      obtain ⟨h1, h2, h3⟩ := h.calls p hp
      exact ⟨h1, h2.trans hout', fun slice hslice hzero =>
        (h3 slice hslice hzero).trans hext.length⟩
    done := fun n hn => by
      obtain ⟨p, hp, hd, hc⟩ := h.done n hn
      exact ⟨p, hp, hd.of_extends hext h.sets hc (h.calls p (List.mem_of_getElem? hp)).2.2,
        hc.trans hext.output⟩
    complete := fun i hi => h.complete i (houtput ▸ hi) }

/-- A call that was made waits on the stack. -/
theorem Vm.Inv.push {call : Call} {slice : Slice} (h : a.Inv [])
    (hsize : slice.size = call.circ.outputs.len)
    (hsub : slice.toRange.toSet ⊆ a.store.view.output.all)
    (hinputs : ∀ s ∈ call.inputs, s.size = 0 → s.ptr ≤ a.store.dataStore.items.length)
    (hdisj : ∀ p ∈ a.calls, Disjoint p.2.toRange.toSet slice.toRange.toSet) :
    Vm.Inv [] { a with
      callStack := a.callStack ++ [(a.calls.length, call, slice)]
      calls := a.calls ++ [(call, slice)] } := by
  have hold : ∀ {n : ℕ} {p : Call × Slice}, a.calls[n]? = some p →
      (a.calls ++ [(call, slice)])[n]? = some p := fun hn => by
    rw [List.getElem?_append_left (List.getElem?_eq_some_iff.mp hn).1, hn]
  have hlt : ∀ n ∈ a.executed, n < a.calls.length := fun n hn => by
    obtain ⟨p, hp, -⟩ := h.done n hn
    exact (List.getElem?_eq_some_iff.mp hp).1
  exact { h with
    calls := fun p hp => by
      rcases List.mem_append.mp hp with hp | hp
      · exact h.calls p hp
      · rw [List.mem_singleton.mp hp]
        exact ⟨hsize, hsub, hinputs⟩
    disjoint := by
      rw [List.pairwise_append]
      refine ⟨h.disjoint, List.pairwise_singleton _ _, fun p hp q hq => ?_⟩
      rw [List.mem_singleton.mp hq]
      exact hdisj p hp
    entry := fun e he => by
      rw [List.nil_append] at he
      rcases List.mem_append.mp he with he | he
      · obtain ⟨hcall, hne⟩ := h.entry e he
        exact ⟨hold hcall, hne⟩
      · rw [List.mem_singleton.mp he]
        exact ⟨List.getElem?_concat_length, fun hn => absurd (hlt _ hn) (Nat.lt_irrefl _)⟩
    nodup := by
      have hnodup := h.nodup
      rw [List.nil_append] at hnodup ⊢
      rw [List.map_append, List.nodup_append]
      refine ⟨hnodup, List.nodup_singleton _, fun n hn m hm => ?_⟩
      obtain ⟨e, he, rfl⟩ := List.mem_map.mp hn
      obtain ⟨hcall, -⟩ := h.entry e he
      have := (List.getElem?_eq_some_iff.mp hcall).1
      rw [List.map_singleton, List.mem_singleton] at hm
      omega
    done := fun n hn => by
      obtain ⟨p, hp, hrest⟩ := h.done n hn
      exact ⟨p, hold hp, hrest⟩
    complete := fun i hi => by
      obtain ⟨n, hn, p, hp, hip⟩ := h.complete i hi
      exact ⟨n, hn, p, hold hp, hip⟩ }

/-- The view with memory allocated for inputs. -/
def View.withInput (v : View) (size : ℕ) : View :=
  { v.alloc size with input := { v.input with all := v.input.all ∪ (v.nextRange size).toSet } }

/-- The view with memory allocated for outputs. -/
def View.withOutput (v : View) (size : ℕ) : View :=
  { v.alloc size with output := { v.output with all := v.output.all ∪ (v.nextRange size).toSet } }

theorem Vm.Inv.allocRaw (h : a.Inv []) (size : ℕ) :
    Vm.Inv [] { a with store := { a.store with
      dataStore := a.store.dataStore.extend (List.replicate size false)
      view := a.store.view.withInput size } } :=
  h.alloc (a.store.view.withInput size) rfl rfl rfl rfl (fun _ hi => .inl hi) (Finset.Subset.refl _)
    rfl rfl

theorem Vm.Inv.callRaw {call : Call} (h : a.Inv [])
    (hinputs : ∀ s ∈ call.inputs, s.size = 0 → s.ptr ≤ a.store.view.len) :
    Vm.Inv [] { a with
      store := { a.store with
        dataStore := a.store.dataStore.extend (List.replicate call.circ.outputs.len false)
        view := a.store.view.withOutput call.circ.outputs.len }
      callStack := a.callStack ++
        [(a.calls.length, call, ⟨a.store.dataStore.items.length, call.circ.outputs.len⟩)]
      calls := a.calls ++ [(call, ⟨a.store.dataStore.items.length, call.circ.outputs.len⟩)] } := by
  have hnext : (⟨a.store.dataStore.items.length, call.circ.outputs.len⟩ : Slice).toRange =
      a.store.view.nextRange call.circ.outputs.len := by
    rw [Slice.toRange, View.nextRange, h.len]
  have halloc := h.alloc (a.store.view.withOutput call.circ.outputs.len) rfl rfl rfl rfl
    (fun _ hi => Finset.mem_union.mp hi) Finset.subset_union_left rfl rfl
  refine halloc.push rfl ?_ (fun s hs hzero => ?_) fun p hp => ?_
  · rw [hnext]
    exact Finset.subset_union_right
  · refine (hinputs s hs hzero).trans ?_
    rw [← h.len]
    show _ ≤ (a.store.dataStore.items ++ _).length
    rw [List.length_append]
    exact Nat.le_add_right _ _
  · rw [hnext, Finset.disjoint_left]
    intro i hi hnew
    have hlt := (a.store.view.vis.cover i).mpr (.inl ((h.sets i).out ((h.calls p hp).2.1 hi)))
    rw [a.store.view.len_vis] at hlt
    exact absurd (Range.mem_toSet.mp hnew).1 (Nat.not_le.mpr hlt)

theorem allocRaw_apply (size : ℕ) (vm : Vm) : comesBack (Vm.onStore (VmStore.allocRaw size) vm) =
    some { vm with store := { vm.store with
      dataStore := vm.store.dataStore.extend (List.replicate size false)
      view := vm.store.view.withInput size } } := rfl

theorem callRaw_apply (call : Call) (vm : Vm) : comesBack (Vm.callRaw call vm) =
    some { vm with
      store := { vm.store with
        dataStore := vm.store.dataStore.extend (List.replicate call.circ.outputs.len false)
        view := vm.store.view.withOutput call.circ.outputs.len }
      callStack := vm.callStack ++
        [(vm.calls.length, call, ⟨vm.store.dataStore.items.length, call.circ.outputs.len⟩)]
      calls := vm.calls ++ [(call, ⟨vm.store.dataStore.items.length, call.circ.outputs.len⟩)] } :=
        rfl

/-- Both allocate. -/
theorem Pair.alloc (h : Pair [] a b) (size : ℕ) :
    Pair []
      { a with store := { a.store with
        dataStore := a.store.dataStore.extend (List.replicate size false)
        view := a.store.view.withInput size } }
      { b with store := { b.store with
        dataStore := b.store.dataStore.extend (List.replicate size false)
        view := b.store.view.withInput size } } := by
  refine ⟨h.left.allocRaw size, h.right.allocRaw size, ?_⟩
  have hagree := h.agree
  have hvislen : a.store.view.vis.len = b.store.view.vis.len := by
    rw [a.store.view.len_vis, b.store.view.len_vis, hagree.len]
  exact { hagree with
    len := congrArg (· + size) hagree.len
    uninit := by
      show a.store.view.vis.uninit ∪ _ = b.store.view.vis.uninit ∪ _
      rw [hagree.uninit, hvislen]
    cell := fun i ha hb => by
      show (a.store.dataStore.extend _).cell i = (b.store.dataStore.extend _).cell i
      rw [cell_extend, cell_extend]
      exact hagree.cell i ha hb }

/-- Both make a call. -/
theorem Pair.callRaw {call : Call} (h : Pair [] a b)
    (hinputs : ∀ s ∈ call.inputs, s.size = 0 → s.ptr ≤ a.store.view.len) :
    Pair []
      { a with
        store := { a.store with
          dataStore := a.store.dataStore.extend (List.replicate call.circ.outputs.len false)
          view := a.store.view.withOutput call.circ.outputs.len }
        callStack := a.callStack ++
          [(a.calls.length, call, ⟨a.store.dataStore.items.length, call.circ.outputs.len⟩)]
        calls := a.calls ++ [(call, ⟨a.store.dataStore.items.length, call.circ.outputs.len⟩)] }
      { b with
        store := { b.store with
          dataStore := b.store.dataStore.extend (List.replicate call.circ.outputs.len false)
          view := b.store.view.withOutput call.circ.outputs.len }
        callStack := b.callStack ++
          [(b.calls.length, call, ⟨b.store.dataStore.items.length, call.circ.outputs.len⟩)]
        calls := b.calls ++
          [(call, ⟨b.store.dataStore.items.length, call.circ.outputs.len⟩)] } := by
  have hagree := h.agree
  refine ⟨h.left.callRaw hinputs, h.right.callRaw (hagree.len ▸ hinputs), ?_⟩
  have hvislen : a.store.view.vis.len = b.store.view.vis.len := by
    rw [a.store.view.len_vis, b.store.view.len_vis, hagree.len]
  exact { hagree with
    calls := by
      show a.calls ++ _ = b.calls ++ _
      rw [hagree.calls, h.left.len, h.right.len, hagree.len]
    len := congrArg (· + call.circ.outputs.len) hagree.len
    outputs := by
      show a.store.view.output.all ∪ _ = b.store.view.output.all ∪ _
      rw [hagree.outputs, View.nextRange, View.nextRange, hagree.len]
    uninit := by
      show a.store.view.vis.uninit ∪ _ = b.store.view.vis.uninit ∪ _
      rw [hagree.uninit, hvislen]
    cell := fun i ha hb => by
      show (a.store.dataStore.extend _).cell i = (b.store.dataStore.extend _).cell i
      rw [cell_extend, cell_extend]
      exact hagree.cell i ha hb }

/-! ### Marks, assignments, commitments and requests -/

theorem onStore_apply {α : Type} (m : Method VmStore VmStoreError α) (vm : Vm) :
    Vm.onStore m vm = ((m vm.store).1, { vm with store := (m vm.store).2 }) := by
  rw [Vm.onStore, Method.zoom_apply]
  rcases m vm.store with ⟨o, s⟩
  cases o <;> rfl

/-- A call on the store that comes back. -/
theorem comesBack_onStore {α : Type} {m : Method VmStore VmStoreError α}
    {o : Outcome VmStoreError α} {s : VmStore} (h : m a.store = (o, s)) (hne : o ≠ .panic) :
    comesBack (Vm.onStore m a) = some { a with store := s } := by
  rw [onStore_apply, h]
  cases o with
  | ok x => rfl
  | err e => rfl
  | panic => exact absurd rfl hne

/-- A store that goes on, with the same outputs, keeps the invariant of its machine. -/
theorem Vm.Inv.of_extends {s : VmStore} (h : a.Inv []) (hext : a.store.Extends s)
    (hlen : s.dataStore.items.length = s.view.len) (hpending : s.pending = false)
    (hsets : ∀ i, s.At i) (hqueued : s.Queued) (hresolved : s.Resolved)
    (hall : a.store.view.output.all ⊆ s.view.output.all)
    (houtput : s.view.output.complete = a.store.view.output.complete) :
    Vm.Inv [] { a with store := s } :=
  { h with
    len := hlen
    pending := hpending
    sets := hsets
    queued := hqueued
    resolved := hresolved
    calls := fun p hp => by
      obtain ⟨h1, h2, h3⟩ := h.calls p hp
      exact ⟨h1, h2.trans hall, fun slice hslice hzero => (h3 slice hslice hzero).trans hext.length⟩
    done := fun n hn => by
      obtain ⟨p, hp, hd, hc⟩ := h.done n hn
      exact ⟨p, hp, hd.of_extends hext h.sets hc (h.calls p (List.mem_of_getElem? hp)).2.2,
        hc.trans hext.output⟩
    complete := fun i hi => h.complete i (houtput ▸ hi) }

theorem onView_apply {α : Type} (m : Method View ViewError α) (s : VmStore) :
    VmStore.onView m s = ((m s.view).1.mapErr .view, { s with view := (m s.view).2 }) := rfl

/-- The view with a range marked. -/
def View.marked (v : View) (visibility : Visibility) (range : Range) (h : range.stop ≤ v.vis.len) :
    View :=
  { v with vis := v.vis.set visibility range h, len_vis := v.len_vis }

theorem Vm.Inv.marked {visibility : Visibility} {range : Range} (h : a.Inv [])
    (hset : a.store.view.vis.isSetAny range = false)
    (hdisj : Disjoint range.toSet a.store.view.output.all)
    (hlen : range.stop ≤ a.store.view.vis.len) :
    Vm.Inv []
      { a with store := { a.store with view := a.store.view.marked visibility range hlen } } :=
  h.of_extends ⟨le_rfl, Finset.Subset.refl _, Finset.Subset.refl _, fun _ _ => rfl⟩ h.len h.pending
    (fun i => (h.sets i).mark hset hdisj hlen)
    (h.queued.frame fun _ hi => ⟨hi, fun hio => ⟨hio, rfl⟩⟩) h.resolved (Finset.Subset.refl _) rfl

/-- A mark is refused, or made. -/
theorem comesBack_markRaw (visibility : Visibility) {slice : Slice}
    (hlen : slice.toRange.stop ≤ a.store.view.len) :
    (comesBack (Vm.onStore (VmStore.markRaw visibility slice) a) = some a ∧
      ¬ (a.store.view.vis.isSetAny slice.toRange = false ∧
        Disjoint slice.toRange.toSet a.store.view.output.all)) ∨
    a.store.view.vis.isSetAny slice.toRange = false ∧
      Disjoint slice.toRange.toSet a.store.view.output.all ∧
      ∃ h : slice.toRange.stop ≤ a.store.view.vis.len,
        comesBack (Vm.onStore (VmStore.markRaw visibility slice) a) =
          some { a with store := { a.store with
            view := a.store.view.marked visibility slice.toRange h } } := by
  rcases View.mark_cases visibility hlen with ⟨⟨e, he⟩, hnot⟩ | ⟨hset, hdisj, hvis, hok⟩
  · refine .inl ⟨?_, hnot⟩
    have hrun : VmStore.markRaw visibility slice a.store = (.err (.view e), a.store) := by
      rw [VmStore.markRaw, onView_apply, he]
      rfl
    exact comesBack_onStore hrun fun heq => by cases heq
  · refine .inr ⟨hset, hdisj, hvis, ?_⟩
    have hrun : VmStore.markRaw visibility slice a.store = (.ok (), { a.store with
        view := a.store.view.marked visibility slice.toRange hvis }) := by
      rw [VmStore.markRaw, onView_apply, hok]
      rfl
    exact comesBack_onStore hrun fun heq => by cases heq

/-- **Both mark a slice.** They agree on whether they may, and then on who knows it. -/
theorem Pair.mark (h : Pair [] a b) (owner : Option Side) {slice : Slice}
    (hlen : slice.toRange.stop ≤ a.store.view.len) :
    ∃ a' b', comesBack (Vm.onStore (VmStore.markRaw (visibility owner .left) slice) a) = some a' ∧
      comesBack (Vm.onStore (VmStore.markRaw (visibility owner .right) slice) b) = some b' ∧
      Pair [] a' b' := by
  have hagree := h.agree
  have hvislen : a.store.view.vis.len = b.store.view.vis.len := by
    rw [a.store.view.len_vis, b.store.view.len_vis, hagree.len]
  have hany : a.store.view.vis.isSetAny slice.toRange =
      b.store.view.vis.isSetAny slice.toRange := by
    rw [VisibilityView.isSetAny, VisibilityView.isSetAny, hvislen, hagree.uninit]
  rcases comesBack_markRaw (visibility owner .left) hlen with
    ⟨hl, hnot⟩ | ⟨hset, hdisj, hvis, hl⟩
  · rcases comesBack_markRaw (visibility owner .right) (hagree.len ▸ hlen) with
      ⟨hr, -⟩ | ⟨hset, hdisj, -⟩
    · exact ⟨a, b, hl, hr, h⟩
    · rw [hany, hagree.outputs] at hnot
      exact absurd ⟨hset, hdisj⟩ hnot
  · rcases comesBack_markRaw (visibility owner .right) (hagree.len ▸ hlen) with
      ⟨-, hnot⟩ | ⟨hset', hdisj', hvis', hr⟩
    · rw [← hany, ← hagree.outputs] at hnot
      exact absurd ⟨hset, hdisj⟩ hnot
    · refine ⟨_, _, hl, hr, h.left.marked hset hdisj hvis, h.right.marked hset' hdisj' hvis',
        { hagree with uninit := ?_, pub := ?_, priv := ?_, blind := ?_ }⟩
      · show a.store.view.vis.uninit \ _ = b.store.view.vis.uninit \ _
        rw [hagree.uninit]
      all_goals
        have hpub := hagree.pub
        have hpriv := hagree.priv
        have hblind := hagree.blind
        rcases owner with _ | _ | _ <;>
          simp [View.marked, VisibilityView.set, visibility, hpub, hpriv, hblind]

/-- **A party assigns data**, and changes nothing that is committed. -/
theorem Pair.assign (h : Pair [] a b) {slice : Slice} {data : List Bool}
    (hmay : a.store.Writes slice → a.store.MayAssign slice data) :
    ∃ a', comesBack (Vm.onStore (VmStore.assignRaw slice data) a) = some a' ∧ Pair [] a' b := by
  rcases VmStore.exists_assignRaw h.left.len fun hw => (hmay hw).length with
    ⟨e, he⟩ | ⟨o, dataStore, hne, hvis, hdisj, hrun, hitems, hset, hcell⟩
  · exact ⟨a, comesBack_onStore he (fun heq => by cases heq), h⟩
  · have hkeep : ∀ i, a.store.Committed i → dataStore.cell i = a.store.dataStore.cell i := by
      intro i hi
      rcases hcell i with heq | ⟨hw, hmem, heq⟩
      · exact heq
      · rw [heq]
        exact (hmay hw).committed i hmem hi
    refine ⟨_, comesBack_onStore hrun hne, h.left.of_extends
      ⟨hitems.ge, Finset.Subset.refl _, Finset.Subset.refl _, hkeep⟩ (hitems.trans h.left.len)
      h.left.pending (fun i => (h.left.sets i).assign hvis hset)
      (h.left.queued.frame fun i hi => ?_) (fun op hop hsub => ?_) (Finset.Subset.refl _) rfl,
      h.right, { h.agree with cell := ?_ }⟩
    · refine ⟨(hset i).mpr (.inl hi), fun hio => ⟨hio, ?_⟩⟩
      rcases hcell i with heq | ⟨-, hmem, -⟩
      · exact heq
      · exact absurd hio (Finset.disjoint_left.mp hdisj hmem)
    · have hsub' : op.slice.toRange.toSet ⊆ a.store.dataStore.set ∪ slice.toRange.toSet :=
        fun i hi =>
        Finset.mem_union.mpr ((hset i).mp (hsub hi))
      by_cases hall : slice.toRange.toSet ⊆ a.store.dataStore.set
      · rw [Finset.union_eq_left.mpr hall] at hsub'
        exact h.left.resolved op hop hsub'
      · exact (hmay ⟨hvis, hdisj, hall⟩).waiting op hop hsub'
    · exact fun i ha hb => (hkeep i ha).trans (h.agree.cell i ha hb)

/-- **A party requests a slice to be decoded.** -/
theorem Pair.decode (h : Pair [] a b) {slice : Slice}
    (hle : slice.size = 0 → slice.ptr ≤ a.store.view.len) :
    ∃ a', comesBack (Vm.onStore (VmStore.decodeRaw slice) a) = some a' ∧ Pair [] a' b := by
  obtain ⟨decode, hrun, hq, hr⟩ := h.left.queued.exists_decodeRaw h.left.resolved slice
    fun hzero => by
      rw [h.left.len]
      exact hle hzero
  refine ⟨_, comesBack_onStore hrun (fun heq => by cases heq), h.left.of_extends
    ⟨le_rfl, Finset.Subset.refl _, Finset.Subset.refl _, fun _ _ => rfl⟩ h.left.len h.left.pending
    (fun i => ?_) hq hr (Finset.Subset.refl _) rfl, h.right, { h.agree with }⟩
  obtain ⟨h1, h2, h3, h4, h5, h6, h7, h8, h9⟩ := h.left.sets i
  exact ⟨h1, h2, h3, h4, h5, h6, h7, h8, h9⟩

theorem Vm.Inv.committed {range : Range} (h : a.Inv []) (hcan : a.store.view.CanCommit range) :
    Vm.Inv [] { a with store := { a.store with view := a.store.view.committed range } } :=
  h.of_extends ⟨le_rfl, Finset.subset_union_left, Finset.Subset.refl _, fun _ _ => rfl⟩ h.len
    h.pending
    (fun i => (h.sets i).commit hcan) (h.queued.frame fun _ hi => ⟨hi, fun hio => ⟨hio, rfl⟩⟩)
    h.resolved (Finset.Subset.refl _) rfl

theorem comesBack_commitRaw {slice : Slice} (hcan : a.store.view.CanCommit slice.toRange) :
    comesBack (Vm.onStore (VmStore.commitRaw slice) a) =
      some { a with store := { a.store with view := a.store.view.committed slice.toRange } } := by
  have hrun : VmStore.commitRaw slice a.store =
      (.ok (), { a.store with view := a.store.view.committed slice.toRange }) := by
    rw [VmStore.commitRaw, onView_apply, View.commit_of_canCommit hcan]
    rfl
  exact comesBack_onStore hrun fun heq => by cases heq

theorem comesBack_commitRaw_of_not {slice : Slice} (hcan : ¬ a.store.view.CanCommit slice.toRange) :
    comesBack (Vm.onStore (VmStore.commitRaw slice) a) = some a := by
  obtain ⟨e, he⟩ := View.commit_of_not_canCommit hcan
  have hrun : VmStore.commitRaw slice a.store = (.err (.view e), a.store) := by
    rw [VmStore.commitRaw, onView_apply, he]
    rfl
  exact comesBack_onStore hrun fun heq => by cases heq

/-- **Both commit a slice**, or none of them. -/
theorem Pair.commit (h : Pair [] a b) {slice : Slice}
    (hiff : a.store.view.CanCommit slice.toRange ↔ b.store.view.CanCommit slice.toRange)
    (hpub : a.store.view.CanCommit slice.toRange →
      ∀ i ∈ slice.toRange.toSet ∩ a.store.view.vis.publicRanges,
        a.store.dataStore.cell i = b.store.dataStore.cell i) :
    ∃ a' b', comesBack (Vm.onStore (VmStore.commitRaw slice) a) = some a' ∧
      comesBack (Vm.onStore (VmStore.commitRaw slice) b) = some b' ∧ Pair [] a' b' := by
  by_cases hcan : a.store.view.CanCommit slice.toRange
  · have hcan' := hiff.mp hcan
    have hagree := h.agree
    refine ⟨_, _, comesBack_commitRaw hcan, comesBack_commitRaw hcan', h.left.committed hcan,
      h.right.committed hcan',
      { hagree with complete := ?_, input := ?_, peerInput := ?_, cell := ?_ }⟩
    · show a.store.view.input.complete ∪ _ = b.store.view.input.complete ∪ _
      rw [hagree.complete, hagree.pub]
    · show a.store.view.flush.input ∪ _ = b.store.view.flush.peerInput ∪ _
      rw [hagree.input, hagree.priv]
    · show a.store.view.flush.peerInput ∪ _ = b.store.view.flush.input ∪ _
      rw [hagree.peerInput, hagree.blind]
    · intro i ha hb
      by_cases hi : i ∈ slice.toRange.toSet ∩ a.store.view.vis.publicRanges
      · exact hpub hcan i hi
      · refine hagree.cell i (ha.imp_left fun hc => (Finset.mem_union.mp hc).resolve_right hi)
          (hb.imp_left fun hc => (Finset.mem_union.mp hc).resolve_right ?_)
        rwa [← hagree.pub]
  · exact ⟨a, b, comesBack_commitRaw_of_not hcan, comesBack_commitRaw_of_not fun hc =>
      hcan (hiff.mpr hc), h⟩

/-! ### A flush -/

/-- What a flush is about is there on the side that sends, and not on the other. -/
theorem Vm.Inv.flush_sets (h : a.Inv []) : a.store.view.flush.input ⊆ a.store.dataStore.set ∧
    ∀ i ∈ a.store.view.flush.peerInput, i ∉ a.store.dataStore.set ∧
      i < a.store.dataStore.items.length := by
  refine ⟨fun i hi => ((h.sets i).assigned ((h.sets i).input hi).2).2, fun i hi =>
    ⟨fun hset => ?_, ?_⟩⟩
  · obtain ⟨hblind, hnot⟩ := (h.sets i).peerInput hi
    exact hnot ((h.sets i).blind hblind hset)
  · have hlt := (a.store.view.vis.cover i).mpr (.inr (.inr (.inr ((h.sets i).peerInput hi).1)))
    rwa [a.store.view.len_vis, ← h.len] at hlt

/-- **One side of a flush**: what the peer sent is there, and all that was flushed is committed. -/
theorem Vm.Inv.receive (h : a.Inv []) (input : List Bool)
    (hlen : a.store.view.flush.peerInput.card = input.length) :
    ∃ s : VmStore, VmStore.receiveFlush input { a.store with pending := true } = (.ok (), s) ∧
      Vm.Inv [] { a with store := s } ∧ s.view = a.store.view.completeFlush ∧
      (∀ i ∈ a.store.dataStore.set, s.dataStore.cell i = a.store.dataStore.cell i) ∧
      ∀ i ∈ a.store.view.flush.peerInput, ∃ v, s.dataStore.cell i = some v ∧
        (i, v) ∈ a.store.view.flush.peerInput.indices.zip input := by
  obtain ⟨dataStore, decode, hrun, hitems, hset, hkeep, hnew, hq, hr⟩ :=
    VmStore.exists_receiveFlush (s := { a.store with pending := true }) rfl hlen h.flush_sets.2
      ⟨h.queued.next, h.queued.waiting, h.queued.sent⟩
  refine ⟨_, hrun, h.of_extends ⟨hitems.ge, ?_, Finset.Subset.refl _, fun i hi => ?_⟩
    (hitems.trans h.len) rfl (fun i => ?_) hq hr (Finset.Subset.refl _) rfl, rfl, hkeep, hnew⟩
  · exact Finset.subset_union_left.trans Finset.subset_union_left
  · exact hkeep i ((h.sets i).set_of_committed hi)
  · obtain ⟨h1, h2, h3, h4, h5, h6, h7, h8, h9⟩ := (h.sets i).completeFlush hset
    exact ⟨h1, h2, h3, h4, h5, h6, h7, h8, h9⟩

theorem wantsFlush_eq (h : Agree a b) : a.store.wantsFlush = b.store.wantsFlush := by
  rw [VmStore.wantsFlush, VmStore.wantsFlush, FlushView.isEmpty, FlushView.isEmpty, h.input,
    h.peerInput, Bool.and_comm]

/-- **Both flush**: each has then what the other committed. -/
theorem Pair.flush (h : Pair [] a b) :
    ∃ a' b', Machines.flush ⟨a, b⟩ = some ⟨a', b'⟩ ∧ Pair [] a' b' := by
  have hagree := h.agree
  cases hwants : a.store.wantsFlush with
  | false =>
    refine ⟨a, b, ?_, h⟩
    rw [Machines.flush]
    simp only [hwants, ← wantsFlush_eq hagree]
  | true =>
    obtain ⟨inputA, hsendA, hlenA, hcellA⟩ :=
      VmStore.exists_sendFlush h.left.pending h.left.flush_sets.1
    obtain ⟨inputB, hsendB, hlenB, hcellB⟩ :=
      VmStore.exists_sendFlush h.right.pending h.right.flush_sets.1
    obtain ⟨s, hrecvA, hinvA, hviewA, hkeepA, hnewA⟩ := h.left.receive inputB
      (by rw [hagree.peerInput, hlenB])
    obtain ⟨t, hrecvB, hinvB, hviewB, hkeepB, hnewB⟩ := h.right.receive inputA
      (by rw [← hagree.input, hlenA])
    have hA : comesBack (Vm.onStore (VmStore.receiveFlush inputB)
        { a with store := { a.store with pending := true } }) = some { a with store := s } :=
      comesBack_onStore (a := { a with store := { a.store with pending := true } }) hrecvA
        fun heq => by cases heq
    have hB : comesBack (Vm.onStore (VmStore.receiveFlush inputA)
        { b with store := { b.store with pending := true } }) = some { b with store := t } :=
      comesBack_onStore (a := { b with store := { b.store with pending := true } }) hrecvB
        fun heq => by cases heq
    refine ⟨{ a with store := s }, { b with store := t }, ?_, hinvA, hinvB, ?_⟩
    · rw [Machines.flush]
      simp only [hwants, ← wantsFlush_eq hagree, onStore_apply, hsendA, hsendB]
      rw [onStore_apply] at hA hB
      rw [hA, hB]
      rfl
    · have hcompleteA : s.view.input.complete =
          a.store.view.input.complete ∪ a.store.view.flush.peerInput ∪
          a.store.view.flush.input := by
        rw [hviewA]
        rfl
      have hcompleteB : t.view.input.complete =
          a.store.view.input.complete ∪ a.store.view.flush.peerInput ∪
          a.store.view.flush.input := by
        rw [hviewB, hagree.input, hagree.peerInput, hagree.complete]
        exact Finset.union_right_comm _ _ _
      refine ⟨hagree.calls, ?_, ?_, ?_, ?_, ?_, ?_, hcompleteA.trans hcompleteB.symm, ?_, ?_, ?_⟩
      · show s.view.len = t.view.len
        rw [hviewA, hviewB]
        exact hagree.len
      · show s.view.output.all = t.view.output.all
        rw [hviewA, hviewB]
        exact hagree.outputs
      · show s.view.vis.uninit = t.view.vis.uninit
        rw [hviewA, hviewB]
        exact hagree.uninit
      · show s.view.vis.publicRanges = t.view.vis.publicRanges
        rw [hviewA, hviewB]
        exact hagree.pub
      · show s.view.vis.privateRanges = t.view.vis.blindRanges
        rw [hviewA, hviewB]
        exact hagree.priv
      · show s.view.vis.blindRanges = t.view.vis.privateRanges
        rw [hviewA, hviewB]
        exact hagree.blind
      · show s.view.flush.input = t.view.flush.peerInput
        rw [hviewA, hviewB]
        rfl
      · show s.view.flush.peerInput = t.view.flush.input
        rw [hviewA, hviewB]
        rfl
      · intro i ha hb
        show s.dataStore.cell i = t.dataStore.cell i
        by_cases hpeer : i ∈ a.store.view.flush.peerInput
        · obtain ⟨v, hv, hzip⟩ := hnewA i hpeer
          rw [hagree.peerInput] at hpeer hzip
          have hsent := hcellB (i, v) hzip
          rw [hv, hkeepB i (h.right.flush_sets.1 hpeer), hsent]
        by_cases hinput : i ∈ a.store.view.flush.input
        · have hset := h.left.flush_sets.1 hinput
          rw [hagree.input] at hinput
          obtain ⟨v, hv, hzip⟩ := hnewB i hinput
          rw [← hagree.input] at hzip
          have hsent := hcellA (i, v) hzip
          rw [hv, hkeepA i hset, hsent]
        · have hmem : i ∈ a.store.view.input.complete ∪ a.store.view.flush.peerInput ∪
              a.store.view.flush.input → i ∈ a.store.view.input.complete := fun hi =>
            (Finset.mem_union.mp ((Finset.mem_union.mp hi).resolve_right hinput)).resolve_right
              hpeer
          have ha' : a.store.Committed i := by
            rcases ha with ha | ha
            · exact .inl (hmem (hcompleteA ▸ ha))
            · rw [hviewA] at ha
              exact .inr ha
          have hb' : b.store.Committed i := by
            rcases hb with hb | hb
            · exact .inl (hagree.complete ▸ hmem (hcompleteB ▸ hb))
            · rw [hviewB] at hb
              exact .inr hb
          rw [hkeepA i ((h.left.sets i).set_of_committed ha'),
            hkeepB i ((h.right.sets i).set_of_committed hb'), hagree.cell i ha' hb']

end Mpz.IdealVm
