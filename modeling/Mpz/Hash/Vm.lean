import Mpz.Memory.Store

/-!
# A virtual machine, as its callers see it

A caller allocates memory, assigns public constants, and calls circuits, whose outputs are new
memory. When the calls are evaluated is up to the machine. What the memory comes to hold is a
valuation of its bits: one that has the constants that were assigned, and at the output of each call
what its circuit computes from its inputs.

## Main definitions

* `Circ`, `BitFn`, `Call`, `Vm` — circuits, calls, and the log of a machine
* `Vm.Faithful` — what the memory of a faithful machine comes to hold
* `Vm.Leads` — a machine goes on, in a way that every valuation can follow
* `Vm.Holds` — allocated slices that come to hold some bits
* `Vm.Gives` — a method that succeeds, and what it gives back

## Main results

* `Vm.Gives.bind` — the rule of a sequence
* `Vm.gives_allocPublic`, `Vm.gives_call`, `Vm.gives_get` — constants, calls, and parts of arrays
-/

namespace Mpz

/-! ### Slices -/

namespace Slice

/-- `Slice::split_at`, which panics where `mid` is out of bounds. -/
def splitAt (self : Slice) (mid : ℕ) : Slice × Slice :=
  (⟨self.ptr, mid⟩, ⟨self.ptr + mid, self.size - mid⟩)

/-- `Array::get`, of an array of `n` elements: `m` of them, from `start` on. -/
def get (self : Slice) (n start m : ℕ) : Option Slice :=
  let tSize := self.size / n
  let newRange : Range := ⟨self.ptr + start * tSize, self.ptr + (start + m) * tSize⟩
  if newRange.len = 0 ∨ newRange.stop > self.toRange.stop then none
  else some (fromRange newRange)

/-- What a valuation has at a slice. -/
def read (v : ℕ → Bool) (self : Slice) : List Bool := (List.range' self.ptr self.size).map v

@[simp] theorem length_read (v : ℕ → Bool) (slice : Slice) :
    (slice.read v).length = slice.size := by
  simp [read]

theorem read_splitAt (v : ℕ → Bool) {slice : Slice} {mid : ℕ} (h : mid ≤ slice.size) :
    (slice.splitAt mid).1.read v = (slice.read v).take mid ∧
      (slice.splitAt mid).2.read v = (slice.read v).drop mid := by
  have hrange : List.range' slice.ptr slice.size =
      List.range' slice.ptr mid ++ List.range' (slice.ptr + mid) (slice.size - mid) := by
    rw [List.range'_append_1, Nat.add_sub_cancel' h]
  simp only [read, splitAt, hrange, List.map_append]
  constructor
  · rw [List.take_left' (by simp)]
  · rw [List.drop_left' (by simp)]

theorem read_congr {v w : ℕ → Bool} {slice : Slice}
    (h : ∀ i, slice.ptr ≤ i → i < slice.ptr + slice.size → v i = w i) : slice.read v =
      slice.read w :=
  List.map_congr_left fun i hi => by
    obtain ⟨hle, hlt⟩ := List.mem_range'_1.mp hi
    exact h i hle hlt

end Slice

/-- A circuit, as what it computes. -/
structure Circ where
  /-- The number of inputs. -/
  inputs : ℕ
  /-- The number of outputs. -/
  outputs : ℕ
  /-- The outputs of some inputs. -/
  eval : List Bool → List Bool
  length_eval : ∀ bits, bits.length = inputs → (eval bits).length = outputs

/-- A function from `n` bits to `m` bits. -/
def BitFn (n m : ℕ) : Type :=
  { f : List Bool → List Bool // ∀ bits, bits.length = n → (f bits).length = m }

/-- A circuit that computes the function. -/
def BitFn.circ {n m : ℕ} (f : BitFn n m) : Circ := ⟨n, m, f.1, f.2⟩

instance {n m : ℕ} : CoeFun (BitFn n m) fun _ => List Bool → List Bool := ⟨fun f => f.1⟩

/-- Error of a virtual machine. -/
inductive VmError where
  /-- memory error -/
  | memory (slice : Slice)
  /-- call error: input length mismatch -/
  | call (expected actual : ℕ)
  /-- view error -/
  | view (slice : Slice)
  deriving DecidableEq, Repr

/-- A call of a circuit on slices that together have the length of its inputs. -/
structure Call where
  /-- The circuit. -/
  circ : Circ
  /-- The inputs. -/
  inputs : List Slice
  length_inputs : (inputs.map Slice.size).sum = circ.inputs

/-- `CallBuilder::build` -/
def Call.build (circ : Circ) (inputs : List Slice) : Outcome VmError Call :=
  if h : (inputs.map Slice.size).sum = circ.inputs then .ok ⟨circ, inputs, h⟩
  else .err (.call circ.inputs (inputs.map Slice.size).sum)

/-- The log of a virtual machine. -/
structure Vm where
  /-- The number of allocated bits. -/
  len : ℕ := 0
  /-- What is marked as public. -/
  publicRanges : RangeSet := ∅
  /-- The constants that were assigned. -/
  assigned : List (Slice × List Bool) := []
  /-- The calls, with their outputs. -/
  calls : List (Call × Slice) := []

namespace Vm

/-- Allocates a slice of memory. -/
def allocRaw (size : ℕ) : Method Vm VmError Slice := do
  let self ← Method.get
  Method.modify fun self => { self with len := self.len + size }
  return ⟨self.len, size⟩

/-- Marks a slice as public. -/
def markPublicRaw (slice : Slice) : Method Vm VmError Unit := do
  let self ← Method.get
  if slice.toRange.stop > self.len then
    Method.throw (.view slice)
  else
    Method.modify fun self =>
      { self with publicRanges := self.publicRanges ∪ slice.toRange.toSet }

/-- Assigns data to a slice. -/
def assignRaw (slice : Slice) (data : List Bool) : Method Vm VmError Unit := do
  let self ← Method.get
  if ¬ slice.toRange.toSet ⊆ self.publicRanges then
    Method.throw (.memory slice)
  -- `copy_from_bitslice`
  else if data.length ≠ slice.size then
    Method.panic
  else
    Method.modify fun self => { self with assigned := self.assigned ++ [(slice, data)] }

/-- Commits a slice. -/
def commitRaw (slice : Slice) : Method Vm VmError Unit := do
  let self ← Method.get
  if slice ∉ self.assigned.map Prod.fst then
    Method.throw (.memory slice)
  else
    return ()

/-- Calls a circuit, returning its output. -/
def callRaw (call : Call) : Method Vm VmError Slice := do
  let slice ← allocRaw call.circ.outputs
  Method.modify fun self => { self with calls := self.calls ++ [(call, slice)] }
  return slice

/-- A constant that both parties know: it is allocated, marked as public, assigned and committed. -/
def allocPublic (size : ℕ) (data : List Bool) : Method Vm VmError Slice := do
  let slice ← allocRaw size
  markPublicRaw slice
  assignRaw slice data
  commitRaw slice
  return slice

/-- A call that is built from its arguments, which are expected to be valid. -/
def call (circ : Circ) (inputs : List Slice) : Method Vm VmError Slice :=
  match Call.build circ inputs with
  | .ok call => callRaw call
  | _ => Method.panic

/-- The slice is allocated. -/
def Allocated (self : Vm) (slice : Slice) : Prop := slice.ptr + slice.size ≤ self.len

/-- What the memory of a faithful machine comes to hold. -/
structure Faithful (vm : Vm) (v : ℕ → Bool) : Prop where
  assigned : ∀ p ∈ vm.assigned, p.1.read v = p.2
  calls : ∀ p ∈ vm.calls, p.2.read v = p.1.circ.eval (p.1.inputs.flatMap (Slice.read v))

/-- What the log speaks of is allocated. -/
structure Sound (vm : Vm) : Prop where
  assigned : ∀ p ∈ vm.assigned, vm.Allocated p.1
  calls : ∀ p ∈ vm.calls, vm.Allocated p.2 ∧ ∀ slice ∈ p.1.inputs, vm.Allocated slice

/-- The log grows, and every valuation of what was allocated can follow. -/
structure Leads (s t : Vm) : Prop where
  len : s.len ≤ t.len
  assigned : s.assigned <+: t.assigned
  calls : s.calls <+: t.calls
  sound : s.Sound → t.Sound
  follows : s.Sound → ∀ v, s.Faithful v → ∃ w, (∀ i < s.len, w i = v i) ∧ t.Faithful w

variable {s t u : Vm} {v w : ℕ → Bool}

theorem Sound.new : ({} : Vm).Sound := ⟨nofun, nofun⟩

theorem Leads.refl (s : Vm) : s.Leads s :=
  ⟨le_rfl, List.prefix_rfl, List.prefix_rfl, id, fun _ v h => ⟨v, fun _ _ => rfl, h⟩⟩

theorem Leads.trans (h : s.Leads t) (h' : t.Leads u) : s.Leads u where
  len := h.len.trans h'.len
  assigned := h.assigned.trans h'.assigned
  calls := h.calls.trans h'.calls
  sound hs := h'.sound (h.sound hs)
  follows hs v hv := by
    obtain ⟨w, hw, hfaithful⟩ := h.follows hs v hv
    obtain ⟨x, hx, hfaithful'⟩ := h'.follows (h.sound hs) w hfaithful
    exact ⟨x, fun i hi => (hx i (hi.trans_le h.len)).trans (hw i hi), hfaithful'⟩

/-- Memory is allocated. -/
theorem Leads.alloc (s : Vm) (size : ℕ) : s.Leads { s with len := s.len + size } where
  len := Nat.le_add_right _ _
  assigned := List.prefix_rfl
  calls := List.prefix_rfl
  sound hs := ⟨fun p hp => Nat.le_add_right_of_le (hs.assigned p hp), fun p hp =>
    ⟨Nat.le_add_right_of_le (hs.calls p hp).1, fun slice hslice =>
      Nat.le_add_right_of_le ((hs.calls p hp).2 slice hslice)⟩⟩
  follows _ v hv := ⟨v, fun _ _ => rfl, hv.assigned, hv.calls⟩

theorem Faithful.of_leads (h : s.Leads t) (hv : t.Faithful v) : s.Faithful v :=
  ⟨fun p hp => hv.assigned p (h.assigned.subset hp), fun p hp => hv.calls p (h.calls.subset hp)⟩

theorem Allocated.of_leads {slice : Slice} (h : s.Leads t) (hslice : s.Allocated slice) :
    t.Allocated slice := le_trans hslice h.len

/-- A faithful valuation, where it is changed above what is allocated. -/
theorem Faithful.congr (hs : s.Sound) (hv : s.Faithful v) (hw : ∀ i < s.len, w i = v i) :
    s.Faithful w := by
  have hread : ∀ slice, s.Allocated slice → slice.read w = slice.read v := fun slice hslice =>
    Slice.read_congr fun i _ hi => hw i (hi.trans_le hslice)
  refine ⟨fun p hp => ?_, fun p hp => ?_⟩
  · rw [hread _ (hs.assigned p hp), hv.assigned p hp]
  · obtain ⟨hout, hin⟩ := hs.calls p hp
    have hargs : p.1.inputs.flatMap (Slice.read w) = p.1.inputs.flatMap (Slice.read v) :=
      List.flatMap_congr fun slice hslice => hread slice (hin slice hslice)
    rw [hread _ hout, hargs, hv.calls p hp]

/-- A valuation with some bits from an index on. -/
def splice (v : ℕ → Bool) (ptr : ℕ) (bits : List Bool) (i : ℕ) : Bool :=
  if i < ptr then v i else bits.getD (i - ptr) false

theorem splice_of_lt {ptr i : ℕ} {bits : List Bool} (h : i < ptr) : splice v ptr bits i = v i :=
  if_pos h

theorem read_splice (v : ℕ → Bool) (ptr : ℕ) (bits : List Bool) :
    (⟨ptr, bits.length⟩ : Slice).read (splice v ptr bits) = bits := by
  refine List.ext_getElem (by simp) fun i h h' => ?_
  have hnot : ¬ ptr + i < ptr := by omega
  simp [Slice.read, splice, hnot, h']

/-! ### What slices come to hold -/

/-- The slices are allocated, and come to hold the bits. -/
structure Holds (vm : Vm) (v : ℕ → Bool) (slices : List Slice) (bits : List Bool) : Prop where
  allocated : ∀ slice ∈ slices, vm.Allocated slice
  length : (slices.map Slice.size).sum = bits.length
  read : vm.Faithful v → slices.flatMap (Slice.read v) = bits

variable {slices slices' : List Slice} {slice : Slice} {bits bits' : List Bool}

theorem Holds.of_leads (h : s.Leads t) (hs : s.Holds v slices bits) : t.Holds v slices bits :=
  ⟨fun slice hslice => (hs.allocated slice hslice).of_leads h, hs.length,
    fun hv => hs.read (hv.of_leads h)⟩

theorem Holds.nil (s : Vm) (v : ℕ → Bool) : s.Holds v [] [] := ⟨nofun, rfl, fun _ => rfl⟩

theorem Holds.append (h : s.Holds v slices bits) (h' : s.Holds v slices' bits') :
    s.Holds v (slices ++ slices') (bits ++ bits') where
  allocated slice hslice := (List.mem_append.mp hslice).elim (h.allocated slice)
    (h'.allocated slice)
  length := by rw [List.map_append, List.sum_append, h.length, h'.length, List.length_append]
  read hv := by rw [List.flatMap_append, h.read hv, h'.read hv]

theorem Holds.size (h : s.Holds v [slice] bits) : slice.size = bits.length := by
  simpa using h.length

theorem Holds.read_single (h : s.Holds v [slice] bits) (hv : s.Faithful v) :
    slice.read v = bits := by
  simpa using h.read hv

/-- What an allocated slice holds. -/
theorem Holds.of_allocated (h : s.Allocated slice) (v : ℕ → Bool) :
    s.Holds v [slice] (slice.read v) where
  allocated _ hslice := List.mem_singleton.mp hslice ▸ h
  length := by simp
  read _ := by simp

/-- The two parts of a slice that is split. -/
theorem Holds.splitAt (h : s.Holds v [slice] bits) {mid : ℕ} (hmid : mid ≤ slice.size) :
    s.Holds v [(slice.splitAt mid).1] (bits.take mid) ∧
      s.Holds v [(slice.splitAt mid).2] (bits.drop mid) := by
  have halloc := h.allocated slice (List.mem_singleton.mpr rfl)
  have hsize := h.size
  unfold Allocated at halloc
  obtain ⟨hleft, hright⟩ := Slice.read_splitAt v hmid
  refine ⟨⟨fun _ hmem => ?_, ?_, fun hv => ?_⟩, fun _ hmem => ?_, ?_, fun hv => ?_⟩
  · rw [List.mem_singleton.mp hmem]
    exact (Nat.add_le_add_left hmid _).trans halloc
  · simp [Slice.splitAt, hsize ▸ hmid]
  · simp [hleft, h.read_single hv]
  · rw [List.mem_singleton.mp hmem]
    simp only [Allocated, Slice.splitAt]
    omega
  · simp [Slice.splitAt, hsize]
  · simp [hright, h.read_single hv]

/-! ### Methods that succeed -/

variable {ε α β : Type}

/-- From `s`, the method succeeds, and what it gives back and leaves satisfies `φ`. -/
def Gives (m : Method Vm ε α) (s : Vm) (φ : α → Vm → Prop) : Prop :=
  ∃ a t, m s = (.ok a, t) ∧ s.Leads t ∧ φ a t

theorem Gives.pure {a : α} {φ : α → Vm → Prop} (h : φ a s) :
    Gives (pure a : Method Vm ε α) s φ := ⟨a, s, rfl, .refl s, h⟩

/-- **The rule of a sequence.** -/
theorem Gives.bind {m : Method Vm ε α} {f : α → Method Vm ε β} {φ : α → Vm → Prop}
    {ψ : β → Vm → Prop} (hm : Gives m s φ)
    (hf : ∀ a t, s.Leads t → φ a t → Gives (f a) t ψ) : Gives (m >>= f) s ψ := by
  obtain ⟨a, t, hrun, hleads, ha⟩ := hm
  obtain ⟨b, u, hrun', hleads', hb⟩ := hf a t hleads ha
  refine ⟨b, u, ?_, hleads.trans hleads', hb⟩
  rw [Method.bind_apply_of_ok hrun, hrun']

theorem Gives.mono {m : Method Vm ε α} {φ ψ : α → Vm → Prop} (hm : Gives m s φ)
    (h : ∀ a t, s.Leads t → φ a t → ψ a t) : Gives m s ψ := by
  obtain ⟨a, t, hrun, hleads, ha⟩ := hm
  exact ⟨a, t, hrun, hleads, h a t hleads ha⟩

/-- What the method gives back is what it gave back. -/
theorem Gives.of_eq {m : Method Vm ε α} {a : α} {φ : α → Vm → Prop} (hm : Gives m s φ)
    (hrun : m s = (.ok a, t)) : s.Leads t ∧ φ a t := by
  obtain ⟨a', t', hrun', hleads, ha⟩ := hm
  obtain ⟨heq, rfl⟩ := Prod.mk.inj (hrun'.symm.trans hrun)
  obtain rfl := Outcome.ok.inj heq
  exact ⟨hleads, ha⟩

/-- What is said of every valuation at once. -/
theorem Gives.forall {m : Method Vm ε α} {φ : (ℕ → Bool) → α → Vm → Prop}
    (h : ∀ v, Gives m s (φ v)) : Gives m s fun a t => ∀ v, φ v a t := by
  obtain ⟨a, t, hrun, hleads, -⟩ := h fun _ => false
  exact ⟨a, t, hrun, hleads, fun v => ((h v).of_eq hrun).2⟩

/-- The valuation is extended by what new memory comes to hold. -/
theorem Faithful.splice (hs : s.Sound) (hv : s.Faithful v) (bits : List Bool) :
    s.Faithful (Vm.splice v s.len bits) := hv.congr hs fun _ => splice_of_lt

/-- The words of an array, from one of them on. -/
theorem gives_get {n w start m : ℕ} (hs : s.Holds v [slice] bits)
    (hbits : bits.length = n * w) (hpos : 0 < m * w) (hle : start + m ≤ n) :
    Gives (Method.call (.ofOption (slice.get n start m)) : Method Vm ε Slice) s fun part t =>
      t.Holds v [part] ((bits.drop (start * w)).take (m * w)) := by
  have hm : 0 < m := Nat.pos_of_mul_pos_right hpos
  have hsize : slice.size = n * w := hs.size.trans hbits
  have hword : slice.size / n = w := by rw [hsize, Nat.mul_div_cancel_left w (by omega)]
  have hend : start * w + m * w ≤ slice.size := by
    rw [hsize, ← Nat.add_mul]
    exact Nat.mul_le_mul_right w hle
  have hget : slice.get n start m = some ⟨slice.ptr + start * w, m * w⟩ := by
    unfold Slice.get
    simp only [hword, Range.len, Slice.stop_toRange, Nat.add_mul]
    rw [if_neg (by omega), Slice.fromRange]
    simp only [Range.len, Option.some.injEq, Slice.mk.injEq, true_and]
    omega
  have hstart : start * w ≤ slice.size := by omega
  have hlen : m * w ≤ (slice.splitAt (start * w)).2.size := by
    show m * w ≤ slice.size - start * w
    omega
  rw [hget]
  exact .pure ((hs.splitAt hstart).2.splitAt hlen).1

/-- A constant is assigned to new memory. -/
theorem gives_allocPublic {size : ℕ} {data : List Bool} (hdata : data.length = size) (s : Vm) :
    Gives (allocPublic size data) s fun slice t =>
      (∀ v, t.Holds v [slice] data) ∧ t.calls = s.calls := by
  subst hdata
  let slice : Slice := ⟨s.len, data.length⟩
  let t : Vm := ⟨s.len + data.length, s.publicRanges ∪ slice.toRange.toSet,
    s.assigned ++ [(slice, data)], s.calls⟩
  have hslice : t.Allocated slice := le_rfl
  have hold : ∀ {slice}, s.Allocated slice → t.Allocated slice := fun h =>
    Nat.le_add_right_of_le h
  refine ⟨slice, t, ?_, ?_, fun v => ?_, rfl⟩
  · simp [allocPublic, allocRaw, markPublicRaw, assignRaw, commitRaw, Method.bind_apply, slice, t]
  · refine ⟨Nat.le_add_right _ _, List.prefix_append _ _, List.prefix_rfl, fun hs => ?_,
      fun hs v hv => ⟨Vm.splice v s.len data, fun i hi => splice_of_lt hi, ?_⟩⟩
    · refine ⟨fun p hp => ?_, fun p hp => ?_⟩
      · rcases List.mem_append.mp hp with hp | hp
        · exact hold (hs.assigned p hp)
        · exact List.mem_singleton.mp hp ▸ hslice
      · exact ⟨hold (hs.calls p hp).1, fun slice hslice => hold ((hs.calls p hp).2 slice hslice)⟩
    · have hsplice := hv.splice hs data
      refine ⟨fun p hp => ?_, hsplice.calls⟩
      rcases List.mem_append.mp hp with hp | hp
      · exact hsplice.assigned p hp
      · rw [List.mem_singleton.mp hp]
        exact read_splice v s.len data
  · refine ⟨fun _ hmem => List.mem_singleton.mp hmem ▸ hslice, by simp [slice], fun hv => ?_⟩
    simpa using hv.assigned (slice, data) (List.mem_append_right _ (List.mem_singleton.mpr rfl))

/-- A circuit is called on slices that hold its inputs. -/
theorem gives_call {circ : Circ} {inputs : List Slice} (h : s.Holds v inputs bits)
    (hlen : bits.length = circ.inputs) :
    Gives (call circ inputs) s fun slice t => t.Holds v [slice] (circ.eval bits) ∧
      ∃ call, t.calls = s.calls ++ [(call, slice)] ∧ call.circ = circ ∧ call.inputs = inputs := by
  have hinputs : (inputs.map Slice.size).sum = circ.inputs := h.length.trans hlen
  let c : Call := ⟨circ, inputs, hinputs⟩
  let slice : Slice := ⟨s.len, circ.outputs⟩
  let t : Vm := ⟨s.len + circ.outputs, s.publicRanges, s.assigned, s.calls ++ [(c, slice)]⟩
  have hslice : t.Allocated slice := le_rfl
  have hold : ∀ {slice}, s.Allocated slice → t.Allocated slice := fun h =>
    Nat.le_add_right_of_le h
  refine ⟨slice, t, ?_, ?_, ?_, c, rfl, rfl, rfl⟩
  · simp only [call, Call.build, dif_pos hinputs]
    rfl
  · refine ⟨Nat.le_add_right _ _, List.prefix_rfl, List.prefix_append _ _, fun hs => ?_,
      fun hs v hv => ?_⟩
    · refine ⟨fun p hp => hold (hs.assigned p hp), fun p hp => ?_⟩
      rcases List.mem_append.mp hp with hp | hp
      · exact ⟨hold (hs.calls p hp).1, fun slice hslice => hold ((hs.calls p hp).2 slice hslice)⟩
      · rw [List.mem_singleton.mp hp]
        exact ⟨hslice, fun slice hslice => hold (h.allocated slice hslice)⟩
    · let args := inputs.flatMap (Slice.read v)
      have hargs : args.length = circ.inputs := by
        simpa [args, List.length_flatMap] using hinputs
      have hout := circ.length_eval args hargs
      have hsplice := hv.splice hs (circ.eval args)
      refine ⟨Vm.splice v s.len (circ.eval args), fun i hi => splice_of_lt hi,
        hsplice.assigned, fun p hp => ?_⟩
      rcases List.mem_append.mp hp with hp | hp
      · exact hsplice.calls p hp
      · rw [List.mem_singleton.mp hp]
        have hread : inputs.flatMap (Slice.read (Vm.splice v s.len (circ.eval args))) = args :=
          List.flatMap_congr fun slice hmem => Slice.read_congr fun i _ hi =>
            splice_of_lt (hi.trans_le (h.allocated slice hmem))
        show slice.read _ = circ.eval (inputs.flatMap _)
        rw [hread]
        have hslice' : slice = ⟨s.len, (circ.eval args).length⟩ := by rw [hout]
        rw [hslice', read_splice]
  · refine ⟨fun _ hmem => List.mem_singleton.mp hmem ▸ hslice, ?_, fun hv => ?_⟩
    · simpa [slice] using (circ.length_eval bits hlen).symm
    · have hcall := hv.calls (c, slice) (List.mem_append_right _ (List.mem_singleton.mpr rfl))
      have hread : inputs.flatMap (Slice.read v) = bits :=
        h.read ⟨hv.assigned, fun p hp => hv.calls p (List.mem_append_left _ hp)⟩
      simpa [c, hread] using hcall

end Vm

end Mpz
