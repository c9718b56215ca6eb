import Mpz.Memory.Store

/-!
# Decode operations

A request to decode waits in a buffer until its slice is set, and then sends the data to the future
that it was made with. The channels of the futures are numbered, and what is sent is recorded under
the number.

## Main definitions

* `DecodeOp`, `DecodeQueue`
* `DecodeQueue.flush` — sends the data of all operations whose slices are set

## Main results

* `DecodeQueue.flush_ne_err`, `DecodeQueue.flush_ne_panic` — flushing succeeds
* `DecodeQueue.All.flush`, `DecodeQueue.All.request` — what holds of all that waits
-/

namespace Mpz

/-- Decode operation. -/
structure DecodeOp where
  /-- The slice to decode. -/
  slice : Slice
  /-- The sender of the channel, until it is used. -/
  chan : Option ℕ
  deriving DecidableEq, Repr

/-- Errors of sending decoded data. -/
inductive DecodeOpError where
  /-- The data is not there. -/
  | store (e : StoreError)
  /-- decode operation was dropped. -/
  | decode
  deriving DecidableEq, Repr

/-- The operations that wait, and the channels. -/
structure DecodeQueue where
  /-- The operations that wait: `buffer_decode`. -/
  buffer : List DecodeOp
  /-- The number of the next channel. -/
  next : ℕ
  /-- What was sent, by channel. -/
  sent : List (ℕ × List Bool)
  deriving DecidableEq, Repr

namespace DecodeQueue

/-- Nothing waits. -/
def new : DecodeQueue := ⟨[], 0, []⟩

/-- `DecodeFuture::new`: the number of a new channel, and its operation. -/
def future (slice : Slice) : Method DecodeQueue DecodeOpError (ℕ × DecodeOp) := do
  let self ← Method.get
  Method.modify fun self => { self with next := self.next + 1 }
  return (self.next, ⟨slice, some self.next⟩)

/-- `op.send(data)` -/
def send (op : DecodeOp) (data : List Bool) : Method DecodeQueue DecodeOpError Unit :=
  match op.chan with
  | some chan => Method.modify fun self => { self with sent := self.sent ++ [(chan, data)] }
  | none => Method.throw .decode

/-- `self.buffer_decode.push(op)` -/
def push (op : DecodeOp) : Method DecodeQueue DecodeOpError Unit :=
  Method.modify fun self => { self with buffer := self.buffer ++ [op] }

/-- If data is already available, sends it immediately. -/
def resolve (dataStore : BitStore) (op : DecodeOp) : Method DecodeQueue DecodeOpError Unit :=
  match dataStore.tryGet op.slice with
  | .ok data => send op data
  | .err _ => push op
  | .panic => Method.panic

/-- A new future, whose operation is sent or waits. -/
def request (dataStore : BitStore) (slice : Slice) : Method DecodeQueue DecodeOpError ℕ := do
  let (fut, op) ← future slice
  resolve dataStore op
  return fut

/-- The loop over the operations from a place in the buffer on. An operation whose slice is set
leaves the buffer before its data is sent; after a failure the others stay. -/
def flushFrom (dataStore : BitStore) :
    List DecodeOp → Method DecodeQueue DecodeOpError (List DecodeOp)
  | [] => return []
  | op :: ops => fun self =>
    if dataStore.isSet op.slice then
      match (dataStore.tryGet op.slice, op.chan) with
      | (.ok data, some chan) =>
        flushFrom dataStore ops { self with sent := self.sent ++ [(chan, data)] }
      | (.ok _, none) => (.err .decode, { self with buffer := self.buffer ++ ops })
      | (.err e, _) => (.err (.store e), { self with buffer := self.buffer ++ ops })
      | (.panic, _) => (.panic, { self with buffer := self.buffer ++ ops })
    else
      flushFrom dataStore ops { self with buffer := self.buffer ++ [op] }

/-- `flush_decode`: sends the data of all operations whose slices are set. -/
def flush (dataStore : BitStore) : Method DecodeQueue DecodeOpError Unit := do
  let self ← Method.get
  Method.modify fun self => { self with buffer := [] }
  let _ ← flushFrom dataStore self.buffer
  return ()

/-- Every operation that waits satisfies `p`. -/
def All (p : DecodeOp → Prop) (self : DecodeQueue) : Prop := ∀ op ∈ self.buffer, p op

/-- An operation that waits has its channel. -/
abbrev Open : DecodeQueue → Prop := All fun op => op.chan.isSome

/-- An operation that waits is about something. -/
abbrev Waiting : DecodeQueue → Prop := All fun op => 0 < op.slice.size

section All

variable {p : DecodeOp → Prop} {dataStore : BitStore}

theorem All.new : DecodeQueue.new.All p := nofun

theorem All.append {q : DecodeQueue} {ops : List DecodeOp} (hq : q.All p)
    (hops : ∀ op ∈ ops, p op) :
    DecodeQueue.All p { q with buffer := q.buffer ++ ops } := fun op hop =>
  (List.mem_append.mp hop).elim (hq op) (hops op)

theorem All.flushFrom {ops : List DecodeOp} {q : DecodeQueue} (hops : ∀ op ∈ ops, p op)
    (hq : q.All p) : (DecodeQueue.flushFrom dataStore ops q).2.All p := by
  induction ops generalizing q with
  | nil => exact hq
  | cons op ops ih =>
    have hrest : ∀ op ∈ ops, p op := fun op hop => hops op (List.mem_cons_of_mem _ hop)
    rw [DecodeQueue.flushFrom]
    split
    case isTrue =>
      split
      · exact ih hrest hq
      · exact hq.append hrest
      · exact hq.append hrest
      · exact hq.append hrest
    case isFalse => exact ih hrest (hq.append (by simpa using hops op List.mem_cons_self))

/-- What waits behind a flush waited before. -/
theorem All.flush (dataStore : BitStore) : (DecodeQueue.flush dataStore).Preserves (All p) := by
  intro q h
  have hall : (DecodeQueue.flushFrom dataStore q.buffer { q with buffer := [] }).2.All p :=
    All.flushFrom h nofun
  rw [DecodeQueue.flush, Method.get_bind, Method.modify_bind, Method.bind_apply]
  rcases hflush : DecodeQueue.flushFrom dataStore q.buffer { q with buffer := [] } with
    ⟨_ | _ | _, q'⟩ <;> rw [hflush] at hall <;> exact hall

theorem All.send (op : DecodeOp) (data : List Bool) :
    (DecodeQueue.send op data).Preserves (All p) := by
  intro q h
  rcases op with ⟨slice, _ | chan⟩ <;> exact h

/-- A request waits where its data is not there, or its data is sent. -/
theorem All.request {slice : Slice}
    (hnew : ∀ e chan, dataStore.tryGet slice = .err e → p ⟨slice, some chan⟩) :
    (DecodeQueue.request dataStore slice).Preserves (All p) := by
  intro q h
  have hresolve : (DecodeQueue.resolve dataStore ⟨slice, some q.next⟩).Preserves (All p) := by
    unfold DecodeQueue.resolve
    cases hget : dataStore.tryGet slice with
    | ok data => exact All.send _ data
    | err e =>
      intro q' hq'
      exact hq'.append fun op hop => List.mem_singleton.mp hop ▸ hnew e _ hget
    | panic => exact Method.Preserves.panic
  exact (hresolve.bind fun _ => Method.Preserves.pure q.next)
    { q with next := q.next + 1 } h

end All

theorem tryGet_ne_err {dataStore : BitStore} {slice : Slice}
    (h : dataStore.isSet slice = true) (e : StoreError) : dataStore.tryGet slice ≠ .err e := by
  rw [Store.tryGet, if_pos (Store.isSet_iff.mp h)]
  cases Mpz.slice dataStore.items slice.toRange <;> simp

theorem flushFrom_ne_err {dataStore : BitStore} {ops : List DecodeOp} {q : DecodeQueue}
    (hops : ∀ op ∈ ops, op.chan.isSome) (e : DecodeOpError) :
    (flushFrom dataStore ops q).1 ≠ .err e := by
  induction ops generalizing q with
  | nil => exact nofun
  | cons op ops ih =>
    have hrest : ∀ op ∈ ops, op.chan.isSome := fun op hop => hops op (List.mem_cons_of_mem _ hop)
    obtain ⟨chan, hchan⟩ := Option.isSome_iff_exists.mp (hops op List.mem_cons_self)
    rw [flushFrom]
    split
    case isTrue hset =>
      cases hget : dataStore.tryGet op.slice with
      | ok data =>
        simp only [hchan]
        exact ih hrest
      | err e => exact absurd hget (tryGet_ne_err hset e)
      | panic => exact nofun
    case isFalse => exact ih hrest

/-- **Flushing returns no error**, as the operations that wait have not been sent. -/
theorem flush_ne_err {dataStore : BitStore} {q : DecodeQueue} (h : q.Open) (e : DecodeOpError) :
    (flush dataStore q).1 ≠ .err e := by
  intro herr
  rw [flush, Method.get_bind, Method.modify_bind, Method.bind_apply] at herr
  rcases hflush : flushFrom dataStore q.buffer { q with buffer := [] } with ⟨_ | e' | _, q'⟩
  · simp [hflush] at herr
  · exact flushFrom_ne_err h e' (congrArg Prod.fst hflush)
  · simp [hflush] at herr

/-- A slice with something in it is not out of bounds where it is set. -/
theorem tryGet_ne_panic {T : Type} {store : Store T} {slice : Slice} (h : 0 < slice.size) :
    store.tryGet slice ≠ .panic := by
  unfold Store.tryGet
  split
  case isFalse => exact nofun
  case isTrue hsub =>
    have hlast : slice.ptr + slice.size - 1 ∈ slice.toRange.toSet := by
      rw [Slice.mem_toRange]
      omega
    have hlt := store.lt_length _ (hsub hlast)
    have hslice : Mpz.slice store.items slice.toRange = some _ :=
      slice_eq_some.mpr ⟨⟨by rw [Slice.start_toRange, Slice.stop_toRange]; omega,
        by rw [Slice.stop_toRange]; omega⟩, rfl⟩
    rw [hslice]
    exact nofun

theorem flushFrom_ne_panic {dataStore : BitStore} {ops : List DecodeOp} {q : DecodeQueue}
    (hops : ∀ op ∈ ops, 0 < op.slice.size) : (flushFrom dataStore ops q).1 ≠ .panic := by
  induction ops generalizing q with
  | nil => exact nofun
  | cons op ops ih =>
    have hrest : ∀ op ∈ ops, 0 < op.slice.size := fun op hop => hops op (List.mem_cons_of_mem _ hop)
    rw [flushFrom]
    split
    case isTrue =>
      cases hget : dataStore.tryGet op.slice with
      | ok data =>
        cases op.chan with
        | none => exact nofun
        | some chan => exact ih hrest
      | err e => exact nofun
      | panic => exact absurd hget (tryGet_ne_panic (hops op List.mem_cons_self))
    case isFalse => exact ih hrest

/-- **Flushing comes back**, as what waits is about something. -/
theorem flush_ne_panic {dataStore : BitStore} {q : DecodeQueue} (h : q.Waiting) :
    (flush dataStore q).1 ≠ .panic := by
  intro hpanic
  rw [flush, Method.get_bind, Method.modify_bind, Method.bind_apply] at hpanic
  rcases hflush : flushFrom dataStore q.buffer { q with buffer := [] } with ⟨_ | e' | _, q'⟩
  · simp [hflush] at hpanic
  · simp [hflush] at hpanic
  · exact flushFrom_ne_panic h (congrArg Prod.fst hflush)

/-- What is not there is about something: an empty slice is always there. -/
theorem size_pos_of_err {T : Type} {store : Store T} {slice : Slice} {e : StoreError}
    (h : store.tryGet slice = .err e) : 0 < slice.size := by
  by_contra hsize
  have hempty : slice.toRange.toSet ⊆ store.set := by
    intro i hi
    rw [Slice.mem_toRange] at hi
    omega
  rw [Store.tryGet, if_pos hempty] at h
  cases hs : Mpz.slice store.items slice.toRange <;> rw [hs] at h <;> cases h

end DecodeQueue

end Mpz
