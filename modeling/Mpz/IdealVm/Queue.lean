import Mpz.IdealVm.Sets

/-!
# What waits in an ideal store

## Main definitions

* `VmStore.Queued` — the requests that wait, and what was sent
* `VmStore.Resolved` — no request waits whose bits are all there
* `VmStore.Writes` — an assignment that comes to the bits

## Main results

* `DecodeQueue.exists_flush` — what flushing does to operations with a channel
* `VmStore.Queued.exists_flushDecode`, `VmStore.Queued.exists_decodeRaw` — after them nothing waits
  that is there
* `VmStore.exists_assignRaw`, `VmStore.exists_sendFlush`, `VmStore.exists_receiveFlush` — what these
  do
-/

namespace Mpz

namespace DecodeQueue

/-- **What flushing does** to operations with a channel: what is not there keeps waiting, and the
data of the others is sent. -/
theorem exists_flushFrom (dataStore : BitStore) {ops : List DecodeOp} {q : DecodeQueue}
    (hops : ∀ op ∈ ops, op.chan.isSome ∧ 0 < op.slice.size) :
    ∃ q', flushFrom dataStore ops q = (.ok [], q') ∧ q'.next = q.next ∧
      (∀ op ∈ q'.buffer, op ∈ q.buffer ∨ op ∈ ops ∧ dataStore.isSet op.slice = false) ∧
      ∀ e ∈ q'.sent, e ∈ q.sent ∨
        ∃ op ∈ ops, op.chan = some e.1 ∧ dataStore.tryGet op.slice = .ok e.2 := by
  induction ops generalizing q with
  | nil => exact ⟨q, rfl, rfl, fun _ h => .inl h, fun _ h => .inl h⟩
  | cons op ops ih =>
    have hrest : ∀ op ∈ ops, op.chan.isSome ∧ 0 < op.slice.size := fun op hop =>
      hops op (List.mem_cons_of_mem _ hop)
    obtain ⟨hchan, hsize⟩ := hops op List.mem_cons_self
    obtain ⟨chan, hchan⟩ := Option.isSome_iff_exists.mp hchan
    cases hset : dataStore.isSet op.slice with
    | true =>
      cases hget : dataStore.tryGet op.slice with
      | ok data =>
        obtain ⟨q', hq', hnext, hbuffer, hsent⟩ :=
          ih hrest (q := { q with sent := q.sent ++ [(chan, data)] })
        refine ⟨q', ?_, hnext, fun o ho => ?_, fun e he => ?_⟩
        · simp only [flushFrom, hset, hget, hchan, if_true]
          exact hq'
        · exact (hbuffer o ho).imp_right fun h => ⟨List.mem_cons_of_mem _ h.1, h.2⟩
        · rcases hsent e he with he | ⟨o, ho, h⟩
          · rcases List.mem_append.mp he with he | he
            · exact .inl he
            · rw [List.mem_singleton.mp he]
              exact .inr ⟨op, List.mem_cons_self, hchan, hget⟩
          · exact .inr ⟨o, List.mem_cons_of_mem _ ho, h⟩
      | err e => exact absurd hget (tryGet_ne_err hset e)
      | panic => exact absurd hget (tryGet_ne_panic hsize)
    | false =>
      obtain ⟨q', hq', hnext, hbuffer, hsent⟩ :=
        ih hrest (q := { q with buffer := q.buffer ++ [op] })
      refine ⟨q', ?_, hnext, fun o ho => ?_, fun e he => ?_⟩
      · simp only [flushFrom, hset, Bool.false_eq_true, if_false]
        exact hq'
      · rcases hbuffer o ho with ho | ho
        · rcases List.mem_append.mp ho with ho | ho
          · exact .inl ho
          · rw [List.mem_singleton.mp ho]
            exact .inr ⟨List.mem_cons_self, hset⟩
        · exact .inr ⟨List.mem_cons_of_mem _ ho.1, ho.2⟩
      · rcases hsent e he with he | ⟨o, ho, h⟩
        · exact .inl he
        · exact .inr ⟨o, List.mem_cons_of_mem _ ho, h⟩

theorem exists_flush (dataStore : BitStore) {q : DecodeQueue}
    (hops : ∀ op ∈ q.buffer, op.chan.isSome ∧ 0 < op.slice.size) :
    ∃ q', flush dataStore q = (.ok (), q') ∧ q'.next = q.next ∧
      (∀ op ∈ q'.buffer, op ∈ q.buffer ∧ dataStore.isSet op.slice = false) ∧
      ∀ e ∈ q'.sent, e ∈ q.sent ∨
        ∃ op ∈ q.buffer, op.chan = some e.1 ∧ dataStore.tryGet op.slice = .ok e.2 := by
  obtain ⟨q', hq', hnext, hbuffer, hsent⟩ := exists_flushFrom dataStore
    (q := { q with buffer := [] }) hops
  refine ⟨q', ?_, hnext, fun op hop => (hbuffer op hop).resolve_left List.not_mem_nil, hsent⟩
  rw [flush, Method.get_bind, Method.modify_bind, Method.bind_apply_of_ok hq']
  rfl

/-- A request for what is there is answered. -/
theorem request_of_ok {dataStore : BitStore} {slice : Slice} {data : List Bool} {q : DecodeQueue}
    (h : dataStore.tryGet slice = .ok data) : request dataStore slice q =
      (.ok q.next, { q with next := q.next + 1, sent := q.sent ++ [(q.next, data)] }) := by
  have hfuture : future slice q =
      (.ok (q.next, ⟨slice, some q.next⟩), { q with next := q.next + 1 }) := rfl
  have hresolve : resolve dataStore ⟨slice, some q.next⟩ { q with next := q.next + 1 } =
      (.ok (), { q with next := q.next + 1, sent := q.sent ++ [(q.next, data)] }) := by
    simp only [resolve, h]
    rfl
  rw [request, Method.bind_apply_of_ok hfuture]
  exact Method.bind_apply_of_ok hresolve

/-- A request for what is not there waits. -/
theorem request_of_err {dataStore : BitStore} {slice : Slice} {e : StoreError} {q : DecodeQueue}
    (h : dataStore.tryGet slice = .err e) : request dataStore slice q =
      (.ok q.next, { q with next := q.next + 1, buffer := q.buffer ++
        [⟨slice, some q.next⟩] }) := by
  have hfuture : future slice q =
      (.ok (q.next, ⟨slice, some q.next⟩), { q with next := q.next + 1 }) := rfl
  have hresolve : resolve dataStore ⟨slice, some q.next⟩ { q with next := q.next + 1 } =
      (.ok (), { q with next := q.next + 1, buffer := q.buffer ++ [⟨slice, some q.next⟩] }) := by
    simp only [resolve, h]
    rfl
  rw [request, Method.bind_apply_of_ok hfuture]
  exact Method.bind_apply_of_ok hresolve

end DecodeQueue

namespace IdealVm

/-- The data of a slice that is there. -/
theorem getElem?_of_tryGet {dataStore : BitStore} {slice : Slice} {data : List Bool}
    (h : dataStore.tryGet slice = .ok data) :
    data.length = slice.size ∧ slice.toRange.toSet ⊆ dataStore.set ∧
      ∀ j, j < slice.size → data[j]? = dataStore.cell (slice.ptr + j) := by
  unfold Store.tryGet at h
  split at h
  case isFalse => cases h
  case isTrue hsub =>
    rw [Outcome.ofOption_eq_ok] at h
    refine ⟨(length_of_slice h).trans (Slice.len_toRange slice), hsub, fun j hj => ?_⟩
    have hmem : slice.ptr + j ∈ slice.toRange.toSet := by
      rw [Slice.mem_toRange]
      omega
    rw [getElem?_slice h (by rw [Slice.len_toRange]; exact hj), Slice.start_toRange, Store.cell,
      if_pos (hsub hmem)]

/-- A slice that is there, and has something in it or lies in the memory, is read. -/
theorem exists_tryGet {dataStore : BitStore} {slice : Slice}
    (hsub : slice.toRange.toSet ⊆ dataStore.set)
    (hle : slice.size = 0 → slice.ptr ≤ dataStore.items.length) :
    ∃ data, dataStore.tryGet slice = .ok data := by
  rcases Nat.eq_zero_or_pos slice.size with hzero | hpos
  · refine ⟨(dataStore.items.drop slice.toRange.start).take slice.toRange.len, ?_⟩
    rw [Store.tryGet, if_pos hsub, Outcome.ofOption_eq_ok]
    exact slice_eq_some.mpr ⟨⟨by simp, by simp [hzero, hle hzero]⟩, rfl⟩
  · cases hget : dataStore.tryGet slice with
    | ok data => exact ⟨data, rfl⟩
    | err e => exact absurd hget (DecodeQueue.tryGet_ne_err (Store.isSet_iff.mpr hsub) e)
    | panic => exact absurd hget (DecodeQueue.tryGet_ne_panic hpos)

namespace VmStore


variable {s : VmStore} {slice : Slice} {data : List Bool}

/-- What waits has a channel and is about something, and what was sent of outputs is what the store
holds. -/
structure Queued (s : VmStore) : Prop where
  next : s.decode.next = s.requests.length
  waiting : ∀ op ∈ s.decode.buffer, ∃ chan, op.chan = some chan ∧ s.requests[chan]? =
    some op.slice ∧
    0 < op.slice.size
  sent : ∀ e ∈ s.decode.sent, ∃ slice, s.requests[e.1]? = some slice ∧ e.2.length = slice.size ∧
    ∀ j < slice.size, slice.ptr + j ∈ s.dataStore.set ∧
      (slice.ptr + j ∈ s.view.output.all → e.2[j]? = s.dataStore.cell (slice.ptr + j))

/-- No request waits whose bits are all there. -/
def Resolved (s : VmStore) :
    Prop := ∀ op ∈ s.decode.buffer, ¬ op.slice.toRange.toSet ⊆ s.dataStore.set

theorem Queued.frame {dataStore : BitStore} {view : View} (h : s.Queued)
    (hset : ∀ i ∈ s.dataStore.set, i ∈ dataStore.set ∧
      (i ∈ view.output.all → i ∈ s.view.output.all ∧ dataStore.cell i = s.dataStore.cell i)) :
    Queued { s with dataStore, view } := by
  refine ⟨h.next, h.waiting, fun e he => ?_⟩
  obtain ⟨slice, hslice, hlen, hall⟩ := h.sent e he
  refine ⟨slice, hslice, hlen, fun j hj => ⟨(hset _ (hall j hj).1).1, fun hout => ?_⟩⟩
  obtain ⟨hout', hcell⟩ := (hset _ (hall j hj).1).2 hout
  exact ((hall j hj).2 hout').trans hcell.symm

/-- **Flushing sends what is there**, and what it sends is what the store holds. -/
theorem Queued.exists_flushDecode (h : s.Queued) :
    ∃ decode, flushDecode s = (.ok (), { s with decode }) ∧ Queued { s with decode } ∧
      Resolved { s with decode } := by
  obtain ⟨q, hq, hnext, hbuffer, hsent⟩ := DecodeQueue.exists_flush s.dataStore
    (q := s.decode) fun op hop => by
      obtain ⟨chan, hchan, -, hsize⟩ := h.waiting op hop
      exact ⟨by rw [hchan]; rfl, hsize⟩
  refine ⟨q, ?_, ⟨hnext.trans h.next, fun op hop => h.waiting op (hbuffer op hop).1,
    fun e he => ?_⟩,
    fun op hop hsub => ?_⟩
  · rw [flushDecode, Method.get_bind, onDecode, Method.zoom_apply, hq, Outcome.mapErr_ok]
  · rcases hsent e he with he | ⟨op, hop, hchan, hget⟩
    · exact h.sent e he
    · obtain ⟨chan, hchan', hslice, -⟩ := h.waiting op hop
      obtain rfl : chan = e.1 := Option.some.inj (hchan'.symm.trans hchan)
      obtain ⟨hlen, hsub, hall⟩ := getElem?_of_tryGet hget
      refine ⟨op.slice, hslice, hlen, fun j hj => ⟨hsub ?_, fun _ => hall j hj⟩⟩
      rw [Slice.mem_toRange]
      omega
  · have hfalse := (hbuffer op hop).2
    rw [Store.isSet_iff.mpr hsub] at hfalse
    cases hfalse

/-- **A request is answered or waits**, according to whether its bits are there. -/
theorem Queued.exists_decodeRaw (h : s.Queued) (hresolved : s.Resolved) (slice : Slice)
    (hle : slice.size = 0 → slice.ptr ≤ s.dataStore.items.length) :
    ∃ decode, decodeRaw slice s =
        (.ok s.decode.next, { s with decode, requests := s.requests ++ [slice] }) ∧
      Queued { s with decode, requests := s.requests ++ [slice] } ∧
      Resolved { s with decode, requests := s.requests ++ [slice] } := by
  have hnew : (s.requests ++ [slice])[s.decode.next]? = some slice := by
    rw [h.next, List.getElem?_concat_length]
  have hold : ∀ {chan : ℕ} {slice' : Slice}, s.requests[chan]? = some slice' →
      (s.requests ++ [slice])[chan]? = some slice' := fun hchan => by
    rw [List.getElem?_append_left (List.getElem?_eq_some_iff.mp hchan).1, hchan]
  have hwaiting : ∀ op ∈ s.decode.buffer, ∃ chan, op.chan = some chan ∧
      (s.requests ++ [slice])[chan]? = some op.slice ∧ 0 < op.slice.size := fun op hop => by
    obtain ⟨chan, hchan, hslice, hsize⟩ := h.waiting op hop
    exact ⟨chan, hchan, hold hslice, hsize⟩
  have hsent : ∀ e ∈ s.decode.sent, ∃ slice', (s.requests ++ [slice])[e.1]? = some slice' ∧
      e.2.length = slice'.size ∧ ∀ j < slice'.size, slice'.ptr + j ∈ s.dataStore.set ∧
        (slice'.ptr + j ∈ s.view.output.all → e.2[j]? = s.dataStore.cell (slice'.ptr + j)) :=
    fun e he => by
      obtain ⟨slice', hslice, hrest⟩ := h.sent e he
      exact ⟨slice', hold hslice, hrest⟩
  have hlen : s.decode.next + 1 = (s.requests ++ [slice]).length := by
    rw [h.next, List.length_append, List.length_singleton]
  have hrun : decodeRaw slice s =
      onDecode (DecodeQueue.request s.dataStore slice) { s with requests := s.requests ++
        [slice] } := rfl
  by_cases hsub : slice.toRange.toSet ⊆ s.dataStore.set
  · obtain ⟨data, hget⟩ := exists_tryGet hsub hle
    obtain ⟨hdata, -, hall⟩ := getElem?_of_tryGet hget
    refine ⟨{ s.decode with
        next := s.decode.next + 1, sent := s.decode.sent ++ [(s.decode.next, data)] }, ?_,
      ⟨hlen, hwaiting, fun e he => ?_⟩, hresolved⟩
    · rw [hrun, onDecode, Method.zoom_apply, DecodeQueue.request_of_ok hget, Outcome.mapErr_ok]
    · rcases List.mem_append.mp he with he | he
      · exact hsent e he
      · rw [List.mem_singleton.mp he]
        refine ⟨slice, hnew, hdata, fun j hj => ⟨hsub ?_, fun _ => hall j hj⟩⟩
        rw [Slice.mem_toRange]
        omega
  · have hget : s.dataStore.tryGet slice = .err (.uninit slice) := by
      rw [Store.tryGet, if_neg hsub]
    refine ⟨{ s.decode with
        next := s.decode.next + 1, buffer := s.decode.buffer ++ [⟨slice, some s.decode.next⟩] }, ?_,
      ⟨hlen, fun op hop => ?_, hsent⟩, fun op hop => ?_⟩
    · rw [hrun, onDecode, Method.zoom_apply, DecodeQueue.request_of_err hget, Outcome.mapErr_ok]
    · rcases List.mem_append.mp hop with hop | hop
      · exact hwaiting op hop
      · rw [List.mem_singleton.mp hop]
        exact ⟨s.decode.next, rfl, hnew, DecodeQueue.size_pos_of_err hget⟩
    · rcases List.mem_append.mp hop with hop | hop
      · exact hresolved op hop
      · rw [List.mem_singleton.mp hop]
        exact hsub

/-! ### Assigned data -/

/-- An assignment that is not refused, and comes to the bits. -/
structure Writes (s : VmStore) (slice : Slice) : Prop where
  visible : slice.toRange.toSet ⊆ s.view.vis.visibleRanges
  output : Disjoint slice.toRange.toSet s.view.output.all
  unset : ¬ slice.toRange.toSet ⊆ s.dataStore.set

/-- **An assignment** that does not write leaves the bits as they are, and one that does leaves its
data. -/
theorem exists_assignRaw (hlen : s.dataStore.items.length = s.view.len)
    (hdata : s.Writes slice → data.length = slice.size) :
    (∃ e, assignRaw slice data s = (.err e, s)) ∨
      ∃ o dataStore, o ≠ .panic ∧ slice.toRange.toSet ⊆ s.view.vis.visibleRanges ∧
        Disjoint slice.toRange.toSet s.view.output.all ∧
        assignRaw slice data s = (o, { s with
          dataStore
          view := { s.view with
            input := { s.view.input with assigned := s.view.input.assigned ∪ slice.toRange.toSet } }
              }) ∧
        dataStore.items.length = s.dataStore.items.length ∧
        (∀ i, i ∈ dataStore.set ↔ i ∈ s.dataStore.set ∨ i ∈ slice.toRange.toSet) ∧
        ∀ i, dataStore.cell i = s.dataStore.cell i ∨
          s.Writes slice ∧ i ∈ slice.toRange.toSet ∧ dataStore.cell i = data[i - slice.ptr]? := by
  rcases View.assign_cases s.view slice.toRange with ⟨⟨e, he⟩, -⟩ | ⟨hvis, hdisj, hok⟩
  · refine .inl ⟨.view e, ?_⟩
    rw [assignRaw, Method.bind_apply, onView, Method.zoom_apply, he, Outcome.mapErr]
  · right
    have hrun : assignRaw slice data s = onData (Store.trySet slice data)
        { s with view := { s.view with input := { s.view.input with
          assigned := s.view.input.assigned ∪ slice.toRange.toSet } } } := by
      rw [assignRaw, Method.bind_apply, onView, Method.zoom_apply, hok, Outcome.mapErr]
    by_cases hset : slice.toRange.toSet ⊆ s.dataStore.set
    · refine ⟨.err (.store (.alreadySet slice)), s.dataStore, (fun h => by cases h), hvis, hdisj,
        ?_, rfl, fun i => ?_, fun i => .inl rfl⟩
      · rw [hrun, onData, Method.zoom_apply, Store.trySet_of_subset hset, Outcome.mapErr]
      · exact (or_iff_left_of_imp fun hi => hset hi).symm
    · have hwrites : s.Writes slice := ⟨hvis, hdisj, hset⟩
      obtain ⟨i, hi, -⟩ := Finset.not_subset.mp hset
      have hpos : slice.ptr < slice.ptr + slice.size := by
        rw [Slice.mem_toRange] at hi
        omega
      have hlast : slice.ptr + slice.size - 1 ∈ slice.toRange.toSet := by
        rw [Slice.mem_toRange]
        omega
      have hle : slice.toRange.stop ≤ s.dataStore.items.length := by
        have hlt := (s.view.vis.cover _).mpr
          (.inr (((s.view.vis.visible_iff _).mp (hvis hlast)).imp_right .inl))
        rw [s.view.len_vis] at hlt
        rw [Slice.stop_toRange, hlen]
        omega
      have hput : Store.trySet slice data s.dataStore =
          (.ok (), s.dataStore.put slice data hle) := by
        rw [Store.trySet_of_le hset hle, if_pos (hdata hwrites)]
      refine ⟨.ok (), s.dataStore.put slice data hle, (fun h => by cases h), hvis, hdisj, ?_,
        Store.length_put hle, fun i => ?_, fun i => ?_⟩
      · rw [hrun, onData, Method.zoom_apply, hput, Outcome.mapErr]
      · rw [Store.set_put, Finset.mem_union]
      · rw [Store.cell_trySet hput]
        split
        case isTrue hi => exact .inr ⟨hwrites, hi, rfl⟩
        case isFalse => exact .inl rfl

/-! ### A flush -/

theorem exists_readRanges {dataStore : BitStore} {ranges : List Range}
    (h : ∀ r ∈ ranges, r.start < r.stop ∧ r.toSet ⊆ dataStore.set) :
    ∃ data, readRanges dataStore ranges = some data ∧
      data.length = (ranges.map Range.len).sum ∧
      ∀ p ∈ (ranges.flatMap Range.indices).zip data, dataStore.cell p.1 = some p.2 := by
  induction ranges with
  | nil => exact ⟨[], rfl, rfl, by simp⟩
  | cons range ranges ih =>
    obtain ⟨hlt, hsub⟩ := h range List.mem_cons_self
    obtain ⟨rest, hrest, hlen, hall⟩ := ih fun r hr => h r (List.mem_cons_of_mem _ hr)
    have hrange : (Slice.fromRange range).toRange = range := Slice.toRange_fromRange hlt.le
    have hsize : (Slice.fromRange range).size = range.len := rfl
    have hpos : 0 < range.len := Nat.sub_pos_of_lt hlt
    have hfrom : (Slice.fromRange range).toRange.toSet ⊆ dataStore.set := by
      rw [hrange]
      exact hsub
    obtain ⟨data, hget⟩ := exists_tryGet hfrom fun hzero => absurd (hsize ▸ hzero) hpos.ne'
    obtain ⟨hdata, -, hcells⟩ := getElem?_of_tryGet hget
    refine ⟨data ++ rest, ?_, ?_, fun p hp => ?_⟩
    · simp [readRanges, hget, hrest]
    · rw [List.length_append, hdata, hlen, List.map_cons, List.sum_cons, hsize]
    · rw [List.flatMap_cons, List.zip_append (by rw [Range.length_indices, hdata, hsize]),
        List.mem_append] at hp
      rcases hp with hp | hp
      · obtain ⟨j, hj⟩ := List.mem_iff_getElem?.mp hp
        obtain ⟨hj1, hj2⟩ := List.getElem?_zip_eq_some.mp hj
        have hjlt : j < range.len := by
          have := (List.getElem?_eq_some_iff.mp hj2).1
          rwa [hdata, hsize] at this
        rw [Range.indices, List.getElem?_range' (show j < range.stop - range.start from hjlt),
          Option.some.injEq, Nat.one_mul] at hj1
        rw [← hj1, ← hj2, hcells j hjlt]
        rfl
      · exact hall p hp

/-- **A flush is sent** when its inputs are there: the bits of the inputs. -/
theorem exists_sendFlush (hpending : s.pending = false)
    (hset : s.view.flush.input ⊆ s.dataStore.set) :
    ∃ input, sendFlush s = (.ok input, { s with pending := true }) ∧
      input.length = s.view.flush.input.card ∧
      ∀ p ∈ s.view.flush.input.indices.zip input, s.dataStore.cell p.1 = some p.2 := by
  have hranges : ∀ r ∈ s.view.flush.input.iter, r.start < r.stop ∧ r.toSet ⊆ s.dataStore.set :=
    fun r hr => ⟨RangeSet.lt_of_mem_iter hr, (RangeSet.toSet_subset_of_mem_iter hr).trans hset⟩
  obtain ⟨input, hread, hlen, hall⟩ := exists_readRanges hranges
  refine ⟨input, ?_, hlen.trans (Store.sum_len_iter _), ?_⟩
  · rw [sendFlush, Method.get_bind, hpending]
    simp only [Bool.false_eq_true, if_false, hread]
    rfl
  · rwa [RangeSet.flatMap_indices_iter] at hall

/-- **A flush is received** when nothing of what the peer sends is there. -/
theorem exists_receiveFlush {input : List Bool} (hpending : s.pending = true)
    (hlen : s.view.flush.peerInput.card = input.length)
    (hitems : ∀ i ∈ s.view.flush.peerInput, i ∉ s.dataStore.set ∧ i < s.dataStore.items.length)
    (hqueued : s.Queued) :
    ∃ dataStore decode, receiveFlush input s = (.ok (),
        { s with dataStore, view := s.view.completeFlush, decode, pending := false }) ∧
      dataStore.items.length = s.dataStore.items.length ∧
      (∀ i, i ∈ dataStore.set ↔ i ∈ s.dataStore.set ∨ i ∈ s.view.flush.peerInput) ∧
      (∀ i ∈ s.dataStore.set, dataStore.cell i = s.dataStore.cell i) ∧
      (∀ i ∈ s.view.flush.peerInput, ∃ a, dataStore.cell i = some a ∧
        (i, a) ∈ s.view.flush.peerInput.indices.zip input) ∧
      Queued { s with dataStore, view := s.view.completeFlush, decode, pending := false } ∧
      Resolved { s with dataStore, view := s.view.completeFlush, decode, pending := false } := by
  have hlt : ∀ r ∈ s.view.flush.peerInput.iter, r.start < r.stop := fun r hr =>
    RangeSet.lt_of_mem_iter hr
  have hwritable : ∀ r ∈ s.view.flush.peerInput.iter, s.dataStore.Writable r := by
    intro r hr
    have hsub := RangeSet.toSet_subset_of_mem_iter hr
    have hrlt := hlt r hr
    refine ⟨fun hset => ?_, ?_⟩
    · have hmem : r.start ∈ r.toSet := by simp [hrlt]
      exact (hitems _ (hsub hmem)).1 (hset hmem)
    · have hmem : r.stop - 1 ∈ r.toSet := by
        rw [Range.mem_toSet]
        omega
      have := (hitems _ (hsub hmem)).2
      omega
  obtain ⟨dataStore, hrun⟩ := (Store.trySetRanges_ok_iff (fun r hr => (hlt r hr).le)
    s.view.flush.peerInput.pairwise_disjoint_iter
    (by rw [Store.sum_len_iter, hlen])).mpr hwritable
  have hset : ∀ i, i ∈ dataStore.set ↔ i ∈ s.dataStore.set ∨ i ∈ s.view.flush.peerInput := by
    intro i
    obtain ⟨hmono, hsub, hok⟩ := Store.set_trySetRanges (fun h => by cases h)
      (fun r hr => (hlt r hr).le) hrun i
    constructor
    · intro hi
      exact (hsub hi).imp_right fun ⟨r, hr, hir⟩ => RangeSet.toSet_subset_of_mem_iter hr hir
    · rintro (hi | hi)
      · exact hmono hi
      · exact hok rfl (RangeSet.exists_mem_iter hi)
  have hzip : ∀ i a, dataStore.cell i = some a →
      s.dataStore.cell i = some a ∨ (i, a) ∈ s.view.flush.peerInput.indices.zip input := by
    intro i a ha
    have := Store.mem_zip_of_trySetRanges (fun h => by cases h) (fun r hr => (hlt r hr).le) hrun ha
    rwa [RangeSet.flatMap_indices_iter] at this
  have hkeep : ∀ i ∈ s.dataStore.set, dataStore.cell i = s.dataStore.cell i := by
    intro i hi
    obtain ⟨a, ha⟩ := Option.isSome_iff_exists.mp (Store.cell_isSome.mpr ((hset i).mpr (.inl hi)))
    rcases hzip i a ha with h | h
    · rw [ha, h]
    · exact absurd hi (hitems i (RangeSet.mem_indices.mp (List.of_mem_zip h).1)).1
  have hqueued' : Queued { s with dataStore, view := s.view.completeFlush } :=
    hqueued.frame fun i hi =>
    ⟨(hset i).mpr (.inl hi), fun hio => ⟨hio, hkeep i hi⟩⟩
  obtain ⟨decode, hflush, hq, hr⟩ := hqueued'.exists_flushDecode
  refine ⟨dataStore, decode, ?_, ?_, hset, hkeep, fun i hi => ?_, ⟨hq.next, hq.waiting, hq.sent⟩,
    hr⟩
  · have hexpect : expect (onData (Store.trySetRanges s.view.flush.peerInput.iter input)) s =
        (.ok (), { s with dataStore }) := by
      rw [expect, onData, Method.zoom_apply, hrun, Outcome.mapErr_ok]
    rw [receiveFlush, Method.get_bind, hpending]
    simp only [Bool.not_true, Bool.false_eq_true, if_false, hlen, ne_eq, not_true_eq_false]
    rw [Method.bind_apply_of_ok hexpect, Method.modify_bind, Method.bind_apply_of_ok hflush]
    rfl
  · exact Store.length_trySetRanges hrun
  · obtain ⟨a, ha⟩ := Option.isSome_iff_exists.mp (Store.cell_isSome.mpr ((hset i).mpr (.inr hi)))
    refine ⟨a, ha, (hzip i a ha).resolve_left fun h => ?_⟩
    exact (hitems i hi).1 (Store.cell_eq_some.mp h).1

end VmStore

end IdealVm

end Mpz
