import Mpz.Garble.EvaluatorStore
import Mpz.Lib.Triple
import Mpz.Zk.VerifierStore

/-!
# Received flushes and panics

A flush comes from the other party, and its parts have lengths of their own. The stores check them
before they index, with one exception: the evaluator takes as many messages from the oblivious
transfer as its view asks for when the flush arrives, which can be more than it had asked for when
it queued the choices.

## Main definitions

* `EvaluatorStore.CotRunsShort` — the messages of the oblivious transfer run short

## Main results

* `received_flush_panic_iff` — when a received flush panics a store
-/

namespace Mpz

namespace Store

variable {T : Type} {s : Store T} {slice : Slice} {data : List T}

/-- A range that holds something is read or refused. -/
theorem tryGet_fromRange_ne_panic {range : Range} (h : range.start < range.stop) :
    s.tryGet (Slice.fromRange range) ≠ .panic :=
  DecodeQueue.tryGet_ne_panic (Nat.sub_pos_of_lt h)

theorem length_of_tryGet (h : s.tryGet slice = .ok data) : data.length = slice.size := by
  unfold tryGet at h
  split at h
  case isTrue =>
    rw [length_of_slice (Outcome.ofOption_eq_ok.mp h), Slice.len_toRange]
  case isFalse => cases h

end Store

/-! ### Loops that come back -/

section Loops

variable {σ ε α T : Type} {P : σ → Prop} {R : ε → σ → Prop}

/-- A loop over ranges comes back where there is enough data and its body comes back. -/
theorem forRanges_triple {f : Slice → List α → Method σ ε Unit} {ranges : List Range}
    {data : List α} (hdata : (ranges.map Range.len).sum ≤ data.length)
    (hf : ∀ range ∈ ranges, ∀ part, part.length = range.len →
      (f (Slice.fromRange range) part).Triple P (fun _ => P) R) :
    (forRanges f ranges data).Triple P (fun _ => P) R := by
  induction ranges generalizing data with
  | nil => exact .pure () fun _ h => h
  | cons range ranges ih =>
    rw [List.map_cons, List.sum_cons] at hdata
    have hpart := Store.slice_take data range.len (by omega)
    refine .bind (Q := fun part s => part.length = range.len ∧ P s) (.call fun s hs => ?_)
      fun part => .bind (Q := fun _ => P) ?_ fun _ => ih ?_ fun r hr =>
        hf r (List.mem_cons_of_mem _ hr)
    · refine .inl ⟨data.take range.len, ?_, List.length_take_of_le (by omega), hs⟩
      rw [Slice.fromRange, hpart, Outcome.ofOption_some]
    · intro s hs
      exact hf range List.mem_cons_self part hs.1 s hs.2
    · show _ ≤ (data.drop range.len).length
      rw [List.length_drop]
      omega

end Loops

namespace KeyStore

variable {s : KeyStore} {range : Range} {bits : List Bool}

theorem tryGet_ne_panic (h : range.start < range.stop) :
    s.tryGet (Slice.fromRange range) ≠ .panic := by
  rw [tryGet]
  have := Store.tryGet_fromRange_ne_panic (s := s.keys) h
  revert this
  cases s.keys.tryGet (Slice.fromRange range) <;> simp

/-- Adjusting a range by bits of its length comes back. -/
theorem adjust_ne_panic (h : range.start < range.stop) (hbits : bits.length = range.len) :
    (adjust (Slice.fromRange range) bits s).1 ≠ .panic := by
  have hget := Store.tryGet_fromRange_ne_panic (s := s.keys) h
  have hsize : ¬ (Slice.fromRange range).size ≠ bits.length := not_not.mpr hbits.symm
  rw [adjust, Method.get_bind, Method.ite_apply, if_neg hsize, onKeys, Method.zoom_apply,
    Store.adjust, Method.get_bind, Method.bind_apply, Method.call_apply]
  revert hget
  cases s.keys.tryGet (Slice.fromRange range) <;> simp

/-- The loop of the verification comes back, with a value for every bit. -/
theorem verifyRanges_ne_panic {ranges : List Range} (hlt : ∀ r ∈ ranges, r.start < r.stop)
    (hbits : (ranges.map Range.len).sum ≤ bits.length) :
    s.verifyRanges ranges bits ≠ .panic ∧ ∀ data bytes,
      s.verifyRanges ranges bits = .ok (data, bytes) →
        data.length = (ranges.map Range.len).sum := by
  induction ranges generalizing bits with
  | nil =>
    refine ⟨(fun h => by cases h), fun data bytes h => ?_⟩
    cases h
    rfl
  | cons range ranges ih =>
    rw [List.map_cons, List.sum_cons] at hbits ⊢
    have hpart := Store.slice_take bits range.len (by omega)
    have hget := tryGet_ne_panic (s := s) (hlt range List.mem_cons_self)
    have hdrop : (ranges.map Range.len).sum ≤ (bits.drop range.len).length := by
      rw [List.length_drop]
      omega
    obtain ⟨hrest, hlen⟩ := ih (fun r hr => hlt r (List.mem_cons_of_mem _ hr)) hdrop
    rw [verifyRanges]
    cases hkeys : s.tryGet (Slice.fromRange range) with
    | panic => exact absurd hkeys hget
    | err e => exact ⟨(fun h => by cases h), (fun _ _ h => by cases h)⟩
    | ok keys =>
      have hkeys' : keys.length = range.len :=
        Store.length_of_tryGet (Outcome.mapErr_eq_ok.mp hkeys)
      simp only [Slice.fromRange, Outcome.ok_bind, hpart, Outcome.ofOption_some]
      cases hverify : s.verifyRanges ranges (bits.drop range.len) with
      | panic => exact absurd hverify hrest
      | err e => exact ⟨(fun h => by cases h), (fun _ _ h => by cases h)⟩
      | ok p =>
        refine ⟨(fun h => by cases h), fun data bytes h => ?_⟩
        cases h
        rw [List.length_append, hlen p.1 p.2 hverify, List.length_zipWith, hkeys',
          List.length_take_of_le (by omega), Nat.min_self]

/-- **The verification comes back**, with as many values as there are bits. -/
theorem verify_ne_panic (blake3 : Blake3) {ranges : RangeSet} (proof : Hash)
    (hbits : bits.length = ranges.card) :
    s.verify blake3 ranges bits proof ≠ .panic ∧ ∀ data,
      s.verify blake3 ranges bits proof = .ok data → data.length = ranges.card := by
  have hsum : (ranges.iter.map Range.len).sum = bits.length := by
    rw [Store.sum_len_iter, hbits]
  obtain ⟨hne, hlen⟩ := verifyRanges_ne_panic (s := s) (fun _ => RangeSet.lt_of_mem_iter) hsum.le
  rw [verify, if_neg (not_not.mpr hbits.symm)]
  split
  · refine ⟨(fun h => by cases h), fun data h => ?_⟩
    cases h
    exact hbits
  · cases hverify : s.verifyRanges ranges.iter bits with
    | panic => exact absurd hverify hne
    | err e => exact ⟨(fun h => by cases h), (fun _ h => by cases h)⟩
    | ok p =>
      obtain ⟨values, bytes⟩ := p
      have hvalues := hlen values bytes hverify
      rw [Outcome.ok_bind]
      dsimp only
      split
      case isTrue => exact ⟨(fun h => by cases h), (fun _ h => by cases h)⟩
      case isFalse =>
        rw [if_neg (by omega)]
        refine ⟨(fun h => by cases h), fun data h => ?_⟩
        cases h
        omega

end KeyStore

/-- Flushing what waits comes back. -/
theorem DecodeQueue.flush_triple (dataStore : BitStore) :
    (DecodeQueue.flush dataStore).Triple DecodeQueue.Waiting (fun _ _ => True) fun _ _ => True :=
  .of_ne_panic fun _ => DecodeQueue.flush_ne_panic

/-- Writing a set with enough data comes back. -/
theorem Store.trySetRanges_triple {T : Type} {data : List T} {set : RangeSet}
    (h : set.card ≤ data.length) (P : Store T → Prop) :
    (Store.trySetRanges set.iter data).Triple P (fun _ _ => True) fun _ _ => True :=
  .of_ne_panic fun _ _ => Store.trySetRanges_iter_ne_panic h

/-! ### The garbler -/

namespace Garble.GarblerStore

variable {C E : Type} {blake3 : Blake3}

theorem receiveProof_triple (proof : Option MacProof) :
    (receiveProof blake3 proof : Method (GarblerStore C) (GarblerStoreError E) Unit).Triple
      (fun s => s.queue.Waiting) (fun _ s => s.queue.Waiting) fun _ _ => True := by
  rcases proof with _ | ⟨bits, hash⟩
  · exact .pure () fun _ h => h
  refine .get_bind fun s hs => .ite (fun _ => .throw _ fun _ _ => trivial) fun hlen => ?_
  obtain ⟨hne, hdata⟩ := KeyStore.verify_ne_panic (s := s.keyStore) blake3 hash
    (not_not.mp hlen)
  refine .bind (Q := fun data t => t.queue.Waiting ∧ data.length = s.view.flush.decode.card)
    (.call ?_) fun data => .zoom fun t ht => ?_
  · rintro t rfl
    cases hverify : t.keyStore.verify blake3 t.view.flush.decode bits hash with
    | ok data => exact .inl ⟨data, rfl, hs, hdata data hverify⟩
    | err e => exact .inr ⟨_, rfl, trivial⟩
    | panic => exact absurd hverify hne
  · exact (Store.trySetRanges_triple ht.2.ge _).conseq (fun _ h => h) (fun _ _ _ => ht.1)
      fun _ _ _ => trivial

/-- **A flush that is received does not panic the garbler.** -/
theorem receiveFlush_triple (flush : EvaluatorFlush) :
    (receiveFlush blake3 flush : Method (GarblerStore C) (GarblerStoreError E) Unit).Triple
      (fun s => s.queue.Waiting) (fun _ _ => True) fun _ _ => True := by
  refine .get_bind fun s hs => .ite (fun _ => .throw _ fun _ _ => trivial) fun _ => ?_
  refine .bind ((receiveProof_triple flush.macProof).conseq (fun t ht => ht ▸ hs)
    (fun _ _ h => h) fun _ _ h => h) fun _ => ?_
  refine .bind (Q := fun _ s => s.queue.Waiting) (.zoom fun t ht => .modify fun _ _ => ht) fun _ =>
    ?_
  refine .bind (Q := fun _ _ => True) (.get_bind fun t ht => .zoom ?_) fun _ =>
    .modify fun _ _ => trivial
  rintro u rfl
  exact (DecodeQueue.flush_triple _).conseq (fun _ h => h ▸ ht) (fun _ _ h => h) fun _ _ h => h

end Garble.GarblerStore

/-! ### The verifier -/

namespace Zk.VerifierStore

variable {env : CheckEnv} {blake3 : Blake3}

theorem receiveProof_triple {prove : RangeSet} {proof : Option (List Bool × Hash)}
    (hproof : ∀ bits hash, proof = some (bits, hash) → bits.length = prove.card) :
    (receiveProof blake3 prove proof).Triple (fun s => s.queue.Waiting)
      (fun _ s => s.queue.Waiting) fun _ _ => True := by
  rcases proof with _ | ⟨bits, hash⟩
  · exact .pure () fun _ h => h
  refine .get_bind fun s hs => ?_
  obtain ⟨hne, hdata⟩ := KeyStore.verify_ne_panic (s := s.keyStore) blake3 hash
    (hproof bits hash rfl)
  refine .bind (Q := fun data t => t.queue.Waiting ∧ data.length = prove.card)
    (.call ?_) fun data => .zoom fun t ht => ?_
  · rintro t rfl
    cases hverify : t.keyStore.verify blake3 prove bits hash with
    | ok data => exact .inl ⟨data, rfl, hs, hdata data hverify⟩
    | err e => exact .inr ⟨_, rfl, trivial⟩
    | panic => exact absurd hverify hne
  · exact (Store.trySetRanges_triple ht.2.ge _).conseq (fun _ h => h) (fun _ _ _ => ht.1)
      fun _ _ _ => trivial

/-- **A flush that passes the validation does not panic the verifier.** -/
theorem receiveFlush_triple {value flush : ProverFlush} (h : value.tryFrom = .ok flush) :
    (receiveFlush env blake3 flush).Triple (fun s => s.queue.Waiting) (fun _ _ => True)
      fun _ _ => True := by
  obtain ⟨-, hadjust, hproof⟩ := ProverFlush.tryFrom_eq_ok h
  refine .get_bind fun s hs => .ite (fun _ => .throw _ fun _ _ => trivial) fun _ =>
    .ite (fun _ => .throw _ fun _ _ => trivial) fun _ => ?_
  refine .bind (Q := fun _ s => s.queue.Waiting) (.bind (Q := fun _ s => s.queue.Waiting) ?adjust
    fun _ => .bind (Q := fun _ s => s.queue.Waiting) (.modify fun _ ht => ht) fun _ => ?proof)
    fun _ => .bind (Q := fun _ s => s.queue.Waiting) (.zoom fun t ht => .modify fun _ _ => ht)
      fun _ => .bind (Q := fun _ _ => True) (.get_bind fun t ht => .zoom ?flush) fun _ =>
        .modify fun _ _ => trivial
  case adjust =>
    refine .zoom fun t ht => ?_
    refine Method.Triple.conseq (P := fun _ => True) (Q := fun _ _ => True)
      (R := fun _ _ => True) (forRanges_triple ?_ fun range hr part hpart => ?_)
      (fun _ _ => trivial) (fun _ _ _ => ht ▸ hs) fun _ _ _ => trivial
    · rw [Store.sum_len_iter, hadjust]
    · exact .of_ne_panic fun _ _ => KeyStore.adjust_ne_panic (RangeSet.lt_of_mem_iter hr) hpart
  case proof =>
    refine receiveProof_triple fun bits hash hsome => ?_
    rw [← hproof, ProverFlush.proofBits, hsome]
  case flush =>
    rintro u rfl
    exact (DecodeQueue.flush_triple _).conseq (fun _ h => h ▸ ht) (fun _ _ h => h) fun _ _ h => h

end Zk.VerifierStore

/-! ### The evaluator -/

namespace Garble.EvaluatorStore

variable {C E F : Type} {blake3 : Blake3} {s t : EvaluatorStore C F}

/-- There are messages for a COT, and too few of them for what is now to be received by COT. It
comes to that where the MACs that are sent directly are stored. -/
def CotRunsShort [COTReceiver C E F] (self : EvaluatorStore C F) (flush : GarblerFlush) : Prop :=
  ∃ cot msgs, self.pending = some ⟨some cot⟩ ∧ flush.macs.length = self.view.flush.macs.card ∧
    (∀ range ∈ self.view.flush.macs.iter, self.macStore.macs.Writable range) ∧
    COTReceiver.tryRecv cot self.cot = .ok (some msgs) ∧
    self.macStore.macs.RunsShort self.view.flush.ot.iter msgs.length

/-- MACs are received if there are as many as expected and they can be written. -/
theorem receiveMacs_cases (macs : List Mac) (s : EvaluatorStore C F) :
    (macs.length = s.view.flush.macs.card ∧
        (∀ range ∈ s.view.flush.macs.iter, s.macStore.macs.Writable range) ∧
        ∃ m : Store Mac, receiveMacs (E := E) macs s = (.ok (), { s with macStore := ⟨m⟩ }) ∧
          m.items.length = s.macStore.macs.items.length ∧
          ∀ i, i ∈ m.set ↔ i ∈ s.macStore.macs.set ∨ i ∈ s.view.flush.macs) ∨
      ¬ (macs.length = s.view.flush.macs.card ∧
        ∀ range ∈ s.view.flush.macs.iter, s.macStore.macs.Writable range) ∧
        ∃ e t, receiveMacs (E := E) macs s = (.err e, t) := by
  rw [receiveMacs, Method.get_bind, Method.ite_apply]
  split
  case isTrue hlen => exact .inr ⟨fun h => hlen h.1, _, _, rfl⟩
  case isFalse hlen =>
    have hlen := not_not.mp hlen
    have hle : ∀ r ∈ s.view.flush.macs.iter, r.start ≤ r.stop := fun r hr =>
      (RangeSet.lt_of_mem_iter hr).le
    have hmacs : (s.view.flush.macs.iter.map Range.len).sum ≤ macs.length := by
      rw [Store.sum_len_iter, hlen]
    have hok := Store.trySetRanges_ok_iff (s := s.macStore.macs) hle
      s.view.flush.macs.pairwise_disjoint_iter hmacs
    rw [onMacs, Method.zoom_apply, MacStore.onMacs, Method.zoom_apply]
    rcases hset : Store.trySetRanges s.view.flush.macs.iter macs s.macStore.macs with ⟨u | e | _, m⟩
    · refine .inl ⟨hlen, hok.mp ⟨m, hset⟩, m, rfl, Store.length_trySetRanges hset, fun i => ?_⟩
      obtain ⟨hmono, hsub, hall⟩ :=
        Store.set_trySetRanges (o := .ok u) (fun h => by cases h) hle hset i
      constructor
      · intro hi
        refine (hsub hi).imp_right ?_
        rintro ⟨r, hr, hi⟩
        exact RangeSet.toSet_subset_of_mem_iter hr hi
      · exact fun hi => hi.elim hmono fun hi => hall rfl (RangeSet.exists_mem_iter hi)
    · refine .inr ⟨fun h => ?_, _, _, rfl⟩
      obtain ⟨m', hset'⟩ := hok.mpr h.2
      rw [hset] at hset'
      cases hset'
    · exact absurd (congrArg Prod.fst hset) (Store.trySetRanges_iter_ne_panic hlen.ge)

theorem receiveCot_panic_iff [COTReceiver C E F]
    (hrecv : ∀ (cot : F) (c : C), COTReceiver.tryRecv cot c ≠ .panic) (cot : Option F) :
    (receiveCot cot s).1 = .panic ↔ ∃ cot' msgs, cot = some cot' ∧
      COTReceiver.tryRecv cot' s.cot = .ok (some msgs) ∧
      s.macStore.macs.RunsShort s.view.flush.ot.iter msgs.length := by
  rcases cot with _ | cot
  · refine iff_of_false (fun h => by cases h) ?_
    rintro ⟨cot', msgs, heq, -⟩
    cases heq
  rw [receiveCot, Method.get_bind, Method.bind_apply, Method.call_apply]
  rcases hmsgs : COTReceiver.tryRecv cot s.cot with (_ | msgs) | e | _
  · refine iff_of_false (fun h => by cases h) ?_
    rintro ⟨cot', msgs, heq, hmsgs', -⟩
    cases heq
    rw [hmsgs] at hmsgs'
    cases hmsgs'
  · have hpanic : (Store.trySetRanges s.view.flush.ot.iter (msgs.map Mac.mk) s.macStore.macs).1 =
        .panic ↔ s.macStore.macs.RunsShort s.view.flush.ot.iter msgs.length := by
      rw [Store.trySetRanges_iter_panic_iff, List.length_map]
    have hcall : (onMacs (MacStore.onMacs (Store.trySetRanges s.view.flush.ot.iter
        (msgs.map Mac.mk))) s : Outcome (EvaluatorStoreError E) Unit × _).1 = .panic ↔
        (Store.trySetRanges s.view.flush.ot.iter (msgs.map Mac.mk) s.macStore.macs).1 = .panic := by
      rw [onMacs, Method.zoom_apply, MacStore.onMacs, Method.zoom_apply]
      cases (Store.trySetRanges s.view.flush.ot.iter (msgs.map Mac.mk) s.macStore.macs).1 <;> simp
    refine (hcall.trans hpanic).trans ⟨fun h => ⟨cot, msgs, rfl, hmsgs, h⟩, ?_⟩
    rintro ⟨cot', msgs', heq, hmsgs', h⟩
    cases heq
    rw [hmsgs] at hmsgs'
    cases hmsgs'
    exact h
  · refine iff_of_false (fun h => by cases h) ?_
    rintro ⟨cot', msgs, heq, hmsgs', -⟩
    cases heq
    rw [hmsgs] at hmsgs'
    cases hmsgs'
  · exact absurd hmsgs (hrecv cot s.cot)

/-- The decode info is written range by range where there is enough of it. -/
theorem setDecodeInfo_triple {ranges : List Range} {keyBits : List Bool}
    {macCommitments : List MacCommitment} (hbits : (ranges.map Range.len).sum ≤ keyBits.length)
    (hcommitments : (ranges.map Range.len).sum ≤ macCommitments.length)
    (P : EvaluatorStore C F → Prop) :
    (setDecodeInfo ranges keyBits macCommitments :
      Method (EvaluatorStore C F) (EvaluatorStoreError E) Unit).Triple P (fun _ _ => True)
      fun _ _ => True := by
  induction ranges generalizing keyBits macCommitments P with
  | nil => exact .pure () fun _ _ => trivial
  | cons range ranges ih =>
    rw [List.map_cons, List.sum_cons] at hbits hcommitments
    have hbit := Store.slice_take keyBits range.len (by omega)
    have hcommitment := Store.slice_take macCommitments range.len (by omega)
    have htake : ∀ {T : Type} {data : List T}, range.len ≤ data.length →
        ∀ s : Store T, (Store.trySet (Slice.fromRange range) (data.take range.len) s).1 ≠
          .panic := by
      intro T data hle s
      have hlen : (data.take range.len).length = (Slice.fromRange range).size :=
        List.length_take_of_le hle
      rcases Store.trySet_of_length (s := s) hlen with ⟨-, t, h⟩ | ⟨-, e, h⟩ <;>
        rw [h] <;> exact nofun
    refine .bind (Q := fun bits _ => bits = keyBits.take range.len) (.call fun s _ => ?_)
      fun bits => .bind (Q := fun _ _ => True) (.zoom fun s hs => ?_) fun _ =>
        .bind (Q := fun commitments _ => commitments = macCommitments.take range.len)
          (.call fun s _ => ?_) fun commitments =>
            .bind (Q := fun _ _ => True) (.zoom fun s hs => ?_) fun _ => ih ?_ ?_ _
    · exact .inl ⟨_, by rw [Slice.fromRange, hbit, Outcome.ofOption_some], rfl⟩
    · exact hs ▸ .of_ne_panic fun s _ => htake (by omega) s
    · exact .inl ⟨_, by rw [Slice.fromRange, hcommitment, Outcome.ofOption_some], rfl⟩
    · exact hs ▸ .of_ne_panic fun s _ => htake (by omega) s
    · show _ ≤ (keyBits.drop range.len).length
      rw [List.length_drop]
      omega
    · show _ ≤ (macCommitments.drop range.len).length
      rw [List.length_drop]
      omega

theorem receiveDecodeInfo_triple (keyBits : List Bool) (macCommitments : List MacCommitment)
    (P : EvaluatorStore C F → Prop) :
    (receiveDecodeInfo keyBits macCommitments :
      Method (EvaluatorStore C F) (EvaluatorStoreError E) Unit).Triple P (fun _ _ => True)
      fun _ _ => True := by
  refine .get_bind fun s hs => .ite (fun _ => .throw _ fun _ _ => trivial) fun hbits =>
    .ite (fun _ => .throw _ fun _ _ => trivial) fun hcommitments => ?_
  refine setDecodeInfo_triple ?_ ?_ _
  · rw [Store.sum_len_iter, not_not.mp hbits]
  · rw [Store.sum_len_iter, not_not.mp hcommitments]

theorem checkCommitments_ne_panic {id : ℕ} {l : List ((Mac × Bool) × MacCommitment)} :
    checkCommitments blake3 id l ≠ .panic := by
  induction l generalizing id with
  | nil => exact nofun
  | cons entry l ih =>
    obtain ⟨⟨mac, bit⟩, commitment⟩ := entry
    have hcheck : commitment.check blake3 id bit mac ≠ .panic := by
      unfold MacCommitment.check
      split_ifs <;> simp
    rw [checkCommitments]
    cases hc : commitment.check blake3 id bit mac with
    | ok u => exact ih
    | err e => exact nofun
    | panic => exact absurd hc hcheck

/-- What is decoded is as long as its range. -/
theorem decodeRange_triple {range : Range} (hlt : range.start < range.stop) :
    (decodeRange blake3 range : Method (EvaluatorStore C F) (EvaluatorStoreError E) Unit).Triple
      (fun s => s.queue.Waiting) (fun _ s => s.queue.Waiting) fun _ _ => True := by
  refine .get_bind fun s hs => ?_
  have hmacs : s.macStore.tryGet (Slice.fromRange range) ≠ .panic :=
    fun h => Store.tryGet_fromRange_ne_panic hlt (Outcome.mapErr_eq_panic.mp h)
  let Read (macBits keyBits : List Bool) (t : EvaluatorStore C F) : Prop :=
    t = s ∧ macBits.length = range.len ∧ keyBits.length = range.len
  refine .bind (Q := fun macBits t => t = s ∧ macBits.length = range.len)
    (.call_of_ne_panic (fun _ _ => ?_) fun t macBits ht h => ⟨ht, ?_⟩) fun macBits =>
    .bind (Q := Read macBits)
      (.call_of_ne_panic (fun _ _ => ?_) fun t keyBits ht h => ⟨ht.1, ht.2, ?_⟩) fun keyBits =>
    .bind (Q := fun _ => Read macBits keyBits)
      (.call_of_ne_panic (fun _ _ => ?_) fun _ _ ht _ => ht) fun macs =>
    .bind (Q := fun _ => Read macBits keyBits)
      (.call_of_ne_panic (fun _ _ => ?_) fun _ _ ht _ => ht) fun commitments =>
    .bind (Q := fun _ => Read macBits keyBits)
      (.call_of_ne_panic (fun _ _ => ?_) fun _ _ ht _ => ht) fun _ => .zoom fun t ht => ?_
  · rw [ne_eq, Outcome.mapErr_eq_panic, MacStore.tryGetBits]
    cases h : s.macStore.tryGet (Slice.fromRange range) with
    | panic => exact absurd h hmacs
    | _ => simp
  · obtain ⟨macs, hget, hbits⟩ := Outcome.bind_eq_ok.mp (Outcome.mapErr_eq_ok.mp h)
    cases hbits
    rw [List.length_map]
    exact Store.length_of_tryGet (Outcome.mapErr_eq_ok.mp hget)
  · rw [ne_eq, Outcome.mapErr_eq_panic]
    exact Store.tryGet_fromRange_ne_panic hlt
  · exact Store.length_of_tryGet (Outcome.mapErr_eq_ok.mp h)
  · rw [ne_eq, Outcome.mapErr_eq_panic]
    exact hmacs
  · rw [ne_eq, Outcome.mapErr_eq_panic]
    exact Store.tryGet_fromRange_ne_panic hlt
  · rw [ne_eq, Outcome.mapErr_eq_panic]
    exact checkCommitments_ne_panic
  · obtain ⟨rfl, hmac, hkey⟩ := ht
    refine (Method.Triple.of_ne_panic (P := fun _ => True) fun d _ => ?_).conseq
      (fun _ _ => trivial) (fun _ _ _ => hs) fun _ _ _ => trivial
    have hlen : (List.zipWith (fun bit macBit => bit ^^ macBit) keyBits macBits).length =
        (Slice.fromRange range).size := by
      rw [List.length_zipWith, hmac, hkey, Nat.min_self]
      rfl
    rcases Store.trySet_of_length (s := d) hlen with ⟨-, d', h⟩ | ⟨-, e, h⟩ <;>
      rw [h] <;> exact nofun

/-- What is left to do behind a flush comes back. -/
theorem finishFlush_triple :
    (finishFlush blake3 : Method (EvaluatorStore C F) (EvaluatorStoreError E) Unit).Triple
      (fun s => s.queue.Waiting) (fun _ _ => True) fun _ _ => True := by
  refine .bind (Q := fun _ s => s.queue.Waiting) (.zoom fun s hs => .modify fun _ _ => hs)
    fun _ => .bind (Q := fun _ s => s.queue.Waiting) ?_ fun _ => .get_bind fun s hs => .zoom ?_
  · exact .get_bind fun s hs => (Method.Triple.forEach fun range hr =>
      decodeRange_triple (RangeSet.lt_of_mem_iter hr)).conseq (fun _ h => h ▸ hs)
        (fun _ _ h => h) fun _ _ h => h
  · rintro t rfl
    exact (DecodeQueue.flush_triple _).conseq (fun _ h => h ▸ hs) (fun _ _ h => h) fun _ _ h => h

/-- The message panics where it comes to the messages of the COT and they run short. -/
theorem receiveMessage_panic_iff [COTReceiver C E F]
    (hrecv : ∀ (cot : F) (c : C), COTReceiver.tryRecv cot c ≠ .panic) (hview : s.view.Inv)
    (cot : Option F) (flush : GarblerFlush) :
    (receiveMessage cot flush s).1 = .panic ↔
      flush.macs.length = s.view.flush.macs.card ∧
        (∀ range ∈ s.view.flush.macs.iter, s.macStore.macs.Writable range) ∧
        ∃ cot' msgs, cot = some cot' ∧ COTReceiver.tryRecv cot' s.cot = .ok (some msgs) ∧
          s.macStore.macs.RunsShort s.view.flush.ot.iter msgs.length := by
  have hinfo : ∀ s' : EvaluatorStore C F,
      (receiveDecodeInfo (E := E) flush.keyBits flush.macCommitments s').1 ≠ .panic :=
    fun s' => (receiveDecodeInfo_triple _ _ fun _ => True).ne_panic trivial
  -- An input has its MAC sent directly or by COT, so the first loop leaves the second as it was.
  have hdisj : ∀ i ∈ s.view.flush.ot, i ∉ s.view.flush.macs := by
    intro i hot hmacs
    have hev := (hview i).ot hot
    obtain ⟨hpub | hgb, -⟩ := (hview i).macs hmacs
    · exact ((hview i).publicInputs hpub).2 hev.1
    · exact (hview i).garblerInputs hgb hev.1
  rw [receiveMessage, Method.bind_panic_iff]
  rcases receiveMacs_cases (E := E) flush.macs s with ⟨hlen, hw, m, hok, hm, hset⟩ | ⟨hno, e,
    t, herr⟩
  · have hcongr : ∀ n, m.RunsShort s.view.flush.ot.iter n ↔
        s.macStore.macs.RunsShort s.view.flush.ot.iter n := fun n =>
      Store.RunsShort.congr hm fun r hr i hi => by
        rw [hset, or_iff_left (hdisj i (RangeSet.toSet_subset_of_mem_iter hr hi))]
    rw [hok]
    constructor
    · rintro (h | ⟨u, s', h, hpanic⟩)
      · cases h
      · cases h
        refine ⟨hlen, hw, ?_⟩
        rcases Method.bind_panic_iff.mp hpanic with hcot | ⟨u, s', -, h⟩
        · obtain ⟨cot', msgs, hsome, hmsgs, hshort⟩ := (receiveCot_panic_iff hrecv cot).mp hcot
          exact ⟨cot', msgs, hsome, hmsgs, (hcongr _).mp hshort⟩
        · exact absurd h (hinfo s')
    · rintro ⟨-, -, cot', msgs, hsome, hmsgs, hshort⟩
      refine .inr ⟨(), _, rfl, Method.bind_panic_iff.mpr (.inl ?_)⟩
      exact (receiveCot_panic_iff hrecv cot).mpr ⟨cot', msgs, hsome, hmsgs, (hcongr _).mpr hshort⟩
  · rw [herr]
    refine iff_of_false ?_ fun h => hno ⟨h.1, h.2.1⟩
    rintro (h | ⟨u, s', h, -⟩) <;> cases h

/-- **When a flush panics the evaluator.** -/
theorem receiveFlush_panic_iff [COTReceiver C E F]
    (hrecv : ∀ (cot : F) (c : C), COTReceiver.tryRecv cot c ≠ .panic) (hview : s.view.Inv)
    (hqueue : s.queue.Waiting) (flush : GarblerFlush) :
    (receiveFlush blake3 flush s).1 = .panic ↔ s.CotRunsShort flush := by
  rw [receiveFlush, Method.get_bind, Method.modify_bind]
  rcases hpending : s.pending with _ | pending
  · refine iff_of_false (fun h => by cases h) ?_
    rintro ⟨cot, msgs, h, -⟩
    rw [hpending] at h
    cases h
  · have hfinish : ∀ s', receiveMessage (E := E) pending.cot flush { s with pending := none } =
        (.ok (), s') → (finishFlush (E := E) blake3 s').1 ≠ .panic := by
      intro s' h
      have hkeeps := ((receiveMessage_keeps (E := E) pending.cot flush).map fun p => p.2.2.2.1).eq h
      have hqueue' : s'.queue = s.queue := hkeeps
      refine finishFlush_triple.ne_panic ?_
      rwa [hqueue']
    refine Method.bind_panic_iff.trans ((or_iff_left ?_).trans ?_)
    · rintro ⟨u, s', h, hpanic⟩
      exact hfinish s' h hpanic
    · refine (receiveMessage_panic_iff (s := { s with pending := none }) hrecv hview _ _).trans ?_
      constructor
      · rintro ⟨hlen, hw, cot, msgs, hcot, hmsgs, hshort⟩
        obtain ⟨cot'⟩ := pending
        cases hcot
        exact ⟨cot, msgs, hpending, hlen, hw, hmsgs, hshort⟩
      · rintro ⟨cot, msgs, hsome, hlen, hw, hmsgs, hshort⟩
        rw [hpending] at hsome
        cases hsome
        exact ⟨hlen, hw, cot, msgs, rfl, hmsgs, hshort⟩

end Garble.EvaluatorStore

/-- **When a received flush panics a store.** It never panics the verifier or the garbler, and it
panics the evaluator exactly when the messages of the COT run short. -/
theorem received_flush_panic_iff (blake3 : Blake3) :
    (∀ (env : Zk.CheckEnv) (delta : Delta) (ops : List Zk.VerifierStore.Op)
      (s : Zk.VerifierStore) (value flush : Zk.ProverFlush),
      Run (Zk.VerifierStore.Step env blake3) (.new delta) ops s → value.tryFrom = .ok flush →
      (Zk.VerifierStore.receiveFlush env blake3 flush s).1 ≠ .panic) ∧
    (∀ {C E : Type} [COTSender C E] (prg : ℕ → Block) (delta : Delta) (cot : C)
      (ops : List (Garble.GarblerStore.Op C)) (s : Garble.GarblerStore C)
      (flush : Garble.EvaluatorFlush),
      Run (Garble.GarblerStore.Step blake3) (.new prg delta cot) ops s →
      (Garble.GarblerStore.receiveFlush (E := E) blake3 flush s).1 ≠ .panic) ∧
    ∀ {C E F : Type} [COTReceiver C E F] (cot : C)
      (ops : List (Garble.EvaluatorStore.Op C)) (s : Garble.EvaluatorStore C F)
      (flush : Garble.GarblerFlush),
      (∀ (cot : F) (c : C), COTReceiver.tryRecv cot c ≠ .panic) →
      Run (Garble.EvaluatorStore.Step blake3) (.new cot) ops s →
      ((Garble.EvaluatorStore.receiveFlush blake3 flush s).1 ≠ .panic ↔
        ¬ s.CotRunsShort flush) := by
  have hnew : ∀ (d : BitStore) slice e (_ : ℕ), d.tryGet slice = .err e → 0 < slice.size :=
    fun _ _ _ _ h => DecodeQueue.size_pos_of_err h
  refine ⟨?verifier, ?garbler, ?evaluator⟩
  case verifier =>
    intro env delta ops s value flush hrun hvalue
    have hqueue : s.queue.Waiting :=
      hrun.invariant (P := fun s => s.queue.Waiting) DecodeQueue.All.new fun s op t hs hstep =>
        hstep ▸ op.run_queue hnew env blake3 s hs
    exact (Zk.VerifierStore.receiveFlush_triple hvalue).ne_panic hqueue
  case garbler =>
    intro C E _ prg delta cot ops s flush hrun
    have hqueue : s.queue.Waiting :=
      hrun.invariant (P := fun s => s.queue.Waiting) DecodeQueue.All.new fun s op t hs hstep =>
        hstep ▸ op.run_queue hnew blake3 s hs
    exact (Garble.GarblerStore.receiveFlush_triple flush).ne_panic hqueue
  case evaluator =>
    intro C E F _ cot ops s flush hrecv hrun
    have hqueue : s.queue.Waiting :=
      hrun.invariant (P := fun s => s.queue.Waiting) DecodeQueue.All.new fun s op t hs hstep =>
        hstep ▸ op.run_queue hnew blake3 s hs
    exact not_congr (Garble.EvaluatorStore.receiveFlush_panic_iff hrecv
      (Garble.EvaluatorStore.inv_of_run hrun) hqueue flush)

theorem IdealCOTReceiver.tryRecv_ne_panic (future : ℕ) (c : IdealCOTReceiver) :
    COTReceiver.tryRecv future c ≠ .panic := nofun

/-- The choice of one bit is sent and answered. -/
def IdealCOTReceiver.answered : IdealCOTReceiver :=
  (IdealCOTReceiver.flush ⟨1, [[8]]⟩ ⟨1, [(0, [true])], []⟩).2

/-- The operations of an evaluator that sends a flush and has its choices answered. -/
def Garble.EvaluatorStore.answeredOps (between : List (Garble.EvaluatorStore.Op IdealCOTReceiver)) :
    List (Garble.EvaluatorStore.Op IdealCOTReceiver) :=
  [.allocRaw 2, .markRaw .priv ⟨0, 2⟩, .assignRaw ⟨0, 2⟩ [true, true], .commitRaw ⟨0, 1⟩,
    .sendFlush] ++ between ++ [.acquireCot .answered]

/-- Operations lead somewhere, whatever they return. -/
theorem Garble.EvaluatorStore.run_foldl
    (ops : List (Garble.EvaluatorStore.Op IdealCOTReceiver)) :
    Run (Garble.EvaluatorStore.Step fun _ => 0) (.new .new) ops
      (ops.foldl (fun s op => (op.run (fun _ => 0) s).2) (.new .new)) :=
  .of_foldl (fun _ _ => rfl) _ ops

/-- One bit is asked for, and one is received. -/
theorem received_flush_panic_iff_answered :
    ∃ s : Garble.EvaluatorStore IdealCOTReceiver ℕ,
      Run (Garble.EvaluatorStore.Step fun _ => 0) (.new .new)
        (Garble.EvaluatorStore.answeredOps []) s ∧
      (Garble.EvaluatorStore.receiveFlush (fun _ => 0) ⟨[], [], []⟩ s).1 = .ok () ∧
      ¬ s.CotRunsShort ⟨[], [], []⟩ := by
  obtain ⟨s, hrun, hok⟩ : ∃ s : Garble.EvaluatorStore IdealCOTReceiver ℕ,
      Run (Garble.EvaluatorStore.Step fun _ => 0) (.new .new)
        (Garble.EvaluatorStore.answeredOps []) s ∧
      (Garble.EvaluatorStore.receiveFlush (fun _ => 0) ⟨[], [], []⟩ s).1 = .ok () :=
    ⟨_, Garble.EvaluatorStore.run_foldl _, by decide +kernel⟩
  refine ⟨s, hrun, hok, ?_⟩
  have hne : (Garble.EvaluatorStore.receiveFlush (fun _ => 0) ⟨[], [], []⟩ s).1 ≠ .panic := by
    rw [hok]
    exact nofun
  exact ((received_flush_panic_iff _).2.2 _ _ s ⟨[], [], []⟩ IdealCOTReceiver.tryRecv_ne_panic
    hrun).mp hne

/-- **A flush that panics.** A second bit is committed while the choice of the first is in flight.
The one message that arrives is cut where two are expected. -/
theorem received_flush_panics :
    ∃ s : Garble.EvaluatorStore IdealCOTReceiver ℕ,
      Run (Garble.EvaluatorStore.Step fun _ => 0) (.new .new)
        (Garble.EvaluatorStore.answeredOps [.commitRaw ⟨1, 1⟩]) s ∧
      s.view.flush.ot = {0, 1} ∧
      (Garble.EvaluatorStore.receiveFlush (fun _ => 0) ⟨[], [], []⟩ s).1 = .panic :=
  ⟨_, Garble.EvaluatorStore.run_foldl _, by decide +kernel, by decide +kernel⟩

end Mpz
