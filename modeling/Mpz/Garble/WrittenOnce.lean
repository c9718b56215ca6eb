import Mpz.Garble.Decoded
import Mpz.Garble.EvaluatorStore
import Mpz.Garble.NothingTwice
import Mpz.Lib.Triple

/-!
# What is proven twice

Where a flush repeats nothing, neither store sets anything that is set: the evaluator has MACs of
committed inputs and of outputs, and key bits where decode info was sent, and the garbler has the
bits that it can see and those that were proven to it. Where a flush does repeat something, it is
refused, and what it is about is never decoded.

## Main definitions

* `GarblerStore.WrittenOnce`, `EvaluatorStore.WrittenOnce` — where something is set
* `GarblerStore.FreshStep`, `EvaluatorStore.FreshStep` — the steps of the runs

## Main results

* `nothing_twice` — runs of the view, and of both stores
* `proven_twice` — a run in which a flush is refused
-/

namespace Mpz

/-! ### Errors of writes -/

/-- The error says that something is already set. -/
def StoreError.IsAlreadySet : StoreError → Prop
  | .alreadySet _ => True
  | _ => False

/-- The error says that something is already set. -/
def KeyStoreError.IsAlreadySet : KeyStoreError → Prop
  | .alreadySet _ => True
  | _ => False

/-- The error says that something is already set. -/
def MacStoreError.IsAlreadySet : MacStoreError → Prop
  | .alreadySet _ => True
  | _ => False

/-- The error says that something is already set. -/
def Garble.GarblerStoreError.IsAlreadySet {E : Type} : GarblerStoreError E → Prop
  | .store e => e.IsAlreadySet
  | .keyStore e => e.IsAlreadySet
  | _ => False

/-- The error says that something is already set. -/
def Garble.EvaluatorStoreError.IsAlreadySet {E : Type} : EvaluatorStoreError E → Prop
  | .store e => e.IsAlreadySet
  | .macStore e => e.IsAlreadySet
  | _ => False

theorem Range.not_subset_of_disjoint {range : Range} {A : RangeSet} (hlt : range.start < range.stop)
    (h : Disjoint range.toSet A) : ¬ range.toSet ⊆ A := by
  intro hsub
  have hmem : range.start ∈ range.toSet := Range.mem_toSet.mpr ⟨le_rfl, hlt⟩
  exact Finset.disjoint_left.mp h hmem (hsub hmem)

namespace Store

variable {T : Type} {s : Store T} {slice : Slice} {data : List T} {A : RangeSet}

theorem tryGet_eq_err {e : StoreError} (h : s.tryGet slice = .err e) : ¬ e.IsAlreadySet := by
  unfold tryGet at h
  split at h
  · cases hs : Mpz.slice s.items slice.toRange <;> rw [hs] at h <;> cases h
  · cases h
    exact id

/-- However a write ends, nothing is set outside its slice. -/
theorem set_trySet_subset (slice : Slice) (data : List T) (s : Store T) :
    (trySet slice data s).2.set ⊆ s.set ∪ slice.toRange.toSet := by
  rcases trySet_cases s slice data with ⟨-, h⟩ | ⟨-, -, h⟩ | ⟨-, hlen, h⟩ <;> rw [h]
  · exact Finset.subset_union_left
  · exact Finset.subset_union_left
  · split <;> exact fun _ hi => hi

/-- A write is not refused as already set where its slice is not. -/
theorem trySet_yields (hslice : ¬ slice.toRange.toSet ⊆ A) :
    (trySet slice data).Yields (fun s => s.set ⊆ A)
      (fun _ t => t.set ⊆ A ∪ slice.toRange.toSet) fun e => ¬ e.IsAlreadySet := by
  intro s hs
  constructor
  · intro u t h
    rw [set_trySet h]
    exact Finset.union_subset_union_left hs
  · intro e t h
    rcases (trySet_eq_err h).2 with ⟨hsub, -⟩ | ⟨-, rfl⟩
    · exact absurd (hsub.trans hs) hslice
    · exact id

/-- The loop over the ranges of a set is not refused as already set where the set is not. -/
theorem trySetRanges_yields {ranges : RangeSet} (h : Disjoint ranges A) :
    (trySetRanges ranges.iter data).Yields (fun s => s.set ⊆ A)
      (fun _ t => t.set ⊆ A ∪ ranges) fun e => ¬ e.IsAlreadySet := by
  intro s hs
  have hle : ∀ r ∈ ranges.iter, r.start ≤ r.stop := fun r hr => (RangeSet.lt_of_mem_iter hr).le
  constructor
  · intro u t hset i hi
    rcases (set_trySetRanges (o := .ok u) nofun hle hset i).2.1 hi with hi | ⟨r, hr, hi⟩
    · exact Finset.mem_union_left _ (hs hi)
    · exact Finset.mem_union_right _ (RangeSet.toSet_subset_of_mem_iter hr hi)
  · intro e t hset halready
    have hne : ∀ slice, (trySetRanges ranges.iter data s).1 ≠ .err (.alreadySet slice) :=
      trySetRanges_ne_alreadySet (fun r hr => RangeSet.lt_of_mem_iter hr)
        ranges.pairwise_disjoint_iter fun r hr =>
          Finset.disjoint_of_subset_left (RangeSet.toSet_subset_of_mem_iter hr)
            (Finset.disjoint_of_subset_right hs h)
    cases e with
    | alreadySet slice => exact hne slice (congrArg Prod.fst hset)
    | _ => exact halready

end Store

namespace MacStore

variable {s : MacStore} {slice : Slice} {e : MacStoreError}

theorem tryGet_eq_err (h : s.tryGet slice = .err e) : ¬ e.IsAlreadySet := by
  obtain ⟨e', he', rfl⟩ := Outcome.mapErr_eq_err.mp h
  have hnot := Store.tryGet_eq_err he'
  cases e' <;> exact hnot

theorem tryGetBits_eq_err (h : s.tryGetBits slice = .err e) : ¬ e.IsAlreadySet := by
  unfold tryGetBits at h
  cases hget : s.tryGet slice with
  | err e' =>
    rw [hget] at h
    cases h
    exact tryGet_eq_err hget
  | _ => cases hget ▸ h

end MacStore

namespace KeyStore

variable {blake3 : Blake3} {s : KeyStore} {slice : Slice} {bits : List Bool} {e : KeyStoreError}

theorem tryGet_eq_err (h : s.tryGet slice = .err e) : ¬ e.IsAlreadySet := by
  obtain ⟨e', he', rfl⟩ := Outcome.mapErr_eq_err.mp h
  have hnot := Store.tryGet_eq_err he'
  cases e' <;> exact hnot

theorem verifyRanges_eq_err {ranges : List Range} (h : s.verifyRanges ranges bits = .err e) :
    ¬ e.IsAlreadySet := by
  induction ranges generalizing bits with
  | nil => cases h
  | cons range ranges ih =>
    rw [verifyRanges] at h
    cases hget : s.tryGet (Slice.fromRange range) with
    | err e' =>
      rw [hget] at h
      cases h
      exact tryGet_eq_err hget
    | panic => cases hget ▸ h
    | ok keys =>
      rw [hget, Outcome.ok_bind] at h
      cases hslice : Mpz.slice bits ⟨0, (Slice.fromRange range).size⟩ with
      | none => cases hslice ▸ h
      | some macBits =>
        rw [hslice, Outcome.ofOption_some, Outcome.ok_bind] at h
        cases hrest : s.verifyRanges ranges (bits.drop (Slice.fromRange range).size) with
        | err e' =>
          rw [hrest] at h
          cases h
          exact ih hrest
        | _ => cases hrest ▸ h

theorem verify_eq_err {ranges : RangeSet} {proof : Hash}
    (h : s.verify blake3 ranges bits proof = .err e) : ¬ e.IsAlreadySet := by
  unfold verify at h
  split at h
  · cases h
  split at h
  · cases h
  cases hranges : s.verifyRanges ranges.iter bits with
  | err e' =>
    rw [hranges] at h
    cases h
    exact verifyRanges_eq_err hranges
  | panic => cases hranges ▸ h
  | ok p =>
    rw [hranges, Outcome.ok_bind] at h
    dsimp only at h
    split at h
    · cases h
      exact id
    · split at h <;> cases h

end KeyStore

end Mpz

namespace Mpz.Garble

/-! ### The evaluator -/

namespace EvaluatorStore

variable {C E F : Type} {blake3 : Blake3} {s t : EvaluatorStore C F} {A B : RangeSet} {v : View}

/-- Where MACs and decode info are at most set. -/
structure Written (v : View) (A B : RangeSet) (s : EvaluatorStore C F) : Prop where
  view : s.view = v
  queue : s.queue.Open
  macs : s.macStore.macs.set ⊆ A
  keyBits : s.keyBitStore.set ⊆ B
  commits : s.commitStore.set ⊆ B

theorem Written.mono {A' B' : RangeSet} (h : Written v A B s) (hA : A ⊆ A') (hB : B ⊆ B') :
    Written v A' B' s :=
  ⟨h.view, h.queue, h.macs.trans hA, h.keyBits.trans hB, h.commits.trans hB⟩

/-- MACs are written to ranges that have none. -/
theorem onMacs_yields {ranges : RangeSet} (macs : List Mac) (h : Disjoint ranges A) :
    (onMacs (MacStore.onMacs (Store.trySetRanges ranges.iter macs)) :
      Method (EvaluatorStore C F) (EvaluatorStoreError E) Unit).Yields (Written v A B)
      (fun _ => Written v (A ∪ ranges) B) fun e => ¬ e.IsAlreadySet := by
  refine .zoom fun s hs => .zoom fun m hm => ?_
  refine (Store.trySetRanges_yields h).conseq (fun c hc => ?_) (fun _ c hc => ?_) fun e he => ?_
  · subst hc hm
    exact hs.macs
  · exact { hs with macs := hc }
  · cases e <;> exact he

theorem receiveMacs_yields (macs : List Mac) (h : Disjoint v.flush.macs A) :
    (receiveMacs macs : Method (EvaluatorStore C F) (EvaluatorStoreError E) Unit).Yields
      (Written v A B) (fun _ => Written v (A ∪ v.flush.macs) B) fun e => ¬ e.IsAlreadySet := by
  refine .get_bind fun s hs => .ite (fun _ => .throw _ id) fun _ => ?_
  rw [hs.view]
  exact (onMacs_yields macs h).conseq (fun t ht => ht ▸ hs) (fun _ _ h => h) fun _ h => h

theorem receiveCot_yields [COTReceiver C E F] (cot : Option F) (h : Disjoint v.flush.ot A) :
    (receiveCot cot : Method (EvaluatorStore C F) (EvaluatorStoreError E) Unit).Yields
      (Written v A B) (fun _ => Written v (A ∪ v.flush.ot) B) fun e => ¬ e.IsAlreadySet := by
  cases cot with
  | none => exact .pure () fun s hs => hs.mono Finset.subset_union_left subset_rfl
  | some cot =>
    refine .get_bind fun s hs => .bind (Q := fun _ => Written v A B)
      (.call (fun t _ ht _ => ht ▸ hs) fun e he => ?_) fun msgs => ?_
    · obtain ⟨e', -, rfl⟩ : ∃ e', COTReceiver.tryRecv cot s.cot = .err e' ∧ e = .cot e' := by
        cases hmsgs : COTReceiver.tryRecv cot s.cot with
        | err e' => exact ⟨e', rfl, (Outcome.err.inj (hmsgs ▸ he)).symm⟩
        | _ => cases hmsgs ▸ he
      exact id
    · cases msgs with
      | none => exact .throw _ id
      | some msgs =>
        show Method.Yields _ (onMacs _) _ _
        rw [hs.view]
        exact onMacs_yields _ h

/-- Decode info is written to ranges that have none. -/
theorem setDecodeInfo_yields {ranges : List Range} (keyBits : List Bool)
    (macCommitments : List MacCommitment) (hlt : ∀ r ∈ ranges, r.start < r.stop)
    (hranges : ranges.Pairwise fun q r => Disjoint q.toSet r.toSet)
    (hset : ∀ r ∈ ranges, Disjoint r.toSet B) {B' : RangeSet} (hB : B ⊆ B')
    (hsub : ∀ r ∈ ranges, r.toSet ⊆ B') :
    (setDecodeInfo ranges keyBits macCommitments :
      Method (EvaluatorStore C F) (EvaluatorStoreError E) Unit).Yields (Written v A B)
      (fun _ => Written v A B') fun e => ¬ e.IsAlreadySet := by
  induction ranges generalizing keyBits macCommitments B with
  | nil => exact .pure () fun s hs => hs.mono subset_rfl hB
  | cons range ranges ih =>
    obtain ⟨hhead, hranges⟩ := List.pairwise_cons.mp hranges
    have hrange := Slice.toRange_fromRange (hlt range List.mem_cons_self).le
    have hnot : ¬ (Slice.fromRange range).toRange.toSet ⊆ B := by
      rw [hrange]
      exact Range.not_subset_of_disjoint (hlt range List.mem_cons_self)
        (hset range List.mem_cons_self)
    have hslice : ∀ {T : Type} {data : List T} {P : EvaluatorStore C F → Prop},
        (Method.call (.ofOption (Mpz.slice data ⟨0, (Slice.fromRange range).size⟩)) :
          Method (EvaluatorStore C F) (EvaluatorStoreError E) (List T)).Yields P (fun _ => P)
          fun e => ¬ e.IsAlreadySet := by
      intro T data P
      refine .call (fun _ _ hs _ => hs) fun e he => ?_
      cases hs : Mpz.slice data ⟨0, (Slice.fromRange range).size⟩ <;> rw [hs] at he <;> cases he
    -- The key bits of the range are set, and its commitments are not yet.
    let Half (s : EvaluatorStore C F) : Prop :=
      Written v A (B ∪ range.toSet) s ∧ s.commitStore.set ⊆ B
    refine .bind hslice fun bits => .bind (Q := fun _ => Half) ?_ fun _ =>
      .bind hslice fun commitments => .bind (Q := fun _ => Written v A (B ∪ range.toSet)) ?_
        fun _ => ih _ _ ?_ hranges ?_ ?_ ?_
    · refine .zoom fun s hs => (Store.trySet_yields hnot).conseq (fun c hc => hc ▸ hs.keyBits)
        (fun _ c hc => ?_) fun e he => he
      rw [hrange] at hc
      have hcommits := hs.commits.trans (Finset.subset_union_left : _ ⊆ _ ∪ range.toSet)
      exact ⟨⟨hs.view, hs.queue, hs.macs, hc, hcommits⟩, hs.commits⟩
    · refine .zoom fun s hs => (Store.trySet_yields hnot).conseq (fun c hc => hc ▸ hs.2)
        (fun _ c hc => ?_) fun e he => he
      rw [hrange] at hc
      exact { hs.1 with commits := hc }
    · exact fun r hr => hlt r (List.mem_cons_of_mem _ hr)
    · intro r hr
      exact Finset.disjoint_union_right.mpr ⟨hset r (List.mem_cons_of_mem _ hr), (hhead r hr).symm⟩
    · exact Finset.union_subset hB (hsub range List.mem_cons_self)
    · exact fun r hr => hsub r (List.mem_cons_of_mem _ hr)

theorem receiveDecodeInfo_yields (keyBits : List Bool) (macCommitments : List MacCommitment)
    (h : Disjoint v.flush.decodeInfo B) :
    (receiveDecodeInfo keyBits macCommitments :
      Method (EvaluatorStore C F) (EvaluatorStoreError E) Unit).Yields (Written v A B)
      (fun _ => Written v A (B ∪ v.flush.decodeInfo)) fun e => ¬ e.IsAlreadySet := by
  refine .get_bind fun s hs => .ite (fun _ => .throw _ id) fun _ => .ite (fun _ => .throw _ id)
    fun _ => ?_
  rw [hs.view]
  refine (setDecodeInfo_yields keyBits macCommitments (fun r hr => RangeSet.lt_of_mem_iter hr)
    v.flush.decodeInfo.pairwise_disjoint_iter (fun r hr => ?_) Finset.subset_union_left
    fun r hr => ?_).conseq (fun t ht => ht ▸ hs) (fun _ _ h => h) fun _ h => h
  · exact Finset.disjoint_of_subset_left (RangeSet.toSet_subset_of_mem_iter hr) h
  · exact (RangeSet.toSet_subset_of_mem_iter hr).trans Finset.subset_union_right

/-- **What a flush brings is not refused as already set**, where the flush repeats nothing. -/
theorem receiveMessage_yields [COTReceiver C E F] (cot : Option F) (flush : GarblerFlush)
    (hmacs : Disjoint v.flush.macs A) (hot : Disjoint v.flush.ot (A ∪ v.flush.macs))
    (hinfo : Disjoint v.flush.decodeInfo B) :
    (receiveMessage cot flush : Method (EvaluatorStore C F) (EvaluatorStoreError E) Unit).Yields
      (Written v A B)
      (fun _ => Written v (A ∪ v.flush.macs ∪ v.flush.ot) (B ∪ v.flush.decodeInfo))
      fun e => ¬ e.IsAlreadySet :=
  .bind (receiveMacs_yields _ hmacs) fun _ => .bind (receiveCot_yields cot hot) fun _ =>
    receiveDecodeInfo_yields _ _ hinfo

/-- A range is decoded that was not, and the rest stays as it is. -/
theorem decodeRange_yields {range : Range} {ranges : List Range}
    (hlt : range.start < range.stop) (hranges : ∀ r ∈ ranges, Disjoint range.toSet r.toSet) :
    (decodeRange blake3 range : Method (EvaluatorStore C F) (EvaluatorStoreError E) Unit).Yields
      (fun s => s.queue.Open ∧ ∀ r ∈ range :: ranges, Disjoint r.toSet s.dataStore.set)
      (fun _ s => s.queue.Open ∧ ∀ r ∈ ranges, Disjoint r.toSet s.dataStore.set)
      fun e => ¬ e.IsAlreadySet := by
  have hrange := Slice.toRange_fromRange hlt.le
  refine .get_bind fun s hs => ?_
  have hread : ∀ {α : Type} {o : Outcome (EvaluatorStoreError E) α},
      (∀ e, o = .err e → ¬ e.IsAlreadySet) →
      (Method.call o : Method (EvaluatorStore C F) _ α).Yields (· = s) (fun _ => (· = s))
        fun e => ¬ e.IsAlreadySet := fun h => .call (fun _ _ ht _ => ht) h
  refine .bind (hread ?macBits) fun macBits => .bind (hread ?keyBits) fun keyBits =>
    .bind (hread ?macs) fun macs => .bind (hread ?commitments) fun commitments =>
      .bind (hread ?check) fun _ => .zoom fun t ht => ?set
  case set =>
    subst ht
    have hdisj := hs.2 range List.mem_cons_self
    refine (Store.trySet_yields (A := t.dataStore.set) ?_).conseq (fun c hc => hc ▸ subset_rfl)
      (fun _ c hc => ⟨hs.1, fun r hr => ?_⟩) fun e he => he
    · rw [hrange]
      exact Range.not_subset_of_disjoint hlt hdisj
    · rw [hrange] at hc
      exact Finset.disjoint_of_subset_right hc (Finset.disjoint_union_right.mpr
        ⟨hs.2 r (List.mem_cons_of_mem _ hr), (hranges r hr).symm⟩)
  case macBits =>
    intro e he
    obtain ⟨e', he', rfl⟩ := Outcome.mapErr_eq_err.mp he
    exact MacStore.tryGetBits_eq_err he'
  case keyBits =>
    intro e he
    obtain ⟨e', he', rfl⟩ := Outcome.mapErr_eq_err.mp he
    exact Store.tryGet_eq_err he'
  case macs =>
    intro e he
    obtain ⟨e', he', rfl⟩ := Outcome.mapErr_eq_err.mp he
    exact MacStore.tryGet_eq_err he'
  case commitments =>
    intro e he
    obtain ⟨e', he', rfl⟩ := Outcome.mapErr_eq_err.mp he
    exact Store.tryGet_eq_err he'
  case check =>
    intro e he
    obtain ⟨e', -, rfl⟩ := Outcome.mapErr_eq_err.mp he
    exact id

/-- What is left to do behind a flush sets nothing that is set. -/
theorem finishFlush_yields :
    (finishFlush blake3 : Method (EvaluatorStore C F) (EvaluatorStoreError E) Unit).Yields
      (fun s => s.queue.Open) (fun _ _ => True) fun e => ¬ e.IsAlreadySet := by
  refine .bind (Q := fun _ s => s.queue.Open) (.zoom fun s hs => .modify fun _ _ => hs) fun _ =>
    .bind (Q := fun _ s => s.queue.Open) ?decode fun _ => .get_bind fun s hs => .zoom ?send
  case decode =>
    -- The ranges that are left neither overlap nor hold a bit.
    let Left (ranges : List Range) (s : EvaluatorStore C F) : Prop :=
      s.queue.Open ∧ ∀ r ∈ ranges, Disjoint r.toSet s.dataStore.set
    refine .get_bind fun s hs => ?_
    have hloop : ∀ ranges : List Range, (∀ r ∈ ranges, r.start < r.stop) →
        (ranges.Pairwise fun q r => Disjoint q.toSet r.toSet) →
        (Method.forEach (decodeRange blake3) ranges :
          Method (EvaluatorStore C F) (EvaluatorStoreError E) Unit).Yields (Left ranges)
          (fun _ => Left []) fun e => ¬ e.IsAlreadySet := by
      intro ranges hlt hranges
      induction ranges with
      | nil => exact .pure () fun _ h => h
      | cons range ranges ih =>
        obtain ⟨hhead, hranges⟩ := List.pairwise_cons.mp hranges
        exact .bind (decodeRange_yields (hlt range List.mem_cons_self) hhead) fun _ =>
          ih (fun r hr => hlt r (List.mem_cons_of_mem _ hr)) hranges
    refine (hloop s.decodable.iter (fun r hr => RangeSet.lt_of_mem_iter hr)
      s.decodable.pairwise_disjoint_iter).conseq (fun t ht => ?_) (fun _ _ h => h.1) fun _ h => h
    subst ht
    refine ⟨hs, fun r hr => ?_⟩
    exact Finset.disjoint_of_subset_left (RangeSet.toSet_subset_of_mem_iter hr)
      Finset.sdiff_disjoint
  case send =>
    rintro t rfl q rfl
    exact ⟨fun _ _ _ => trivial, fun e q' h =>
      absurd (congrArg Prod.fst h) (DecodeQueue.flush_ne_err hs e)⟩

/-- An operation that makes the flush repeat nothing, and that has returned. A flush that is
received is accepted. -/
def FreshStep [COTReceiver C E F] (blake3 : Blake3) (s : EvaluatorStore C F) (op : Op C)
    (t : EvaluatorStore C F) : Prop :=
  s.view.FreshIn op.view ∧ (op.run (E := E) blake3).Returns s t ∧
    ∀ flush, op = .receiveFlush flush → (op.run (E := E) blake3).Ends s t

/-- What holds behind every flush that is accepted. -/
structure WrittenOnce (s : EvaluatorStore C F) : Prop where
  inv : s.view.Inv
  nothingTwice : s.view.NothingTwice
  queue : s.queue.Open
  /-- MACs are set of committed inputs and of outputs. -/
  macs : s.macStore.macs.set ⊆ s.view.input.complete ∪ s.view.output.all
  /-- Key bits are set where decode info was sent. -/
  keyBits : s.keyBitStore.set ⊆ s.view.decode.decodeInfo
  /-- Commitments are set where decode info was sent. -/
  commits : s.commitStore.set ⊆ s.view.decode.decodeInfo

theorem WrittenOnce.new (cot : C) : (new cot : EvaluatorStore C F).WrittenOnce where
  inv := View.inv_new .evaluator
  nothingTwice := View.nothingTwice_new .evaluator
  queue := DecodeQueue.All.new
  macs := Finset.empty_subset _
  keyBits := Finset.empty_subset _
  commits := Finset.empty_subset _

theorem WrittenOnce.written (h : s.WrittenOnce) (pending : Option (PendingFlush F)) :
    Written s.view (s.view.input.complete ∪ s.view.output.all) s.view.decode.decodeInfo
      { s with pending } :=
  ⟨rfl, h.queue, h.macs, h.keyBits, h.commits⟩

/-- The message of a flush, where the flush repeats nothing. -/
theorem WrittenOnce.receiveMessage_yields [COTReceiver C E F] (h : s.WrittenOnce) (cot : Option F)
    (flush : GarblerFlush) :
    (receiveMessage cot flush : Method (EvaluatorStore C F) (EvaluatorStoreError E) Unit).Yields
      (Written s.view (s.view.input.complete ∪ s.view.output.all) s.view.decode.decodeInfo)
      (fun _ => Written s.view (s.view.input.complete ∪ s.view.output.all ∪ s.view.flush.macs ∪
        s.view.flush.ot) (s.view.decode.decodeInfo ∪ s.view.flush.decodeInfo))
      fun e => ¬ e.IsAlreadySet := by
  refine EvaluatorStore.receiveMessage_yields cot flush ?_ ?_ h.nothingTwice.info
  · refine Finset.disjoint_left.mpr fun i hi hset => ?_
    have hinv := h.inv i
    obtain ⟨hknown, hcommitted⟩ := hinv.macs hi
    rcases Finset.mem_union.mp hset with hset | hset
    · exact hcommitted hset
    · exact hinv.inputs (hinv.marked (hknown.imp_right .inl)) hset
  · refine Finset.disjoint_left.mpr fun i hi hset => ?_
    have hinv := h.inv i
    obtain ⟨hknown, hcommitted⟩ := hinv.ot hi
    rcases Finset.mem_union.mp hset with hset | hset
    · rcases Finset.mem_union.mp hset with hset | hset
      · exact hcommitted hset
      · exact hinv.inputs (hinv.marked (.inr (.inr hknown))) hset
    · rcases (hinv.macs hset).1 with hpub | hgarbler
      · exact (hinv.publicInputs hpub).2 hknown
      · exact hinv.garblerInputs hgarbler hknown

/-- **A flush is not refused as already set.** -/
theorem WrittenOnce.receiveFlush_ne [COTReceiver C E F] (h : s.WrittenOnce) {flush : GarblerFlush}
    {e : EvaluatorStoreError E} (herr : receiveFlush blake3 flush s = (.err e, t)) :
    ¬ e.IsAlreadySet := by
  rcases receiveFlush_cases herr with
    ⟨-, he, -⟩ | ⟨pending, -, ⟨-, hmessage⟩ | ⟨s', -, -, -, hqueue, hfinish⟩⟩
  · cases he
    exact id
  · exact (h.receiveMessage_yields pending.cot flush _ (h.written none)).2 e t hmessage
  · have hopen : s'.queue.Open := hqueue.symm ▸ h.queue
    exact (finishFlush_yields s' hopen).2 e t hfinish

/-- What an operation but a flush sets. -/
theorem Op.run_written [COTReceiver C E F] {op : Op C} (hop : ∀ flush, op ≠ .receiveFlush flush)
    (h : (op.run (E := E) blake3).Returns s t) :
    (t.macStore.macs.set ⊆ s.macStore.macs.set ∪ t.view.output.all) ∧
      t.keyBitStore.set = s.keyBitStore.set ∧ t.commitStore.set = s.commitStore.set := by
  have hkeeps : (op.run (E := E) blake3).Keeps
      (fun s : EvaluatorStore C F => (s.macStore, s.keyBitStore, s.commitStore)) →
      (t.macStore.macs.set ⊆ s.macStore.macs.set ∪ t.view.output.all) ∧
        t.keyBitStore.set = s.keyBitStore.set ∧ t.commitStore.set = s.commitStore.set := by
    intro hkeeps
    obtain ⟨o, -, hrun⟩ := h
    have heq := hkeeps.eq hrun
    simp only [Prod.mk.injEq] at heq
    obtain ⟨hmacs, hkeyBits, hcommits⟩ := heq
    rw [hmacs, hkeyBits, hcommits]
    exact ⟨Finset.subset_union_left, rfl, rfl⟩
  obtain ⟨o, ho, hrun⟩ := h
  cases op with
  | allocRaw size =>
    cases hrun
    exact ⟨Finset.subset_union_left, rfl, rfl⟩
  | allocOutput size =>
    cases hrun
    exact ⟨Finset.subset_union_left, rfl, rfl⟩
  | setOutput slice macs =>
    rcases Method.bind_cases hrun with ⟨_, s', hview, hmacs⟩ | ⟨e, hview, rfl⟩ | ⟨-, rfl⟩
    · obtain ⟨w, hset, rfl⟩ := Method.zoom_eq_ok.mp hview
      obtain ⟨hsub, rfl⟩ := View.setOutput_eq_ok hset
      obtain rfl := (Prod.mk.inj hmacs).2
      exact ⟨(Store.set_trySet_subset _ _ _).trans (Finset.union_subset_union_right hsub), rfl, rfl⟩
    · have hkeeps : (onView (View.setOutput slice.toRange) :
          Method (EvaluatorStore C F) (EvaluatorStoreError E) _).Keeps fun s =>
            (s.macStore, s.keyBitStore, s.commitStore) := keeps_onView fun _ _ => rfl
      have heq := hkeeps.eq hview
      simp only [Prod.mk.injEq] at heq
      obtain ⟨hmacs, hkeyBits, hcommits⟩ := heq
      rw [hmacs, hkeyBits, hcommits]
      exact ⟨Finset.subset_union_left, rfl, rfl⟩
    · exact absurd rfl ho
  | markOutputPreprocessed slice => exact hkeeps (keeps_onView fun _ _ => rfl)
  | markRaw visibility slice =>
    refine hkeeps ?_
    cases visibility with
    | priv => exact .bind (keeps_onCot fun _ _ => rfl) fun _ => keeps_onView fun _ _ => rfl
    | _ => exact keeps_onView fun _ _ => rfl
  | assignRaw slice data =>
    exact hkeeps (.bind (keeps_onView fun _ _ => rfl) fun _ => keeps_onData fun _ _ => rfl)
  | commitRaw slice => exact hkeeps (keeps_onView fun _ _ => rfl)
  | decodeRaw slice =>
    exact hkeeps (.bind (.bind (keeps_onView fun _ _ => rfl) fun _ => .get_bind fun _ =>
      keeps_onQueue fun _ _ => rfl) fun _ => .pure _)
  | flushDecode =>
    exact hkeeps ((flushDecode_keeps blake3).map fun p => (p.2.2.1, p.2.2.2.1, p.2.2.2.2.1))
  | sendFlush =>
    exact hkeeps (.bind ((sendFlush_keeps blake3).map fun p => (p.2.1, p.2.2.1, p.2.2.2.1))
      fun _ => .pure _)
  | receiveFlush flush => exact absurd rfl (hop flush)
  | acquireCot cot => exact hkeeps fun _ => rfl

/-- A flush that is accepted sets what the view completes. -/
theorem WrittenOnce.receiveFlush_ok [COTReceiver C E F] (h : s.WrittenOnce) {flush : GarblerFlush}
    (hok : receiveFlush (E := E) blake3 flush s = (.ok (), t)) :
    t.macStore.macs.set ⊆ t.view.input.complete ∪ t.view.output.all ∧
      t.keyBitStore.set ⊆ t.view.decode.decodeInfo ∧
      t.commitStore.set ⊆ t.view.decode.decodeInfo := by
  rcases receiveFlush_cases hok with
    ⟨-, he, -⟩ | ⟨pending, -, ⟨he, -⟩ | ⟨s', hmessage, -, -, -, hfinish⟩⟩
  · cases he
  · exact absurd rfl he
  · obtain ⟨hview, -, hmacs, hkeyBits, hcommits⟩ :=
      (h.receiveMessage_yields pending.cot flush _ (h.written none)).1 () s' hmessage
    have hcomplete : (onView View.completeFlush s' : Outcome (EvaluatorStoreError E) Unit × _) =
      (.ok (), { s' with view := (View.completeFlush s'.view).2 }) := rfl
    rw [finishFlush, Method.bind_apply_of_ok hcomplete] at hfinish
    have hkeeps := (flushDecode_keeps (E := E) blake3).eq hfinish
    simp only [Prod.mk.injEq] at hkeeps
    obtain ⟨hview', -, hmacs', hkeyBits', hcommits', -⟩ := hkeeps
    rw [hview', hmacs', hkeyBits', hcommits', hview]
    refine ⟨fun i hi => ?_, hkeyBits, hcommits⟩
    have hi := hmacs hi
    simp only [Finset.mem_union] at hi
    simp only [View.completeFlush, Method.modify_apply, Finset.mem_union]
    tauto

/-- **One operation.** -/
theorem WrittenOnce.step [COTReceiver C E F] {op : Op C} (h : s.WrittenOnce)
    (hstep : FreshStep blake3 s op t) : t.WrittenOnce := by
  obtain ⟨hfresh, hreturns, hends⟩ := hstep
  have hview : View.Performs op.view s.view t.view := hreturns.eq ▸ op.run_view blake3 s
  obtain ⟨hnothing, hcommitted, houtputs, hinfo⟩ := hview.nothingTwice h.inv h.nothingTwice hfresh
  have hqueue : t.queue.Open :=
    (op.run_queue (fun _ _ _ _ _ => rfl) blake3).returns hreturns h.queue
  by_cases hop : ∃ flush, op = .receiveFlush flush
  · obtain ⟨flush, rfl⟩ := hop
    obtain ⟨u, hok⟩ := hends flush rfl
    obtain ⟨hmacs, hkeyBits, hcommits⟩ := h.receiveFlush_ok hok
    exact ⟨hview.inv h.inv, hnothing, hqueue, hmacs, hkeyBits, hcommits⟩
  · have hop : ∀ flush, op ≠ .receiveFlush flush := fun flush hflush => hop ⟨flush, hflush⟩
    obtain ⟨hmacs, hkeyBits, hcommits⟩ := Op.run_written hop hreturns
    refine ⟨hview.inv h.inv, hnothing, hqueue, hmacs.trans ?_, ?_, ?_⟩
    · refine Finset.union_subset (h.macs.trans ?_) Finset.subset_union_right
      exact Finset.union_subset_union hcommitted houtputs
    · exact hkeyBits ▸ h.keyBits.trans hinfo
    · exact hcommits ▸ h.commits.trans hinfo

theorem WrittenOnce.of_run [COTReceiver C E F] {cot : C} {ops : List (Op C)}
    (h : Run (FreshStep blake3) (EvaluatorStore.new cot) ops s) : s.WrittenOnce :=
  h.invariant (P := WrittenOnce) (.new cot) fun _ _ _ hs hstep => hs.step hstep

end EvaluatorStore

/-! ### The garbler -/

namespace GarblerStore

variable {C E : Type} {blake3 : Blake3} {s t : GarblerStore C}

/-- An operation that makes the flush repeat nothing, and that has returned. A flush that is
received is accepted. -/
def FreshStep [COTSender C E] (blake3 : Blake3) (s : GarblerStore C) (op : Op C)
    (t : GarblerStore C) : Prop :=
  s.view.FreshIn op.view ∧ (op.run blake3).Returns s t ∧
    ∀ flush, op = .receiveFlush flush → (op.run blake3).Ends s t

/-- What holds behind every flush that is accepted. -/
structure WrittenOnce (s : GarblerStore C) : Prop where
  role : s.view.role = .garbler
  inv : s.view.Inv
  nothingTwice : s.view.NothingTwice
  queue : s.queue.Open
  /-- A bit is stored where it is visible, or was decoded. -/
  data : s.dataStore.set ⊆ s.view.vis.visibleRanges ∪ s.view.decode.complete

theorem WrittenOnce.new (prg : ℕ → Block) (delta : Delta) (cot : C) :
    (GarblerStore.new prg delta cot).WrittenOnce where
  role := rfl
  inv := View.inv_new .garbler
  nothingTwice := View.nothingTwice_new .garbler
  queue := DecodeQueue.All.new
  data := Finset.empty_subset _

/-- What is to be proven is not stored. -/
theorem WrittenOnce.disjoint (h : s.WrittenOnce) :
    Disjoint s.view.flush.decode s.dataStore.set := by
  refine Finset.disjoint_left.mpr fun i hi hset => ?_
  rcases Finset.mem_union.mp (h.data hset) with hvis | hdone
  · exact View.not_visible_of_decode h.inv h.role (.inr hi) hvis
  · exact Finset.disjoint_left.mp h.nothingTwice.decode hi hdone

/-- **A flush is not refused as already set.** -/
theorem WrittenOnce.receiveFlush_ne (h : s.WrittenOnce) {flush : EvaluatorFlush}
    {e : GarblerStoreError E} (herr : receiveFlush blake3 flush s = (.err e, t)) :
    ¬ e.IsAlreadySet := by
  have hproof : (receiveProof blake3 flush.macProof :
      Method (GarblerStore C) (GarblerStoreError E) Unit).Yields (· = s)
      (fun _ t => t.queue = s.queue) fun e => ¬ e.IsAlreadySet := by
    cases flush.macProof with
    | none => exact .pure () fun t ht => ht ▸ rfl
    | some proof =>
      refine .get_bind fun u hu => .ite (fun _ => .throw _ id) fun _ =>
        .bind (Q := fun _ => (· = s)) (.call (fun _ _ ht _ => ht.trans hu) fun e he => ?_)
          fun data =>
          .zoom fun t ht => ?_
      · obtain ⟨e', he', rfl⟩ := Outcome.mapErr_eq_err.mp he
        exact KeyStore.verify_eq_err he'
      · subst hu ht
        exact (Store.trySetRanges_yields h.disjoint).conseq (fun c hc => hc ▸ subset_rfl)
          (fun _ _ _ => rfl) fun _ he => he
  rcases receiveFlush_cases herr with ⟨-, he, -⟩ | ⟨-, ⟨-, hfail⟩ | ⟨s', hok, -, -, hflush⟩⟩
  · cases he
    exact id
  · exact (hproof s rfl).2 e t hfail
  · obtain ⟨e', he'⟩ := hflush e rfl
    have hqueue : s'.queue = s.queue := (hproof s rfl).1 () s' hok
    exact absurd he' (DecodeQueue.flush_ne_err (hqueue ▸ h.queue) e')

/-- **One operation.** -/
theorem WrittenOnce.step [COTSender C E] {op : Op C} (h : s.WrittenOnce)
    (hstep : FreshStep blake3 s op t) : t.WrittenOnce := by
  obtain ⟨hfresh, hreturns, hends⟩ := hstep
  have hview : View.Performs op.view s.view t.view := hreturns.eq ▸ op.run_view blake3 s
  obtain ⟨hnothing, -⟩ := hview.nothingTwice h.inv h.nothingTwice hfresh
  obtain ⟨hrole, hinv, hvis, hcomplete⟩ := Op.run_inv h.inv hreturns.eq
  have hqueue : t.queue.Open :=
    (op.run_queue (fun _ _ _ _ _ => rfl) blake3).returns hreturns h.queue
  refine ⟨hrole.trans h.role, hinv, hnothing, hqueue, fun i hi => ?_⟩
  obtain ⟨o, ho, hrun⟩ := hreturns
  obtain ⟨b, hb⟩ := Option.isSome_iff_exists.mp (Store.cell_isSome.mpr hi)
  have hgrows : s.view.decode.complete ⊆ t.view.decode.complete := by
    rcases hcomplete with heq | ⟨-, heq⟩ <;> rw [heq]
    exact Finset.subset_union_left
  rcases (Op.run_data ho hrun).2 i b hb with hold | hvisible | hproven
  · exact Finset.union_subset_union hvis hgrows (h.data (Store.cell_eq_some.mp hold).1)
  · exact Finset.mem_union_left _ (hvis hvisible)
  · cases op with
    | receiveFlush flush =>
      obtain ⟨u, hok⟩ := hends flush rfl
      have hdecode := mem_decode_of_mem_verified hproven
      rcases receiveFlush_cases hok with ⟨-, he, -⟩ | ⟨-, ⟨he, -⟩ | ⟨s', hproof, -, hview', -⟩⟩
      · cases he
      · exact absurd rfl he
      · have hkeeps : s'.view = s.view :=
          ((receiveProof_keeps (E := E) blake3 _).map Prod.fst).eq hproof
        rw [hview', hkeeps]
        exact Finset.mem_union_right _ (Finset.mem_union_right _ hdecode)
    | _ => exact absurd hproven List.not_mem_nil

theorem WrittenOnce.of_run [COTSender C E] {prg : ℕ → Block} {delta : Delta} {cot : C}
    {ops : List (Op C)} (h : Run (FreshStep blake3) (GarblerStore.new prg delta cot) ops s) :
    s.WrittenOnce :=
  h.invariant (P := WrittenOnce) (.new prg delta cot) fun _ _ _ hs hstep => hs.step hstep

end GarblerStore

/-! ### Runs -/

/-- **Nothing is proven twice** in a run in which every request is of a range that is decoded, or of
which nothing is decoded, and no output is preprocessed whose decode info is under way. In such a
run of a view the flush repeats nothing, and a further operation keeps it so exactly if it is such
an operation. In such a run of a store, in which every flush so far was accepted, no flush is
refused because something is already set, whatever the flush is. -/
theorem nothing_twice {C D E E' F : Type} [COTSender C E] [COTReceiver D E' F] (blake3 : Blake3) :
    (∀ role ops v, Run View.FreshStep (View.new role) ops v →
      v.NothingTwice ∧ ∀ op w, View.Step v op w → (w.NothingTwice ↔ op.Fresh v)) ∧
    (∀ prg delta (cot : C) ops s,
      Run (GarblerStore.FreshStep blake3) (GarblerStore.new prg delta cot) ops s →
        s.view.NothingTwice ∧ ∀ flush (e : GarblerStoreError E) t,
          GarblerStore.receiveFlush blake3 flush s = (.err e, t) → ¬ e.IsAlreadySet) ∧
    ∀ (cot : D) ops (s : EvaluatorStore D F),
      Run (EvaluatorStore.FreshStep blake3) (EvaluatorStore.new cot) ops s →
        s.view.NothingTwice ∧ ∀ flush (e : EvaluatorStoreError E') t,
          EvaluatorStore.receiveFlush blake3 flush s = (.err e, t) → ¬ e.IsAlreadySet := by
  refine ⟨fun role ops v h => ?_, fun prg delta cot ops s h => ?_, fun cot ops s h => ?_⟩
  · obtain ⟨hinv, hnothing⟩ := View.nothingTwice_of_run h
    exact ⟨hnothing, fun op w hstep => View.nothingTwice_iff hinv hnothing hstep⟩
  · have hs := GarblerStore.WrittenOnce.of_run h
    exact ⟨hs.nothingTwice, fun flush e t herr => hs.receiveFlush_ne herr⟩
  · have hs := EvaluatorStore.WrittenOnce.of_run h
    exact ⟨hs.nothingTwice, fun flush e t herr => hs.receiveFlush_ne herr⟩

/-- The run of a function that comes through. -/
theorem View.run_fresh {role : Role} {ops : List View.Op}
    (h : (exec (fun v op => if op.Fresh v then op.run.ended v else none)
      (View.new role) ops).isSome) :
    Run View.FreshStep (View.new role) ops
      ((exec (fun v op => if op.Fresh v then op.run.ended v else none) (View.new role) ops).get
        h) := by
  refine Run.of_isSome _ (fun v op w hv => ?_) h
  obtain ⟨hfresh, hended⟩ := Option.ite_none_right_eq_some.mp hv
  obtain ⟨u, hrun⟩ := Method.Ends.of_ended hended
  exact ⟨hfresh, hrun⟩

theorem GarblerStore.FreshStep.of_ended {C E : Type} [COTSender C E] {blake3 : Blake3}
    {s t : GarblerStore C} {op : GarblerStore.Op C} (hfresh : s.view.FreshIn op.view)
    (h : (op.run blake3).ended s = some t) : GarblerStore.FreshStep blake3 s op t :=
  ⟨hfresh, (Method.Ends.of_ended h).returns, fun _ _ => .of_ended h⟩

theorem EvaluatorStore.FreshStep.of_ended {C E F : Type} [COTReceiver C E F] {blake3 : Blake3}
    {s t : EvaluatorStore C F} {op : EvaluatorStore.Op C} (hfresh : s.view.FreshIn op.view)
    (h : (op.run (E := E) blake3).ended s = some t) : EvaluatorStore.FreshStep blake3 s op t :=
  ⟨hfresh, (Method.Ends.of_ended h).returns, fun _ _ => .of_ended h⟩

/-- A hash for the runs that follow. -/
def byteSum : Blake3 := fun bytes => BitVec.ofNat 256 (bytes.map BitVec.toNat).sum

/-- The operations of a garbler on two of three outputs, of which the first is requested. -/
def GarblerStore.outputOps : List (GarblerStore.Op IdealCOTSender) :=
  [.allocOutput 3, .setOutput ⟨0, 1⟩ [⟨0⟩], .setOutput ⟨2, 1⟩ [⟨0⟩], .markOutputComplete ⟨0, 1⟩,
    .markOutputComplete ⟨2, 1⟩, .decodeRaw ⟨0, 1⟩, .sendFlush, .receiveFlush ⟨some ⟨[false], 0⟩⟩]

/-- The operations of the evaluator. -/
def EvaluatorStore.outputOps : List (EvaluatorStore.Op IdealCOTReceiver) :=
  [.allocOutput 3, .markOutputPreprocessed ⟨0, 1⟩, .markOutputPreprocessed ⟨2, 1⟩,
    .setOutput ⟨0, 1⟩ [⟨0⟩], .setOutput ⟨2, 1⟩ [⟨0⟩], .decodeRaw ⟨0, 1⟩, .sendFlush,
    .receiveFlush ⟨[], [false], [⟨0, 5⟩]⟩]

/-- The second of two outputs is requested behind the first. -/
theorem nothing_twice_outputs :
    (∃ v, Run View.FreshStep (View.new .garbler) [.allocOutput 1, .decode ⟨0, 1⟩,
        .setPreprocessed ⟨0, 1⟩, .completeFlush, .setOutput ⟨0, 1⟩, .completeFlush] v ∧
      v.NothingTwice) ∧
    (∃ s : GarblerStore IdealCOTSender,
      Run (GarblerStore.FreshStep byteSum) (.new (fun i => i) (.new 5) (.new 5))
        (GarblerStore.outputOps ++ [.decodeRaw ⟨2, 1⟩]) s ∧ s.view.NothingTwice) ∧
    ∃ s : EvaluatorStore IdealCOTReceiver ℕ,
      Run (EvaluatorStore.FreshStep byteSum) (.new .new)
        (EvaluatorStore.outputOps ++ [.decodeRaw ⟨2, 1⟩]) s ∧ s.view.NothingTwice := by
  have hview : Run View.FreshStep (View.new .garbler) [.allocOutput 1, .decode ⟨0, 1⟩,
      .setPreprocessed ⟨0, 1⟩, .completeFlush, .setOutput ⟨0, 1⟩, .completeFlush] _ :=
    View.run_fresh (by decide +kernel)
  have hgb : Run (GarblerStore.FreshStep byteSum)
      (.new (fun i => i) (.new 5) (IdealCOTSender.new 5))
      (GarblerStore.outputOps ++ [.decodeRaw ⟨2, 1⟩]) _ :=
    Run.of_isSome (fun s op => if s.view.FreshIn op.view then (op.run byteSum).ended s else none)
      (fun _ _ _ h => (Option.ite_none_right_eq_some.mp h).elim .of_ended) (by decide +kernel)
  have hev : Run (EvaluatorStore.FreshStep byteSum)
      (.new IdealCOTReceiver.new : EvaluatorStore IdealCOTReceiver ℕ)
      (EvaluatorStore.outputOps ++ [.decodeRaw ⟨2, 1⟩]) _ :=
    Run.of_isSome (fun s op => if s.view.FreshIn op.view then (op.run byteSum).ended s else none)
      (fun _ _ _ h => (Option.ite_none_right_eq_some.mp h).elim .of_ended) (by decide +kernel)
  obtain ⟨hviews, hgarblers, hevaluators⟩ :=
    nothing_twice (C := IdealCOTSender) (D := IdealCOTReceiver) byteSum
  exact ⟨⟨_, hview, (hviews _ _ _ hview).1⟩, ⟨_, hgb, (hgarblers _ _ _ _ _ hgb).1⟩,
    ⟨_, hev, (hevaluators _ _ _ hev).1⟩⟩

/-- **A flush that is refused.** The first output is decoded, and then both of them and what lies
between are requested. Both views ask for the first again. The evaluator proves both, and the
garbler refuses the flush because the first is already set. -/
theorem proven_twice : ∃ (gb : GarblerStore IdealCOTSender) (ev : EvaluatorStore IdealCOTReceiver ℕ)
    (flush : EvaluatorFlush),
    Run (GarblerStore.Step byteSum) (.new (fun i => i) (.new 5) (.new 5))
      (GarblerStore.outputOps ++ [.decodeRaw ⟨0, 3⟩, .sendFlush]) gb ∧
    Run (EvaluatorStore.Step byteSum) (.new .new)
      (EvaluatorStore.outputOps ++ [.decodeRaw ⟨0, 3⟩]) ev ∧
    gb.view.flush.decode = {0, 2} ∧ gb.view.decode.complete = {0} ∧
    (EvaluatorStore.sendFlush byteSum ev).1 = .ok flush ∧
    (GarblerStore.receiveFlush (E := IdealCOTError) byteSum flush gb).1 =
      .err (.store (.alreadySet ⟨0, 1⟩)) :=
  ⟨_, _, ⟨some ⟨[false, false], 0⟩⟩, .of_foldl (fun _ _ => rfl) _ _, .of_foldl (fun _ _ => rfl) _ _,
    by decide +kernel, by decide +kernel, by decide +kernel, by decide +kernel⟩

end Mpz.Garble
