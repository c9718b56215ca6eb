import Mpz.Lib.Refusal
import Mpz.Stores.InFlight
import Mpz.Stores.NoPanic

/-!
# Rejected operations

An operation on a store updates several of its components one after the other. Where a component
refuses after another was changed, the operation is torn: it returns an error and leaves the store
changed.

## Main definitions

* `Op.Direct` — the operations that set outputs, mark, assign, commit and decode
* `Op.Torn` — a component refuses after another was changed
* `Zk.Components` — what a prover's and a verifier's store have in common

## Main results

* `Zk.Components.assignRaw_atomic_iff` — when an assignment is rejected as a whole, for both parties
* `rejected_iff` — an operation that is not torn is rejected as a whole
-/

namespace Mpz

/-! ### Writes that are refused -/

section Writes

variable {T : Type} {s : Store T} {slice : Slice} {data : List T}

theorem Store.trySet_err (data : List T) (h : ¬ s.Writable slice.toRange) :
    ∃ e, Store.trySet slice data s = (.err e, s) := by
  by_cases hsub : slice.toRange.toSet ⊆ s.set
  · exact ⟨_, Store.trySet_of_subset hsub⟩
  · exact ⟨_, Store.trySet_of_lt hsub (not_le.mp fun hle => h ⟨hsub, hle⟩)⟩

theorem Store.trySet_ok (h : s.Writable slice.toRange) (hdata : data.length = slice.size) :
    ∃ t, Store.trySet slice data s = (.ok (), t) :=
  (Store.trySet_of_length hdata).elim (fun h' => h'.2) fun h' => absurd h h'.1

theorem Store.trySet_panic (h : s.Writable slice.toRange) (hdata : data.length ≠ slice.size) :
    (Store.trySet slice data s).1 = .panic := by
  rw [Store.trySet_of_le h.1 h.2, if_neg hdata]

theorem Store.atomic_trySet : (Store.trySet slice data).Atomic s := fun _ _ h =>
  (Store.trySet_eq_err h).1

theorem Store.writable_of_trySet {t : Store T} {u : Unit}
    (h : Store.trySet slice data s = (.ok u, t)) :
    s.Writable slice.toRange ∧ data.length = slice.size := by
  obtain ⟨hsub, hdata, hle, -⟩ := Store.trySet_eq_ok h
  exact ⟨⟨hsub, hle⟩, hdata⟩

/-- An accepted write changes the store. -/
theorem Store.ne_of_trySet {t : Store T} {u : Unit} (h : Store.trySet slice data s = (.ok u, t)) :
    t ≠ s := by
  rintro rfl
  have hset := Store.set_trySet h
  exact (Store.writable_of_trySet h).1.1 (hset ▸ Finset.subset_union_right)

theorem Store.trySet_err_iff (data : List T) : (∃ e, (Store.trySet slice data s).1 = .err e) ↔
    ¬ s.Writable slice.toRange := by
  constructor
  · rintro ⟨e, h⟩ hw
    rcases (Store.trySet_eq_err (Prod.ext h rfl)).2 with ⟨hsub, -⟩ | ⟨hlt, -⟩
    · exact hw.1 hsub
    · exact absurd hw.2 (not_le.mpr hlt)
  · intro h
    obtain ⟨e, h⟩ := Store.trySet_err data h
    exact ⟨e, congrArg Prod.fst h⟩

end Writes

section Correlated

variable {slice : Slice}

theorem MacStore.trySet_err {s : MacStore} (macs : List Mac)
    (h : ¬ s.macs.Writable slice.toRange) : ∃ e, MacStore.trySet slice macs s = (.err e, s) := by
  obtain ⟨e, h⟩ := Store.trySet_err macs h
  refine ⟨.ofStore e, ?_⟩
  rw [MacStore.trySet, MacStore.onMacs, Method.zoom_apply, h]
  rfl

theorem MacStore.trySet_ok {s : MacStore} {macs : List Mac} (h : s.macs.Writable slice.toRange)
    (hlen : macs.length = slice.size) : ∃ m, MacStore.trySet slice macs s = (.ok (), ⟨m⟩) ∧
      Store.trySet slice macs s.macs = (.ok (), m) := by
  obtain ⟨m, h⟩ := Store.trySet_ok h hlen
  refine ⟨m, ?_, h⟩
  rw [MacStore.trySet, MacStore.onMacs, Method.zoom_apply, h]
  rfl

theorem MacStore.trySet_panic {s : MacStore} {macs : List Mac} (h : s.macs.Writable slice.toRange)
    (hlen : macs.length ≠ slice.size) : (MacStore.trySet slice macs s).1 = .panic := by
  rw [MacStore.trySet, MacStore.onMacs, Method.zoom_apply, Store.trySet_panic h hlen]
  rfl

theorem KeyStore.trySet_err {s : KeyStore} (keys : List Key)
    (h : ¬ s.keys.Writable slice.toRange) : ∃ e, KeyStore.trySet slice keys s = (.err e, s) := by
  obtain ⟨e, h⟩ := Store.trySet_err keys h
  refine ⟨.ofStore e, ?_⟩
  rw [KeyStore.trySet, KeyStore.onKeys, Method.zoom_apply, h]
  rfl

theorem KeyStore.trySet_ok {s : KeyStore} {keys : List Key} (h : s.keys.Writable slice.toRange)
    (hlen : keys.length = slice.size) :
    ∃ k, KeyStore.trySet slice keys s = (.ok (), { s with keys := k }) ∧
      Store.trySet slice keys s.keys = (.ok (), k) := by
  obtain ⟨k, h⟩ := Store.trySet_ok h hlen
  refine ⟨k, ?_, h⟩
  rw [KeyStore.trySet, KeyStore.onKeys, Method.zoom_apply, h]
  rfl

theorem KeyStore.trySet_panic {s : KeyStore} {keys : List Key} (h : s.keys.Writable slice.toRange)
    (hlen : keys.length ≠ slice.size) : (KeyStore.trySet slice keys s).1 = .panic := by
  rw [KeyStore.trySet, KeyStore.onKeys, Method.zoom_apply, Store.trySet_panic h hlen]
  rfl

theorem MacStore.atomic_trySet {s : MacStore} {macs : List Mac} :
    (MacStore.trySet slice macs).Atomic s := by
  rw [MacStore.trySet, MacStore.onMacs]
  exact .zoom Store.atomic_trySet rfl

theorem KeyStore.atomic_trySet {s : KeyStore} {keys : List Key} :
    (KeyStore.trySet slice keys).Atomic s := by
  rw [KeyStore.trySet, KeyStore.onKeys]
  exact .zoom Store.atomic_trySet rfl

theorem MacStore.trySet_err_iff {s : MacStore} {macs : List Mac} :
    (∃ e, (MacStore.trySet slice macs s).1 = .err e) ↔ ¬ s.macs.Writable slice.toRange := by
  rw [MacStore.trySet, MacStore.onMacs, Method.zoom_apply, ← Store.trySet_err_iff macs]
  rcases Store.trySet slice macs s.macs with ⟨_ | _ | _, m⟩ <;> simp

theorem KeyStore.trySet_err_iff {s : KeyStore} {keys : List Key} :
    (∃ e, (KeyStore.trySet slice keys s).1 = .err e) ↔ ¬ s.keys.Writable slice.toRange := by
  rw [KeyStore.trySet, KeyStore.onKeys, Method.zoom_apply, ← Store.trySet_err_iff keys]
  rcases Store.trySet slice keys s.keys with ⟨_ | _ | _, k⟩ <;> simp

/-- Keys are changed where they can be written. -/
theorem KeyStore.trySet_changes_iff {s : KeyStore} {keys : List Key} :
    (∃ u t, KeyStore.trySet slice keys s = (.ok u, t) ∧ t ≠ s) ↔
      s.keys.Writable slice.toRange ∧ keys.length = slice.size := by
  constructor
  · rintro ⟨u, t, h, -⟩
    rw [KeyStore.trySet, KeyStore.onKeys] at h
    obtain ⟨k, h, -⟩ := Method.zoom_eq_ok.mp h
    exact Store.writable_of_trySet h
  · rintro ⟨hw, hlen⟩
    obtain ⟨k, h, hk⟩ := KeyStore.trySet_ok hw hlen
    exact ⟨(), _, h, fun hs => Store.ne_of_trySet hk (congrArg KeyStore.keys hs)⟩

end Correlated

/-- Requests never fail. -/
theorem DecodeQueue.request_neverErrs (dataStore : BitStore) (slice : Slice) :
    (DecodeQueue.request dataStore slice).NeverErrs := by
  intro q e
  have hrun : DecodeQueue.request dataStore slice q =
      (do
        DecodeQueue.resolve dataStore ⟨slice, some q.next⟩
        return q.next) { q with next := q.next + 1 } := rfl
  rw [hrun, Method.bind_apply, DecodeQueue.resolve]
  cases dataStore.tryGet slice <;> exact nofun

/-! ### The prover -/

namespace Zk

namespace View

variable {v : View} {range : Range}

theorem Op.atomic (op : Op) : op.run.Atomic v := fun e _ h => op.run_eq (o := .err e) nofun h

/-- The range is of outputs that are complete, and are proven if they are requested. -/
def HasOutput (self : View) (range : Range) : Prop :=
  range.toSet ⊆ self.output.complete ∧ range.toSet ∩ self.decode.all ⊆ self.flush.prove

/-- The range can be assigned. -/
def Assignable (self : View) (range : Range) : Prop :=
  range.toSet ⊆ self.vis.visibleRanges ∧ Disjoint range.toSet self.output.all

theorem setOutput_of_subset (h : range.toSet ⊆ v.output.all) :
    ∃ w, setOutput range v = (.ok (), w) ∧ (w = v ↔ v.HasOutput range) := by
  obtain ⟨w, hrun⟩ : ∃ w, setOutput range v = (.ok (), w) :=
    ⟨_, by rw [setOutput, Method.get_bind, Method.ite_apply, if_neg (not_not.mpr h)]; rfl⟩
  refine ⟨w, hrun, ?_⟩
  obtain ⟨-, rfl⟩ := setOutput_eq_ok hrun
  constructor
  · intro hw
    have hcomplete := congrArg (fun v => v.output.complete) hw
    have hprove := congrArg (fun v => v.flush.prove) hw
    exact ⟨Finset.union_eq_left.mp hcomplete, Finset.union_eq_left.mp hprove⟩
  · rintro ⟨hcomplete, hprove⟩
    rw [Finset.union_eq_left.mpr hcomplete, Finset.union_eq_left.mpr hprove]

/-- Outputs change the view unless it has them, and what is behind may be refused. -/
theorem torn_setOutput {τ ε β : Type} {n : Method τ ε β} {d : τ} :
    Method.Torn (setOutput range) n v d ↔
      (range.toSet ⊆ v.output.all ∧ ¬ v.HasOutput range) ∧ ∃ e, (n d).1 = .err e :=
  Method.torn_iff_of (Op.atomic (.setOutput range)) (fun h => ⟨(), setOutput_of_subset h⟩)
    fun h => (setOutput_eq_ok h).1

theorem assign_of_assignable (h : v.Assignable range) :
    ∃ w, assign range v = (.ok (), w) ∧ w.vis = v.vis ∧
      (w = v ↔ range.toSet ⊆ v.input.assigned) := by
  have hvis : v.vis.isVisible range = true := by simpa [VisibilityView.isVisible] using h.1
  obtain ⟨w, hrun⟩ : ∃ w, assign range v = (.ok (), w) :=
    ⟨_, by rw [assign, Method.get_bind, Method.ite_apply, if_neg (not_not.mpr hvis),
      Method.ite_apply, if_neg (not_not.mpr h.2), Method.modify_apply]⟩
  refine ⟨w, hrun, ?_⟩
  obtain ⟨-, -, rfl⟩ := assign_eq_ok hrun
  refine ⟨rfl, fun hw => ?_, fun hsub => ?_⟩
  · exact Finset.union_eq_left.mp (congrArg (fun v => v.input.assigned) hw)
  · rw [Finset.union_eq_left.mpr hsub]

theorem requestDecode_neverErrs : (requestDecode range).NeverErrs := by
  intro v e
  rw [requestDecode_apply]
  exact nofun

end View

/-- The components of a store that an assignment is about: the view, the data, and the MACs or the
keys. What is put into one of them leaves the others. -/
structure Components (σ ε T : Type) where
  view : σ → View
  putView : σ → View → σ
  data : σ → BitStore
  putData : σ → BitStore → σ
  items : σ → Store T
  putItems : σ → Store T → σ
  viewError : ViewError → ε
  dataError : StoreError → ε
  itemsError : StoreError → ε
  /-- The MAC or the key of a public bit. -/
  ofPublic : σ → Bool → T
  putView_view : ∀ s, putView s (view s) = s
  view_putView : ∀ s v, view (putView s v) = v
  data_putView : ∀ s v, data (putView s v) = data s
  items_putView : ∀ s v, items (putView s v) = items s
  putData_data : ∀ s, putData s (data s) = s
  view_putData : ∀ s d, view (putData s d) = view s
  data_putData : ∀ s d, data (putData s d) = d
  items_putData : ∀ s d, items (putData s d) = items s
  putItems_items : ∀ s, putItems s (items s) = s
  data_putItems : ∀ s m, data (putItems s m) = data s
  items_putItems : ∀ s m, items (putItems s m) = m

namespace Components

variable {σ ε T : Type} (c : Components σ ε T) {s : σ} {slice : Slice} {data : List Bool}

/-- Sets the items of public data. -/
def setPublic (range : Range) : Method σ ε Unit := do
  let self ← Method.get
  let slice := Slice.fromRange range
  let data ← Method.call (((c.data self).tryGet slice).mapErr c.dataError)
  Method.zoom c.items c.putItems c.itemsError (Store.trySet slice (data.map (c.ofPublic self)))

/-- Assigns data to input memory. -/
def assignRaw (slice : Slice) (data : List Bool) : Method σ ε Unit := do
  Method.zoom c.view c.putView c.viewError (View.assign slice.toRange)
  Method.zoom c.data c.putData c.dataError (Store.trySet slice data)
  let self ← Method.get
  Method.forEach c.setPublic (RangeSet.iter (slice.toRange.toSet ∩ (c.view self).vis.publicRanges))

/-- A component refuses an assignment after another was changed. -/
def Torn (s : σ) (slice : Slice) (data : List Bool) : Prop :=
  (c.view s).Assignable slice.toRange ∧
    (¬ (c.data s).Writable slice.toRange ∧ ¬ slice.toRange.toSet ⊆ (c.view s).input.assigned ∨
      (c.data s).Writable slice.toRange ∧ data.length = slice.size ∧
        ∃ range ∈ RangeSet.iter (slice.toRange.toSet ∩ (c.view s).vis.publicRanges),
          ¬ (c.items s).Writable range)

/-- Public data is set where its items can be written. -/
theorem setPublic_cases {range : Range} (hlt : range.start < range.stop)
    (hset : range.toSet ⊆ (c.data s).set) :
    ((c.items s).Writable range ∧ ∃ m : Store T, c.setPublic range s = (.ok (), c.putItems s m) ∧
        m.items.length = (c.items s).items.length ∧ m.set = (c.items s).set ∪ range.toSet) ∨
      ¬ (c.items s).Writable range ∧ ∃ e, c.setPublic range s = (.err e, s) := by
  have hrange := Slice.toRange_fromRange hlt.le
  have hget := Store.tryGet_values hlt hset
  let items := ((c.data s).values range.indices).map (c.ofPublic s)
  have hlen : items.length = (Slice.fromRange range).size := by
    rw [List.length_map, Store.length_of_tryGet hget]
  have hrun : c.setPublic range s = Method.zoom c.items c.putItems c.itemsError
      (Store.trySet (Slice.fromRange range) items) s := by
    rw [setPublic, Method.get_bind, hget]
    rfl
  by_cases hw : (c.items s).Writable range
  · obtain ⟨m, hm⟩ := Store.trySet_ok (hrange.symm ▸ hw) hlen
    refine .inl ⟨hw, m, ?_, Store.length_trySet hm, by rw [Store.set_trySet hm, hrange]⟩
    rw [hrun, Method.zoom_apply, hm]
    rfl
  · have hw' : ¬ (c.items s).Writable (Slice.fromRange range).toRange := hrange.symm ▸ hw
    obtain ⟨e, herr⟩ := Store.trySet_err items hw'
    refine .inr ⟨hw, c.itemsError e, ?_⟩
    rw [hrun, Method.zoom_apply, herr, c.putItems_items]
    rfl

/-- The loop over the public ranges of what is assigned is refused where the items of one of them
cannot be written. -/
theorem setPublic_loop {d : BitStore} {ranges : RangeSet} (hs : c.data s = d)
    (hset : ranges ⊆ d.set) :
    (∃ e t, Method.forEach c.setPublic ranges.iter s = (.err e, t) ∧ c.data t = d) ∧
        (∃ range ∈ ranges.iter, ¬ (c.items s).Writable range) ∨
      (∃ t, Method.forEach c.setPublic ranges.iter s = (.ok (), t)) ∧
        ∀ range ∈ ranges.iter, (c.items s).Writable range := by
  have hsub : ∀ range ∈ ranges.iter, ∀ t, c.data t = d → range.toSet ⊆ (c.data t).set :=
    fun range hr t ht => ht ▸ (RangeSet.toSet_subset_of_mem_iter hr).trans hset
  let Good (range : Range) (t : σ) : Prop := (c.items t).Writable range
  refine Method.forEach_err_iff (P := fun t => c.data t = d) (g := Good) hs
    ranges.pairwise_disjoint_iter ?_ ?_
  · intro range hr t ht hw
    rcases c.setPublic_cases (RangeSet.lt_of_mem_iter hr) (hsub range hr t ht) with
      ⟨-, m, hrun, hlen, hmset⟩ | ⟨hno, -⟩
    · refine ⟨_, hrun, (c.data_putItems t m).trans ht, fun range' hdisj => ?_⟩
      show (c.items (c.putItems t m)).Writable range' ↔ (c.items t).Writable range'
      rw [c.items_putItems]
      refine Store.Writable.congr hlen fun i hi => ?_
      rw [hmset, Finset.mem_union, or_iff_left]
      exact fun hi' => Finset.disjoint_left.mp hdisj hi' hi
    · exact absurd hw hno
  · intro range hr t ht hno
    rcases c.setPublic_cases (RangeSet.lt_of_mem_iter hr) (hsub range hr t ht) with
      ⟨hw, -⟩ | ⟨-, e, hrun⟩
    · exact absurd hw hno
    · exact ⟨e, t, hrun, ht⟩

/-- **When an assignment is rejected as a whole.** -/
theorem assignRaw_atomic_iff : (c.assignRaw slice data).Atomic s ↔ ¬ c.Torn s slice data := by
  by_cases hassign : (c.view s).Assignable slice.toRange
  case neg =>
    refine iff_of_true ?_ fun h => hassign h.1
    refine Method.LeavesOnErr.bind_iff.mpr
      ⟨.zoom (View.Op.atomic (.assign slice.toRange)) (c.putView_view s), ?_⟩
    rintro u s' hrun
    obtain ⟨w, hw, -⟩ := Method.zoom_eq_ok.mp hrun
    obtain ⟨hvis, hdisj, -⟩ := View.assign_eq_ok hw
    exact absurd ⟨hvis, hdisj⟩ hassign
  case pos =>
    obtain ⟨w, hw, hvis, hsame⟩ := View.assign_of_assignable hassign
    have hview : Method.zoom c.view c.putView c.viewError (View.assign slice.toRange) s =
        (.ok (), c.putView s w) := Method.zoom_eq_ok.mpr ⟨w, hw, rfl⟩
    have hdataView := c.data_putView s w
    rw [assignRaw, Method.Atomic, Method.LeavesOnErr.bind_of_ok hview]
    by_cases hdata : (c.data s).Writable slice.toRange
    case neg =>
      obtain ⟨e, herr⟩ := Store.trySet_err data hdata
      have hset : Method.zoom c.data c.putData c.dataError (Store.trySet slice data)
          (c.putView s w) = (.err (c.dataError e), c.putView s w) := by
        rw [Method.zoom_apply, hdataView, herr, ← hdataView, c.putData_data]
        rfl
      rw [Method.LeavesOnErr.bind_of_err hset]
      constructor
      · rintro hs ⟨-, ⟨-, hno⟩ | ⟨hw, -⟩⟩
        · exact hno (hsame.mp ((c.view_putView s w).symm.trans (congrArg c.view hs)))
        · exact hdata hw
      · intro h
        have hsub : slice.toRange.toSet ⊆ (c.view s).input.assigned := by
          by_contra hno
          exact h ⟨hassign, .inl ⟨hdata, hno⟩⟩
        rw [hsame.mpr hsub, c.putView_view]
    case pos =>
      by_cases hlen : data.length = slice.size
      case neg =>
        refine iff_of_true (Method.LeavesOnErr.bind_of_panic ?_) ?_
        · rw [Method.zoom_apply, hdataView, Store.trySet_panic hdata hlen]
          rfl
        · rintro ⟨-, ⟨hno, -⟩ | ⟨-, h, -⟩⟩
          · exact hno hdata
          · exact hlen h
      case pos =>
        obtain ⟨d, hd⟩ := Store.trySet_ok hdata hlen
        have hset : Method.zoom c.data c.putData c.dataError (Store.trySet slice data)
            (c.putView s w) = (.ok (), c.putData (c.putView s w) d) := by
          rw [Method.zoom_apply, hdataView, hd]
          rfl
        have hsub : slice.toRange.toSet ∩ (c.view s).vis.publicRanges ⊆ d.set := by
          rw [Store.set_trySet hd]
          exact Finset.inter_subset_left.trans Finset.subset_union_right
        have hpublic : (c.view (c.putData (c.putView s w) d)).vis = (c.view s).vis := by
          rw [c.view_putData, c.view_putView, hvis]
        have hitems : c.items (c.putData (c.putView s w) d) = c.items s := by
          rw [c.items_putData, c.items_putView]
        rw [Method.LeavesOnErr.bind_of_ok hset]
        change (Method.forEach c.setPublic (RangeSet.iter (slice.toRange.toSet ∩
          (c.view (c.putData (c.putView s w) d)).vis.publicRanges))).LeavesOnErr _ s ↔ _
        rw [hpublic]
        rcases c.setPublic_loop (c.data_putData (c.putView s w) d) hsub with
          ⟨⟨e, t, herr, ht⟩, hbad⟩ | ⟨⟨t, hok⟩, hall⟩
        · rw [hitems] at hbad
          refine iff_of_false (fun h => ?_) (not_not.mpr ⟨hassign, .inr ⟨hdata, hlen, hbad⟩⟩)
          have hts := h e t herr
          exact Store.ne_of_trySet hd (ht.symm.trans (congrArg c.data hts))
        · rw [hitems] at hall
          refine iff_of_true (.of_ne_err fun e h => ?_) ?_
          · rw [hok] at h
            cases h
          · rintro ⟨-, ⟨hno, -⟩ | ⟨-, -, range, hr, hno⟩⟩
            · exact hno hdata
            · exact hno (hall range hr)

end Components

namespace ProverStore

variable {env : CheckEnv} {blake3 : Blake3} {s : ProverStore} {slice : Slice}

/-- The operations that set outputs, mark, assign, commit and decode. -/
def Op.Direct : Op → Prop
  | setOutputMacs _ _ => True
  | markRaw _ _ => True
  | assignRaw _ _ => True
  | commitRaw _ => True
  | decodeRaw _ => True
  | _ => False

/-- A component refuses after another was changed. -/
def Op.Torn (s : ProverStore) : Op → Prop
  | setOutputMacs slice macs =>
    slice.toRange.toSet ⊆ s.view.output.all ∧
      (¬ s.macStore.macs.Writable slice.toRange ∧ ¬ s.view.HasOutput slice.toRange ∨
        s.macStore.macs.Writable slice.toRange ∧ macs.length = slice.size ∧
          ¬ s.dataStore.Writable slice.toRange)
  | assignRaw slice data =>
    s.view.Assignable slice.toRange ∧
      (¬ s.dataStore.Writable slice.toRange ∧ ¬ slice.toRange.toSet ⊆ s.view.input.assigned ∨
        s.dataStore.Writable slice.toRange ∧ data.length = slice.size ∧
          ∃ range ∈ RangeSet.iter (slice.toRange.toSet ∩ s.view.vis.publicRanges),
            ¬ s.macStore.macs.Writable range)
  | _ => False

theorem atomic_onView (op : View.Op) : (onView op.run).Atomic s :=
  .zoom op.atomic rfl

theorem setOutputMacs_atomic_iff {macs : List Mac} : (setOutputMacs slice macs).Atomic s ↔
    ¬ (Op.setOutputMacs slice macs).Torn s := by
  have hlen : (macs.map Mac.pointer).length = macs.length := List.length_map _
  by_cases hout : slice.toRange.toSet ⊆ s.view.output.all
  case neg =>
    refine iff_of_true ?_ fun h => hout h.1
    refine Method.LeavesOnErr.bind_iff.mpr ⟨atomic_onView (.setOutput slice.toRange), ?_⟩
    rintro u s' hrun
    obtain ⟨w, hw, -⟩ := Method.zoom_eq_ok.mp hrun
    exact absurd (View.setOutput_eq_ok hw).1 hout
  case pos =>
    obtain ⟨w, hw, hsame⟩ := View.setOutput_of_subset hout
    have hview : onView (View.setOutput slice.toRange) s = (.ok (), { s with view := w }) :=
      Method.zoom_eq_ok.mpr ⟨w, hw, rfl⟩
    rw [setOutputMacs, Method.Atomic, Method.LeavesOnErr.bind_of_ok hview]
    by_cases hmac : s.macStore.macs.Writable slice.toRange
    case neg =>
      obtain ⟨e, herr⟩ := MacStore.trySet_err macs hmac
      have hmacs : onMacs (MacStore.trySet slice macs) { s with view := w } =
          (.err (.macStore e), { s with view := w }) := by
        rw [onMacs, Method.zoom_apply, herr]
        rfl
      rw [Method.LeavesOnErr.bind_of_err hmacs]
      constructor
      · rintro hs ⟨-, ⟨-, hno⟩ | ⟨hw, -⟩⟩
        · exact hno (hsame.mp (congrArg view hs))
        · exact hmac hw
      · intro h
        have hno : s.view.HasOutput slice.toRange := by
          by_contra hno
          exact h ⟨hout, .inl ⟨hmac, hno⟩⟩
        rw [hsame.mpr hno]
    case pos =>
      by_cases hmacs : macs.length = slice.size
      case neg =>
        refine iff_of_true (Method.LeavesOnErr.bind_of_panic ?_) ?_
        · rw [onMacs, Method.zoom_apply, MacStore.trySet_panic hmac hmacs]
          rfl
        · rintro ⟨-, ⟨hno, -⟩ | ⟨-, h, -⟩⟩
          · exact hno hmac
          · exact hmacs h
      case pos =>
        obtain ⟨m, hset, hm⟩ := MacStore.trySet_ok hmac hmacs
        have hset' : onMacs (MacStore.trySet slice macs) { s with view := w } =
            (.ok (), { s with view := w, macStore := ⟨m⟩ }) := by
          rw [onMacs, Method.zoom_apply, hset]
          rfl
        rw [Method.LeavesOnErr.bind_of_ok hset', onData, Method.LeavesOnErr.zoom_iff]
        constructor
        · rintro h ⟨-, ⟨hno, -⟩ | ⟨-, -, hdata⟩⟩
          · exact hno hmac
          · obtain ⟨e, herr⟩ := Store.trySet_err (macs.map Mac.pointer) hdata
            have hs := h e _ herr
            exact Store.ne_of_trySet hm (congrArg (fun s => s.macStore.macs) hs)
        · intro h e d herr
          refine absurd ⟨hout, .inr ⟨hmac, hmacs, ?_⟩⟩ h
          exact (Store.trySet_err_iff _).mp ⟨e, congrArg Prod.fst herr⟩

/-- The components of a prover's store. -/
def components : Components ProverStore ProverStoreError Mac where
  view := view
  putView self view := { self with view }
  data := dataStore
  putData self dataStore := { self with dataStore }
  items self := self.macStore.macs
  putItems self macs := { self with macStore := ⟨macs⟩ }
  viewError := .view
  dataError := .store
  itemsError e := .macStore (.ofStore e)
  ofPublic _ := Mac.ofPublic
  putView_view _ := rfl
  view_putView _ _ := rfl
  data_putView _ _ := rfl
  items_putView _ _ := rfl
  putData_data _ := rfl
  view_putData _ _ := rfl
  data_putData _ _ := rfl
  items_putData _ _ := rfl
  putItems_items _ := rfl
  data_putItems _ _ := rfl
  items_putItems _ _ := rfl

theorem setPublic_eq (range : Range) : setPublic range = components.setPublic range := by
  simp only [setPublic, onMacs, MacStore.trySetPublic, MacStore.onMacs, Method.zoom_zoom]
  rfl

theorem assignRaw_eq (slice : Slice) (data : List Bool) :
    assignRaw slice data = components.assignRaw slice data := by
  rw [assignRaw, funext setPublic_eq]
  rfl

theorem assignRaw_atomic_iff {data : List Bool} : (assignRaw slice data).Atomic s ↔
    ¬ (Op.assignRaw slice data).Torn s := by
  rw [assignRaw_eq]
  exact components.assignRaw_atomic_iff

/-- **When an operation of the prover is rejected as a whole.** -/
theorem Op.atomic_iff {op : Op} (h : op.Direct) : (op.run env blake3).Atomic s ↔ ¬ op.Torn s := by
  cases op with
  | setOutputMacs slice macs => exact setOutputMacs_atomic_iff
  | markRaw visibility slice =>
    exact iff_of_true (atomic_onView (.mark visibility slice.toRange)) id
  | assignRaw slice data => exact assignRaw_atomic_iff
  | commitRaw slice => exact iff_of_true (atomic_onView (.commit slice.toRange)) id
  | decodeRaw slice =>
    refine iff_of_true (.of_ne_err fun e => ?_) id
    exact Method.NeverErrs.bind (.get_bind fun s => .bind (.zoom
      (DecodeQueue.request_neverErrs _ _)) fun _ => .bind (.zoom View.requestDecode_neverErrs)
        fun _ => .pure _) (fun _ => .pure _) s e
  | _ => exact absurd h id

end ProverStore

/-! ### The verifier -/

namespace VerifierStore

variable {env : CheckEnv} {blake3 : Blake3} {s : VerifierStore} {slice : Slice}

/-- The operations that set outputs, mark, assign, commit and decode. -/
def Op.Direct : Op → Prop
  | setOutputKeys _ _ => True
  | markRaw _ _ => True
  | assignRaw _ _ => True
  | commitRaw _ => True
  | decodeRaw _ => True
  | _ => False

/-- A component refuses after another was changed. -/
def Op.Torn (s : VerifierStore) : Op → Prop
  | setOutputKeys slice _ =>
    slice.toRange.toSet ⊆ s.view.output.all ∧ ¬ s.view.HasOutput slice.toRange ∧
      ¬ s.keyStore.keys.Writable slice.toRange
  | assignRaw slice data =>
    s.view.Assignable slice.toRange ∧
      (¬ s.dataStore.Writable slice.toRange ∧ ¬ slice.toRange.toSet ⊆ s.view.input.assigned ∨
        s.dataStore.Writable slice.toRange ∧ data.length = slice.size ∧
          ∃ range ∈ RangeSet.iter (slice.toRange.toSet ∩ s.view.vis.publicRanges),
            ¬ s.keyStore.keys.Writable range)
  | _ => False

theorem atomic_onView (op : View.Op) : (onView op.run).Atomic s :=
  .zoom op.atomic rfl

theorem setOutputKeys_atomic_iff {keys : List Key} : (setOutputKeys slice keys).Atomic s ↔
    ¬ (Op.setOutputKeys slice keys).Torn s := by
  have hrule := Method.zoom_bind_zoom_atomic_iff (s := s) (m := View.setOutput slice.toRange)
    (n := KeyStore.trySet slice keys) (p := view) (f := fun self view => { self with view })
    (i := VerifierStoreError.view) (q := keyStore)
    (g := fun self keyStore => { self with keyStore }) (j := VerifierStoreError.keyStore)
    (fun w => ⟨congrArg view, fun h => h ▸ rfl⟩) (fun _ => rfl) (fun _ => rfl)
    KeyStore.atomic_trySet
  rw [View.torn_setOutput, KeyStore.trySet_err_iff, and_assoc] at hrule
  exact hrule

/-- The components of a verifier's store. -/
def components : Components VerifierStore VerifierStoreError Key where
  view := view
  putView self view := { self with view }
  data := dataStore
  putData self dataStore := { self with dataStore }
  items self := self.keyStore.keys
  putItems self keys := { self with keyStore := { self.keyStore with keys } }
  viewError := .view
  dataError := .store
  itemsError e := .keyStore (.ofStore e)
  ofPublic self bit := if bit then self.keyStore.publicOne else ⟨macZero⟩
  putView_view _ := rfl
  view_putView _ _ := rfl
  data_putView _ _ := rfl
  items_putView _ _ := rfl
  putData_data _ := rfl
  view_putData _ _ := rfl
  data_putData _ _ := rfl
  items_putData _ _ := rfl
  putItems_items _ := rfl
  data_putItems _ _ := rfl
  items_putItems _ _ := rfl

theorem onKeys_trySetPublic (slice : Slice) (data : List Bool) (s : VerifierStore) :
    onKeys (KeyStore.trySetPublic slice data) s =
      Method.zoom components.items components.putItems components.itemsError
        (Store.trySet slice (data.map (components.ofPublic s))) s := by
  have hrun : onKeys (KeyStore.trySetPublic slice data) s =
      onKeys (KeyStore.onKeys (Store.trySet slice (data.map (components.ofPublic s)))) s := rfl
  rw [hrun, onKeys, KeyStore.onKeys, Method.zoom_zoom]
  rfl

theorem setPublic_eq (range : Range) : setPublic range = components.setPublic range := by
  funext s
  rw [setPublic, Components.setPublic, Method.get_bind, Method.get_bind]
  show (Method.call ((s.dataStore.tryGet (Slice.fromRange range)).mapErr
      VerifierStoreError.store) >>= fun data =>
        onKeys (KeyStore.trySetPublic (Slice.fromRange range) data)) s =
    (Method.call ((s.dataStore.tryGet (Slice.fromRange range)).mapErr
      VerifierStoreError.store) >>= fun data =>
        Method.zoom components.items components.putItems components.itemsError
          (Store.trySet (Slice.fromRange range) (data.map (components.ofPublic s)))) s
  cases s.dataStore.tryGet (Slice.fromRange range) with
  | ok data => exact onKeys_trySetPublic _ data s
  | err e => rfl
  | panic => rfl

theorem assignRaw_eq (slice : Slice) (data : List Bool) :
    assignRaw slice data = components.assignRaw slice data := by
  rw [assignRaw, funext setPublic_eq]
  rfl

theorem assignRaw_atomic_iff {data : List Bool} : (assignRaw slice data).Atomic s ↔
    ¬ (Op.assignRaw slice data).Torn s := by
  rw [assignRaw_eq]
  exact components.assignRaw_atomic_iff

/-- **When an operation of the verifier is rejected as a whole.** -/
theorem Op.atomic_iff {op : Op} (h : op.Direct) : (op.run env blake3).Atomic s ↔ ¬ op.Torn s := by
  cases op with
  | setOutputKeys slice keys => exact setOutputKeys_atomic_iff
  | markRaw visibility slice =>
    exact iff_of_true (atomic_onView (.mark visibility slice.toRange)) id
  | assignRaw slice data => exact assignRaw_atomic_iff
  | commitRaw slice => exact iff_of_true (atomic_onView (.commit slice.toRange)) id
  | decodeRaw slice =>
    refine iff_of_true (.of_ne_err fun e => ?_) id
    exact Method.NeverErrs.bind (.get_bind fun s => .bind (.zoom
      (DecodeQueue.request_neverErrs _ _)) fun _ => .bind (.zoom View.requestDecode_neverErrs)
        fun _ => .pure _) (fun _ => .pure _) s e
  | _ => exact absurd h id

end VerifierStore

end Zk

/-! ### The garbler -/

namespace Garble

namespace View

variable {v : View} {range : Range} {visibility : Visibility}

theorem Op.atomic (op : Op) : op.run.Atomic v := fun e _ h => op.run_eq (o := .err e) nofun h

/-- The range is of outputs that are complete, and pending where they are requested. -/
def HasOutput (self : View) (range : Range) : Prop :=
  range.toSet ⊆ self.output.preprocessed ∧ range.toSet ⊆ self.output.complete ∧
    (range.toSet ∩ self.decode.all) \ self.decode.decodeInfo ⊆ self.flush.decodeInfo ∧
    (range.toSet ∩ self.decode.decodeInfo) \ self.decode.complete ⊆ self.flush.decode

/-- The range can be assigned. -/
def Assignable (self : View) (range : Range) : Prop :=
  range.toSet ⊆ self.vis.visibleRanges ∧ Disjoint range.toSet self.output.all

/-- The range cannot be marked. -/
def MarkRefused (self : View) (range : Range) : Prop :=
  self.vis.isSetAny range = true ∨ ¬ Disjoint range.toSet self.output.all

theorem setOutput_of_subset (h : range.toSet ⊆ v.output.all) :
    ∃ w, setOutput range v = (.ok (), w) ∧ (w = v ↔ v.HasOutput range) := by
  obtain ⟨w, hrun⟩ : ∃ w, setOutput range v = (.ok (), w) :=
    ⟨_, by rw [setOutput, Method.get_bind, Method.ite_apply, if_neg (not_not.mpr h)]; rfl⟩
  refine ⟨w, hrun, ?_⟩
  obtain ⟨-, rfl⟩ := setOutput_eq_ok hrun
  constructor
  · intro hw
    exact ⟨Finset.union_eq_left.mp (congrArg (fun v => v.output.preprocessed) hw),
      Finset.union_eq_left.mp (congrArg (fun v => v.output.complete) hw),
      Finset.union_eq_left.mp (congrArg (fun v => v.flush.decodeInfo) hw),
      Finset.union_eq_left.mp (congrArg (fun v => v.flush.decode) hw)⟩
  · rintro ⟨hpre, hcomplete, hinfo, hdecode⟩
    rw [Finset.union_eq_left.mpr hpre, Finset.union_eq_left.mpr hcomplete,
      Finset.union_eq_left.mpr hinfo, Finset.union_eq_left.mpr hdecode]

theorem assign_of_assignable (h : v.Assignable range) :
    ∃ w, assign range v = (.ok (), w) ∧ (w = v ↔ range.toSet ⊆ v.input.assigned) := by
  have hvis : v.vis.isVisible range = true := by simpa [VisibilityView.isVisible] using h.1
  obtain ⟨w, hrun⟩ : ∃ w, assign range v = (.ok (), w) :=
    ⟨_, by rw [assign, Method.get_bind, Method.ite_apply, if_neg (not_not.mpr hvis),
      Method.ite_apply, if_neg (not_not.mpr h.2), Method.modify_apply]⟩
  refine ⟨w, hrun, ?_⟩
  obtain ⟨-, -, rfl⟩ := assign_eq_ok hrun
  constructor
  · intro hw
    exact Finset.union_eq_left.mp (congrArg (fun v => v.input.assigned) hw)
  · intro hsub
    rw [Finset.union_eq_left.mpr hsub]

/-- Outputs change the view unless it has them, and what is behind may be refused. -/
theorem torn_setOutput {τ ε β : Type} {n : Method τ ε β} {d : τ} :
    Method.Torn (setOutput range) n v d ↔
      (range.toSet ⊆ v.output.all ∧ ¬ v.HasOutput range) ∧ ∃ e, (n d).1 = .err e :=
  Method.torn_iff_of (Op.atomic (.setOutput range)) (fun h => ⟨(), setOutput_of_subset h⟩)
    fun h => (setOutput_eq_ok h).1

/-- An assignment changes the view unless it is repeated, and what is behind may be refused. -/
theorem torn_assign {τ ε β : Type} {n : Method τ ε β} {d : τ} :
    Method.Torn (assign range) n v d ↔
      (v.Assignable range ∧ ¬ range.toSet ⊆ v.input.assigned) ∧ ∃ e, (n d).1 = .err e :=
  Method.torn_iff_of (Op.atomic (.assign range)) (fun h => ⟨(), assign_of_assignable h⟩) fun h =>
    let ⟨hvis, hdisj, _⟩ := assign_eq_ok h
    ⟨hvis, hdisj⟩

/-- An assignment that is recorded in the view and then written to the data. -/
theorem assign_trySet_atomic_iff {σ ε : Type} {p : σ → View} {f : σ → View → σ}
    {i : ViewError → ε} {q : σ → BitStore} {g : σ → BitStore → σ} {j : StoreError → ε} {s : σ}
    {slice : Slice} {data : List Bool} (hf : ∀ w, f s w = s ↔ w = p s)
    (hq : ∀ w, q (f s w) = q s) (hg : ∀ w, g (f s w) (q s) = f s w) :
    (Method.zoom p f i (assign slice.toRange) >>= fun _ =>
      Method.zoom q g j (Store.trySet slice data)).Atomic s ↔
      ¬ ((p s).Assignable slice.toRange ∧ ¬ slice.toRange.toSet ⊆ (p s).input.assigned ∧
        ¬ (q s).Writable slice.toRange) := by
  rw [Method.zoom_bind_zoom_atomic_iff hf hq hg Store.atomic_trySet, torn_assign,
    Store.trySet_err_iff, and_assoc]

theorem setPreprocessed_err_iff :
    (∃ e, (setPreprocessed range v).1 = .err e) ↔ ¬ range.toSet ⊆ v.output.all := by
  rw [setPreprocessed, Method.get_bind, Method.ite_apply]
  split
  case isTrue hout => exact iff_of_true ⟨_, rfl⟩ hout
  case isFalse hout =>
    refine iff_of_false ?_ hout
    rintro ⟨e, h⟩
    cases h

theorem mark_err_iff : (∃ e, (mark visibility range v).1 = .err e) ↔ v.MarkRefused range := by
  rw [mark, Method.get_bind, Method.ite_apply]
  split
  case isTrue hset => exact iff_of_true ⟨_, rfl⟩ (.inl hset)
  case isFalse hset =>
    rw [Method.ite_apply]
    split
    case isTrue hdisj => exact iff_of_true ⟨_, rfl⟩ (.inr hdisj)
    case isFalse hdisj =>
      refine iff_of_false ?_ fun h => h.elim hset hdisj
      rintro ⟨e, h⟩
      split at h <;> cases h

theorem requestDecode_neverErrs : (requestDecode range).NeverErrs := by
  intro v e h
  rw [requestDecode, Method.get_bind, Method.ite_apply] at h
  split at h <;> cases h

end View

namespace GarblerStore

variable {C E : Type} {blake3 : Blake3} {s : GarblerStore C} {slice : Slice}

/-- The operations that set outputs, mark, assign, commit and decode. -/
def Op.Direct : Op C → Prop
  | setOutput _ _ => True
  | markRaw _ _ => True
  | assignRaw _ _ => True
  | commitRaw _ => True
  | decodeRaw _ => True
  | _ => False

/-- A component refuses after another was changed. -/
def Op.Torn [COTSender C E] (s : GarblerStore C) : Op C → Prop
  | setOutput slice keys =>
    s.keyStore.keys.Writable slice.toRange ∧ keys.length = slice.size ∧
      ¬ slice.toRange.toSet ⊆ s.view.output.all
  | markRaw .blind slice =>
    (COTSender.alloc slice.size s.cot).2 ≠ s.cot ∧
      ((∃ e, (COTSender.alloc slice.size s.cot).1 = .err e) ∨
        (∃ u, (COTSender.alloc slice.size s.cot).1 = .ok u) ∧ s.view.MarkRefused slice.toRange)
  | assignRaw slice _ =>
    s.view.Assignable slice.toRange ∧ ¬ slice.toRange.toSet ⊆ s.view.input.assigned ∧
      ¬ s.dataStore.Writable slice.toRange
  | _ => False

theorem atomic_onView (op : View.Op) :
    (onView op.run : Method (GarblerStore C) (GarblerStoreError E) Unit).Atomic s :=
  .zoom op.atomic rfl

theorem setOutput_atomic_iff [COTSender C E] {keys : List Key} :
    (setOutput slice keys : Method (GarblerStore C) (GarblerStoreError E) Unit).Atomic s ↔
      ¬ (Op.setOutput slice keys).Torn s := by
  have hrule := Method.zoom_bind_zoom_atomic_iff (s := s) (m := KeyStore.trySet slice keys)
    (n := View.setPreprocessed slice.toRange) (p := keyStore)
    (f := fun self keyStore => { self with keyStore })
    (i := GarblerStoreError.keyStore (E := E)) (q := view)
    (g := fun self view => { self with view }) (j := GarblerStoreError.view)
    (fun k => ⟨congrArg keyStore, fun h => h ▸ rfl⟩) (fun _ => rfl) (fun _ => rfl)
    (View.Op.atomic (.setPreprocessed slice.toRange))
  rw [Method.torn_iff KeyStore.atomic_trySet, KeyStore.trySet_changes_iff,
    View.setPreprocessed_err_iff, and_assoc] at hrule
  exact hrule

theorem markRaw_atomic_iff [COTSender C E] {visibility : Visibility} :
    (markRaw visibility slice : Method (GarblerStore C) (GarblerStoreError E) Unit).Atomic s ↔
      ¬ (Op.markRaw visibility slice : Op C).Torn s := by
  cases visibility with
  | pub => exact iff_of_true (atomic_onView (.mark .pub slice.toRange)) id
  | priv => exact iff_of_true (atomic_onView (.mark .priv slice.toRange)) id
  | blind =>
    have hrule := Method.zoom_bind_zoom_atomic_iff (s := s)
      (m := (COTSender.alloc slice.size : Method C E Unit)) (n := View.markBlind slice.toRange)
      (p := cot) (f := fun self cot => { self with cot }) (i := GarblerStoreError.cot) (q := view)
      (g := fun self view => { self with view }) (j := GarblerStoreError.view)
      (fun c => ⟨congrArg cot, fun h => h ▸ rfl⟩) (fun _ => rfl) (fun _ => rfl)
      (View.Op.atomic (.mark .blind slice.toRange))
    rw [Method.Torn, View.markBlind, View.mark_err_iff] at hrule
    exact hrule

theorem assignRaw_atomic_iff [COTSender C E] {data : List Bool} :
    (assignRaw slice data : Method (GarblerStore C) (GarblerStoreError E) Unit).Atomic s ↔
      ¬ (Op.assignRaw slice data).Torn s :=
  View.assign_trySet_atomic_iff (fun _ => ⟨congrArg view, fun h => h ▸ rfl⟩) (fun _ => rfl)
    fun _ => rfl

/-- **When an operation of the garbler is rejected as a whole.** -/
theorem Op.atomic_iff [COTSender C E] {op : Op C} (h : op.Direct) :
    (op.run blake3).Atomic s ↔ ¬ op.Torn s := by
  cases op with
  | setOutput slice keys => exact setOutput_atomic_iff
  | markRaw visibility slice => exact markRaw_atomic_iff
  | assignRaw slice data => exact assignRaw_atomic_iff
  | commitRaw slice => exact iff_of_true (atomic_onView (.commit slice.toRange)) id
  | decodeRaw slice =>
    refine iff_of_true (.of_ne_err fun e => ?_) id
    exact Method.NeverErrs.bind (.bind (.zoom View.requestDecode_neverErrs) fun _ =>
      .get_bind fun s => .zoom (DecodeQueue.request_neverErrs _ _)) (fun _ => .pure _) s e
  | _ => exact absurd h id

end GarblerStore

/-! ### The evaluator -/

namespace EvaluatorStore

variable {C E F : Type} {blake3 : Blake3} {s : EvaluatorStore C F} {slice : Slice}

/-- The operations that set outputs, mark, assign, commit and decode. -/
def Op.Direct : Op C → Prop
  | setOutput _ _ => True
  | markRaw _ _ => True
  | assignRaw _ _ => True
  | commitRaw _ => True
  | decodeRaw _ => True
  | _ => False

/-- A component refuses after another was changed. -/
def Op.Torn [COTReceiver C E F] (s : EvaluatorStore C F) : Op C → Prop
  | setOutput slice _ =>
    slice.toRange.toSet ⊆ s.view.output.all ∧ ¬ s.view.HasOutput slice.toRange ∧
      ¬ s.macStore.macs.Writable slice.toRange
  | markRaw .priv slice =>
    (COTReceiver.alloc slice.size s.cot).2 ≠ s.cot ∧
      ((∃ e, (COTReceiver.alloc slice.size s.cot).1 = .err e) ∨
        (∃ u, (COTReceiver.alloc slice.size s.cot).1 = .ok u) ∧ s.view.MarkRefused slice.toRange)
  | assignRaw slice _ =>
    s.view.Assignable slice.toRange ∧ ¬ slice.toRange.toSet ⊆ s.view.input.assigned ∧
      ¬ s.dataStore.Writable slice.toRange
  | _ => False

theorem atomic_onView (op : View.Op) :
    (onView op.run : Method (EvaluatorStore C F) (EvaluatorStoreError E) Unit).Atomic s :=
  .zoom op.atomic rfl

theorem setOutput_atomic_iff [COTReceiver C E F] {macs : List Mac} :
    (setOutput slice macs : Method (EvaluatorStore C F) (EvaluatorStoreError E) Unit).Atomic s ↔
      ¬ (Op.setOutput slice macs).Torn s := by
  have hrule := Method.zoom_bind_zoom_atomic_iff (s := s) (m := View.setOutput slice.toRange)
    (n := MacStore.trySet slice macs) (p := view) (f := fun self view => { self with view })
    (i := EvaluatorStoreError.view (E := E)) (q := macStore)
    (g := fun self macStore => { self with macStore }) (j := EvaluatorStoreError.macStore)
    (fun w => ⟨congrArg view, fun h => h ▸ rfl⟩) (fun _ => rfl) (fun _ => rfl)
    MacStore.atomic_trySet
  rw [View.torn_setOutput, MacStore.trySet_err_iff, and_assoc] at hrule
  exact hrule

theorem markRaw_atomic_iff [COTReceiver C E F] {visibility : Visibility} :
    (markRaw visibility slice : Method (EvaluatorStore C F) (EvaluatorStoreError E) Unit).Atomic s ↔
      ¬ (Op.markRaw visibility slice : Op C).Torn s := by
  cases visibility with
  | pub => exact iff_of_true (atomic_onView (.mark .pub slice.toRange)) id
  | blind => exact iff_of_true (atomic_onView (.mark .blind slice.toRange)) id
  | priv =>
    have hrule := Method.zoom_bind_zoom_atomic_iff (s := s)
      (m := (COTReceiver.alloc slice.size : Method C E Unit)) (n := View.markPrivate slice.toRange)
      (p := cot) (f := fun self cot => { self with cot }) (i := EvaluatorStoreError.cot)
      (q := view) (g := fun self view => { self with view }) (j := EvaluatorStoreError.view)
      (fun c => ⟨congrArg cot, fun h => h ▸ rfl⟩) (fun _ => rfl) (fun _ => rfl)
      (View.Op.atomic (.mark .priv slice.toRange))
    rw [Method.Torn, View.markPrivate, View.mark_err_iff] at hrule
    exact hrule

theorem assignRaw_atomic_iff [COTReceiver C E F] {data : List Bool} :
    (assignRaw slice data : Method (EvaluatorStore C F) (EvaluatorStoreError E) Unit).Atomic s ↔
      ¬ (Op.assignRaw slice data).Torn s :=
  View.assign_trySet_atomic_iff (fun _ => ⟨congrArg view, fun h => h ▸ rfl⟩) (fun _ => rfl)
    fun _ => rfl

/-- **When an operation of the evaluator is rejected as a whole.** -/
theorem Op.atomic_iff [COTReceiver C E F] {op : Op C} (h : op.Direct) :
    (op.run blake3 : Method (EvaluatorStore C F) _ _).Atomic s ↔ ¬ op.Torn s := by
  cases op with
  | setOutput slice macs => exact setOutput_atomic_iff
  | markRaw visibility slice => exact markRaw_atomic_iff
  | assignRaw slice data => exact assignRaw_atomic_iff
  | commitRaw slice => exact iff_of_true (atomic_onView (.commit slice.toRange)) id
  | decodeRaw slice =>
    refine iff_of_true (.of_ne_err fun e => ?_) id
    exact Method.NeverErrs.bind (.bind (.zoom View.requestDecode_neverErrs) fun _ =>
      .get_bind fun s => .zoom (DecodeQueue.request_neverErrs _ _)) (fun _ => .pure _) s e
  | _ => exact absurd h id

end EvaluatorStore

end Garble

/-- **When an operation is rejected as a whole.** From every state, an error leaves the store as it
was exactly where the operation is not torn. -/
theorem rejected_iff (blake3 : Blake3) :
    (∀ (env : Zk.CheckEnv) (s : Zk.ProverStore) (op : Zk.ProverStore.Op),
      op.Direct →
      ((∀ e t, op.run env blake3 s = (.err e, t) → t = s) ↔ ¬ op.Torn s)) ∧
    (∀ (env : Zk.CheckEnv) (s : Zk.VerifierStore) (op : Zk.VerifierStore.Op),
      op.Direct →
      ((∀ e t, op.run env blake3 s = (.err e, t) → t = s) ↔ ¬ op.Torn s)) ∧
    (∀ {C E : Type} [COTSender C E] (s : Garble.GarblerStore C)
      (op : Garble.GarblerStore.Op C), op.Direct →
      ((∀ e t, op.run blake3 s = (.err e, t) → t = s) ↔ ¬ op.Torn s)) ∧
    ∀ {C E F : Type} [COTReceiver C E F] (s : Garble.EvaluatorStore C F)
      (op : Garble.EvaluatorStore.Op C), op.Direct →
      ((∀ e t, op.run blake3 s = (.err e, t) → t = s) ↔ ¬ op.Torn s) :=
  ⟨fun _ _ _ h => Zk.ProverStore.Op.atomic_iff h, fun _ _ _ h => Zk.VerifierStore.Op.atomic_iff h,
    fun _ _ h => Garble.GarblerStore.Op.atomic_iff h,
    fun _ _ h => Garble.EvaluatorStore.Op.atomic_iff h⟩

/-- An assignment of the wrong indices is rejected as a whole. -/
theorem rejected_iff_assign :
    ∃ s : Zk.ProverStore, Run (Zk.ProverStore.Step .silent fun _ => 0) .new
      [.allocRaw 1, .markRaw .blind ⟨0, 1⟩] s ∧
    (∃ e t, Zk.ProverStore.Op.run .silent (fun _ => 0) (.assignRaw ⟨0, 1⟩ [true]) s = (.err e, t)) ∧
    ∀ e t, Zk.ProverStore.Op.run .silent (fun _ => 0) (.assignRaw ⟨0, 1⟩ [true]) s = (.err e, t) →
      t = s := by
  obtain ⟨s, hrun, hvis, herr⟩ : ∃ s : Zk.ProverStore, Run (Zk.ProverStore.Step .silent fun _ => 0)
      .new [.allocRaw 1, .markRaw .blind ⟨0, 1⟩] s ∧ 0 ∉ s.view.vis.visibleRanges ∧
      (Zk.ProverStore.Op.run .silent (fun _ => 0) (.assignRaw ⟨0, 1⟩ [true]) s).1 =
        .err (.view (.visibilityAssign ⟨0, 1⟩)) :=
    ⟨_, Zk.ProverStore.run_silent _, by decide +kernel, by decide +kernel⟩
  refine ⟨s, hrun, ⟨_, _, Prod.ext herr rfl⟩, ?_⟩
  refine ((rejected_iff _).1 .silent s (.assignRaw ⟨0, 1⟩ [true]) trivial).mpr ?_
  rintro ⟨⟨hsub, -⟩, -⟩
  exact hvis (hsub (by decide))

/-- **A torn assignment.** A public and a private input are assigned at once, after the public one
was assigned alone. The MAC of the public one is refused, and both have new values. -/
theorem rejected_torn : ∃ (s t : Zk.ProverStore) (e : Zk.ProverStoreError),
    Run (Zk.ProverStore.Step .silent fun _ => 0) .new
      [.allocRaw 2, .markRaw .pub ⟨0, 1⟩, .markRaw .priv ⟨1, 1⟩, .assignRaw ⟨0, 1⟩ [false]] s ∧
    Zk.ProverStore.Op.run .silent (fun _ => 0) (.assignRaw ⟨0, 2⟩ [true, true]) s = (.err e, t) ∧
    s.dataStore.cell 0 = some false ∧ t.dataStore.cell 0 = some true ∧ t ≠ s := by
  obtain ⟨s, t, e, hrun, herr, hs, ht⟩ : ∃ (s t : Zk.ProverStore) (e : Zk.ProverStoreError),
      Run (Zk.ProverStore.Step .silent fun _ => 0) .new
        [.allocRaw 2, .markRaw .pub ⟨0, 1⟩, .markRaw .priv ⟨1, 1⟩, .assignRaw ⟨0, 1⟩ [false]] s ∧
      Zk.ProverStore.Op.run .silent (fun _ => 0) (.assignRaw ⟨0, 2⟩ [true, true]) s = (.err e, t) ∧
      s.dataStore.cell 0 = some false ∧ t.dataStore.cell 0 = some true :=
    ⟨_, _, .macStore (.alreadySet ⟨0, 1⟩), Zk.ProverStore.run_silent _,
      Prod.ext (by decide +kernel) rfl, by decide +kernel, by decide +kernel⟩
  refine ⟨s, t, e, hrun, herr, hs, ht, ?_⟩
  rintro rfl
  rw [hs] at ht
  cases ht

end Mpz
