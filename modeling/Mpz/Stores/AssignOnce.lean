import Mpz.Memory.WriteOnce
import Mpz.Stores.Rejected

/-!
# What is assigned twice

The stores rely on their cells being written once. They are where no write has a slice of which only
a part is set: `trySet` refuses a slice whose cells are all set, and writes any other. So a bit that
was assigned, and whose MAC is already with the other party, is changed by an assignment of a larger
range.

## Main results

* `write_once_iff` — runs of a store, and assignments to the four stores
* `assign_overwrites` — a committed bit that is changed
-/

namespace Mpz

/-! ### Assignments that the view refuses -/

theorem Garble.View.assign_of_not_assignable {v : View} {range : Range} (h : ¬ v.Assignable range) :
    ∃ e, assign range v = (.err e, v) := by
  rw [assign, Method.get_bind]
  exact Method.guards_refuse (by simpa [VisibilityView.isVisible] using not_and_or.mp h)

theorem Zk.View.assign_of_not_assignable {v : View} {range : Range} (h : ¬ v.Assignable range) :
    ∃ e, assign range v = (.err e, v) := by
  rw [assign, Method.get_bind]
  exact Method.guards_refuse (by simpa [VisibilityView.isVisible] using not_and_or.mp h)

/-! ### What an assignment does to the data -/

section Assign

variable {σ ν ε ε' : Type} {view : σ → ν} {put : σ → ν → σ} {into : ε' → ε}
  {assign : Method ν ε' Unit} {data : σ → BitStore} {slice : Slice}

variable (data) in
/-- The view is asked, and the data is written. What follows leaves the data alone. -/
theorem extends_assign_iff {write : List Bool → Method σ ε Unit} {Assignable : Prop} {s : σ}
    (hput : ∀ s v, data (put s v) = data s)
    (hyes : Assignable → ∃ v, assign (view s) = (.ok (), v))
    (hno : ¬ Assignable → ∃ e, assign (view s) = (.err e, view s))
    (hwrite : ∀ bits s, data (write bits s).2 = (Store.trySet slice bits (data s)).2) :
    (∀ bits, (data s).Extends
      (data ((Method.zoom view put into assign >>= fun _ => write bits) s).2)) ↔
        (Assignable → (data s).Whole slice) := by
  by_cases h : Assignable
  · obtain ⟨v, hv⟩ := hyes h
    have hview : Method.zoom view put into assign s = (.ok (), put s v) :=
      Method.zoom_eq_ok.mpr ⟨v, hv, rfl⟩
    have hdata : ∀ bits, data ((Method.zoom view put into assign >>= fun _ => write bits) s).2 =
        (Store.trySet slice bits (data s)).2 := fun bits => by
      rw [Method.bind_apply_of_ok hview, hwrite, hput]
    simp only [hdata, h, true_imp_iff]
    exact Store.extends_trySet_iff
  · obtain ⟨e, he⟩ := hno h
    refine iff_of_true (fun bits => ?_) fun h' => absurd h' h
    have hview : Method.zoom view put into assign s = (.err (into e), put s (view s)) := by
      rw [Method.zoom_apply, he]
      rfl
    rw [Method.bind_apply, hview]
    show (data s).Extends (data (put s (view s)))
    rw [hput]
    exact .refl _

end Assign

variable {C E F : Type} {slice : Slice}

/-- An assignment leaves what is set, whatever the data, exactly if it has a whole slice. -/
theorem Garble.GarblerStore.extends_assignRaw_iff (s : GarblerStore C) :
    (∀ data, s.dataStore.Extends (assignRaw (E := E) slice data s).2.dataStore) ↔
      (s.view.Assignable slice.toRange → s.dataStore.Whole slice) :=
  extends_assign_iff GarblerStore.dataStore (fun _ _ => rfl)
    (fun h => (View.assign_of_assignable h).imp fun _ h => h.1) View.assign_of_not_assignable
    fun _ _ => rfl

theorem Garble.EvaluatorStore.extends_assignRaw_iff (s : EvaluatorStore C F) :
    (∀ data, s.dataStore.Extends (assignRaw (E := E) slice data s).2.dataStore) ↔
      (s.view.Assignable slice.toRange → s.dataStore.Whole slice) :=
  extends_assign_iff EvaluatorStore.dataStore (fun _ _ => rfl)
    (fun h => (View.assign_of_assignable h).imp fun _ h => h.1) View.assign_of_not_assignable
    fun _ _ => rfl

theorem Zk.ProverStore.extends_assignRaw_iff (s : ProverStore) :
    (∀ data, s.dataStore.Extends (assignRaw slice data s).2.dataStore) ↔
      (s.view.Assignable slice.toRange → s.dataStore.Whole slice) := by
  refine extends_assign_iff ProverStore.dataStore (fun _ _ => rfl)
    (fun h => (View.assign_of_assignable h).imp fun _ h => h.1) View.assign_of_not_assignable
    fun bits t => ?_
  -- The MACs of public data are set behind the data.
  exact Method.Keeps.bind_eq ProverStore.dataStore (fun _ => .get_bind fun _ =>
    .forEach (fun range => (setPublic_keeps range).map fun p => p.2.1) _) t

theorem Zk.VerifierStore.extends_assignRaw_iff (s : VerifierStore) :
    (∀ data, s.dataStore.Extends (assignRaw slice data s).2.dataStore) ↔
      (s.view.Assignable slice.toRange → s.dataStore.Whole slice) := by
  refine extends_assign_iff VerifierStore.dataStore (fun _ _ => rfl)
    (fun h => (View.assign_of_assignable h).imp fun _ h => h.1) View.assign_of_not_assignable
    fun bits t => ?_
  exact Method.Keeps.bind_eq VerifierStore.dataStore (fun _ => .get_bind fun _ =>
    .forEach (fun range => (setPublic_keeps range).map fun p => p.2.1) _) t

/-- **Stores are write-once where slices are whole.** In a run of a store whose writes all have
whole slices, a set cell keeps its value and has exactly one writer, and a further write is refused
where it touches a set cell exactly if its slice is whole. An assignment to one of the four stores
changes no bit that is set, whatever the data, exactly if its slice is whole or the view refuses
it. -/
theorem write_once_iff (T : Type) [Inhabited T] :
    (∀ es (s : Store T), Run Store.WholeStep .new es s →
      (∀ es' t, Run Store.WholeStep s es' t → s.Extends t) ∧
      (∀ i, (es.filter fun e => decide (i ∈ e.1.written e.2)).length = if i ∈ s.set then 1 else 0) ∧
      ∀ slice data, (∀ i ∈ slice.toRange.toSet, i ∈ s.set →
        ∃ e, Store.trySet slice data s = (.err e, s)) ↔ s.Whole slice) ∧
    (∀ (C E : Type) (s : Garble.GarblerStore C) slice,
      (∀ data, s.dataStore.Extends
        (Garble.GarblerStore.assignRaw (E := E) slice data s).2.dataStore) ↔
          (s.view.Assignable slice.toRange → s.dataStore.Whole slice)) ∧
    (∀ (C E F : Type) (s : Garble.EvaluatorStore C F) slice,
      (∀ data, s.dataStore.Extends
        (Garble.EvaluatorStore.assignRaw (E := E) slice data s).2.dataStore) ↔
          (s.view.Assignable slice.toRange → s.dataStore.Whole slice)) ∧
    (∀ (s : Zk.ProverStore) slice,
      (∀ data, s.dataStore.Extends (Zk.ProverStore.assignRaw slice data s).2.dataStore) ↔
        (s.view.Assignable slice.toRange → s.dataStore.Whole slice)) ∧
    ∀ (s : Zk.VerifierStore) slice,
      (∀ data, s.dataStore.Extends (Zk.VerifierStore.assignRaw slice data s).2.dataStore) ↔
        (s.view.Assignable slice.toRange → s.dataStore.Whole slice) :=
  ⟨fun _ _ h => ⟨fun _ _ h' => Store.extends_of_run h', Store.unique_writer h,
      fun _ _ => Store.trySet_refused_iff⟩,
    fun _ _ s _ => s.extends_assignRaw_iff, fun _ _ _ s _ => s.extends_assignRaw_iff,
    fun s _ => s.extends_assignRaw_iff, fun s _ => s.extends_assignRaw_iff⟩

/-- Two cells of three are set, one by one. -/
theorem write_once_iff_cells : ∃ s : BitStore,
    Run Store.WholeStep .new [(.alloc 3, .ok ⟨0, 3⟩), (.trySet ⟨0, 1⟩ [true], .ok ⟨0, 1⟩),
      (.trySet ⟨1, 1⟩ [false], .ok ⟨1, 1⟩)] s ∧
    ∀ data, (∀ i ∈ (⟨0, 2⟩ : Slice).toRange.toSet, i ∈ s.set →
      ∃ e, Store.trySet ⟨0, 2⟩ data s = (.err e, s)) ↔ s.Whole ⟨0, 2⟩ := by
  have run : Run Store.WholeStep (.new : BitStore) [(.alloc 3, .ok ⟨0, 3⟩),
      (.trySet ⟨0, 1⟩ [true], .ok ⟨0, 1⟩), (.trySet ⟨1, 1⟩ [false], .ok ⟨1, 1⟩)] _ :=
    ((Run.nil.snoc ⟨trivial, rfl, nofun⟩).snoc ⟨by decide, rfl, nofun⟩).snoc
      ⟨by decide, rfl, nofun⟩
  exact ⟨_, run, ((write_once_iff Bool).1 _ _ run).2.2 ⟨0, 2⟩⟩

/-- **A committed bit that is changed.** The garbler assigns the first of its two inputs, commits
it, and sends its MAC. An assignment of both inputs is accepted, and changes the first: `trySet`
writes the slice, of which the first cell is set. -/
theorem assign_overwrites : ∃ s : Garble.GarblerStore IdealCOTSender,
    Run (Garble.GarblerStore.Step fun _ => 0) (.new (fun i => i) (.new 5) (.new 5))
      [.allocRaw 2, .markRaw .priv ⟨0, 2⟩, .assignRaw ⟨0, 1⟩ [true], .commitRaw ⟨0, 1⟩, .sendFlush,
        .receiveFlush ⟨none⟩] s ∧
    s.isCommitted ⟨0, 1⟩ = true ∧ s.dataStore.cell 0 = some true ∧
    (Store.trySet ⟨0, 2⟩ [false, true] s.dataStore).1 = .ok () ∧
    (Garble.GarblerStore.assignRaw (E := IdealCOTError) ⟨0, 2⟩ [false, true] s).1 = .ok () ∧
    (Garble.GarblerStore.assignRaw (E := IdealCOTError) ⟨0, 2⟩ [false, true] s).2.dataStore.cell 0 =
      some false :=
  ⟨_, .of_foldl (fun _ _ => rfl) _ _, by decide +kernel, by decide +kernel, by decide +kernel,
    by decide +kernel, by decide +kernel⟩

end Mpz
