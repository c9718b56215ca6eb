import Mpz.Garble.SemiHonest
import Mpz.Lib.Run

/-!
# Garbler and evaluator stay in step

The two parties see the same committed inputs and the same executed outputs, and take their calls by
the same rules. So they have the same calls in their stacks, take them in the same batches, and the
evaluator uses each garbled circuit for the call that it was made for. Every call is sent in one
batch, and executed when its inputs are committed.

The store refuses to set an output that is set already, and an empty one always is: a call of a
circuit with no outputs makes a batch fail. `Act.Careful` says that there is none.

## Main definitions

* `Sees` — the view of a party is the shared view
* `Inv` — the invariant

## Main results

* `semihonest_serves` — the parties stay in step
* `empty_output` — a call with no output fails
-/

namespace Mpz.Garble

namespace SemiHonest

/-! ### What a party sees -/

/-- The view of a party is the shared view. -/
structure Sees (role : Role) (v : View) (s : SharedView) : Prop where
  role_eq : v.role = role
  inv : v.Inv
  shared : v.shared = s

/-- Whether a range is committed. -/
def committed (s : SharedView) (range : Range) : Bool :=
  decide (range.toSet ⊆ s.committed) || decide (range.toSet ⊆ s.executed)

/-- Whether all inputs are committed. -/
def allCommitted (s : SharedView) (inputs : List Slice) : Bool :=
  inputs.all fun input => committed s input.toRange

/-- Outputs are preprocessed. -/
def setPreprocessedAll (s : SharedView) (outputs : List Slice) : SharedView :=
  outputs.foldl (fun s output => s.apply (.setPreprocessed output.toRange)) s

/-- Outputs are executed. -/
def setOutputAll (s : SharedView) (outputs : List Slice) : SharedView :=
  outputs.foldl (fun s output => s.apply (.setOutput output.toRange)) s

namespace Sees

variable {role : Role} {v : View} {s : SharedView}

theorem invAt (h : Sees role v s) (i : ℕ) : s.InvAt i := h.shared ▸ h.inv i

theorem isCommitted (h : Sees role v s) (inputs : List Slice) :
    SemiHonest.isCommitted v inputs = allCommitted s inputs := by
  rw [← h.shared]
  rfl

/-- An operation that the view accepts is one of the shared view. -/
theorem perform (h : Sees role v s) (op : View.Op) {sop : SharedView.Op}
    (hop : op.shared role = some sop) (hrun : ∃ w, op.run v = (.ok (), w)) :
    ∃ w, Garble.perform v (some op) = some w ∧ Sees role w (s.apply sop) := by
  obtain ⟨w, hrun⟩ := hrun
  refine ⟨w, perform_some.mpr hrun, ?_⟩
  obtain ⟨hrole, ⟨hnone, -⟩ | ⟨sop', hsome, hstep⟩⟩ := View.Op.refines h.inv hrun
  · rw [h.role_eq, hop] at hnone
    cases hnone
  · rw [h.role_eq, hop, Option.some.injEq] at hsome
    subst hsome
    refine ⟨hrole.trans h.role_eq, fun i => (h.inv i).step hstep, ?_⟩
    rw [hstep.2, h.shared]

theorem setPreprocessed (h : Sees role v s) {range : Range} (hr : range.toSet ⊆ s.outputs) :
    ∃ w, Garble.perform v (some (.setPreprocessed range)) = some w ∧
      Sees role w (s.apply (.setPreprocessed range)) := by
  rw [← h.shared] at hr
  have hnot : ¬ ¬ range.toSet ⊆ v.output.all := not_not.mpr hr
  have hrun : ∃ w, View.setPreprocessed range v = (.ok (), w) := by
    rw [View.setPreprocessed, Method.get_bind, if_neg hnot]
    exact ⟨_, rfl⟩
  exact h.perform _ rfl hrun

theorem setOutput (h : Sees role v s) {range : Range} (hr : range.toSet ⊆ s.outputs) :
    ∃ w, Garble.perform v (some (.setOutput range)) = some w ∧
      Sees role w (s.apply (.setOutput range)) := by
  rw [← h.shared] at hr
  have hrun : ∃ w, View.setOutput range v = (.ok (), w) := by
    rw [View.setOutput, Method.get_bind,
      if_neg (show ¬ ¬ range.toSet ⊆ v.output.all from not_not.mpr hr)]
    exact ⟨_, rfl⟩
  exact h.perform _ rfl hrun

end Sees

/-- What preprocessing outputs changes. -/
theorem setPreprocessedAll_spec (s : SharedView) (outputs : List Slice) :
    (setPreprocessedAll s outputs).len = s.len ∧ (setPreprocessedAll s outputs).outputs =
      s.outputs ∧
      (setPreprocessedAll s outputs).committed = s.committed ∧
      (setPreprocessedAll s outputs).executed = s.executed ∧
      ∀ i, i ∈ (setPreprocessedAll s outputs).preprocessed ↔
        i ∈ s.preprocessed ∨ ∃ output ∈ outputs, i ∈ output.toRange.toSet := by
  induction outputs generalizing s with
  | nil => exact ⟨rfl, rfl, rfl, rfl, fun i => by simp [setPreprocessedAll]⟩
  | cons output outputs ih =>
    obtain ⟨hlen, hout, hcom, hexe, hpre⟩ := ih (s.apply (.setPreprocessed output.toRange))
    refine ⟨hlen, hout, hcom, hexe, fun i => (hpre i).trans ?_⟩
    rw [List.exists_mem_cons_iff, ← or_assoc]
    exact or_congr_left Finset.mem_union

/-- What executing outputs changes. -/
theorem setOutputAll_spec (s : SharedView) (outputs : List Slice) :
    (setOutputAll s outputs).len = s.len ∧ (setOutputAll s outputs).outputs = s.outputs ∧
      (setOutputAll s outputs).committed = s.committed ∧
      (∀ i, i ∈ (setOutputAll s outputs).executed ↔
        i ∈ s.executed ∨ ∃ output ∈ outputs, i ∈ output.toRange.toSet) ∧
      ∀ i, i ∈ (setOutputAll s outputs).preprocessed ↔
        i ∈ s.preprocessed ∨ ∃ output ∈ outputs, i ∈ output.toRange.toSet := by
  induction outputs generalizing s with
  | nil => exact ⟨rfl, rfl, rfl, fun i => by simp [setOutputAll], fun i => by simp [setOutputAll]⟩
  | cons output outputs ih =>
    obtain ⟨hlen, hout, hcom, hexe, hpre⟩ := ih (s.apply (.setOutput output.toRange))
    refine ⟨hlen, hout, hcom, fun i => (hexe i).trans ?_, fun i => (hpre i).trans ?_⟩
    all_goals
      rw [List.exists_mem_cons_iff, ← or_assoc]
      exact or_congr_left Finset.mem_union

/-- Inputs that lie below the outputs that are executed are committed as before. -/
theorem allCommitted_setOutputAll {s : SharedView} {outputs inputs : List Slice}
    (h : ∀ input ∈ inputs, ∀ output ∈ outputs, input.ptr + input.size ≤ output.ptr) :
    allCommitted (setOutputAll s outputs) inputs = allCommitted s inputs := by
  obtain ⟨-, -, hcom, hexe, -⟩ := setOutputAll_spec s outputs
  have hall : ∀ input ∈ inputs,
      committed (setOutputAll s outputs) input.toRange = committed s input.toRange := by
    intro input hinput
    have hsub : input.toRange.toSet ⊆ (setOutputAll s outputs).executed ↔
        input.toRange.toSet ⊆ s.executed := by
      refine ⟨fun hsub i hi => ?_, fun hsub i hi => (hexe i).mpr (.inl (hsub hi))⟩
      rcases (hexe i).mp (hsub hi) with hx | ⟨output, houtput, hx⟩
      · exact hx
      · have hle := h input hinput output houtput
        rw [Range.mem_toSet, Slice.stop_toRange] at hi
        rw [Range.mem_toSet, Slice.start_toRange] at hx
        omega
    rw [committed, committed, hcom]
    simp only [hsub]
  rw [allCommitted, allCommitted, Bool.eq_iff_iff, List.all_eq_true, List.all_eq_true]
  exact forall₂_congr fun input hinput => by rw [hall input hinput]

/-- The order in which outputs are executed makes no difference. -/
theorem setOutputAll_perm (s : SharedView) {outputs outputs' : List Slice}
    (h : outputs.Perm outputs') : setOutputAll s outputs = setOutputAll s outputs' := by
  refine h.foldl_eq' (fun a _ b _ t => ?_) s
  simp only [SharedView.apply, Finset.union_right_comm]

/-- To preprocess an output and execute it at once is to execute it. -/
theorem setPreprocessed_setOutput {s : SharedView} (hinv : ∀ i, s.InvAt i) {range : Range}
    (hr : range.toSet ⊆ s.outputs) (hpre : Disjoint range.toSet s.preprocessed) :
    (s.apply (.setPreprocessed range)).apply (.setOutput range) = s.apply (.setOutput range) := by
  have hinfo : ∀ i ∈ range.toSet, i ∉ s.decode.decodeInfo := by
    intro i hi hinfo
    rcases ((hinv i).decodeInfo (.inl hinfo)).2 with hgb | hp
    · exact (hinv i).inputs ((hinv i).marked (.inr (.inl hgb))) (hr hi)
    · exact Finset.disjoint_left.mp hpre hi hp
  have hcomplete : ∀ i ∈ range.toSet, i ∉ s.decode.complete := by
    intro i hi hc
    rcases ((hinv i).decode (.inl hc)).2 with ⟨hev, -⟩ | ⟨hexe, -⟩
    · exact (hinv i).inputs ((hinv i).marked (.inr (.inr hev))) (hr hi)
    · exact Finset.disjoint_left.mp hpre hi ((hinv i).executed hexe)
  simp only [SharedView.apply]
  congr 1
  · ext i
    simp only [Finset.mem_union]
    tauto
  · congr 1
    ext i
    have := hinfo i
    have := hcomplete i
    simp only [Finset.mem_union, Finset.mem_sdiff, Finset.mem_inter]
    tauto

/-! ### What the parties do with a batch -/

/-- Two outputs have no index in common. -/
def Apart (a b : Slice) : Prop := Disjoint a.toRange.toSet b.toRange.toSet

theorem Apart.symm {a b : Slice} (h : Apart a b) : Apart b a := Disjoint.symm h

theorem Apart.of_le {a b : Slice} (h : a.ptr + a.size ≤ b.ptr) : Apart a b := by
  rw [Apart, Finset.disjoint_left]
  intro i ha hb
  rw [Range.mem_toSet] at ha hb
  exact absurd (ha.2.trans_le h) (not_lt.mpr hb.1)

/-- An output with indices is not set where none of them is. -/
theorem not_subset {a : Slice} {set : RangeSet} (hpos : 0 < a.size)
    (h : Disjoint a.toRange.toSet set) : ¬ a.toRange.toSet ⊆ set := by
  intro hsub
  have hmem : a.ptr ∈ a.toRange.toSet :=
    Range.mem_toSet.mpr ⟨le_rfl, Nat.lt_add_of_pos_right hpos⟩
  exact Finset.disjoint_left.mp h hmem (hsub hmem)

/-- What a batch does to the shared view. -/
def Mode.all (mode : Mode) (s : SharedView) (outputs : List Slice) : SharedView :=
  match mode with
  | .preprocess => setPreprocessedAll s outputs
  | .execute => setOutputAll s outputs

/-- The outputs of a batch can be set. -/
structure Free (s : SharedView) (set : RangeSet) (outputs : List Slice) : Prop where
  pos : ∀ output ∈ outputs, 0 < output.size
  subset : ∀ output ∈ outputs, output.toRange.toSet ⊆ s.outputs
  unset : ∀ output ∈ outputs, Disjoint output.toRange.toSet set
  apart : outputs.Pairwise Apart

/-- The outputs behind the first one can be set when that one is. -/
theorem Free.tail {s s' : SharedView} {set : RangeSet} {output : Slice} {outputs : List Slice}
    (h : Free s set (output :: outputs)) (hs : s'.outputs = s.outputs) :
    Free s' (set ∪ output.toRange.toSet) outputs where
  pos o ho := h.pos o (List.mem_cons_of_mem _ ho)
  subset o ho := hs ▸ h.subset o (List.mem_cons_of_mem _ ho)
  unset o ho := by
    rw [Finset.disjoint_union_right]
    exact ⟨h.unset o (List.mem_cons_of_mem _ ho), (List.rel_of_pairwise_cons h.apart ho).symm⟩
  apart := h.apart.of_cons

theorem mem_union_cons {α : Type} {set : RangeSet} {f : α → Slice} {a : α} {as : List α} {i : ℕ} :
    (i ∈ set ∪ (f a).toRange.toSet ∨ ∃ output ∈ as.map f, i ∈ output.toRange.toSet) ↔
      (i ∈ set ∨ ∃ output ∈ (a :: as).map f, i ∈ output.toRange.toSet) := by
  rw [List.map_cons, List.exists_mem_cons_iff, ← or_assoc]
  exact or_congr_left Finset.mem_union

theorem markOutputComplete_all {P : Type} (f : P → Slice) (ps : List P) {g : Garbler}
    {s : SharedView} (h : Sees .garbler g.view s)
    (hout : ∀ p ∈ ps, (f p).toRange.toSet ⊆ s.outputs) :
    ∃ v, ps.foldlM (fun (self : Garbler) p => self.markOutputComplete (f p)) g =
        some { g with view := v } ∧
      Sees .garbler v (setOutputAll s (ps.map f)) := by
  induction ps generalizing g s with
  | nil => exact ⟨g.view, rfl, h⟩
  | cons p ps ih =>
    obtain ⟨w, hrun, hsees⟩ := h.setOutput (hout p List.mem_cons_self)
    have hmark : g.markOutputComplete (f p) = some { g with view := w } := by
      rw [Garbler.markOutputComplete, hrun]
      rfl
    obtain ⟨v, hfold, hv⟩ := ih (g := { g with view := w }) hsees fun q hq =>
      hout q (List.mem_cons_of_mem _ hq)
    refine ⟨v, ?_, hv⟩
    rw [List.foldlM_cons, hmark]
    exact hfold

theorem generate_all (mode : Mode) {calls : List Submitted} {g : Garbler} {s : SharedView}
    (h : Sees .garbler g.view s) (hfree : Free s g.keys (calls.map Submitted.output))
    (hpre : s.preprocessed ⊆ g.keys) :
    ∃ v keys, calls.foldlM (Garbler.generate mode) g = some { g with view := v, keys := keys } ∧
      Sees .garbler v (mode.all s (calls.map Submitted.output)) ∧
        ∀ i, i ∈ keys ↔
          i ∈ g.keys ∨ ∃ output ∈ calls.map Submitted.output, i ∈ output.toRange.toSet := by
  induction calls generalizing g s with
  | nil =>
    refine ⟨g.view, g.keys, rfl, ?_, fun i => by simp⟩
    cases mode <;> exact h
  | cons t calls ih =>
    have hout := hfree.subset _ List.mem_cons_self
    have hun := hfree.unset _ List.mem_cons_self
    obtain ⟨w, hrun, hsees⟩ := h.setPreprocessed hout
    have hset : g.setOutput t.output =
        some { g with keys := g.keys ∪ t.output.toRange.toSet, view := w } := by
      rw [Garbler.setOutput, if_neg (not_subset (hfree.pos _ List.mem_cons_self) hun), hrun]
      rfl
    have hkeep : (s.apply (.setPreprocessed t.output.toRange)).preprocessed ⊆
        g.keys ∪ t.output.toRange.toSet := Finset.union_subset_union_left hpre
    cases mode with
    | preprocess =>
      obtain ⟨v, keys, hfold, hv, hkeys⟩ := ih
        (g := { g with keys := g.keys ∪ t.output.toRange.toSet, view := w }) hsees
        (hfree.tail rfl) hkeep
      refine ⟨v, keys, ?_, hv, fun i => (hkeys i).trans mem_union_cons⟩
      rw [List.foldlM_cons, Garbler.generate, hset]
      exact hfold
    | execute =>
      obtain ⟨w', hrun', hsees'⟩ := hsees.setOutput hout
      rw [setPreprocessed_setOutput h.invAt hout (hun.mono_right hpre)] at hsees'
      obtain ⟨v, keys, hfold, hv, hkeys⟩ := ih
        (g := { g with keys := g.keys ∪ t.output.toRange.toSet, view := w' }) hsees'
        (hfree.tail rfl) hkeep
      refine ⟨v, keys, ?_, hv, fun i => (hkeys i).trans mem_union_cons⟩
      rw [List.foldlM_cons, Garbler.generate, hset]
      show (Garbler.markOutputComplete t.output _ >>= _) = _
      rw [Garbler.markOutputComplete, hrun']
      exact hfold

theorem setOutput_all {P : Type} (f : P → Slice) (hs : List P) {e : Evaluator} {s : SharedView}
    (h : Sees .evaluator e.view s) (hfree : Free s e.macs (hs.map f)) :
    ∃ v macs, hs.foldlM (fun (self : Evaluator) p => self.setOutput (f p)) e =
        some { e with view := v, macs := macs } ∧
      Sees .evaluator v (setOutputAll s (hs.map f)) ∧
        ∀ i, i ∈ macs ↔ i ∈ e.macs ∨ ∃ output ∈ hs.map f, i ∈ output.toRange.toSet := by
  induction hs generalizing e s with
  | nil => exact ⟨e.view, e.macs, rfl, h, fun i => by simp⟩
  | cons p ps ih =>
    obtain ⟨w, hrun, hsees⟩ := h.setOutput (hfree.subset _ List.mem_cons_self)
    have hset : e.setOutput (f p) =
        some { e with macs := e.macs ∪ (f p).toRange.toSet, view := w } := by
      rw [Evaluator.setOutput, hrun]
      show (if _ then none else _) = _
      rw [if_neg (not_subset (hfree.pos _ List.mem_cons_self) (hfree.unset _ List.mem_cons_self))]
    obtain ⟨v, macs, hfold, hv, hmacs⟩ := ih
      (e := { e with macs := e.macs ∪ (f p).toRange.toSet, view := w }) hsees (hfree.tail rfl)
    refine ⟨v, macs, ?_, hv, fun i => (hmacs i).trans mem_union_cons⟩
    rw [List.foldlM_cons, hset]
    exact hfold

/-- An output that was not there is added to what is preprocessed. -/
theorem insert_eq {preprocessed : List Held} {h : Held} (hpos : 0 < h.output.size)
    (hnew : ∀ p ∈ preprocessed, Apart p.output h.output) : insert preprocessed h = preprocessed ++
    [h] := by
  rw [insert, List.filter_eq_self.mpr]
  intro p hp
  rw [bne_iff_ne]
  intro heq
  have happ := hnew p hp
  rw [heq] at happ
  exact not_subset hpos happ (Finset.Subset.refl _)

theorem insertOutput_all {hs : List Held} {e : Evaluator} {s : SharedView}
    (h : Sees .evaluator e.view s) (hpos : ∀ p ∈ hs, 0 < p.output.size)
    (hout : ∀ p ∈ hs, p.output.toRange.toSet ⊆ s.outputs)
    (hapart : (e.preprocessed ++ hs).Pairwise fun p q => Apart p.output q.output) :
    ∃ v, hs.foldlM Evaluator.insertOutput e =
        some { e with view := v, preprocessed := e.preprocessed ++ hs } ∧
      Sees .evaluator v (setPreprocessedAll s (hs.map Held.output)) := by
  induction hs generalizing e s with
  | nil => exact ⟨e.view, by rw [List.append_nil]; rfl, h⟩
  | cons p hs ih =>
    obtain ⟨w, hrun, hsees⟩ := h.setPreprocessed (hout p List.mem_cons_self)
    have hnew : ∀ q ∈ e.preprocessed, Apart q.output p.output := fun q hq =>
      (List.pairwise_append.mp hapart).2.2 q hq p List.mem_cons_self
    have hins : e.insertOutput p =
        some { e with view := w, preprocessed := e.preprocessed ++ [p] } := by
      rw [Evaluator.insertOutput, hrun]
      show some { e with view := w, preprocessed := insert e.preprocessed p } = _
      rw [insert_eq (hpos p List.mem_cons_self) hnew]
    rw [List.append_cons] at hapart
    obtain ⟨v, hfold, hv⟩ := ih (e := { e with view := w, preprocessed := e.preprocessed ++ [p] })
      hsees (fun q hq => hpos q (List.mem_cons_of_mem _ hq))
      (fun q hq => hout q (List.mem_cons_of_mem _ hq)) hapart
    refine ⟨v, ?_, hv⟩
    rw [List.foldlM_cons, hins, List.append_cons e.preprocessed p hs]
    exact hfold

/-! ### The calls that wait -/

/-- A call that waits. Its inputs were allocated before its output. -/
structure Waiting (s : SharedView) (t : Submitted) : Prop where
  pos : 0 < t.output.size
  subset : t.output.toRange.toSet ⊆ s.outputs
  fresh : Disjoint t.output.toRange.toSet s.preprocessed
  reads : ∀ input ∈ t.call.inputs, input.ptr + input.size ≤ t.output.ptr

/-- The calls that wait, in the order of their outputs. All other keys are set. -/
structure Stack (s : SharedView) (keys : RangeSet) (stack : List Submitted) : Prop where
  waiting : ∀ t ∈ stack, Waiting s t
  order : stack.Pairwise fun t u => t.output.ptr + t.output.size ≤ u.output.ptr
  keys : ∀ i, i ∈ keys ↔ i < s.len ∧ ∀ t ∈ stack, i ∉ t.output.toRange.toSet

namespace Stack

variable {s s' : SharedView} {keys keys' : RangeSet} {stack calls rest : List Submitted}

theorem apart (h : Stack s keys stack) : (stack.map Submitted.output).Pairwise Apart := by
  rw [List.pairwise_map]
  exact h.order.imp fun hle => Apart.of_le hle

theorem le_len (h : Stack s keys stack) (hinv : ∀ i, s.InvAt i) {t : Submitted} (ht : t ∈ stack) :
    t.output.ptr + t.output.size ≤ s.len := by
  have hpos := (h.waiting t ht).pos
  have hmem : t.output.ptr + t.output.size - 1 ∈ t.output.toRange.toSet := by
    rw [Slice.mem_toRange]
    omega
  have hlt := ((hinv _).allocated.mpr (.inr ((h.waiting t ht).subset hmem)))
  omega

theorem free (h : Stack s keys stack) (hsub : calls.Sublist stack) :
    Free s keys (calls.map Submitted.output) where
  pos o ho := by
    obtain ⟨t, ht, rfl⟩ := List.mem_map.mp ho
    exact (h.waiting t (hsub.subset ht)).pos
  subset o ho := by
    obtain ⟨t, ht, rfl⟩ := List.mem_map.mp ho
    exact (h.waiting t (hsub.subset ht)).subset
  unset o ho := by
    obtain ⟨t, ht, rfl⟩ := List.mem_map.mp ho
    rw [Finset.disjoint_left]
    exact fun i hi hk => ((h.keys i).mp hk).2 t (hsub.subset ht) hi
  apart := h.apart.sublist (hsub.map Submitted.output)

/-- What is preprocessed has its keys. -/
theorem preprocessed_subset (h : Stack s keys stack) (hinv : ∀ i, s.InvAt i) :
    s.preprocessed ⊆ keys := by
  intro i hi
  rw [h.keys]
  exact ⟨(hinv i).allocated.mpr (.inr ((hinv i).preprocessed hi)), fun t ht hit =>
    Finset.disjoint_left.mp (h.waiting t ht).fresh hit hi⟩

/-- An input that no call in the stack writes has its keys. -/
theorem subset_keys (h : Stack s keys stack) (hinv : ∀ i, s.InvAt i) {t : Submitted}
    (ht : t ∈ stack) {input : Slice} (hinput : input ∈ t.call.inputs)
    (hdisj : ∀ u ∈ stack, Apart input u.output) : input.toRange.toSet ⊆ keys := by
  intro i hi
  have hle := (h.waiting t ht).reads input hinput
  have hlen := h.le_len hinv ht
  rw [h.keys]
  refine ⟨?_, fun u hu => Finset.disjoint_left.mp (hdisj u hu) hi⟩
  rw [Range.mem_toSet, Slice.stop_toRange] at hi
  omega

/-- A call that is taken for preprocessing reads no output of the stack. -/
theorem ready (h : Stack s keys stack) {t : Submitted} (ht : t ∈ (takePreprocessCalls stack).1) :
    ∀ u ∈ stack, ∀ input ∈ t.call.inputs, Apart input u.output := by
  obtain ⟨l, r, rfl, hdisj⟩ := takeReady_disjoint ht
  intro u hu input hinput
  have hle := (h.waiting t (List.mem_append_right _ List.mem_cons_self)).reads input hinput
  rcases List.mem_append.mp hu with hu | hu
  · exact (hdisj input hinput).2 u hu
  · refine Apart.of_le (hle.trans ?_)
    rcases List.mem_cons.mp hu with rfl | hu
    · exact le_rfl
    · have horder := (List.pairwise_append.mp h.order).2.1
      exact le_trans (Nat.le_add_right _ _) (List.rel_of_pairwise_cons horder hu)

/-- A batch is taken. -/
theorem take (h : Stack s keys stack) (hperm : (calls ++ rest).Perm stack)
    (hrest : rest.Sublist stack) (hkeys : ∀ i, i ∈ keys' ↔
      i ∈ keys ∨ ∃ output ∈ calls.map Submitted.output, i ∈ output.toRange.toSet)
    (hlen : s'.len = s.len) (hout : s'.outputs = s.outputs) (hinv : ∀ i, s.InvAt i)
    (hpre : ∀ i, i ∈ s'.preprocessed ↔
      i ∈ s.preprocessed ∨ ∃ output ∈ calls.map Submitted.output, i ∈ output.toRange.toSet) :
    Stack s' keys' rest := by
  have hapart : (calls ++ rest).Pairwise fun t u => Apart t.output u.output :=
    (hperm.pairwise_iff fun hab => Apart.symm hab).mpr (List.pairwise_map.mp h.apart)
  have hcross := (List.pairwise_append.mp hapart).2.2
  refine ⟨fun t ht => ?_, h.order.sublist hrest, fun i => ?_⟩
  · have hw := h.waiting t (hrest.subset ht)
    refine ⟨hw.pos, hout ▸ hw.subset, ?_, hw.reads⟩
    rw [Finset.disjoint_left]
    intro i hi hp
    rcases (hpre i).mp hp with hp | ⟨o, ho, hp⟩
    · exact Finset.disjoint_left.mp hw.fresh hi hp
    · obtain ⟨u, hu, rfl⟩ := List.mem_map.mp ho
      exact Finset.disjoint_left.mp (hcross u hu t ht) hp hi
  · rw [hkeys, h.keys, hlen]
    constructor
    · rintro (⟨hi, hstack⟩ | ⟨o, ho, hi⟩)
      · exact ⟨hi, fun t ht => hstack t (hrest.subset ht)⟩
      · obtain ⟨u, hu, rfl⟩ := List.mem_map.mp ho
        have hmem := hperm.mem_iff.mp (List.mem_append_left rest hu)
        have hle := h.le_len hinv hmem
        refine ⟨?_, fun t ht hit => Finset.disjoint_left.mp (hcross u hu t ht) hi hit⟩
        rw [Range.mem_toSet, Slice.stop_toRange] at hi
        omega
    · rintro ⟨hi, hstack⟩
      by_cases hc : ∃ output ∈ calls.map Submitted.output, i ∈ output.toRange.toSet
      · exact .inr hc
      · refine .inl ⟨hi, fun t ht hit => ?_⟩
        rcases List.mem_append.mp (hperm.mem_iff.mpr ht) with ht | ht
        · exact hc ⟨t.output, List.mem_map_of_mem ht, hit⟩
        · exact hstack t ht hit

end Stack

/-! ### Preprocessing -/

theorem zipWith_hold (calls : List Submitted) :
    List.zipWith Submitted.hold calls (calls.map Submitted.id) = calls.map fun t =>
      t.hold t.id := by
  rw [List.zipWith_map_right, List.zipWith_self]

theorem receiveGarbledCircuits_eq (calls : List Submitted) :
    receiveGarbledCircuits calls (calls.map Submitted.id) =
      some (calls.map fun t => t.hold t.id) := by
  rw [receiveGarbledCircuits, if_pos (List.length_map _), zipWith_hold]

/-- The loop of the evaluator takes the batches that the garbler sends. -/
theorem evaluator_preprocessLoop {n : ℕ} {t : Submitted} {stack calls rest : List Submitted}
    {batches : List (List Submitted)} (htake : takePreprocessCalls (t :: stack) = (calls, rest))
    (h : Evaluator.preprocessLoop n rest (batches.map (List.map Submitted.id)) =
      some (batches, batches.flatten.map fun t => t.hold t.id)) :
    Evaluator.preprocessLoop (n + 1) (t :: stack) ((calls :: batches).map (List.map Submitted.id)) =
      some (calls :: batches, (calls :: batches).flatten.map fun t => t.hold t.id) := by
  rw [List.map_cons, Evaluator.preprocessLoop, htake]
  case x_3 => exact List.cons_ne_nil t stack
  show (receiveGarbledCircuits calls (calls.map Submitted.id)).bind _ = _
  rw [receiveGarbledCircuits_eq]
  show (Evaluator.preprocessLoop n rest (batches.map (List.map Submitted.id))).bind _ = _
  rw [h, List.flatten_cons, List.map_append]
  rfl

/-- **The loop of preprocessing ends.** Every batch is made of calls that do not depend on each
other, and the evaluator takes the same batches. -/
theorem preprocessLoop {n : ℕ} {stack : List Submitted} {g : Garbler} {s : SharedView}
    (hn : stack.length ≤ n) (hsees : Sees .garbler g.view s) (hstack : Stack s g.keys stack) :
    ∃ v keys batches, g.preprocessLoop n stack = some { g with
        view := v
        keys := keys
        sent := g.sent ++ batches } ∧
      batches.flatten.Perm stack ∧ (∀ b ∈ batches, b ≠ [] ∧ Independent b) ∧
      Sees .garbler v (setPreprocessedAll s (batches.flatten.map Submitted.output)) ∧
      Stack (setPreprocessedAll s (batches.flatten.map Submitted.output)) keys [] ∧
      Evaluator.preprocessLoop n stack (batches.map (List.map Submitted.id)) =
        some (batches, batches.flatten.map fun t => t.hold t.id) := by
  induction n generalizing stack g s with
  | zero =>
    obtain rfl := List.length_eq_zero_iff.mp (Nat.le_zero.mp hn)
    exact ⟨g.view, g.keys, [], by rw [Garbler.preprocessLoop, List.append_nil], List.Perm.refl _,
      nofun, hsees, hstack, rfl⟩
  | succ n ih =>
    cases stack with
    | nil =>
      exact ⟨g.view, g.keys, [], by rw [Garbler.preprocessLoop, List.append_nil], List.Perm.refl _,
        nofun, hsees, hstack, rfl⟩
    | cons t stack =>
      have hne := takePreprocessCalls_ne_nil stack (s := t)
      have hlen := length_takePreprocessCalls stack (s := t)
      have hready := fun u hu => hstack.ready (t := u) hu
      have hperm : ((takePreprocessCalls (t :: stack)).1 ++
        (takePreprocessCalls (t :: stack)).2).Perm (t :: stack) := takeReady_perm ∅ (t :: stack)
      obtain ⟨hcsub, hrsub⟩ : (takePreprocessCalls (t :: stack)).1.Sublist (t :: stack) ∧
        (takePreprocessCalls (t :: stack)).2.Sublist (t :: stack) :=
      takeReady_sublist ∅ (t :: stack)
      rcases htake : takePreprocessCalls (t :: stack) with ⟨calls, rest⟩
      rw [htake] at hne hlen hready hperm hcsub hrsub
      -- the calls of the batch have their inputs
      have hset : (calls.all fun u => isSet u.call.inputs g.keys) = true := by
        rw [List.all_eq_true]
        intro u hu
        rw [isSet_iff]
        intro input hinput
        exact hstack.subset_keys hsees.invAt (hcsub.subset hu) hinput fun w hw =>
          hready u hu w hw input hinput
      have hindep : Independent calls := fun u hu w hw input hinput =>
        hready u hu w (hcsub.subset hw) input hinput
      obtain ⟨v₁, keys₁, hfold, hsees₁, hkeys₁⟩ := generate_all .preprocess
        (g := { g with sent := g.sent ++ [calls] }) hsees (hstack.free hcsub)
        (hstack.preprocessed_subset hsees.invAt)
      obtain ⟨hlen₁, hout₁, -, -, hpre₁⟩ :=
        setPreprocessedAll_spec s (calls.map Submitted.output)
      have hstack₁ := hstack.take hperm hrsub hkeys₁ hlen₁ hout₁ hsees.invAt hpre₁
      obtain ⟨v, keys, batches, hloop, hbatches, hall, hsees₂, hstack₂, hev⟩ := ih
        (g := { g with sent := g.sent ++ [calls], view := v₁, keys := keys₁ })
        (hlen.trans (Nat.le_of_succ_le_succ hn)) hsees₁ hstack₁
      have hview : setPreprocessedAll s ((calls :: batches).flatten.map Submitted.output) =
          setPreprocessedAll (setPreprocessedAll s (calls.map Submitted.output))
            (batches.flatten.map Submitted.output) := by
        rw [List.flatten_cons, List.map_append, setPreprocessedAll, List.foldl_append]
        rfl
      refine ⟨v, keys, calls :: batches, ?_, ?_, ?_, hview ▸ hsees₂, hview ▸ hstack₂,
        evaluator_preprocessLoop htake hev⟩
      · rw [Garbler.preprocessLoop, htake]
        case x_3 => exact List.cons_ne_nil t stack
        show (g.generateAll .preprocess calls).bind _ = _
        rw [Garbler.generateAll, if_pos hset, hfold]
        show Garbler.preprocessLoop n rest _ = _
        rw [hloop, List.append_cons g.sent calls batches]
      · rw [List.flatten_cons]
        exact (hbatches.append_left calls).trans hperm
      · intro b hb
        rcases List.mem_cons.mp hb with rfl | hb
        · exact ⟨hne, hindep⟩
        · exact hall b hb

/-! ### The loops -/

theorem markExecuted_nil {g : Garbler}
    (h : (g.preprocessed.filter fun p => isCommitted g.view p.inputs) = []) (fuel : ℕ) :
    g.markExecuted fuel = some g := by
  rw [Garbler.markExecuted.eq_def, h]

theorem markExecuted_succ {g : Garbler}
    (h : (g.preprocessed.filter fun p => isCommitted g.view p.inputs) ≠ []) (fuel : ℕ) :
    g.markExecuted (fuel + 1) =
      ((g.preprocessed.filter fun p => isCommitted g.view p.inputs).foldlM
        (fun (self : Garbler) p => self.markOutputComplete p.output) { g with
          preprocessed := g.preprocessed.filter fun p => !isCommitted g.view p.inputs
          done := g.done ++ (g.preprocessed.filter fun p => isCommitted g.view p.inputs).map
            fun p => ⟨p.id, p.id, isCommitted g.view p.inputs⟩ }).bind
            (Garbler.markExecuted fuel) := by
  obtain ⟨p, ps, hps⟩ := List.exists_cons_of_ne_nil h
  rw [Garbler.markExecuted.eq_def, hps]
  rfl

theorem executePreprocessed_nil {e : Evaluator}
    (h : (e.preprocessed.filter fun k => isCommitted e.view k.call.inputs) = []) (fuel : ℕ) :
    e.executePreprocessed fuel = some e := by
  rw [Evaluator.executePreprocessed.eq_def, h]

theorem executePreprocessed_succ {e : Evaluator}
    (h : (e.preprocessed.filter fun k => isCommitted e.view k.call.inputs) ≠ []) (fuel : ℕ) :
    e.executePreprocessed (fuel + 1) =
      (Evaluator.evaluateAll (e.preprocessed.filter fun k => isCommitted e.view k.call.inputs)
        { e with
        preprocessed := e.preprocessed.filter fun k => !isCommitted e.view k.call.inputs }).bind
          (Evaluator.executePreprocessed fuel) := by
  obtain ⟨k, ks, hks⟩ := List.exists_cons_of_ne_nil h
  rw [Evaluator.executePreprocessed.eq_def, hks]
  rfl

theorem garbler_executeLoop_nil {g : Garbler} (h : (takeExecuteCalls g.view g.callStack).1 = [])
    (fuel : ℕ) : g.executeLoop fuel = some g := by
  rcases htake : takeExecuteCalls g.view g.callStack with ⟨calls, rest⟩
  rw [htake] at h
  obtain rfl : calls = [] := h
  rw [Garbler.executeLoop.eq_def, htake]

theorem garbler_executeLoop_succ {g : Garbler} {calls rest : List Submitted}
    (htake : takeExecuteCalls g.view g.callStack = (calls, rest)) (hne : calls ≠ []) (fuel : ℕ) :
    g.executeLoop (fuel + 1) =
      (Garbler.generateAll .execute calls { g with callStack := rest }).bind
        (Garbler.executeLoop fuel) := by
  obtain ⟨t, calls, rfl⟩ := List.exists_cons_of_ne_nil hne
  rw [Garbler.executeLoop.eq_def, htake]
  rfl

theorem evaluator_executeLoop_nil {e : Evaluator} (h : (takeExecuteCalls e.view e.callStack).1 = [])
    (fuel : ℕ) : e.executeLoop fuel [] = some e := by
  rcases htake : takeExecuteCalls e.view e.callStack with ⟨calls, rest⟩
  rw [htake] at h
  obtain rfl : calls = [] := h
  rw [Evaluator.executeLoop.eq_def, htake]

theorem evaluator_executeLoop_succ {e : Evaluator} {calls rest : List Submitted}
    (htake : takeExecuteCalls e.view e.callStack = (calls, rest)) (hne : calls ≠ []) (fuel : ℕ)
    (messages : List (List ℕ)) :
    e.executeLoop (fuel + 1) (calls.map Submitted.id :: messages) =
      (Evaluator.evaluateAll (calls.map fun t => t.hold t.id) { e with
        callStack := rest
        received := e.received ++ [calls] }).bind (Evaluator.executeLoop fuel messages) := by
  obtain ⟨t, calls, rfl⟩ := List.exists_cons_of_ne_nil hne
  rw [Evaluator.executeLoop.eq_def, htake]
  show (receiveGarbledCircuits (t :: calls) ((t :: calls).map Submitted.id)).bind _ = _
  rw [receiveGarbledCircuits_eq]
  rfl

/-! ### The invariant -/

/-- A preprocessed call, as the garbler keeps it. -/
def Held.prepared (h : Held) : Prepared := ⟨h.id, h.call.inputs, h.output⟩

/-- A call that is preprocessed but not executed. -/
structure Holding (s : SharedView) (stack : List Submitted) (h : Held) : Prop where
  pos : 0 < h.output.size
  subset : h.output.toRange.toSet ⊆ s.preprocessed
  fresh : Disjoint h.output.toRange.toSet s.executed
  reads : ∀ input ∈ h.call.inputs, input.ptr + input.size ≤ h.output.ptr
  below : ∀ t ∈ stack, h.output.ptr + h.output.size ≤ t.output.ptr
  circuit : h.circuit = h.id

/-- What is true of the two parties, when this many calls were submitted. -/
structure Inv (s : SharedView) (g : Garbler) (e : Evaluator) (n : ℕ) : Prop where
  garbler : Sees .garbler g.view s
  evaluator : Sees .evaluator e.view s
  callStack : e.callStack = g.callStack
  stack : Stack s g.keys g.callStack
  macs : ∀ i, i ∈ e.macs ↔ i ∈ s.committed ∨ i ∈ s.executed
  held : ∀ h ∈ e.preprocessed, Holding s g.callStack h
  apart : e.preprocessed.Pairwise fun h k => Apart h.output k.output
  prepared : g.preprocessed.Perm (e.preprocessed.map Held.prepared)
  received : e.received = g.sent
  done : e.done.Perm g.done
  ready : ∀ d ∈ g.done, d.circuit = d.id ∧ d.ready = true
  batches : ∀ b ∈ g.sent, b ≠ [] ∧ Independent b
  sentOnce : ((g.sent.flatten ++ g.callStack).map Submitted.id).Perm (List.range n)
  doneOnce : (g.done.map Done.id ++ e.preprocessed.map Held.id ++
    g.callStack.map Submitted.id).Perm (List.range n)

theorem Inv.new : Inv View.newGarbler.shared .new .new 0 where
  garbler := ⟨rfl, View.inv_new .garbler, rfl⟩
  evaluator := ⟨rfl, View.inv_new .evaluator, rfl⟩
  callStack := rfl
  stack := ⟨nofun, .nil, fun i => ⟨nofun, fun h => absurd h.1 (Nat.not_lt_zero i)⟩⟩
  macs i := ⟨nofun, fun h => by rcases h with h | h <;> cases h⟩
  held := nofun
  apart := .nil
  prepared := .refl _
  received := rfl
  done := .refl _
  ready := nofun
  batches := nofun
  sentOnce := .refl _
  doneOnce := .refl _

theorem messages_eq {g g' : Garbler} {batches : List (List Submitted)}
    (h : g'.sent = g.sent ++ batches) :
    World.messages g g' = batches.map (List.map Submitted.id) := by
  rw [World.messages, h, List.drop_left]

/-- An operation on the memory may allocate inputs, and leaves the outputs as they are. -/
theorem memory_spec {v : View} {s s' : SharedView} {op : Mirrored} (hv : v.shared = s)
    (hop : isMemory op = true) (h : s.MirroredStep op s') :
    (∀ i, i ∈ newInputs v op ↔ s.len ≤ i ∧ i < s'.len) ∧ s.len ≤ s'.len ∧ s'.outputs = s.outputs ∧
      s'.committed = s.committed ∧ s'.preprocessed = s.preprocessed ∧ s'.executed = s.executed := by
  have hnone (i : ℕ) : i ∈ (∅ : RangeSet) ↔ s.len ≤ i ∧ i < s.len :=
    ⟨nofun, fun hi => absurd hi.1 (not_le.mpr hi.2)⟩
  cases op with
  | allocInput size =>
    subst hv
    obtain ⟨-, rfl⟩ := h
    exact ⟨fun i => Range.mem_toSet, Nat.le_add_right _ _, rfl, rfl, rfl, rfl⟩
  | assign owner range =>
    obtain rfl := h
    exact ⟨hnone, le_rfl, rfl, rfl, rfl, rfl⟩
  | markPublic range =>
    obtain ⟨-, rfl⟩ := h
    exact ⟨hnone, le_rfl, rfl, rfl, rfl, rfl⟩
  | markPrivate owner range =>
    obtain ⟨-, rfl⟩ := h
    cases owner <;> exact ⟨hnone, le_rfl, rfl, rfl, rfl, rfl⟩
  | commit range =>
    obtain ⟨-, rfl⟩ := h
    exact ⟨hnone, le_rfl, rfl, rfl, rfl, rfl⟩
  | decode range =>
    obtain ⟨-, rfl⟩ := h
    rw [SharedView.apply]
    split <;> exact ⟨hnone, le_rfl, rfl, rfl, rfl, rfl⟩
  | allocOutput _ | setPreprocessed _ | setOutput _ | completeFlush => cases hop

namespace Inv

variable {s : SharedView} {g : Garbler} {e : Evaluator} {n : ℕ}

/-- **Both preprocess.** -/
theorem preprocess (h : Inv s g e n) : ∃ s' g' e', g.preprocess = some g' ∧
    e.preprocess (World.messages g g') = some e' ∧ Inv s' g' e' n ∧ g'.callStack = [] := by
  obtain ⟨v, keys, batches, hloop, hperm, hall, hsees, hstack, hev⟩ :=
    SemiHonest.preprocessLoop (g := { g with callStack := [] }) le_rfl h.garbler h.stack
  obtain ⟨hlen, hout, hcom, hexe, hpre⟩ :=
    setPreprocessedAll_spec s (batches.flatten.map Submitted.output)
  have hmem (t : Submitted) (ht : t ∈ batches.flatten) : Waiting s t :=
    h.stack.waiting t (hperm.mem_iff.mp ht)
  have houts : (batches.flatten.map fun t => t.hold t.id).map Held.output =
      batches.flatten.map Submitted.output := by
    rw [List.map_map]
    rfl
  -- what the evaluator adds to its map
  have hapart : (e.preprocessed ++ batches.flatten.map fun t => t.hold t.id).Pairwise
      fun p q => Apart p.output q.output := by
    rw [List.pairwise_append]
    refine ⟨h.apart, ?_, fun p hp q hq => ?_⟩
    · rw [List.pairwise_map]
      exact (hperm.pairwise_iff fun hab => Apart.symm hab).mpr (List.pairwise_map.mp h.stack.apart)
    · obtain ⟨t, ht, rfl⟩ := List.mem_map.mp hq
      exact Apart.of_le ((h.held p hp).below t (hperm.mem_iff.mp ht))
  obtain ⟨w, hfold, hw⟩ := insertOutput_all (e := { e with
      callStack := []
      received := e.received ++ batches }) h.evaluator
    (fun q hq => by
      obtain ⟨t, ht, rfl⟩ := List.mem_map.mp hq
      exact (hmem t ht).pos)
    (fun q hq => by
      obtain ⟨t, ht, rfl⟩ := List.mem_map.mp hq
      exact (hmem t ht).subset) hapart
  rw [houts] at hw
  refine ⟨setPreprocessedAll s (batches.flatten.map Submitted.output), { g with
      view := v
      keys := keys
      callStack := []
      sent := g.sent ++ batches
      preprocessed := g.preprocessed ++ g.callStack.map fun s => ⟨s.id, s.call.inputs, s.output⟩ },
    { e with
      view := w
      callStack := []
      received := e.received ++ batches
      preprocessed := e.preprocessed ++ batches.flatten.map fun t => t.hold t.id }, ?_, ?_, ?_, rfl⟩
  · rw [Garbler.preprocess, hloop]
    rfl
  · rw [messages_eq rfl, Evaluator.preprocess, h.callStack, hev]
    exact hfold
  · refine ⟨hsees, hw, rfl, hstack, fun i => ?_, fun q hq => ?_, hapart, ?_, ?_, h.done, h.ready,
      fun b hb => ?_, ?_, ?_⟩
    · rw [hcom, hexe]
      exact h.macs i
    · rcases List.mem_append.mp hq with hq | hq
      · have hold := h.held q hq
        refine ⟨hold.pos, fun i hi => (hpre i).mpr (.inl (hold.subset hi)), hexe ▸ hold.fresh,
          hold.reads, nofun, hold.circuit⟩
      · obtain ⟨t, ht, rfl⟩ := List.mem_map.mp hq
        have hwait := hmem t ht
        refine ⟨hwait.pos, fun i hi => (hpre i).mpr (.inr ⟨_, List.mem_map_of_mem ht, hi⟩), ?_,
          hwait.reads, nofun, rfl⟩
        rw [hexe]
        exact hwait.fresh.mono_right fun i hi => (h.garbler.invAt i).executed hi
    · rw [List.map_append, List.map_map]
      exact h.prepared.append (hperm.symm.map _)
    · show e.received ++ batches = g.sent ++ batches
      rw [h.received]
    · rcases List.mem_append.mp hb with hb | hb
      · exact h.batches b hb
      · exact hall b hb
    · refine List.Perm.trans ?_ h.sentOnce
      rw [List.append_nil, List.flatten_append]
      exact (hperm.append_left _).map _
    · refine List.Perm.trans ?_ h.doneOnce
      rw [List.map_append, List.map_map, List.map_nil, List.append_nil, ← List.append_assoc]
      exact (hperm.map Submitted.id).append_left _

/-- The MACs of inputs that are committed are set. -/
theorem subset_macs (h : Inv s g e n) {inputs : List Slice} (hc : allCommitted s inputs = true) :
    isSet inputs e.macs = true := by
  rw [isSet_iff]
  intro input hinput i hi
  have hcom := List.all_eq_true.mp hc input hinput
  rw [committed, Bool.or_eq_true, decide_eq_true_iff, decide_eq_true_iff] at hcom
  rw [h.macs]
  exact hcom.imp (fun hsub => hsub hi) fun hsub => hsub hi

/-- What is committed or executed has its MACs, and no output that is not executed. -/
theorem disjoint_macs (h : Inv s g e n) {output : Slice} (hsub : output.toRange.toSet ⊆ s.outputs)
    (hfresh : Disjoint output.toRange.toSet s.executed) : Disjoint output.toRange.toSet e.macs := by
  rw [Finset.disjoint_left]
  intro i hi hm
  rcases (h.macs i).mp hm with hc | hx
  · have hinv := h.garbler.invAt i
    exact hinv.inputs (hinv.marked (hinv.committed hc)) (hsub hi)
  · exact Finset.disjoint_left.mp hfresh hi hx

/-- **Both execute the preprocessed calls whose inputs are committed.** -/
theorem mark (h : Inv s g e n) : ∃ s' g' e',
    (g.preprocessed.filter fun p => isCommitted g.view p.inputs).foldlM
      (fun (self : Garbler) p => self.markOutputComplete p.output) { g with
        preprocessed := g.preprocessed.filter fun p => !isCommitted g.view p.inputs
        done := g.done ++ (g.preprocessed.filter fun p => isCommitted g.view p.inputs).map
          fun p => ⟨p.id, p.id, isCommitted g.view p.inputs⟩ } = some g' ∧
    Evaluator.evaluateAll (e.preprocessed.filter fun h => isCommitted e.view h.call.inputs) { e with
        preprocessed := e.preprocessed.filter fun h => !isCommitted e.view h.call.inputs } =
          some e' ∧
    Inv s' g' e' n ∧ g'.callStack = g.callStack ∧ g'.sent = g.sent ∧
      e'.preprocessed = e.preprocessed.filter fun h => !isCommitted e.view h.call.inputs := by
  have hpred : (fun p : Prepared => isCommitted g.view p.inputs) = fun p =>
      allCommitted s p.inputs :=
    funext fun p => h.garbler.isCommitted p.inputs
  have hpred' : (fun k : Held => isCommitted e.view k.call.inputs) =
      fun k => allCommitted s k.call.inputs :=
    funext fun k => h.evaluator.isCommitted k.call.inputs
  have hnot : (fun p : Prepared => !isCommitted g.view p.inputs) =
      fun p => !allCommitted s p.inputs :=
    funext fun p => congrArg _ (h.garbler.isCommitted p.inputs)
  have hnot' : (fun k : Held => !isCommitted e.view k.call.inputs) =
      fun k => !allCommitted s k.call.inputs :=
    funext fun k => congrArg _ (h.evaluator.isCommitted k.call.inputs)
  rw [hpred, hpred', hnot, hnot']
  have hdone : (fun p : Prepared => (⟨p.id, p.id, isCommitted g.view p.inputs⟩ : Done)) =
      fun p => ⟨p.id, p.id, allCommitted s p.inputs⟩ :=
    funext fun p => congrArg _ (h.garbler.isCommitted p.inputs)
  rw [hdone]
  -- the calls that are executed, and the others
  have hps : (g.preprocessed.filter fun p => allCommitted s p.inputs).Perm
      ((e.preprocessed.filter fun k => allCommitted s k.call.inputs).map Held.prepared) := by
    have hfilter := h.prepared.filter fun p => allCommitted s p.inputs
    rw [List.filter_map] at hfilter
    exact hfilter
  have hrest : (g.preprocessed.filter fun p => !allCommitted s p.inputs).Perm
      ((e.preprocessed.filter fun k => !allCommitted s k.call.inputs).map Held.prepared) := by
    have hfilter := h.prepared.filter fun p => !allCommitted s p.inputs
    rw [List.filter_map] at hfilter
    exact hfilter
  have hboth : (e.preprocessed.filter (fun k => allCommitted s k.call.inputs) ++
      e.preprocessed.filter fun k => !allCommitted s k.call.inputs).Perm e.preprocessed :=
    List.filter_append_perm _ _
  have hin : ∀ k ∈ e.preprocessed.filter (fun k => allCommitted s k.call.inputs),
      k ∈ e.preprocessed ∧ allCommitted s k.call.inputs = true := fun k hk => List.mem_filter.mp hk
  have hall : ∀ k ∈ e.preprocessed.filter (fun k => !allCommitted s k.call.inputs),
      k ∈ e.preprocessed := fun k hk => (List.mem_filter.mp hk).1
  have hdones : ((g.preprocessed.filter fun p => allCommitted s p.inputs).map
      fun p => (⟨p.id, p.id, allCommitted s p.inputs⟩ : Done)).Perm
      ((e.preprocessed.filter fun k => allCommitted s k.call.inputs).map
        fun k => ⟨k.id, k.circuit, isCommitted e.view k.call.inputs⟩) := by
    refine (hps.map _).trans ?_
    rw [List.map_map]
    refine List.Perm.of_eq (List.map_congr_left fun k hk => ?_)
    show (⟨k.id, k.id, allCommitted s k.call.inputs⟩ : Done) = _
    rw [(h.held k (hin k hk).1).circuit, h.evaluator.isCommitted]
  generalize e.preprocessed.filter (fun k => allCommitted s k.call.inputs) = hs at *
  generalize e.preprocessed.filter (fun k => !allCommitted s k.call.inputs) = rest at *
  generalize g.preprocessed.filter (fun p => allCommitted s p.inputs) = ps at *
  generalize g.preprocessed.filter (fun p => !allCommitted s p.inputs) = ps' at *
  have houts : (ps.map Prepared.output).Perm (hs.map Held.output) := by
    refine (hps.map Prepared.output).trans ?_
    rw [List.map_map]
    exact List.Perm.refl _
  have hapart : (hs ++ rest).Pairwise fun k k' => Apart k.output k'.output :=
    (hboth.pairwise_iff fun hab => Apart.symm hab).mpr h.apart
  have hsub : ∀ k ∈ e.preprocessed, k.output.toRange.toSet ⊆ s.outputs := fun k hk i hi =>
    (h.garbler.invAt i).preprocessed ((h.held k hk).subset hi)
  obtain ⟨v, hg, hsees⟩ := markOutputComplete_all Prepared.output ps (g := { g with
      preprocessed := ps'
      done := g.done ++ ps.map fun p => ⟨p.id, p.id, allCommitted s p.inputs⟩ }) h.garbler
    fun p hp => by
      obtain ⟨k, hk, heq⟩ := List.mem_map.mp (houts.mem_iff.mp (List.mem_map_of_mem hp))
      rw [← heq]
      exact hsub k (hin k hk).1
  rw [setOutputAll_perm s houts] at hsees
  obtain ⟨w, macs, hfold, hw, hmacs⟩ := setOutput_all Held.output hs (e := { e with
      preprocessed := rest
      done := e.done ++ hs.map fun k => ⟨k.id, k.circuit, isCommitted e.view k.call.inputs⟩ })
    h.evaluator
    { pos := fun o ho => by
        obtain ⟨k, hk, rfl⟩ := List.mem_map.mp ho
        exact (h.held k (hin k hk).1).pos
      subset := fun o ho => by
        obtain ⟨k, hk, rfl⟩ := List.mem_map.mp ho
        exact hsub k (hin k hk).1
      unset := fun o ho => by
        obtain ⟨k, hk, rfl⟩ := List.mem_map.mp ho
        exact h.disjoint_macs (hsub k (hin k hk).1) (h.held k (hin k hk).1).fresh
      apart := List.pairwise_map.mpr (List.pairwise_append.mp hapart).1 }
  obtain ⟨hlen, hout, hcom, hexe, hpre⟩ := setOutputAll_spec s (hs.map Held.output)
  have hpre' : (setOutputAll s (hs.map Held.output)).preprocessed = s.preprocessed := by
    ext i
    rw [hpre]
    refine ⟨fun hi => ?_, .inl⟩
    rcases hi with hi | ⟨o, ho, hi⟩
    · exact hi
    · obtain ⟨k, hk, rfl⟩ := List.mem_map.mp ho
      exact (h.held k (hin k hk).1).subset hi
  have hset : (hs.all fun k => isSet k.call.inputs e.macs) = true :=
    List.all_eq_true.mpr fun k hk => h.subset_macs (hin k hk).2
  have hev : Evaluator.evaluateAll hs { e with preprocessed := rest } = some { e with
      view := w
      macs := macs
      preprocessed := rest
      done := e.done ++ hs.map fun k => ⟨k.id, k.circuit, isCommitted e.view k.call.inputs⟩ } := by
    rw [Evaluator.evaluateAll, if_pos hset]
    exact hfold
  refine ⟨setOutputAll s (hs.map Held.output), _, _, hg, hev, ?_, rfl, rfl, rfl⟩
  · refine ⟨hsees, hw, h.callStack, ⟨fun t ht => ?_, h.stack.order, fun i => ?_⟩, fun i => ?_,
      fun k hk => ?_, (List.pairwise_append.mp hapart).2.1, hrest, h.received,
      h.done.append hdones.symm, ?_, h.batches, h.sentOnce, ?_⟩
    · have hwait := h.stack.waiting t ht
      exact ⟨hwait.pos, hout ▸ hwait.subset, hpre' ▸ hwait.fresh, hwait.reads⟩
    · rw [hlen]
      exact h.stack.keys i
    · rw [hmacs, hcom, hexe, h.macs, or_assoc]
    · have hold := h.held k (hall k hk)
      refine ⟨hold.pos, hpre' ▸ hold.subset, ?_, hold.reads, hold.below, hold.circuit⟩
      rw [Finset.disjoint_left]
      intro i hi hx
      rcases (hexe i).mp hx with hx | ⟨o, ho, hx⟩
      · exact Finset.disjoint_left.mp hold.fresh hi hx
      · obtain ⟨k', hk', rfl⟩ := List.mem_map.mp ho
        exact Finset.disjoint_left.mp ((List.pairwise_append.mp hapart).2.2 k' hk' k hk) hx hi
    · intro d hd
      rcases List.mem_append.mp hd with hd | hd
      · exact h.ready d hd
      · obtain ⟨k, hk, rfl⟩ := List.mem_map.mp (hdones.mem_iff.mp hd)
        exact ⟨(h.held k (hin k hk).1).circuit,
          (h.evaluator.isCommitted k.call.inputs).trans (hin k hk).2⟩
    · refine List.Perm.trans (List.Perm.append_right _ ?_) h.doneOnce
      rw [List.map_append, List.append_assoc]
      refine List.Perm.append_left _ ?_
      refine List.Perm.trans ?_ (hboth.map Held.id)
      rw [List.map_append]
      refine List.Perm.append_right _ ?_
      refine (hdones.map Done.id).trans ?_
      rw [List.map_map]
      exact List.Perm.refl _

/-- The preprocessed calls whose inputs are committed, on the two sides. -/
theorem filter_eq_nil (h : Inv s g e n) :
    (g.preprocessed.filter fun p => isCommitted g.view p.inputs) = [] ↔
      (e.preprocessed.filter fun k => isCommitted e.view k.call.inputs) = [] := by
  have hperm := h.prepared.filter fun p => isCommitted g.view p.inputs
  rw [List.filter_map] at hperm
  have heq : ((fun p : Prepared => isCommitted g.view p.inputs) ∘ Held.prepared) =
      fun k => isCommitted e.view k.call.inputs :=
    funext fun k => (h.garbler.isCommitted k.call.inputs).trans
      (h.evaluator.isCommitted k.call.inputs).symm
  rw [heq] at hperm
  rw [← List.length_eq_zero_iff, hperm.length_eq, List.length_map, List.length_eq_zero_iff]

/-- The loops over the preprocessed calls end, with none left whose inputs are committed. -/
theorem markLoop (h : Inv s g e n) {fuel : ℕ} (hfuel : e.preprocessed.length ≤ fuel) :
    ∃ s' g' e', g.markExecuted fuel = some g' ∧ e.executePreprocessed fuel = some e' ∧
      Inv s' g' e' n ∧ g'.callStack = g.callStack ∧ g'.sent = g.sent ∧
        ∀ k ∈ e'.preprocessed, allCommitted s' k.call.inputs = false := by
  induction fuel generalizing s g e with
  | zero =>
    have hnil := List.length_eq_zero_iff.mp (Nat.le_zero.mp hfuel)
    have hev : (e.preprocessed.filter fun k => isCommitted e.view k.call.inputs) = [] := by
      rw [hnil, List.filter_nil]
    exact ⟨s, g, e, markExecuted_nil (h.filter_eq_nil.mpr hev) 0, executePreprocessed_nil hev 0, h,
      rfl, rfl, hnil ▸ nofun⟩
  | succ fuel ih =>
    by_cases hev : (e.preprocessed.filter fun k => isCommitted e.view k.call.inputs) = []
    · refine ⟨s, g, e, markExecuted_nil (h.filter_eq_nil.mpr hev) _, executePreprocessed_nil hev _,
        h, rfl, rfl, fun k hk => ?_⟩
      rw [← h.evaluator.isCommitted]
      exact Bool.eq_false_iff.mpr (List.filter_eq_nil_iff.mp hev k hk)
    · obtain ⟨s₁, g₁, e₁, hg, he, hinv, hstack, hsent, hpre⟩ := h.mark
      have hlen : e₁.preprocessed.length ≤ fuel := by
        have hsum := (List.filter_append_perm (fun k : Held => isCommitted e.view k.call.inputs)
          e.preprocessed).length_eq
        have hpos := List.length_pos_iff.mpr hev
        rw [List.length_append] at hsum
        rw [hpre]
        omega
      obtain ⟨s', g', e', hg', he', hinv', hstack', hsent', hnone⟩ := ih hinv hlen
      refine ⟨s', g', e', ?_, ?_, hinv', hstack'.trans hstack, hsent'.trans hsent, hnone⟩
      · rw [markExecuted_succ fun hnil => hev (h.filter_eq_nil.mp hnil), hg]
        exact hg'
      · rw [executePreprocessed_succ hev, he]
        exact he'

/-- The keys of inputs that are committed are set. -/
theorem subset_keys (h : Inv s g e n) {inputs : List Slice} (hc : allCommitted s inputs = true) :
    ∀ input ∈ inputs, input.toRange.toSet ⊆ g.keys := by
  intro input hinput i hi
  have hinv := h.garbler.invAt i
  have hcom := List.all_eq_true.mp hc input hinput
  rw [committed, Bool.or_eq_true, decide_eq_true_iff, decide_eq_true_iff] at hcom
  rcases hcom with hsub | hsub
  · have hin := hinv.marked (hinv.committed (hsub hi))
    rw [h.stack.keys]
    exact ⟨hinv.allocated.mpr (.inl hin), fun t ht hit =>
      hinv.inputs hin ((h.stack.waiting t ht).subset hit)⟩
  · exact h.stack.preprocessed_subset h.garbler.invAt (hinv.executed (hsub hi))

/-- The calls whose inputs are committed are the same on both sides. -/
theorem takeExecuteCalls_eq (h : Inv s g e n) :
    takeExecuteCalls g.view g.callStack = (g.callStack.filter fun t => allCommitted s t.call.inputs,
      g.callStack.filter fun t => !allCommitted s t.call.inputs) ∧
    takeExecuteCalls e.view e.callStack = (g.callStack.filter fun t => allCommitted s t.call.inputs,
      g.callStack.filter fun t => !allCommitted s t.call.inputs) := by
  constructor
  · rw [takeExecuteCalls]
    simp only [h.garbler.isCommitted]
  · rw [takeExecuteCalls, h.callStack]
    simp only [h.evaluator.isCommitted]

/-- **Both execute a batch of calls that were not preprocessed.** -/
theorem executeBatch (h : Inv s g e n) {calls rest : List Submitted}
    (hcalls : calls = g.callStack.filter fun t => allCommitted s t.call.inputs)
    (hrest : rest = g.callStack.filter fun t => !allCommitted s t.call.inputs) (hne : calls ≠ [])
    (hnone : ∀ k ∈ e.preprocessed, allCommitted s k.call.inputs = false) : ∃ s' g' e',
    Garbler.generateAll .execute calls { g with callStack := rest } = some g' ∧
    Evaluator.evaluateAll (calls.map fun t => t.hold t.id) { e with
        callStack := rest
        received := e.received ++ [calls] } = some e' ∧
    Inv s' g' e' n ∧ g'.callStack = rest ∧ g'.sent = g.sent ++ [calls] ∧
      ∀ k ∈ e'.preprocessed, allCommitted s' k.call.inputs = false := by
  have hin : ∀ t ∈ calls, t ∈ g.callStack ∧ allCommitted s t.call.inputs = true := fun t ht =>
    List.mem_filter.mp (hcalls ▸ ht)
  have hperm : (calls ++ rest).Perm g.callStack := by
    rw [hcalls, hrest]
    exact List.filter_append_perm _ _
  have hcsub : calls.Sublist g.callStack := hcalls ▸ List.filter_sublist
  have hrsub : rest.Sublist g.callStack := hrest ▸ List.filter_sublist
  clear hcalls hrest
  have hkeys : (calls.all fun t => isSet t.call.inputs g.keys) = true := List.all_eq_true.mpr
    fun t ht => isSet_iff.mpr (h.subset_keys (hin t ht).2)
  have hindep : Independent calls := by
    intro t ht u hu input hinput
    rw [Finset.disjoint_left]
    intro i hi hiu
    have hk := h.subset_keys (hin t ht).2 input hinput hi
    exact ((h.stack.keys i).mp hk).2 u (hin u hu).1 hiu
  have hfree := h.stack.free hcsub
  have hexecuted : ∀ i ∈ s.executed, i ∈ s.preprocessed := fun i => (h.garbler.invAt i).executed
  have houts : (calls.map fun t => t.hold t.id).map Held.output = calls.map Submitted.output := by
    rw [List.map_map]
    rfl
  obtain ⟨v, keys, hfold, hsees, hmem⟩ := generate_all .execute (g := { g with
      callStack := rest
      sent := g.sent ++ [calls]
      done := g.done ++ calls.map fun t => ⟨t.id, t.id, isCommitted g.view t.call.inputs⟩ })
    h.garbler hfree (h.stack.preprocessed_subset h.garbler.invAt)
  have hgb : Garbler.generateAll .execute calls { g with callStack := rest } = some { g with
      view := v
      keys := keys
      callStack := rest
      sent := g.sent ++ [calls]
      done := g.done ++ calls.map fun t => ⟨t.id, t.id, isCommitted g.view t.call.inputs⟩ } := by
    rw [Garbler.generateAll, if_pos hkeys]
    exact hfold
  have hmacs : ((calls.map fun t => t.hold t.id).all fun k => isSet k.call.inputs e.macs) =
      true := by
    rw [List.all_eq_true]
    intro k hk
    obtain ⟨t, ht, rfl⟩ := List.mem_map.mp hk
    exact h.subset_macs (hin t ht).2
  obtain ⟨w, macs, hfold', hw, hmacs'⟩ := setOutput_all Held.output (calls.map fun t => t.hold t.id)
    (e := { e with
      callStack := rest
      received := e.received ++ [calls]
      done := e.done ++ (calls.map fun t => t.hold t.id).map
        fun k => ⟨k.id, k.circuit, isCommitted e.view k.call.inputs⟩ }) h.evaluator
    { pos := houts ▸ hfree.pos
      subset := houts ▸ hfree.subset
      unset := fun o ho => by
        rw [houts] at ho
        obtain ⟨t, ht, rfl⟩ := List.mem_map.mp ho
        have hwait := h.stack.waiting t (hin t ht).1
        exact h.disjoint_macs hwait.subset (hwait.fresh.mono_right fun i => hexecuted i)
      apart := houts ▸ hfree.apart }
  rw [houts] at hw
  have hev : Evaluator.evaluateAll (calls.map fun t => t.hold t.id) { e with
      callStack := rest
      received := e.received ++ [calls] } = some { e with
      view := w
      macs := macs
      callStack := rest
      received := e.received ++ [calls]
      done := e.done ++ (calls.map fun t => t.hold t.id).map
        fun k => ⟨k.id, k.circuit, isCommitted e.view k.call.inputs⟩ } := by
    rw [Evaluator.evaluateAll, if_pos hmacs]
    exact hfold'
  have hdone : (calls.map fun t => t.hold t.id).map
      (fun k => (⟨k.id, k.circuit, isCommitted e.view k.call.inputs⟩ : Done)) =
      calls.map fun t => ⟨t.id, t.id, isCommitted g.view t.call.inputs⟩ := by
    rw [List.map_map]
    refine List.map_congr_left fun t _ => ?_
    show (⟨t.id, t.id, isCommitted e.view t.call.inputs⟩ : Done) = _
    rw [h.evaluator.isCommitted, h.garbler.isCommitted]
  obtain ⟨hlen, hout, hcom, hexe, hpre⟩ := setOutputAll_spec s (calls.map Submitted.output)
  refine ⟨setOutputAll s (calls.map Submitted.output), _, _, hgb, hev, ?_, rfl, rfl, ?_⟩
  · refine ⟨hsees, hw, rfl, h.stack.take hperm hrsub hmem hlen hout h.garbler.invAt hpre,
      fun i => ?_, fun k hk => ?_, h.apart, h.prepared, ?_, ?_, fun d hd => ?_, fun b hb =>
        ?_, ?_, ?_⟩
    · rw [hmacs', houts, hcom, hexe, h.macs, or_assoc]
    · have hold := h.held k hk
      refine ⟨hold.pos, fun i hi => (hpre i).mpr (.inl (hold.subset hi)), ?_, hold.reads,
        fun t ht => hold.below t (hrsub.subset ht), hold.circuit⟩
      rw [Finset.disjoint_left]
      intro i hi hx
      rcases (hexe i).mp hx with hx | ⟨o, ho, hx⟩
      · exact Finset.disjoint_left.mp hold.fresh hi hx
      · obtain ⟨t, ht, rfl⟩ := List.mem_map.mp ho
        exact Finset.disjoint_left.mp (h.stack.waiting t (hin t ht).1).fresh hx (hold.subset hi)
    · show e.received ++ [calls] = g.sent ++ [calls]
      rw [h.received]
    · show (e.done ++ _).Perm _
      rw [hdone]
      exact h.done.append_right _
    · rcases List.mem_append.mp hd with hd | hd
      · exact h.ready d hd
      · obtain ⟨t, ht, rfl⟩ := List.mem_map.mp hd
        exact ⟨rfl, (h.garbler.isCommitted t.call.inputs).trans (hin t ht).2⟩
    · rcases List.mem_append.mp hb with hb | hb
      · exact h.batches b hb
      · rw [List.mem_singleton] at hb
        subst hb
        exact ⟨hne, hindep⟩
    · refine List.Perm.trans (List.Perm.map _ ?_) h.sentOnce
      rw [List.flatten_append, List.flatten_singleton, List.append_assoc]
      exact hperm.append_left _
    · refine List.Perm.trans ?_ h.doneOnce
      have hids : (calls.map fun t => (⟨t.id, t.id, isCommitted g.view t.call.inputs⟩ : Done)).map
          Done.id = calls.map Submitted.id := by
        rw [List.map_map]
        rfl
      show ((g.done ++ _).map Done.id ++ _ ++ rest.map Submitted.id).Perm _
      rw [List.map_append, hids, List.append_assoc, List.append_assoc, List.append_assoc]
      refine List.Perm.append_left _ ?_
      rw [← List.append_assoc]
      refine (List.perm_append_comm.append_right _).trans ?_
      rw [List.append_assoc, ← List.map_append]
      exact (hperm.map Submitted.id).append_left _
  · intro k hk
    rw [allCommitted_setOutputAll, hnone k hk]
    intro input hinput o ho
    obtain ⟨t, ht, rfl⟩ := List.mem_map.mp ho
    have hold := h.held k hk
    exact (hold.reads input hinput).trans
      ((Nat.le_add_right _ _).trans (hold.below t (hin t ht).1))

/-- The loops over the calls that wait end, with none left whose inputs are committed. -/
theorem executeLoop (h : Inv s g e n) {fuel : ℕ} (hfuel : g.callStack.length ≤ fuel)
    (hnone : ∀ k ∈ e.preprocessed, allCommitted s k.call.inputs = false) : ∃ s' g' e' batches,
    g.executeLoop fuel = some g' ∧ g'.sent = g.sent ++ batches ∧
      e.executeLoop fuel (batches.map (List.map Submitted.id)) = some e' ∧ Inv s' g' e' n ∧
        (∀ k ∈ e'.preprocessed, allCommitted s' k.call.inputs = false) ∧
          ∀ t ∈ g'.callStack, allCommitted s' t.call.inputs = false := by
  induction fuel generalizing s g e with
  | zero =>
    have hnil := List.length_eq_zero_iff.mp (Nat.le_zero.mp hfuel)
    obtain ⟨hgb, hev⟩ := h.takeExecuteCalls_eq
    rw [hnil, List.filter_nil] at hgb hev
    exact ⟨s, g, e, [], garbler_executeLoop_nil (by rw [hnil, hgb]) 0, (List.append_nil _).symm,
      evaluator_executeLoop_nil (by rw [hev]) 0, h, hnone, hnil ▸ nofun⟩
  | succ fuel ih =>
    obtain ⟨hgb, hev⟩ := h.takeExecuteCalls_eq
    by_cases hnil : (g.callStack.filter fun t => allCommitted s t.call.inputs) = []
    · refine ⟨s, g, e, [], garbler_executeLoop_nil (by rw [hgb]; exact hnil) _,
        (List.append_nil _).symm, evaluator_executeLoop_nil (by rw [hev]; exact hnil) _, h, hnone,
        fun t ht => ?_⟩
      exact Bool.eq_false_iff.mpr (List.filter_eq_nil_iff.mp hnil t ht)
    · obtain ⟨s₁, g₁, e₁, hgen, heval, hinv, hstack, hsent, hnone₁⟩ :=
        h.executeBatch rfl rfl hnil hnone
      have hlen : g₁.callStack.length ≤ fuel := by
        have hsum := (List.filter_append_perm (fun t : Submitted => allCommitted s t.call.inputs)
          g.callStack).length_eq
        have hpos := List.length_pos_iff.mpr hnil
        rw [List.length_append] at hsum
        rw [hstack]
        omega
      obtain ⟨s', g', e', batches, hg, hsent', he, hinv', hnone', hstack'⟩ := ih hinv hlen hnone₁
      refine ⟨s', g', e', (g.callStack.filter fun t => allCommitted s t.call.inputs) :: batches, ?_,
        ?_, ?_, hinv', hnone', hstack'⟩
      · rw [garbler_executeLoop_succ hgb hnil, hgen]
        exact hg
      · rw [hsent', hsent, List.append_cons g.sent _ batches]
      · rw [List.map_cons, evaluator_executeLoop_succ hev hnil, heval]
        exact he

/-- **Both execute.** -/
theorem execute (h : Inv s g e n) : ∃ s' g' e', g.execute = some g' ∧
    e.execute (World.messages g g') = some e' ∧ Inv s' g' e' n ∧
      (∀ k ∈ e'.preprocessed, allCommitted s' k.call.inputs = false) ∧
        ∀ t ∈ g'.callStack, allCommitted s' t.call.inputs = false := by
  have hlen : g.preprocessed.length = e.preprocessed.length := by
    rw [h.prepared.length_eq, List.length_map]
  obtain ⟨s₁, g₁, e₁, hmark, heval, hinv₁, hstack₁, hsent₁, hnone₁⟩ := h.markLoop hlen.ge
  rw [hlen] at heval
  obtain ⟨s', g', e', batches, hloop, hsent, hloop', hinv, hnone, hstack⟩ :=
    hinv₁.executeLoop le_rfl hnone₁
  -- the garbler marks no more
  have hnil : (g'.preprocessed.filter fun p => isCommitted g'.view p.inputs) = [] := by
    rw [hinv.filter_eq_nil, List.filter_eq_nil_iff]
    intro k hk
    rw [hinv.evaluator.isCommitted, hnone k hk]
    exact Bool.false_ne_true
  refine ⟨s', g', e', ?_, ?_, hinv, hnone, hstack⟩
  · rw [Garbler.execute, hmark]
    show (g₁.executeLoop _).bind _ = _
    rw [hloop]
    exact markExecuted_nil hnil _
  · rw [messages_eq (hsent.trans (by rw [hsent₁])), Evaluator.execute, heval]
    show e₁.executeLoop e₁.callStack.length _ = _
    rw [hinv₁.callStack]
    exact hloop'

/-- Inputs are allocated or committed, and no output changes. -/
theorem frame (h : Inv s g e n) {s' : SharedView} {v w : View} {keys macs : RangeSet}
    (hv : Sees .garbler v s') (hw : Sees .evaluator w s') (hlen : s.len ≤ s'.len)
    (hout : s'.outputs = s.outputs) (hpre : s'.preprocessed = s.preprocessed)
    (hexe : s'.executed = s.executed)
    (hkeys : ∀ i, i ∈ keys ↔ i ∈ g.keys ∨ s.len ≤ i ∧ i < s'.len)
    (hmacs : ∀ i, i ∈ macs ↔ i ∈ s'.committed ∨ i ∈ s'.executed) :
    Inv s' { g with view := v, keys := keys } { e with view := w, macs := macs } n where
  garbler := hv
  evaluator := hw
  callStack := h.callStack
  stack := by
    refine ⟨fun t ht => ?_, h.stack.order, fun i => ?_⟩
    · obtain ⟨hpos, hsub, hfresh, hreads⟩ := h.stack.waiting t ht
      exact ⟨hpos, hout ▸ hsub, hpre ▸ hfresh, hreads⟩
    · rw [hkeys, h.stack.keys]
      constructor
      · rintro (⟨hi, hstack⟩ | ⟨hle, hi⟩)
        · exact ⟨hi.trans_le hlen, hstack⟩
        · refine ⟨hi, fun t ht hit => ?_⟩
          have hstop := h.stack.le_len h.garbler.invAt ht
          rw [Range.mem_toSet, Slice.stop_toRange] at hit
          omega
      · rintro ⟨hi, hstack⟩
        rcases Nat.lt_or_ge i s.len with hlt | hge
        · exact .inl ⟨hlt, hstack⟩
        · exact .inr ⟨hge, hi⟩
  macs := hmacs
  held k hk := by
    obtain ⟨hpos, hsub, hfresh, hreads, hbelow, hcircuit⟩ := h.held k hk
    exact ⟨hpos, hpre ▸ hsub, hexe ▸ hfresh, hreads, hbelow, hcircuit⟩
  apart := h.apart
  prepared := h.prepared
  received := h.received
  done := h.done
  ready := h.ready
  batches := h.batches
  sentOnce := h.sentOnce
  doneOnce := h.doneOnce

/-- Both operate on their memory. -/
theorem memory {w w' : World} (h : Inv s w.garbler w.evaluator w.calls) {op : Mirrored}
    (hstep : w.memory op = some w') : ∃ s', Inv s' w'.garbler w'.evaluator w'.calls := by
  rw [World.memory] at hstep
  split at hstep
  case isFalse => cases hstep
  case isTrue hop =>
    obtain ⟨⟨gb, ev⟩, hmirror, heq⟩ := Option.bind_eq_some_iff.mp hstep
    obtain rfl := Option.some.inj heq
    obtain ⟨hgb, hev⟩ := MirroredStep.iff.mp hmirror
    obtain ⟨hrole, hstep⟩ := refines_of_perform h.garbler.inv (h.garbler.role_eq ▸ hgb)
    obtain ⟨hrole', hstep'⟩ := refines_of_perform h.evaluator.inv (h.evaluator.role_eq ▸ hev)
    rw [h.garbler.shared] at hstep
    rw [h.evaluator.shared] at hstep'
    obtain ⟨hnew, hlen, hout, hcom, hpre, hexe⟩ := memory_spec h.garbler.shared hop hstep
    have hinv : ∀ i, gb.shared.InvAt i := fun i => hstep.inv (h.garbler.invAt i)
    refine ⟨gb.shared, h.frame ⟨hrole.trans h.garbler.role_eq, hinv, rfl⟩
      ⟨hrole'.trans h.evaluator.role_eq, fun i => hstep'.inv (h.evaluator.invAt i),
        hstep'.eq hstep⟩ hlen hout hpre hexe (fun i => ?_) fun i => ?_⟩
    · rw [Finset.mem_union, hnew]
    · rw [hcom, hexe]
      exact h.macs i

/-- **Both flush.** -/
theorem flush {w : World} (h : Inv s w.garbler w.evaluator w.calls) :
    ∃ w' s', w.flush = some w' ∧ Inv s' w'.garbler w'.evaluator w'.calls := by
  obtain ⟨gb, hgb, hv⟩ := h.garbler.perform .completeFlush rfl ⟨_, rfl⟩
  obtain ⟨ev, hev, hw⟩ := h.evaluator.perform .completeFlush rfl ⟨_, rfl⟩
  have hflush : w.evaluator.view.flush = s.flush := congrArg SharedView.flush h.evaluator.shared
  have hrun : w.flush = some { w with
      garbler := { w.garbler with view := gb }
      evaluator := { w.evaluator with
        view := ev
        macs := w.evaluator.macs ∪ w.evaluator.view.flush.macs ∪ w.evaluator.view.flush.ot } } := by
    rw [World.flush, hgb, hev]
    rfl
  refine ⟨_, s.apply .completeFlush, hrun, ?_⟩
  refine h.frame hv hw le_rfl rfl rfl rfl (fun i => ?_) fun i => ?_
  · exact ⟨.inl, fun hi => hi.resolve_right fun hlt => absurd hlt.1 (not_le.mpr hlt.2)⟩
  · rw [hflush, Finset.mem_union, Finset.mem_union, h.macs]
    simp only [SharedView.apply, Finset.mem_union]
    tauto

/-- The outputs that are preprocessed are allocated. -/
theorem le_len (h : Inv s g e n) {k : Held} (hk : k ∈ e.preprocessed) :
    k.output.ptr + k.output.size ≤ s.len := by
  have hold := h.held k hk
  have hpos := hold.pos
  have hmem : k.output.ptr + k.output.size - 1 ∈ k.output.toRange.toSet := by
    rw [Slice.mem_toRange]
    omega
  have hinv := h.garbler.invAt (k.output.ptr + k.output.size - 1)
  have hlt := hinv.allocated.mpr (.inr (hinv.preprocessed (hold.subset hmem)))
  omega

/-- **Both submit a call** whose inputs are allocated. -/
theorem call {w w' : World} (h : Inv s w.garbler w.evaluator w.calls) {c : Call}
    (hpos : 0 < c.circ.outputs.len) (hstep : w.call c = some w') :
    ∃ s', Inv s' w'.garbler w'.evaluator w'.calls := by
  rw [World.call] at hstep
  split at hstep
  case isFalse => cases hstep
  case isTrue hin =>
    obtain ⟨gb, hgb, hv⟩ := h.garbler.perform (.allocOutput c.circ.outputs.len) rfl ⟨_, rfl⟩
    obtain ⟨ev, hev, hw⟩ := h.evaluator.perform (.allocOutput c.circ.outputs.len) rfl ⟨_, rfl⟩
    have hlen : w.garbler.view.len = s.len := congrArg SharedView.len h.garbler.shared
    have hlen' : w.evaluator.view.len = s.len := congrArg SharedView.len h.evaluator.shared
    let t : Submitted := ⟨w.calls, c, ⟨s.len, c.circ.outputs.len⟩⟩
    have hstack : w.evaluator.callStack ++ [t] = w.garbler.callStack ++ [t] := by rw [h.callStack]
    have hcall : w.call c = some
        ⟨{ w.garbler with view := gb, callStack := w.garbler.callStack ++ [t] },
          { w.evaluator with view := ev, callStack := w.evaluator.callStack ++ [t] },
          w.calls + 1⟩ := by
      rw [World.call, if_pos hin, Garbler.callRaw, hgb, hlen, Evaluator.callRaw, hev, hlen']
      rfl
    rw [World.call, if_pos hin] at hcall
    obtain rfl := Option.some.inj (hstep.symm.trans hcall)
    have hids : ((w.garbler.callStack ++ [t]).map Submitted.id) =
        w.garbler.callStack.map Submitted.id ++ [w.calls] := List.map_append
    have hnew (i : ℕ) : i ∈ t.output.toRange.toSet ↔
        s.len ≤ i ∧ i < s.len + c.circ.outputs.len := Range.mem_toSet
    refine ⟨s.apply (.allocOutput c.circ.outputs.len), hv, hw, hstack,
      ⟨?_, ?_, fun i => ?_⟩, h.macs, fun k hk => ?_, h.apart, h.prepared, h.received, h.done,
      h.ready, h.batches, ?_, ?_⟩
    · intro u hu
      rcases List.mem_append.mp hu with hu | hu
      · obtain ⟨hpos, hsub, hfresh, hreads⟩ := h.stack.waiting u hu
        exact ⟨hpos, hsub.trans Finset.subset_union_left, hfresh, hreads⟩
      · rw [List.mem_singleton] at hu
        subst hu
        refine ⟨hpos, Finset.subset_union_right, ?_, fun input hinput => ?_⟩
        · rw [Finset.disjoint_left]
          intro i hi hp
          have hinv := h.garbler.invAt i
          have hlt := hinv.allocated.mpr (.inr (hinv.preprocessed hp))
          rw [hnew] at hi
          omega
        · have halloc := of_decide_eq_true (List.all_eq_true.mp hin input hinput)
          rw [hlen] at halloc
          exact halloc
    · rw [List.pairwise_append]
      refine ⟨h.stack.order, List.pairwise_singleton _ _, fun u hu u' hu' => ?_⟩
      rw [List.mem_singleton] at hu'
      subst hu'
      exact h.stack.le_len h.garbler.invAt hu
    · show i ∈ w.garbler.keys ↔ i < s.len + c.circ.outputs.len ∧ _
      rw [h.stack.keys, List.forall_mem_append]
      simp only [List.forall_mem_singleton, hnew]
      constructor
      · rintro ⟨hi, hall⟩
        exact ⟨by omega, hall, by omega⟩
      · rintro ⟨hi, hall, hout⟩
        exact ⟨by omega, hall⟩
    · obtain ⟨hpos, hsub, hfresh, hreads, hbelow, hcircuit⟩ := h.held k hk
      refine ⟨hpos, hsub, hfresh, hreads, fun u hu => ?_, hcircuit⟩
      rcases List.mem_append.mp hu with hu | hu
      · exact hbelow u hu
      · rw [List.mem_singleton] at hu
        subst hu
        exact h.le_len hk
    · rw [List.map_append, hids, ← List.append_assoc, ← List.map_append, List.range_succ]
      exact h.sentOnce.append_right _
    · rw [hids, ← List.append_assoc, List.range_succ]
      exact h.doneOnce.append_right _

/-- Both preprocess, and no call waits. -/
theorem world_preprocess {w : World} (h : Inv s w.garbler w.evaluator w.calls) :
    ∃ w' s', w.preprocess = some w' ∧ Inv s' w'.garbler w'.evaluator w'.calls ∧
      w'.garbler.callStack = [] := by
  obtain ⟨s', g', e', hg, he, hinv, hnil⟩ := h.preprocess
  have hrun : w.preprocess = some ⟨g', e', w.calls⟩ := by
    rw [World.preprocess, hg]
    show (w.evaluator.preprocess _).bind _ = _
    rw [he]
    rfl
  exact ⟨⟨g', e', w.calls⟩, s', hrun, hinv, hnil⟩

/-- Both execute, and there is nothing left to execute. -/
theorem world_execute {w : World} (h : Inv s w.garbler w.evaluator w.calls) :
    ∃ w' s', w.execute = some w' ∧ Inv s' w'.garbler w'.evaluator w'.calls ∧
      (∀ k ∈ w'.evaluator.preprocessed, allCommitted s' k.call.inputs = false) ∧
        ∀ t ∈ w'.garbler.callStack, allCommitted s' t.call.inputs = false := by
  obtain ⟨s', g', e', hg, he, hinv, hrest⟩ := h.execute
  have hrun : w.execute = some ⟨g', e', w.calls⟩ := by
    rw [World.execute, hg]
    show (w.evaluator.execute _).bind _ = _
    rw [he]
    rfl
  exact ⟨⟨g', e', w.calls⟩, s', hrun, hinv, hrest⟩

/-- A step keeps the invariant. -/
theorem step {w w' : World} {a : Act} (h : Inv s w.garbler w.evaluator w.calls)
    (hstep : CarefulStep w a w') : ∃ s', Inv s' w'.garbler w'.evaluator w'.calls := by
  obtain ⟨hcareful, hstep⟩ := hstep
  cases a with
  | memory op => exact h.memory hstep
  | call c => exact h.call hcareful hstep
  | flush =>
    obtain ⟨u, s', hu, hinv⟩ := h.flush
    obtain rfl := Option.some.inj (hu.symm.trans hstep)
    exact ⟨s', hinv⟩
  | preprocess =>
    obtain ⟨u, s', hu, hinv, -⟩ := h.world_preprocess
    obtain rfl := Option.some.inj (hu.symm.trans hstep)
    exact ⟨s', hinv⟩
  | execute =>
    obtain ⟨u, s', hu, hinv, -⟩ := h.world_execute
    obtain rfl := Option.some.inj (hu.symm.trans hstep)
    exact ⟨s', hinv⟩

/-- What a party can preprocess, the other one can. -/
theorem wantsPreprocess_eq (h : Inv s g e n) : g.wantsPreprocess = e.wantsPreprocess := by
  rw [Garbler.wantsPreprocess, Evaluator.wantsPreprocess, h.callStack]
  cases hstack : g.callStack with
  | nil => rfl
  | cons t stack =>
    have ht : t ∈ (takePreprocessCalls (t :: stack)).1 := by
      rw [takePreprocessCalls, takeReady_cons,
        if_pos (isDisjoint_iff.mpr fun input _ => Finset.disjoint_empty_right _)]
      exact List.mem_cons_self
    have hready := (hstack ▸ h.stack).ready ht
    have hset : isSet t.call.inputs g.keys = true := isSet_iff.mpr fun input hinput =>
      (hstack ▸ h.stack).subset_keys h.garbler.invAt List.mem_cons_self hinput fun u hu =>
        hready u hu input hinput
    rw [List.any_cons, hset]
    rfl

/-- What a party can execute, the other one can. -/
theorem wantsExecute_eq (h : Inv s g e n) : g.wantsExecute = e.wantsExecute := by
  have hpre : (g.preprocessed.any fun p => isCommitted g.view p.inputs) =
      e.preprocessed.any fun k => isCommitted e.view k.call.inputs := by
    rw [Bool.eq_iff_iff, List.any_eq_true, List.any_eq_true]
    simp only [h.garbler.isCommitted, h.evaluator.isCommitted, h.prepared.mem_iff, List.mem_map,
      exists_exists_and_eq_and]
    rfl
  rw [Garbler.wantsExecute, Evaluator.wantsExecute, hpre, h.callStack]
  simp only [h.garbler.isCommitted, h.evaluator.isCommitted]

/-- No calls are executed when none has its inputs committed. -/
theorem wantsExecute_eq_false (h : Inv s g e n)
    (hpre : ∀ k ∈ e.preprocessed, allCommitted s k.call.inputs = false)
    (hstack : ∀ t ∈ g.callStack, allCommitted s t.call.inputs = false) :
    e.wantsExecute = false := by
  rw [Evaluator.wantsExecute, Bool.or_eq_false_iff, List.any_eq_false, List.any_eq_false,
    h.callStack]
  simp only [h.evaluator.isCommitted, Bool.not_eq_true]
  exact ⟨hpre, hstack⟩

end Inv

/-! ### The parties stay in step -/

/-- The two parties are in step. -/
structure Serves (w : World) : Prop where
  /-- They see alike whether there is something to preprocess. -/
  wantsPreprocess : w.garbler.wantsPreprocess = w.evaluator.wantsPreprocess
  /-- They see alike whether there is something to execute. -/
  wantsExecute : w.garbler.wantsExecute = w.evaluator.wantsExecute
  /-- The same calls wait. -/
  callStack : w.evaluator.callStack = w.garbler.callStack
  /-- The batches that were received are those that were sent. -/
  received : w.evaluator.received = w.garbler.sent
  /-- A batch has calls, and none of them reads an output of the batch. -/
  batches : ∀ b ∈ w.garbler.sent, b ≠ [] ∧ Independent b
  /-- Every call is in one batch, or waits. -/
  sentOnce : ((w.garbler.sent.flatten ++ w.garbler.callStack).map Submitted.id).Perm
    (List.range w.calls)
  /-- Every call is executed once, or held until its inputs are committed, or waits. -/
  doneOnce : (w.garbler.done.map Done.id ++ w.garbler.preprocessed.map Prepared.id ++
    w.garbler.callStack.map Submitted.id).Perm (List.range w.calls)
  /-- The evaluator executes the same calls. -/
  done : w.evaluator.done.Perm w.garbler.done
  /-- Each is executed with the circuit that was garbled for it, and with committed inputs. -/
  ready : ∀ d ∈ w.garbler.done, d.circuit = d.id ∧ d.ready = true
  /-- Preprocessing ends, and leaves no call that waits. -/
  preprocess : ∃ w', w.preprocess = some w' ∧ w'.garbler.callStack = []
  /-- Execution ends, and leaves no call whose inputs are committed. -/
  execute : ∃ w', w.execute = some w' ∧ w'.evaluator.wantsExecute = false

theorem Inv.serves {s : SharedView} {w : World} (h : Inv s w.garbler w.evaluator w.calls) :
    Serves w where
  wantsPreprocess := h.wantsPreprocess_eq
  wantsExecute := h.wantsExecute_eq
  callStack := h.callStack
  received := h.received
  batches := h.batches
  sentOnce := h.sentOnce
  doneOnce := by
    have hperm := h.prepared.map Prepared.id
    rw [List.map_map] at hperm
    exact ((hperm.append_left _).append_right _).trans h.doneOnce
  done := h.done
  ready := h.ready
  preprocess := by
    obtain ⟨w', s', hrun, -, hnil⟩ := h.world_preprocess
    exact ⟨w', hrun, hnil⟩
  execute := by
    obtain ⟨w', s', hrun, hinv, hpre, hstack⟩ := h.world_execute
    exact ⟨w', hrun, hinv.wantsExecute_eq_false hpre hstack⟩

/-- **Garbler and evaluator stay in step**, in every run where each call has an output. -/
theorem semihonest_serves {acts : List Act} {w : World} (h : Run CarefulStep World.new acts w) :
    Serves w := by
  obtain ⟨s, hinv⟩ := h.invariant (P := fun w => ∃ s, Inv s w.garbler w.evaluator w.calls)
    ⟨_, Inv.new⟩ fun _ _ _ ⟨_, hinv⟩ hstep => hinv.step hstep
  exact hinv.serves

/-- The circuit of one XOR gate. -/
def sampleCircuit : Circuit := ⟨⟨0, 2⟩, ⟨2, 3⟩, [.xor 0 1 2], 3, 0, 1⟩

/-- A circuit that has an input, and no output. -/
def sinkCircuit : Circuit := ⟨⟨0, 1⟩, ⟨1, 1⟩, [], 1, 0, 0⟩

/-- The second call reads what the first one writes, the third one what the second one does, and the
fourth one neither. Three of them are preprocessed in two batches. -/
def sampleActs : List Act := [.memory (.allocInput 2), .memory (.markPrivate .garbler ⟨0, 1⟩),
  .memory (.markPublic ⟨1, 2⟩), .call ⟨sampleCircuit, [⟨0, 2⟩]⟩,
  .call ⟨sampleCircuit, [⟨0, 1⟩, ⟨2, 1⟩]⟩, .call ⟨sampleCircuit, [⟨0, 2⟩]⟩, .preprocess,
  .call ⟨sampleCircuit, [⟨3, 1⟩, ⟨4, 1⟩]⟩, .memory (.assign .garbler ⟨0, 1⟩),
  .memory (.assign .garbler ⟨1, 2⟩), .memory (.assign .evaluator ⟨1, 2⟩), .memory (.commit ⟨0, 2⟩),
  .flush, .execute]

/-- A careful step, where it is one. -/
def carefulNext (w : World) (a : Act) : Option World := if a.Careful then w.next a else none

theorem carefulStep_of_next (w : World) (a : Act) (w' : World) (h : carefulNext w a = some w') :
    CarefulStep w a w' := by
  rw [carefulNext] at h
  split at h
  case isTrue ha => exact ⟨ha, h⟩
  case isFalse => cases h

theorem run_sampleActs : ∃ w, Run CarefulStep World.new sampleActs w ∧
    (w.garbler.sent.map fun b => b.map Submitted.id) = [[0, 2], [1], [3]] ∧
      w.garbler.done.map Done.id = [0, 2, 1, 3] :=
  ⟨_, Run.of_isSome carefulNext carefulStep_of_next (by decide +kernel), by decide +kernel,
    by decide +kernel⟩

theorem semihonest_serves_four : ∃ w, Run CarefulStep World.new sampleActs w ∧
    (w.garbler.sent.map fun b => b.map Submitted.id) = [[0, 2], [1], [3]] ∧
      w.garbler.done.map Done.id = [0, 2, 1, 3] ∧ Serves w := by
  obtain ⟨w, hrun, hsent, hdone⟩ := run_sampleActs
  exact ⟨w, hrun, hsent, hdone, semihonest_serves hrun⟩

/-- **A call with no output fails**: it is preprocessed by neither party, and when its inputs are
committed, it is not executed. -/
theorem empty_output : ∃ w w' : World,
    Run Step World.new [.memory (.allocInput 1), .call ⟨sinkCircuit, [⟨0, 1⟩]⟩] w ∧
      w.garbler.wantsPreprocess = true ∧ w.preprocess.isNone = true ∧
    Run Step w [.memory (.markPublic ⟨0, 1⟩), .memory (.assign .garbler ⟨0, 1⟩),
      .memory (.assign .evaluator ⟨0, 1⟩), .memory (.commit ⟨0, 1⟩), .flush] w' ∧
      w'.garbler.wantsExecute = true ∧ w'.execute.isNone = true :=
  ⟨_, _, Run.of_isSome World.next (fun _ _ _ h => h) (by decide +kernel), by decide +kernel,
    by decide +kernel, Run.of_isSome World.next (fun _ _ _ h => h) (by decide +kernel),
    by decide +kernel, by decide +kernel⟩

end SemiHonest

end Mpz.Garble
