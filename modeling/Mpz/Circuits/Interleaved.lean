import Mpz.Circuits.Renumber
import Mpz.Lib.Lists

/-!
# Builders in any order

Inputs can be added between gates, so the feeds of a builder are its inputs and what its gates
write, in any order. The circuit has them in the order of `orderOf`, and the new id of a feed is its
place there. What is built from a builder whose outputs are written by different gates is well
formed, and evaluates to what the outputs come to be.

## Main definitions

* `CircuitBuilder.orderOf` — the feeds in the order of the circuit
* `CircuitBuilder.Linked` — every feed is an input or written by one gate, and gates read feeds
  before their own
* `CircuitBuilder.Wired` — and the AND gates are counted

## Main results

* `evaluateGates_map_rename` — renamed gates compute the same
* `CircuitBuilder.Linked.build_eq` — the circuit: the gates of the builder, renamed
* `CircuitBuilder.Wired.wellFormed`, `CircuitBuilder.Linked.evaluate_build` — it is well formed, and
  computes the same
-/

namespace Mpz

/-! ### Renamed gates -/

section

variable {f : ℕ → ℕ} {gates : List Gate} {gate : Gate} {known known' : List ℕ} {wires : List Bool}
    {v : ℕ → Bool}

theorem GatesRead.rename (h : GatesRead known gates) :
    GatesRead (known.map f) (gates.map (Gate.rename f)) := by
  induction gates generalizing known with
  | nil => trivial
  | cons gate gates ih =>
    refine ⟨fun i hi => ?_, ?_⟩
    · rw [Gate.reads_rename] at hi
      obtain ⟨j, hj, rfl⟩ := List.mem_map.mp hi
      exact List.mem_map_of_mem (h.1 j hj)
    · rw [Gate.z_rename]
      exact ih h.2

theorem GatesRead.mono (h : GatesRead known gates) (hsub : known ⊆ known') :
    GatesRead known' gates := by
  induction gates generalizing known known' with
  | nil => trivial
  | cons gate gates ih =>
    exact ⟨fun i hi => hsub (h.1 i hi), ih h.2 (List.cons_subset_cons _ hsub)⟩

/-- One more gate reads what is known, and what the gates before it write. -/
theorem GatesRead.concat (h : GatesRead known gates)
    (hr : ∀ i ∈ gate.reads, i ∈ known ∨ i ∈ gates.map Gate.z) :
    GatesRead known (gates ++ [gate]) := by
  induction gates generalizing known with
  | nil => exact ⟨fun i hi => (hr i hi).resolve_right List.not_mem_nil, trivial⟩
  | cons g gates ih =>
    refine ⟨h.1, ih h.2 fun i hi => ?_⟩
    rcases hr i hi with hi | hi
    · exact .inl (List.mem_cons_of_mem _ hi)
    · rcases List.mem_cons.mp hi with rfl | hi
      · exact .inl List.mem_cons_self
      · exact .inr hi

/-- **Renamed gates compute the same**, where the new ids of what is known and of what the gates
write are different. -/
theorem evaluateGates_map_rename (hread : GatesRead known gates)
    (hinj : ∀ i ∈ known ++ gates.map Gate.z, ∀ j ∈ known ++ gates.map Gate.z, f i = f j → i = j)
    (hnodup : (known ++ gates.map Gate.z).Nodup) (hlt : ∀ i ∈ gates.map Gate.z, f i < wires.length)
    (hw : ∀ i ∈ known, wires[f i]? = some (v i)) :
    ∃ wires', evaluateGates wires (gates.map (Gate.rename f)) = some wires' ∧ wires'.length =
      wires.length ∧
      ∀ i ∈ known ++ gates.map Gate.z, wires'[f i]? = some (gates.foldl Gate.write v i) := by
  induction gates generalizing known wires v with
  | nil => exact ⟨wires, rfl, rfl, fun i hi => hw i ((List.append_nil known) ▸ hi)⟩
  | cons gate gates ih =>
    have hperm : (known ++ (gate :: gates).map Gate.z).Perm (gate.z :: known ++ gates.map Gate.z) :=
      List.perm_middle
    have hgate : f gate.z < wires.length := hlt _ List.mem_cons_self
    have hrun : evaluateGate wires (gate.rename f) =
        some (wires.set (f gate.z) (gate.write v gate.z)) :=
      evaluateGate_rename (fun i hi => hw i (hread.1 i hi)) hgate
    have hnodup' := hperm.nodup_iff.mp hnodup
    have hwires : ∀ i ∈ gate.z :: known,
        (wires.set (f gate.z) (gate.write v gate.z))[f i]? = some (gate.write v i) := by
      intro i hi
      rcases List.mem_cons.mp hi with rfl | hi
      · exact List.getElem?_set_self hgate
      · have hne : i ≠ gate.z := by
          rintro rfl
          exact (List.nodup_cons.mp hnodup').1 (List.mem_append_left _ hi)
        have hne' : f gate.z ≠ f i := fun h => hne (hinj i (List.mem_append_left _ hi) gate.z
          (List.mem_append_right _ List.mem_cons_self) h.symm)
        rw [List.getElem?_set_ne hne', gate.write_of_ne v hne, hw i hi]
    obtain ⟨wires', hrun', hlen, hall⟩ := ih hread.2
      (fun i hi j hj => hinj i (hperm.mem_iff.mpr hi) j (hperm.mem_iff.mpr hj)) hnodup'
      (fun i hi => by rw [List.length_set]; exact hlt i (List.mem_cons_of_mem _ hi)) hwires
    refine ⟨wires', ?_, hlen.trans List.length_set, fun i hi => hall i (hperm.mem_iff.mp hi)⟩
    rw [List.map_cons, evaluateGates, hrun]
    exact hrun'

end

namespace CircuitBuilder

/-! ### The order of the feeds -/

/-- The feeds in the order of the circuit: the inputs, what the gates write that is no output, and
the outputs. -/
def orderOf (ins zs os : List ℕ) : List ℕ := ins ++ (zs.filter (· ∉ os) ++ os)

section Order

variable {ins zs os : List ℕ} {n i k : ℕ} (hperm : (ins ++ zs).Perm (List.range n)) (hos : os.Nodup)
  (hsub : ∀ i ∈ os, i ∈ zs)
include hperm hos hsub

/-- Every feed is in the order, once. -/
theorem orderOf_perm : (orderOf ins zs os).Perm (List.range n) := by
  have hzs : zs.Nodup := (List.nodup_append.mp (hperm.nodup_iff.mpr List.nodup_range)).2.1
  have houts : (zs.filter fun i => !decide (i ∉ os)).Perm os := by
    rw [List.perm_ext_iff_of_nodup (hzs.filter _) hos]
    intro i
    simp only [List.mem_filter, decide_not, Bool.not_not, decide_eq_true_eq]
    exact ⟨fun h => h.2, fun h => ⟨hsub i h, h⟩⟩
  have hrest : (zs.filter (· ∉ os) ++ os).Perm zs :=
    (houts.symm.append_left _).trans (List.filter_append_perm _ _)
  exact (hrest.append_left ins).trans hperm

theorem nodup_orderOf : (orderOf ins zs os).Nodup :=
  (orderOf_perm hperm hos hsub).nodup_iff.mpr List.nodup_range

theorem mem_orderOf : i ∈ orderOf ins zs os ↔ i < n := by
  rw [(orderOf_perm hperm hos hsub).mem_iff, List.mem_range]

theorem length_orderOf : (orderOf ins zs os).length = n := by
  rw [(orderOf_perm hperm hos hsub).length_eq, List.length_range]

theorem idxOf_orderOf_lt (h : i < n) : (orderOf ins zs os).idxOf i < n := by
  conv_rhs => rw [← length_orderOf hperm hos hsub]
  exact List.idxOf_lt_length_of_mem ((mem_orderOf hperm hos hsub).mpr h)

theorem idxOf_orderOf (h : (orderOf ins zs os)[k]? = some i) : (orderOf ins zs os).idxOf i = k := by
  obtain ⟨hk, rfl⟩ := List.getElem?_eq_some_iff.mp h
  exact (nodup_orderOf hperm hos hsub).idxOf_getElem k hk

/-- Where the outputs start. -/
theorem sub_length_eq : n - os.length = ins.length + (zs.filter (· ∉ os)).length := by
  have hlen := length_orderOf hperm hos hsub
  rw [orderOf, List.length_append, List.length_append] at hlen
  omega

theorem idxOf_input (h : ins[k]? = some i) : (orderOf ins zs os).idxOf i = k := by
  refine idxOf_orderOf hperm hos hsub ?_
  rw [orderOf, List.getElem?_append_left (List.getElem?_eq_some_iff.mp h).1, h]

theorem idxOf_output (h : os[k]? = some i) : (orderOf ins zs os).idxOf i = n - os.length + k := by
  refine idxOf_orderOf hperm hos hsub ?_
  rw [sub_length_eq hperm hos hsub, orderOf, List.getElem?_append_right (by omega),
    List.getElem?_append_right (by omega), ← h]
  congr 1
  omega

/-- What a gate writes that is no output is behind the inputs and what the gates before it write. -/
theorem idxOf_gate {seen rest : List ℕ} (hzs : zs = seen ++ i :: rest) (h : i ∉ os) :
    (orderOf ins zs os).idxOf i = ins.length + (seen.filter (· ∉ os)).length := by
  refine idxOf_orderOf hperm hos hsub ?_
  rw [orderOf, List.getElem?_append_right (Nat.le_add_right _ _), Nat.add_sub_cancel_left, hzs,
    List.filter_append, List.filter_cons_of_pos (by simpa using h)]
  simp

end Order

/-! ### The table of the ids -/

section Table

variable {ins zs os : List ℕ} {n i k : ℕ} {g : ℕ → ℕ} {gates : List Gate}

/-- The inputs are given the first ids. -/
theorem foldlM_mapInput_of_nodup (hins : ins.Nodup) (hlt : ∀ i ∈ ins, i < n) :
    ins.foldlM mapInput (table n g, k) =
      some (table n fun i => if i ∈ ins then k + ins.idxOf i else g i, k + ins.length) := by
  induction ins generalizing k g with
  | nil =>
    rw [List.foldlM_nil]
    exact congrArg some (Prod.ext (table_congr fun i _ => (if_neg List.not_mem_nil).symm) rfl)
  | cons input ins ih =>
    obtain ⟨hinput, hins⟩ := List.nodup_cons.mp hins
    rw [List.foldlM_cons, mapInput, writeAt_table (hlt input List.mem_cons_self)]
    simp only [Option.bind_eq_bind, Option.bind_some]
    refine (ih hins fun i hi => hlt i (List.mem_cons_of_mem _ hi)).trans ?_
    refine congrArg some (Prod.ext (table_congr fun i _ => ?_) ?_)
    · rw [Function.update_apply]
      by_cases hi : i = input
      · subst hi
        rw [if_neg hinput, if_pos rfl, if_pos List.mem_cons_self, List.idxOf_cons_self,
          Nat.add_zero]
      · rw [List.idxOf_cons_ne _ (Ne.symm hi)]
        simp only [List.mem_cons, hi, false_or, if_false]
        split_ifs <;> omega
    · show k + 1 + ins.length = k + (ins.length + 1)
      omega

/-- The ids that are known when the inputs and the outputs have theirs, and some of what gates
write. -/
def knownIds (ins zs os : List ℕ) (n : ℕ) (seen : List ℕ) : List ℕ :=
  table n fun i => if i ∈ ins ∨ i ∈ seen ∨ i ∈ os then (orderOf ins zs os).idxOf i else 0

variable (hperm : (ins ++ zs).Perm (List.range n)) (hos : os.Nodup) (hsub : ∀ i ∈ os, i ∈ zs)
include hperm hos hsub

/-- What is known when the inputs and the outputs have their ids. -/
theorem knownIds_nil :
    (table n fun i => if i ∈ os then n - os.length + (0 + os.idxOf i) else if i ∈ ins then 0 +
      ins.idxOf i else 0) =
      knownIds ins zs os n [] := by
  refine table_congr fun i _ => ?_
  by_cases hi : i ∈ os
  · rw [if_pos hi, if_pos (.inr (.inr hi)), Nat.zero_add,
      idxOf_output hperm hos hsub (List.getElem?_idxOf hi)]
  · by_cases hin : i ∈ ins
    · rw [if_neg hi, if_pos hin, if_pos (.inl hin), Nat.zero_add,
        idxOf_input hperm hos hsub (List.getElem?_idxOf hin)]
    · rw [if_neg hi, if_neg hin, if_neg (by simp [hi, hin])]

/-- **What the gates write is given its ids.** The induction is on the gates, with what those before
them write. -/
theorem foldlM_mapGate_of_perm (hins : gates = [] ∨ ins ≠ []) {seen : List ℕ} (acc : List Gate)
    (hzs : zs = seen ++ gates.map Gate.z) :
    gates.foldlM mapGate (knownIds ins zs os n seen, ins.length + (seen.filter (· ∉ os)).length,
      acc) =
      some (knownIds ins zs os n zs, ins.length + (zs.filter (· ∉ os)).length,
        acc ++ gates.map fun gate => gate.withZ ((orderOf ins zs os).idxOf gate.z)) := by
  have hnodup : (ins ++ zs).Nodup := hperm.nodup_iff.mpr List.nodup_range
  induction gates generalizing seen acc with
  | nil =>
    rw [List.map_nil, List.append_nil] at hzs
    rw [List.map_nil, List.append_nil, hzs]
    rfl
  | cons gate gates ih =>
    have hne : ins ≠ [] := hins.resolve_left (List.cons_ne_nil _ _)
    have hpos := List.length_pos_iff.mpr hne
    have hmem : gate.z ∈ zs := by
      rw [hzs]
      exact List.mem_append_right _ List.mem_cons_self
    have hlt : gate.z < n := List.mem_range.mp (hperm.mem_iff.mp (List.mem_append_right _ hmem))
    have hseen : zs = (seen ++ [gate.z]) ++ gates.map Gate.z := by
      rw [hzs, List.map_cons, List.append_assoc, List.singleton_append]
    have hnext := ih (.inr hne) (acc ++ [gate.withZ ((orderOf ins zs os).idxOf gate.z)]) hseen
    rw [List.append_assoc, List.singleton_append] at hnext
    rw [List.foldlM_cons, mapGate, knownIds, getElem?_table hlt, List.map_cons]
    by_cases hout : gate.z ∈ os
    · -- An output has its id.
      have hstart := sub_length_eq hperm hos hsub
      have hid := idxOf_output hperm hos hsub (List.getElem?_idxOf hout)
      have htable : knownIds ins zs os n (seen ++ [gate.z]) = knownIds ins zs os n seen := by
        refine table_congr fun i _ => if_congr ?_ rfl rfl
        rw [List.mem_append, List.mem_singleton]
        constructor
        · rintro (h | (h | rfl) | h)
          exacts [.inl h, .inr (.inl h), .inr (.inr hout), .inr (.inr h)]
        · rintro (h | h | h)
          exacts [.inl h, .inr (.inl (.inl h)), .inr (.inr h)]
      rw [htable, List.filter_append, List.filter_cons_of_neg (by simpa using hout),
        List.filter_nil, List.append_nil] at hnext
      simp only [hout, or_true, if_true, Option.bind_eq_bind, Option.bind_some]
      rw [if_neg (by omega), ← knownIds]
      exact hnext
    · have hid := idxOf_gate hperm hos hsub (hzs.trans (by rw [List.map_cons])) hout
      have hnot : gate.z ∉ ins ∧ gate.z ∉ seen := by
        have hdisjoint := List.nodup_append.mp hnodup
        refine ⟨fun h => hdisjoint.2.2 _ h _ hmem rfl, fun h => ?_⟩
        have hseen := hdisjoint.2.1
        rw [hzs, List.map_cons] at hseen
        exact (List.nodup_append.mp hseen).2.2 _ h _ List.mem_cons_self rfl
      have htable : table n (Function.update
          (fun i => if i ∈ ins ∨ i ∈ seen ∨ i ∈ os then (orderOf ins zs os).idxOf i else 0) gate.z
            ((orderOf ins zs os).idxOf gate.z)) = knownIds ins zs os n (seen ++ [gate.z]) := by
        refine table_congr fun i _ => ?_
        rw [Function.update_apply]
        by_cases hi : i = gate.z
        · rw [if_pos hi, if_pos (.inr (.inl (by simp [hi]))), hi]
        · rw [if_neg hi]
          exact if_congr (by simp [hi]) rfl rfl
      rw [List.filter_append, List.filter_cons_of_pos (by simpa using hout), List.filter_nil,
        List.length_append, List.length_singleton, ← Nat.add_assoc, ← hid] at hnext
      simp only [hnot.1, hnot.2, hout, or_self, if_false, if_true, Option.bind_eq_bind,
        Option.bind_some]
      rw [← hid, writeAt_table hlt, htable]
      exact hnext

end Table

/-! ### The circuit -/

/-- Every feed is an input or is written by one gate, and every gate reads inputs and what gates
before it write. -/
structure Linked (b : CircuitBuilder) : Prop where
  perm : (b.inputs ++ b.gates.map Gate.z).Perm (List.range' 2 (b.feedId - 2))
  reads : GatesRead b.inputs b.gates

/-- And the AND gates are counted. -/
structure Wired (b : CircuitBuilder) : Prop where
  perm : (b.inputs ++ b.gates.map Gate.z).Perm (List.range' 2 (b.feedId - 2))
  reads : GatesRead b.inputs b.gates
  andCount : andGates b.gates = b.andCount

/-- Different outputs, which gates write. -/
structure Written (b : CircuitBuilder) : Prop where
  nodup : b.outputs.Nodup
  mem : ∀ i ∈ b.outputs, i ∈ b.gates.map Gate.z

/-- The id that a feed of the builder has in the circuit. -/
def finalId (b : CircuitBuilder) (i : ℕ) : ℕ :=
  (orderOf (b.inputs.map (· - 2)) ((b.gates.map Gate.z).map (· - 2)) (b.outputs.map (· - 2))).idxOf
    (i - 2)

namespace Linked

variable {b : CircuitBuilder}

theorem mem_feeds (h : b.Linked) {i : ℕ} (hi : i ∈ b.inputs ++ b.gates.map Gate.z) :
    2 ≤ i ∧ i < b.feedId := by
  have hmem := List.mem_range'_1.mp (h.perm.mem_iff.mp hi)
  have := b.two_le
  omega

theorem nodup (h : b.Linked) : (b.inputs ++ b.gates.map Gate.z).Nodup :=
  h.perm.nodup_iff.mpr (List.nodup_range' 1 (by decide))

theorem perm_shift (h : b.Linked) :
    (b.inputs.map (· - 2) ++ (b.gates.map Gate.z).map (· - 2)).Perm
      (List.range (b.feedId - 2)) := by
  have hperm := h.perm.map (· - 2)
  rwa [List.map_append, List.map_sub_range' le_rfl, ← List.range_eq_range'] at hperm

theorem nodup_outputs (h : b.Linked) (ho : b.Written) : (b.outputs.map (· - 2)).Nodup := by
  refine ho.nodup.map_on fun i hi j hj hij => ?_
  have hi' := (h.mem_feeds (List.mem_append_right _ (ho.mem i hi))).1
  have hj' := (h.mem_feeds (List.mem_append_right _ (ho.mem j hj))).1
  omega

theorem mem_outputs (ho : b.Written) :
    ∀ i ∈ b.outputs.map (· - 2), i ∈ (b.gates.map Gate.z).map (· - 2) := by
  intro i hi
  obtain ⟨j, hj, rfl⟩ := List.mem_map.mp hi
  exact List.mem_map_of_mem (ho.mem j hj)

theorem reads_mem {known : List ℕ} {gates : List Gate} (h : GatesRead known gates) :
    ∀ gate ∈ gates, ∀ i ∈ gate.reads, i ∈ known ++ gates.map Gate.z := by
  induction gates generalizing known with
  | nil => nofun
  | cons gate gates ih =>
    intro g hg i hi
    rcases List.mem_cons.mp hg with rfl | hg
    · exact List.mem_append_left _ (h.1 i hi)
    · exact List.perm_middle.mem_iff.mpr (ih h.2 g hg i hi)

/-- A gate reads something, so there is an input where there is a gate. -/
theorem inputs_ne_nil (h : b.Linked) : b.gates = [] ∨ b.inputs ≠ [] := by
  rcases hgates : b.gates with _ | ⟨gate, gates⟩
  · exact .inl rfl
  · have hreads := h.reads
    rw [hgates] at hreads
    refine .inr fun hnil => ?_
    have hfirst := hreads.1
    rw [hnil] at hfirst
    cases gate with
    | xor x y z | and x y z | inv x z | id x z =>
        exact List.not_mem_nil (hfirst x (by simp [Gate.reads]))

theorem length_outputs_le (h : b.Linked) (ho : b.Written) : b.outputs.length ≤ b.feedId - 2 := by
  have hlen := length_orderOf h.perm_shift (h.nodup_outputs ho) (mem_outputs ho)
  have hout : (b.outputs.map (· - 2)).length = b.outputs.length := List.length_map _
  rw [orderOf, List.length_append, List.length_append] at hlen
  omega

theorem finalId_inj (h : b.Linked) (ho : b.Written) : ∀ i ∈ b.inputs ++ b.gates.map Gate.z,
    ∀ j ∈ b.inputs ++ b.gates.map Gate.z, finalId b i = finalId b j → i = j := by
  intro i hi j hj heq
  have hi' := h.mem_feeds hi
  have hj' := h.mem_feeds hj
  have hmem := (mem_orderOf h.perm_shift (h.nodup_outputs ho) (mem_outputs ho) (i := i - 2)).mpr
    (by omega)
  have hij : i - 2 = j - 2 := (List.idxOf_inj hmem).mp heq
  omega

theorem finalId_lt (h : b.Linked) (ho : b.Written) {i : ℕ}
    (hi : i ∈ b.inputs ++ b.gates.map Gate.z) :
    finalId b i < b.feedId - 2 := by
  have hi' := h.mem_feeds hi
  exact idxOf_orderOf_lt h.perm_shift (h.nodup_outputs ho) (mem_outputs ho) (by omega)

theorem finalId_input (h : b.Linked) (ho : b.Written) {k i : ℕ} (hk : b.inputs[k]? = some i) :
    finalId b i = k :=
  idxOf_input h.perm_shift (h.nodup_outputs ho) (mem_outputs ho)
    (by rw [List.getElem?_map, hk, Option.map_some])

theorem finalId_output (h : b.Linked) (ho : b.Written) {k i : ℕ} (hk : b.outputs[k]? = some i) :
    finalId b i = b.feedId - 2 - b.outputs.length + k := by
  have hid := idxOf_output h.perm_shift (h.nodup_outputs ho) (mem_outputs ho) (k := k) (i := i - 2)
    (by rw [List.getElem?_map, hk, Option.map_some])
  rwa [List.length_map] at hid

/-- The inputs are the first feeds of the circuit. -/
theorem map_finalId_inputs (h : b.Linked) (ho : b.Written) :
    b.inputs.map (finalId b) = List.range b.inputs.length := by
  refine List.ext_getElem? fun k => ?_
  rw [List.getElem?_map]
  by_cases hk : k < b.inputs.length
  · have hget := List.getElem?_eq_getElem hk
    rw [hget, Option.map_some, h.finalId_input ho hget, List.getElem?_range hk]
  · rw [List.getElem?_eq_none (by omega), List.getElem?_eq_none (by rw [List.length_range]; omega)]
    rfl

/-- When the table is complete, a gate is renamed. -/
theorem mapReads_knownIds (h : b.Linked) {gate : Gate} (hgate : gate ∈ b.gates) :
    ((gate.rename (· - 2)).withZ ((orderOf (b.inputs.map (· - 2)) ((b.gates.map Gate.z).map (· - 2))
        (b.outputs.map (· - 2))).idxOf (gate.rename (· - 2)).z)).mapReads
      (knownIds (b.inputs.map (· - 2)) ((b.gates.map Gate.z).map (· - 2)) (b.outputs.map (· - 2))
        (b.feedId - 2)
        ((b.gates.map Gate.z).map (· - 2))) = some (gate.rename (finalId b)) := by
  refine (Gate.mapReads_withZ
    (f := (orderOf (b.inputs.map (· - 2)) ((b.gates.map Gate.z).map (· - 2))
    (b.outputs.map (· - 2))).idxOf) fun i hi => ?_).trans
    (congrArg some (Gate.rename_rename _ _ gate))
  rw [Gate.reads_rename] at hi
  obtain ⟨j, hj, rfl⟩ := List.mem_map.mp hi
  have hmem := reads_mem h.reads gate hgate j hj
  have hlt := h.mem_feeds hmem
  rw [knownIds, getElem?_table (by omega), if_pos]
  rcases List.mem_append.mp hmem with hmem | hmem
  · exact .inl (List.mem_map_of_mem hmem)
  · exact .inr (.inl (List.mem_map_of_mem hmem))

/-- **The circuit of a builder**: its gates, renamed. -/
theorem build_eq (h : b.Linked) (ho : b.Written) :
    b.build = .ok ⟨⟨0, b.inputs.length⟩, ⟨b.feedId - 2 - b.outputs.length, b.feedId - 2⟩,
      b.gates.map (Gate.rename (finalId b)), b.feedId - 2, b.andCount, b.xorCount⟩ := by
  have hperm := h.perm_shift
  have hos := h.nodup_outputs ho
  have hsub := mem_outputs ho
  have hin : ∀ i ∈ b.inputs, 2 ≤ i := fun i hi => (h.mem_feeds (List.mem_append_left _ hi)).1
  have hout : ∀ i ∈ b.outputs, 2 ≤ i := fun i hi =>
    (h.mem_feeds (List.mem_append_right _ (ho.mem i hi))).1
  have hinputs : b.inputs.mapM (shiftNode 2) = some (b.inputs.map (· - 2)) :=
    List.mapM_some fun i hi => Gate.shiftNode_of_le (hin i hi)
  have houtputs : b.outputs.mapM (shiftNode 2) = some (b.outputs.map (· - 2)) :=
    List.mapM_some fun i hi => Gate.shiftNode_of_le (hout i hi)
  have hgates : b.gates.mapM (Gate.shiftLeft 2) = some (b.gates.map (Gate.rename (· - 2))) := by
    refine List.mapM_some fun gate hgate => Gate.shiftLeft_eq (b.writes gate hgate).1 fun i hi =>
      ?_
    exact (h.mem_feeds (reads_mem h.reads gate hgate i hi)).1
  have hstart : List.replicate (b.feedId - 2) 0 = table (b.feedId - 2) fun _ => 0 := by
    rw [table, List.map_const', List.length_range]
  have hnodup := List.nodup_append.mp (hperm.nodup_iff.mpr List.nodup_range)
  have hlt : ∀ i ∈ b.inputs.map (· - 2), i < b.feedId - 2 := fun i hi =>
    List.mem_range.mp (hperm.mem_iff.mp (List.mem_append_left _ hi))
  have hlt' : ∀ i ∈ b.outputs.map (· - 2), i < b.feedId - 2 := fun i hi =>
    List.mem_range.mp (hperm.mem_iff.mp (List.mem_append_right _ (hsub i hi)))
  have hmapInput := foldlM_mapInput_of_nodup (k := 0) (g := fun _ => 0) hnodup.1 hlt
  have hmapOutput := foldlM_mapOutput (b.feedId - 2 - (b.outputs.map (· - 2)).length) (k := 0)
    (g := fun i => if i ∈ b.inputs.map (· - 2) then 0 + (b.inputs.map (· - 2)).idxOf i else 0)
    hos hlt'
  rw [knownIds_nil hperm hos hsub] at hmapOutput
  have hz : (b.gates.map (Gate.rename (· - 2))).map Gate.z = (b.gates.map Gate.z).map (· - 2) := by
    rw [List.map_map, List.map_map]
    exact List.map_congr_left fun gate _ => Gate.z_rename _ gate
  have hne : b.gates.map (Gate.rename (· - 2)) = [] ∨ b.inputs.map (· - 2) ≠ [] := by
    rw [List.map_eq_nil_iff, ne_eq, List.map_eq_nil_iff]
    exact h.inputs_ne_nil
  have hnone : (b.gates.map Gate.z).map (· - 2) = [] ++
      (b.gates.map (Gate.rename (· - 2))).map Gate.z :=
    hz.symm
  have hmapGate := foldlM_mapGate_of_perm hperm hos hsub hne [] hnone
  have hmapReads : ((b.gates.map (Gate.rename (· - 2))).map fun gate => gate.withZ
      ((orderOf (b.inputs.map (· - 2)) ((b.gates.map Gate.z).map (· - 2))
        (b.outputs.map (· - 2))).idxOf
        gate.z)).mapM (Gate.mapReads
        (knownIds (b.inputs.map (· - 2)) ((b.gates.map Gate.z).map (· - 2))
          (b.outputs.map (· - 2)) (b.feedId - 2) ((b.gates.map Gate.z).map (· - 2)))) =
      some (b.gates.map (Gate.rename (finalId b))) := by
    rw [List.mapM_map, List.mapM_map]
    exact List.mapM_some fun gate hgate => h.mapReads_knownIds hgate
  have hguard := h.length_outputs_le ho
  rw [List.length_map] at hmapOutput hmapInput
  simp only [List.nil_append, List.filter_nil, List.length_nil, Nat.add_zero,
    List.length_map] at hmapGate
  rw [Nat.zero_add] at hmapInput
  rw [build, hinputs, hgates, houtputs]
  simp only [Option.bind_eq_bind, Option.bind_some, List.length_map, hstart, hmapInput, hmapOutput,
    guard, hguard, if_true, hmapGate, hmapReads]
  rfl

/-- The circuit is well formed but for the number of its AND gates: the inputs come first, every
feed is written once and before it is read. -/
theorem wellFormed_counted (h : b.Linked) (ho : b.Written) {circ : Circuit}
    (hbuild : b.build = .ok circ) : { circ with andCount := andGates circ.gates }.WellFormed := by
  obtain rfl := Outcome.ok.inj ((h.build_eq ho).symm.trans hbuild)
  have hindices : (⟨0, b.inputs.length⟩ : Range).indices = b.inputs.map (finalId b) := by
    rw [h.map_finalId_inputs ho, List.range_eq_range']
    rfl
  refine ⟨rfl, ⟨Nat.sub_le _ _, le_rfl⟩, ?_, ?_, rfl⟩
  · show GatesRead (⟨0, b.inputs.length⟩ : Range).indices _
    rw [hindices]
    exact h.reads.rename
  · show ((⟨0, b.inputs.length⟩ : Range).indices ++ _).Perm _
    have hz : (b.gates.map (Gate.rename (finalId b))).map Gate.z =
        (b.gates.map Gate.z).map (finalId b) := by
      rw [List.map_map, List.map_map]
      exact List.map_congr_left fun gate _ => Gate.z_rename _ gate
    rw [hindices, hz, ← List.map_append]
    -- The new ids are different and below the number of feeds.
    have hnodup : ((b.inputs ++ b.gates.map Gate.z).map (finalId b)).Nodup :=
      h.nodup.map_on fun i hi j hj => h.finalId_inj ho i hi j hj
    have hlen : ((b.inputs ++ b.gates.map Gate.z).map (finalId b)).length = b.feedId - 2 := by
      rw [List.length_map, h.perm.length_eq, List.length_range']
    refine (List.subperm_of_subset hnodup fun i hi => ?_).perm_of_length_le
      (by rw [hlen, List.length_range])
    obtain ⟨j, hj, rfl⟩ := List.mem_map.mp hi
    exact List.mem_range.mpr (h.finalId_lt ho hj)

/-- **What the circuit evaluates to** is what the outputs of the builder come to be. -/
theorem evaluate_build (h : b.Linked) (ho : b.Written) {circ : Circuit}
    (hbuild : b.build = .ok circ) {bits : List Bool} (hbits : bits.length = b.inputs.length)
    {v : ℕ → Bool}
    (hv : ∀ k i, b.inputs[k]? = some i → v i = bits.getD k false) :
    circ.evaluate bits = .ok (b.outputs.map (b.value v)) := by
  have hwell := h.wellFormed_counted ho hbuild
  obtain rfl := Outcome.ok.inj ((h.build_eq ho).symm.trans hbuild)
  have hle : b.inputs.length ≤ b.feedId - 2 := hwell.inputs_le
  have hcopy : copyFrom (List.replicate (b.feedId - 2) false) 0 bits =
      some (bits ++ List.replicate (b.feedId - 2 - bits.length) false) := by
    rw [copyFrom_of_le (by rw [List.length_replicate]; omega)]
    simp
  have hwires : (bits ++ List.replicate (b.feedId - 2 - bits.length) false).length =
      b.feedId - 2 := by
    rw [List.length_append, List.length_replicate]
    omega
  have hinputs : ∀ i ∈ b.inputs,
      (bits ++ List.replicate (b.feedId - 2 - bits.length) false)[finalId b i]? =
      some (constants v i) := by
    intro i hi
    obtain ⟨k, hk, hget⟩ := List.getElem_of_mem hi
    have hget' : b.inputs[k]? = some i := List.getElem?_eq_some_iff.mpr ⟨hk, hget⟩
    have hkb : k < bits.length := by omega
    have htwo := (h.mem_feeds (List.mem_append_left _ hi)).1
    rw [h.finalId_input ho hget', List.getElem?_append_left hkb, constants_of_le htwo,
      hv k i hget', List.getD_eq_getElem?_getD, List.getElem?_eq_getElem hkb, Option.getD_some]
  obtain ⟨wires, hrun, hlen, hall⟩ := evaluateGates_map_rename h.reads (h.finalId_inj ho) h.nodup
    (fun i hi => by rw [hwires]; exact h.finalId_lt ho (List.mem_append_right _ hi)) hinputs
  have hslice : slice wires ⟨b.feedId - 2 - b.outputs.length, b.feedId - 2⟩ =
      some (b.outputs.map (b.value v)) := by
    have hle' := h.length_outputs_le ho
    rw [slice, if_pos ⟨Nat.sub_le _ _, (hlen.trans hwires).ge⟩, Range.len]
    refine congrArg some (List.ext_getElem? fun k => ?_)
    dsimp only
    by_cases hk : k < b.outputs.length
    · have hout := List.getElem?_eq_getElem hk
      have hmem : b.outputs[k] ∈ b.inputs ++ b.gates.map Gate.z :=
        List.mem_append_right _ (ho.mem _ (List.getElem_mem hk))
      have hvalue := hall _ hmem
      rw [h.finalId_output ho hout] at hvalue
      rw [List.getElem?_take_of_lt (by omega), List.getElem?_drop, hvalue, List.getElem?_map, hout]
      rfl
    · rw [List.getElem?_eq_none (by simp [hlen, hwires]; omega),
        List.getElem?_eq_none (by simpa using hk)]
  -- The evaluation does not look at the number of AND gates.
  refine (Circuit.evaluate_eq hwell hbits hcopy).trans ?_
  rw [hrun]
  exact congrArg Outcome.ofOption hslice

end Linked

namespace Wired

variable {b : CircuitBuilder}

theorem linked (h : b.Wired) : b.Linked := ⟨h.perm, h.reads⟩

/-- **The circuit is well formed**: the inputs come first, every feed is written once and before it
is read. -/
theorem wellFormed (h : b.Wired) (ho : b.Written) {circ : Circuit} (hbuild : b.build = .ok circ) :
    circ.WellFormed := by
  have hwell := h.linked.wellFormed_counted ho hbuild
  obtain rfl := Outcome.ok.inj ((h.linked.build_eq ho).symm.trans hbuild)
  have hcount : andGates (b.gates.map (Gate.rename (finalId b))) = b.andCount := by
    rw [andGates, List.countP_map, ← h.andCount]
    refine List.countP_congr fun gate _ => ?_
    cases gate <;> rfl
  rwa [hcount] at hwell

end Wired

end CircuitBuilder

end Mpz
