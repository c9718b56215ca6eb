import Mathlib.Data.List.Nodup
import Mathlib.Data.List.Range
import Mpz.Circuits.Build

/-!
# Renamed gates

A circuit numbers its feeds in another order than its builder. A gate whose feeds are renamed does
to the new feeds what the gate does to the old ones. The new ids are kept in a table, which the
builder fills first for the inputs, then for the outputs and then for what the gates write.

## Main definitions

* `Gate.rename` — the gate, with all its feeds renamed
* `CircuitBuilder.table` — a table of the ids

## Main results

* `evaluateGate_rename` — a renamed gate computes the same
* `CircuitBuilder.foldlM_mapOutput` — the outputs are put at the end
-/

namespace Mpz

namespace Gate

variable {f : ℕ → ℕ} {gate : Gate} {k : ℕ} {idMap : List ℕ}

/-- The gate, with all its feeds renamed. -/
def rename (f : ℕ → ℕ) : Gate → Gate
  | xor x y z => xor (f x) (f y) (f z)
  | and x y z => and (f x) (f y) (f z)
  | inv x z => inv (f x) (f z)
  | id x z => id (f x) (f z)

@[simp] theorem z_rename (f : ℕ → ℕ) (gate : Gate) :
    (gate.rename f).z = f gate.z := by cases gate <;> rfl

@[simp] theorem reads_rename (f : ℕ → ℕ) (gate : Gate) :
    (gate.rename f).reads = gate.reads.map f := by
  cases gate <;> rfl

theorem rename_rename (f g : ℕ → ℕ) (gate : Gate) :
    (gate.rename f).rename g = gate.rename (g ∘ f) := by
  cases gate <;> rfl

theorem shiftNode_of_le {i : ℕ} (h : k ≤ i) : shiftNode k i = some (i - k) := if_pos h

theorem shiftLeft_eq (hz : k ≤ gate.z) (hr : ∀ i ∈ gate.reads, k ≤ i) :
    gate.shiftLeft k = some (gate.rename (· - k)) := by
  cases gate with
  | xor x y z | and x y z =>
    simp only [reads, List.forall_mem_cons] at hr
    rw [shiftLeft, shiftNode_of_le hr.1, shiftNode_of_le hr.2.1,
      shiftNode_of_le (show k ≤ z from hz)]
    rfl
  | inv x z | id x z =>
    simp only [reads, List.forall_mem_cons] at hr
    rw [shiftLeft, shiftNode_of_le hr.1, shiftNode_of_le (show k ≤ z from hz)]
    rfl

/-- The feeds that are read are looked up after the one that is written. -/
theorem mapReads_withZ (h : ∀ i ∈ gate.reads, idMap[i]? = some (f i)) :
    (gate.withZ (f gate.z)).mapReads idMap = some (gate.rename f) := by
  cases gate with
  | xor x y z | and x y z =>
    simp only [reads, List.forall_mem_cons] at h
    rw [withZ, mapReads, h.1, h.2.1]
    rfl
  | inv x z | id x z =>
    simp only [reads, List.forall_mem_cons] at h
    rw [withZ, mapReads, h.1]
    rfl

end Gate

/-! ### Renamed gates -/

section

variable {f : ℕ → ℕ} {gate : Gate} {wires : List Bool} {v : ℕ → Bool}

theorem evaluateGate_rename (hr : ∀ i ∈ gate.reads, wires[f i]? = some (v i))
    (hz : f gate.z < wires.length) :
    evaluateGate wires (gate.rename f) = some (wires.set (f gate.z) (gate.write v gate.z)) := by
  cases gate with
  | xor x y z | and x y z =>
    simp only [Gate.reads, List.forall_mem_cons] at hr
    rw [Gate.rename, evaluateGate, hr.1, hr.2.1, Gate.write, Gate.z, Function.update_self]
    exact writeAt_of_lt hz _
  | inv x z | id x z =>
    simp only [Gate.reads, List.forall_mem_cons] at hr
    rw [Gate.rename, evaluateGate, hr.1, Gate.write, Gate.z, Function.update_self]
    exact writeAt_of_lt hz _

end

namespace CircuitBuilder

/-! ### The table of the ids -/

/-- A table of the ids. -/
def table (n : ℕ) (g : ℕ → ℕ) : List ℕ := (List.range n).map g

section Table

variable {n i k a : ℕ} {g g' : ℕ → ℕ} {os : List ℕ}

theorem length_table (n : ℕ) (g : ℕ → ℕ) :
    (table n g).length = n := by rw [table, List.length_map, List.length_range]

theorem getElem?_table (h : i < n) : (table n g)[i]? = some (g i) := by
  rw [table, List.getElem?_map, List.getElem?_range h, Option.map_some]

theorem table_congr (h : ∀ i < n, g i = g' i) : table n g = table n g' :=
  List.map_congr_left fun i hi => h i (List.mem_range.mp hi)

theorem writeAt_table (h : i < n) :
    writeAt (table n g) i a = some (table n (Function.update g i a)) := by
  rw [writeAt_of_lt (by rwa [length_table])]
  congr 1
  refine List.ext_getElem? fun j => ?_
  by_cases hj : j < n
  · rw [getElem?_table hj, List.getElem?_set, length_table, Function.update_apply]
    by_cases hij : j = i
    · rw [if_pos hij.symm, if_pos h, if_pos hij]
    · rw [if_neg (Ne.symm hij), if_neg hij, getElem?_table hj]
  · rw [List.getElem?_eq_none (by rw [List.length_set, length_table]; omega),
      List.getElem?_eq_none (by rw [length_table]; omega)]

/-- The outputs are put at the end. -/
theorem foldlM_mapOutput (start : ℕ) (hos : os.Nodup) (hlt : ∀ i ∈ os, i < n) :
    (os.zipIdx k).foldlM (mapOutput start) (table n g) =
      some (table n fun i => if i ∈ os then start + (k + os.idxOf i) else g i) := by
  induction os generalizing k g with
  | nil =>
    rw [List.zipIdx_nil, List.foldlM_nil]
    exact congrArg some (table_congr fun i _ => (if_neg List.not_mem_nil).symm)
  | cons o os ih =>
    obtain ⟨ho, hos⟩ := List.nodup_cons.mp hos
    rw [List.zipIdx_cons, List.foldlM_cons, mapOutput, writeAt_table (hlt o List.mem_cons_self),
      Option.bind_eq_bind, Option.bind_some, ih hos fun i hi => hlt i (List.mem_cons_of_mem _ hi)]
    congr 1
    refine table_congr fun i _ => ?_
    rw [Function.update_apply]
    by_cases hio : i = o
    · subst hio
      rw [if_neg ho, if_pos rfl, if_pos List.mem_cons_self, List.idxOf_cons_self, Nat.add_zero]
    · rw [if_neg hio, List.idxOf_cons_ne _ (Ne.symm hio)]
      simp only [List.mem_cons, hio, false_or]
      split_ifs <;> omega

end Table

theorem constants_of_le {v : ℕ → Bool} {i : ℕ} (h : 2 ≤ i) : constants v i = v i := by
  obtain ⟨i, rfl⟩ := Nat.exists_eq_add_of_le' h
  rfl

end CircuitBuilder

end Mpz
