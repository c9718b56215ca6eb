import Mathlib.Data.Set.Function
import Mpz.Memory.MacStore
import Mpz.Memory.WriteOnce

/-!
# Authentication by derandomization and proof

The keys of one party and the MACs of the other authenticate a bit at every index. A random bit is
turned into a given one by adjusting the key by their difference and the MAC's pointer bit to the
new value, and the MACs of a set of indices are proven by sending their pointer bits with one hash
over the MACs in ascending order.

The loops go over the ranges of a set and take consecutive bits, so bit `j` belongs to the `j`-th
index of the set. All results are stated by index.

## Main definitions

* `KeyStore.adjust`, `MacStore.adjust` — derandomization of a slice
* `KeyStore.verifyInPlace` — the verification, on the bits of the caller
* `KeyStore.Authenticates` — what the MACs say about the bits

## Main results

* `Adjustment.forEach_spec` — adjusting disjoint sets in any order
* `KeyStore.verify_eq` — what the verification computes
* `authentication_exact` — both, for keys and MACs that authenticate
-/

namespace Mpz

variable {σ ε α T : Type}

/-- `for range in ranges { f(range, &data[i..i + range.len()])?; i += range.len() }` -/
def forRanges (f : Slice → List α → Method σ ε Unit) : List Range → List α → Method σ ε Unit
  | [], _ => pure ()
  | range :: ranges, data => do
    let slice := Slice.fromRange range
    let part ← Method.call (.ofOption (Mpz.slice data ⟨0, slice.size⟩))
    f slice part
    forRanges f ranges (data.drop slice.size)

/-! ### Reading and changing a slice that is set -/

namespace Store

/-- `try_get_slice_mut`, each item of which is then changed by a bit of its own. -/
def adjust (g : T → Bool → T) (slice : Slice) (bits : List Bool) :
    Method (Store T) StoreError Unit := do
  let self ← Method.get
  let items ← Method.call (self.tryGet slice)
  Method.modify fun self => self.copy slice.ptr (List.zipWith g items bits)

/-- What is set at the indices of a list. -/
def values (self : Store T) (indices : List ℕ) : List T := indices.filterMap self.cell

variable {s t : Store T} {slice : Slice} {range : Range}

theorem values_append (s : Store T) (l l' : List ℕ) :
    s.values (l ++ l') = s.values l ++ s.values l' := List.filterMap_append

theorem map_some_values {l : List ℕ} (h : ∀ i ∈ l, i ∈ s.set) :
    (s.values l).map some = l.map s.cell := by
  induction l with
  | nil => rfl
  | cons i l ih =>
    obtain ⟨a, ha⟩ := Option.isSome_iff_exists.mp (cell_isSome.mpr (h i List.mem_cons_self))
    have htail := ih fun j hj => h j (List.mem_cons_of_mem _ hj)
    rw [values] at htail ⊢
    rw [List.filterMap_cons_some ha, List.map_cons, List.map_cons, htail, ha]

theorem length_values {l : List ℕ} (h : ∀ i ∈ l, i ∈ s.set) : (s.values l).length = l.length := by
  have := congrArg List.length (map_some_values h)
  simpa using this

theorem stop_le_length (hlt : range.start < range.stop) (h : range.toSet ⊆ s.set) :
    range.stop ≤ s.items.length := by
  have hlast : range.stop - 1 ∈ range.toSet := by rw [Range.mem_toSet]; omega
  have := s.lt_length _ (h hlast)
  omega

/-- **A slice that is set is read index by index.** -/
theorem tryGet_values (hlt : range.start < range.stop) (h : range.toSet ⊆ s.set) :
    s.tryGet (Slice.fromRange range) = .ok (s.values range.indices) := by
  have hrange := Slice.toRange_fromRange hlt.le
  have hstop := stop_le_length hlt h
  obtain ⟨data, hdata⟩ : ∃ data, Mpz.slice s.items range = some data :=
    ⟨_, slice_eq_some.mpr ⟨⟨hlt.le, hstop⟩, rfl⟩⟩
  have hset : ∀ i ∈ range.indices, i ∈ s.set := fun i hi =>
    h (Range.mem_toSet.mpr (Range.mem_indices.mp hi))
  have hcells : data.map some = (s.values range.indices).map some := by
    rw [map_some_values hset]
    refine List.ext_getElem? fun j => ?_
    rw [List.getElem?_map, List.getElem?_map]
    by_cases hj : j < range.len
    · have hmem : range.start + j ∈ s.set := hset _ (by
        rw [Range.mem_indices]
        unfold Range.len at hj
        omega)
      have hitem : s.items[range.start + j]? = some _ :=
        List.getElem?_eq_getElem (s.lt_length _ hmem)
      rw [getElem?_slice hdata hj, Range.indices, List.getElem?_range' (by exact hj), one_mul,
        hitem, Option.map_some, Option.map_some, cell_eq_some.mpr ⟨hmem, hitem⟩]
    · rw [List.getElem?_eq_none (by rw [length_of_slice hdata]; omega),
        List.getElem?_eq_none (by rw [Range.length_indices]; omega)]
      rfl
  rw [tryGet, hrange, if_pos h, hdata, List.map_injective_iff.mpr (Option.some_injective T) hcells]
  rfl

/-- `t` is `s` with the items at the listed indices changed by their bits. -/
structure Adjusted (g : T → Bool → T) (pairs : List (ℕ × Bool)) (s t : Store T) : Prop where
  set : t.set = s.set
  cell : ∀ i b, (i, b) ∈ pairs → t.cell i = (s.cell i).map (g · b)
  frame : ∀ i, i ∉ pairs.map Prod.fst → t.cell i = s.cell i

theorem Adjusted.refl (g : T → Bool → T) (s : Store T) : Adjusted g [] s s :=
  ⟨rfl, nofun, fun _ _ => rfl⟩

/-- Changes at different indices add up. -/
theorem Adjusted.trans {g : T → Bool → T} {ps qs : List (ℕ × Bool)} {u : Store T}
    (h : Adjusted g ps s t) (h' : Adjusted g qs t u)
    (hdisj : ∀ i ∈ ps.map Prod.fst, i ∉ qs.map Prod.fst) : Adjusted g (ps ++ qs) s u where
  set := h'.set.trans h.set
  cell i b hi := by
    rcases List.mem_append.mp hi with hi | hi
    · rw [h'.frame i (hdisj i (List.mem_map_of_mem hi)), h.cell i b hi]
    · have hi' : i ∉ ps.map Prod.fst := fun hmem => hdisj i hmem (List.mem_map_of_mem hi)
      rw [h'.cell i b hi, h.frame i hi']
  frame i hi := by
    rw [List.map_append, List.mem_append, not_or] at hi
    rw [h'.frame i hi.2, h.frame i hi.1]

/-- **An adjustment and the cells behind it.** -/
theorem adjust_spec {g : T → Bool → T} {bits : List Bool} (hlt : range.start < range.stop)
    (h : range.toSet ⊆ s.set) (hbits : bits.length = range.len) :
    ∃ t, adjust g (Slice.fromRange range) bits s = (.ok (), t) ∧
      Adjusted g (range.indices.zip bits) s t := by
  have hset : ∀ i ∈ range.indices, i ∈ s.set := fun i hi =>
    h (Range.mem_toSet.mpr (Range.mem_indices.mp hi))
  let data := List.zipWith g (s.values range.indices) bits
  have hdata : data.length = range.len := by
    simp [data, length_values hset, hbits]
  have hstop : range.stop ≤ s.items.length := stop_le_length hlt h
  obtain ⟨items, hcopy⟩ : ∃ items, copyFrom s.items range.start data = some items :=
    ⟨_, copyFrom_of_le (by rw [hdata, Range.len]; omega)⟩
  have hitems : (s.copy range.start data).items = items := by simp only [copy, hcopy]; rfl
  have hcell : ∀ i, (s.copy range.start data).cell i =
      if i ∈ range.toSet then data[i - range.start]? else s.cell i := by
    intro i
    have hiff : range.start ≤ i ∧ i < range.start + data.length ↔ i ∈ range.toSet := by
      rw [hdata, Range.len, Range.mem_toSet]
      omega
    unfold Store.cell
    rw [hitems, getElem?_copyFrom hcopy]
    simp only [hiff, show (s.copy range.start data).set = s.set from rfl]
    by_cases hi : i ∈ range.toSet
    · rw [if_pos hi, if_pos (h hi), if_pos hi]
    · rw [if_neg hi, if_neg hi]
  refine ⟨s.copy range.start data, ?_, rfl, fun i b hib => ?_, fun i hi => ?_⟩
  · rw [adjust, Method.get_bind, tryGet_values hlt h, Method.call_ok_bind]
    rfl
  · obtain ⟨j, hj⟩ := List.mem_iff_getElem?.mp hib
    obtain ⟨hi, hb⟩ := List.getElem?_zip_eq_some.mp hj
    have hmem : i ∈ range.indices := List.mem_of_getElem? hi
    have hvalue : (s.values range.indices)[j]?.map some = some (s.cell i) := by
      rw [← List.getElem?_map, map_some_values hset, List.getElem?_map, hi]
      rfl
    obtain ⟨a, ha, hcell'⟩ := Option.map_eq_some_iff.mp hvalue
    have hj' : i = range.start + j := by
      have hlt := (List.getElem?_eq_some_iff.mp hi).1
      rw [Range.length_indices, Range.len] at hlt
      rw [Range.indices, List.getElem?_range' hlt, one_mul] at hi
      exact (Option.some.inj hi).symm
    rw [hcell, if_pos (Range.mem_toSet.mpr (Range.mem_indices.mp hmem)), ← hcell', hj',
      Nat.add_sub_cancel_left, List.getElem?_zipWith, ha, hb]
    rfl
  · rw [List.map_fst_zip (by rw [Range.length_indices, hbits]), Range.mem_indices,
      ← Range.mem_toSet] at hi
    rw [hcell, if_neg hi]

/-- **The loop over disjoint ranges**, in a store that is a component of the receiver. -/
theorem forRanges_spec {f : Slice → List Bool → Method σ ε Unit} {p : Store T → σ}
    {g : T → Bool → T}
    (hf : ∀ (c : Store T) (range : Range) (bits : List Bool), range.start < range.stop →
      range.toSet ⊆ c.set → bits.length = range.len →
      ∃ c', f (Slice.fromRange range) bits (p c) = (.ok (), p c') ∧
        Adjusted g (range.indices.zip bits) c c')
    {ranges : List Range} (hlt : ∀ r ∈ ranges, r.start < r.stop)
    (hdisj : ranges.Pairwise fun q r => Disjoint q.toSet r.toSet)
    (hset : ∀ r ∈ ranges, r.toSet ⊆ s.set) {bits : List Bool}
    (hbits : bits.length = (ranges.flatMap Range.indices).length) :
    ∃ t, forRanges f ranges bits (p s) = (.ok (), p t) ∧
      Adjusted g ((ranges.flatMap Range.indices).zip bits) s t := by
  induction ranges generalizing s bits with
  | nil => exact ⟨s, rfl, .refl g s⟩
  | cons range ranges ih =>
    obtain ⟨hdisj, hdisj'⟩ := List.pairwise_cons.mp hdisj
    rw [List.flatMap_cons, List.length_append, Range.length_indices] at hbits
    obtain ⟨part, hpart⟩ : ∃ part, Mpz.slice bits ⟨0, range.len⟩ = some part :=
      ⟨_, slice_eq_some.mpr ⟨⟨Nat.zero_le _, by simp only; omega⟩, rfl⟩⟩
    obtain ⟨hle, rfl⟩ := slice_zero hpart
    obtain ⟨t, hrun, hadj⟩ := hf s range (bits.take range.len) (hlt range List.mem_cons_self)
      (hset range List.mem_cons_self) (by rw [List.length_take]; omega)
    have hdrop : (bits.drop range.len).length = (ranges.flatMap Range.indices).length := by
      rw [List.length_drop]
      omega
    obtain ⟨u, hrun', hadj'⟩ := ih (s := t) (fun r hr => hlt r (List.mem_cons_of_mem _ hr)) hdisj'
      (fun r hr => hadj.set ▸ hset r (List.mem_cons_of_mem _ hr)) hdrop
    have hzip : ((range :: ranges).flatMap Range.indices).zip bits =
        range.indices.zip (bits.take range.len) ++
          (ranges.flatMap Range.indices).zip (bits.drop range.len) := by
      conv_lhs => rw [List.flatMap_cons, ← List.take_append_drop range.len bits]
      exact List.zip_append (by simp [hle])
    refine ⟨u, ?_, hzip ▸ hadj.trans hadj' fun i hi hi' => ?_⟩
    · rw [forRanges]
      show ((Method.call (.ofOption (Mpz.slice bits ⟨0, range.len⟩))) >>= _) (p s) = _
      rw [hpart, Outcome.ofOption_some, Method.call_ok_bind, Method.bind_apply_of_ok hrun]
      exact hrun'
    · rw [List.map_fst_zip (by simp [hle])] at hi
      rw [List.map_fst_zip (by rw [List.length_drop]; omega), List.mem_flatMap] at hi'
      obtain ⟨r, hr, hir⟩ := hi'
      exact Finset.disjoint_left.mp (hdisj r hr) (Range.mem_toSet.mpr (Range.mem_indices.mp hi))
        (Range.mem_toSet.mpr (Range.mem_indices.mp hir))

end Store

/-! ### Derandomization -/

/-- The bits that are to be authenticated at the indices of a set. -/
structure Adjustment where
  /-- The indices. -/
  ranges : RangeSet
  /-- The bits, in the order of the indices. -/
  data : List Bool
  length_data : data.length = ranges.card

namespace Adjustment

/-- The indices with their bits. -/
def pairs (self : Adjustment) : List (ℕ × Bool) := self.ranges.indices.zip self.data

/-- The bits that the holder of the MACs sends: the data, masked. -/
def offset (mask : ℕ → Bool) (self : Adjustment) : Adjustment where
  ranges := self.ranges
  data := List.zipWith (fun i bit => mask i ^^ bit) self.ranges.indices self.data
  length_data := by rw [List.length_zipWith, RangeSet.length_indices, self.length_data, min_self]

/-- The loop that adjusts the ranges of the set. -/
def run (f : Slice → List Bool → Method σ ε Unit) (self : Adjustment) : Method σ ε Unit :=
  forRanges f self.ranges.iter self.data

theorem map_fst_pairs (a : Adjustment) : a.pairs.map Prod.fst = a.ranges.indices :=
  List.map_fst_zip (by rw [RangeSet.length_indices, a.length_data])

theorem mem_pairs_offset {mask : ℕ → Bool} {a : Adjustment} {i : ℕ} {b : Bool}
    (h : (i, b) ∈ a.pairs) : (i, mask i ^^ b) ∈ (a.offset mask).pairs := by
  obtain ⟨j, hj⟩ := List.mem_iff_getElem?.mp h
  obtain ⟨hi, hb⟩ := List.getElem?_zip_eq_some.mp hj
  refine List.mem_of_getElem? (i := j) (List.getElem?_zip_eq_some.mpr ⟨hi, ?_⟩)
  rw [offset, List.getElem?_zipWith, hi, hb]

section Run

variable {f : Slice → List Bool → Method σ ε Unit} {p : Store T → σ} {g : T → Bool → T}
  (hf : ∀ (c : Store T) (range : Range) (bits : List Bool), range.start < range.stop →
    range.toSet ⊆ c.set → bits.length = range.len →
    ∃ c', f (Slice.fromRange range) bits (p c) = (.ok (), p c') ∧
      Store.Adjusted g (range.indices.zip bits) c c')

include hf

theorem run_spec {a : Adjustment} {s : Store T} (hset : a.ranges ⊆ s.set) :
    ∃ t, a.run f (p s) = (.ok (), p t) ∧ Store.Adjusted g a.pairs s t := by
  have hdata : a.data.length = (a.ranges.iter.flatMap Range.indices).length := by
    rw [RangeSet.flatMap_indices_iter, RangeSet.length_indices, a.length_data]
  obtain ⟨t, hrun, hadj⟩ := Store.forRanges_spec hf (fun r hr => RangeSet.lt_of_mem_iter hr)
    a.ranges.pairwise_disjoint_iter
    (fun r hr => (RangeSet.toSet_subset_of_mem_iter hr).trans hset) hdata
  rw [RangeSet.flatMap_indices_iter] at hadj
  exact ⟨t, hrun, hadj⟩

/-- **Disjoint sets may be adjusted in any order.** -/
theorem forEach_spec {as : List Adjustment}
    (hdisj : as.Pairwise fun a b => Disjoint a.ranges b.ranges) {s : Store T}
    (hset : ∀ a ∈ as, a.ranges ⊆ s.set) :
    ∃ t, Method.forEach (run f) as (p s) = (.ok (), p t) ∧
      Store.Adjusted g (as.flatMap pairs) s t := by
  induction as generalizing s with
  | nil => exact ⟨s, rfl, .refl g s⟩
  | cons a as ih =>
    obtain ⟨hdisj, hdisj'⟩ := List.pairwise_cons.mp hdisj
    obtain ⟨t, hrun, hadj⟩ := run_spec hf (hset a List.mem_cons_self)
    obtain ⟨u, hrun', hadj'⟩ := ih (s := t) hdisj' fun b hb =>
      hadj.set ▸ hset b (List.mem_cons_of_mem _ hb)
    refine ⟨u, ?_, hadj.trans hadj' fun i hi hi' => ?_⟩
    · rw [Method.forEach, Method.bind_apply_of_ok hrun]
      exact hrun'
    · rw [map_fst_pairs, RangeSet.mem_indices] at hi
      obtain ⟨pair, hpair, rfl⟩ := List.mem_map.mp hi'
      obtain ⟨b, hb, hpb⟩ := List.mem_flatMap.mp hpair
      have hib := List.mem_map_of_mem (f := Prod.fst) hpb
      rw [map_fst_pairs, RangeSet.mem_indices] at hib
      exact Finset.disjoint_left.mp (hdisj b hb) hi hib

end Run

end Adjustment

/-- Adjusts the keys for the given range. -/
def KeyStore.adjust (slice : Slice) (adjust : List Bool) : Method KeyStore KeyStoreError Unit := do
  let self ← Method.get
  if slice.size ≠ adjust.length then
    Method.panic
  else
    onKeys (Store.adjust (fun key bit => key.adjust bit self.delta) slice adjust)

/-- Adjusts the MACs for the given range. -/
def MacStore.adjust (slice : Slice) (data : List Bool) : Method MacStore MacStoreError Unit :=
  if slice.size ≠ data.length then
    Method.panic
  else
    onMacs (Store.adjust Mac.setPointer slice data)

theorem KeyStore.adjust_spec (s : KeyStore) {c : Store Key} {range : Range} {bits : List Bool}
    (hlt : range.start < range.stop) (hset : range.toSet ⊆ c.set)
    (hbits : bits.length = range.len) :
    ∃ c', KeyStore.adjust (Slice.fromRange range) bits { s with keys := c } =
        (.ok (), { s with keys := c' }) ∧
      Store.Adjusted (fun key bit => key.adjust bit s.delta) (range.indices.zip bits) c c' := by
  obtain ⟨c', hrun, hadj⟩ := Store.adjust_spec (g := fun key bit => Key.adjust key bit s.delta)
    hlt hset hbits
  have hsize : ¬ (Slice.fromRange range).size ≠ bits.length := not_not.mpr hbits.symm
  refine ⟨c', ?_, hadj⟩
  rw [KeyStore.adjust, Method.get_bind, Method.ite_apply, if_neg hsize, onKeys,
    Method.zoom_apply, hrun]
  rfl

theorem MacStore.adjust_spec {c : Store Mac} {range : Range} {bits : List Bool}
    (hlt : range.start < range.stop) (hset : range.toSet ⊆ c.set)
    (hbits : bits.length = range.len) :
    ∃ c', MacStore.adjust (Slice.fromRange range) bits ⟨c⟩ = (.ok (), ⟨c'⟩) ∧
      Store.Adjusted Mac.setPointer (range.indices.zip bits) c c' := by
  obtain ⟨c', hrun, hadj⟩ := Store.adjust_spec (g := Mac.setPointer) hlt hset hbits
  have hsize : ¬ (Slice.fromRange range).size ≠ bits.length := not_not.mpr hbits.symm
  refine ⟨c', ?_, hadj⟩
  rw [MacStore.adjust, if_neg hsize, onMacs, Method.zoom_apply, hrun]
  rfl

/-! ### Proof -/

namespace KeyStore

/-- `verify`, on the bits of the caller. -/
def verifyInPlace (blake3 : Blake3) (self : KeyStore) (ranges : RangeSet) (proof : Hash) :
    Method (List Bool) KeyStoreError Unit := do
  let bits ← Method.get
  let data ← Method.call (self.verify blake3 ranges bits proof)
  Method.modify fun _ => data

/-- The MACs authenticate the bits: `M = K + x * Δ` wherever a key and a MAC are set. -/
def Authenticates (keys : KeyStore) (macs : MacStore) (x : ℕ → Bool) : Prop :=
  ∀ i key mac, keys.keys.cell i = some key → macs.macs.cell i = some mac →
    mac = key.auth (x i) keys.delta

/-- The keys of a set of indices. -/
def keysAt (self : KeyStore) (ranges : RangeSet) : List Key := self.keys.values ranges.indices

/-- The bits that pointer bits of MACs stand for. -/
def claimedBits (keys : List Key) (bits : List Bool) : List Bool :=
  List.zipWith (fun key bit => key.pointer ^^ bit) keys bits

/-- The MACs of the bits that pointer bits of MACs stand for. -/
def claimedMacs (delta : Delta) (keys : List Key) (bits : List Bool) : List Mac :=
  List.zipWith (fun key bit => key.auth (key.pointer ^^ bit) delta) keys bits

variable {s : KeyStore} {blake3 : Blake3} {keys : List Key} {bits bits' : List Bool}

theorem zipWith_claimedBits (delta : Delta) (keys : List Key) (bits : List Bool) :
    List.zipWith (fun key value => Key.auth key value delta) keys (claimedBits keys bits) =
      claimedMacs delta keys bits := by
  induction keys generalizing bits with
  | nil => rfl
  | cons key keys ih =>
    cases bits with
    | nil => rfl
    | cons bit bits => exact congrArg _ (ih bits)

/-- The pointer bits of the claimed MACs are the claimed ones. -/
theorem map_pointer_claimedMacs (delta : Delta) (h : bits.length = keys.length) :
    (claimedMacs delta keys bits).map Mac.pointer = bits := by
  induction keys generalizing bits with
  | nil => exact (List.length_eq_zero_iff.mp h).symm
  | cons key keys ih =>
    cases bits with
    | nil => cases h
    | cons bit bits =>
      rw [claimedMacs, List.zipWith_cons_cons, List.map_cons, Key.pointer_auth]
      rw [← Bool.xor_assoc, Bool.xor_self, Bool.false_xor]
      exact congrArg _ (ih (Nat.succ.inj h))

theorem claimedBits_append {keys' : List Key} (h : keys.length = bits.length) :
    claimedBits (keys ++ keys') (bits ++ bits') =
      claimedBits keys bits ++ claimedBits keys' bits' := List.zipWith_append h

theorem claimedMacs_append {delta : Delta} {keys' : List Key} (h : keys.length = bits.length) :
    claimedMacs delta (keys ++ keys') (bits ++ bits') =
      claimedMacs delta keys bits ++ claimedMacs delta keys' bits' := List.zipWith_append h

theorem length_claimedBits (h : bits.length = keys.length) :
    (claimedBits keys bits).length = bits.length := by
  rw [claimedBits, List.length_zipWith, h, min_self]

/-- **The loop of the verification**, read by index. -/
theorem verifyRanges_eq {ranges : List Range} (hlt : ∀ r ∈ ranges, r.start < r.stop)
    (hset : ∀ r ∈ ranges, r.toSet ⊆ s.keys.set)
    (hbits : bits.length = (ranges.flatMap Range.indices).length) :
    s.verifyRanges ranges bits =
      .ok (claimedBits (s.keys.values (ranges.flatMap Range.indices)) bits,
        (claimedMacs s.delta (s.keys.values (ranges.flatMap Range.indices)) bits).flatMap
          Mac.toBytes) := by
  induction ranges generalizing bits with
  | nil => rfl
  | cons range ranges ih =>
    rw [List.flatMap_cons, List.length_append, Range.length_indices] at hbits
    have hle : range.len ≤ bits.length := by omega
    have hmem : ∀ i ∈ range.indices, i ∈ s.keys.set := fun i hi =>
      hset range List.mem_cons_self (Range.mem_toSet.mpr (Range.mem_indices.mp hi))
    have hlen : (s.keys.values range.indices).length = (bits.take range.len).length := by
      rw [Store.length_values hmem, Range.length_indices, List.length_take, min_eq_left hle]
    have hpart : Mpz.slice bits ⟨0, range.len⟩ = some (bits.take range.len) :=
      slice_eq_some.mpr ⟨⟨Nat.zero_le _, hle⟩, by simp [Range.len]⟩
    have hget : s.tryGet (Slice.fromRange range) = .ok (s.keys.values range.indices) := by
      rw [tryGet, Store.tryGet_values (hlt range List.mem_cons_self)
        (hset range List.mem_cons_self)]
      rfl
    have hdrop : (bits.drop range.len).length = (ranges.flatMap Range.indices).length := by
      rw [List.length_drop]
      omega
    have hrest := ih (fun r hr => hlt r (List.mem_cons_of_mem _ hr))
      (fun r hr => hset r (List.mem_cons_of_mem _ hr)) hdrop
    have hsize : (Slice.fromRange range).size = range.len := rfl
    rw [verifyRanges]
    simp only [hget, hsize, hpart, hrest, Outcome.ofOption_some, Outcome.ok_bind]
    rw [List.flatMap_cons, Store.values_append]
    conv_rhs => rw [← List.take_append_drop range.len bits]
    rw [claimedBits_append hlen, claimedMacs_append hlen, List.flatMap_append,
      ← zipWith_claimedBits s.delta (s.keys.values range.indices)]
    rfl

/-- **What the verification computes.** It accepts the hash of the claimed MACs and nothing else,
and returns the bits that they authenticate. -/
theorem verify_eq {ranges : RangeSet} (hne : ranges ≠ ∅) (hset : ranges ⊆ s.keys.set)
    (hbits : bits.length = ranges.card) (proof : Hash) :
    s.verify blake3 ranges bits proof =
      if blake3 ((claimedMacs s.delta (s.keysAt ranges) bits).flatMap Mac.toBytes) ≠ proof then
        .err .verify
      else
        .ok (claimedBits (s.keysAt ranges) bits) := by
  have hlen : bits.length = (s.keysAt ranges).length := by
    rw [keysAt, Store.length_values fun i hi => hset (RangeSet.mem_indices.mp hi),
      RangeSet.length_indices, hbits]
  have hbits' : bits.length = (ranges.iter.flatMap Range.indices).length := by
    rw [RangeSet.flatMap_indices_iter, RangeSet.length_indices, hbits]
  have hranges := verifyRanges_eq (s := s) (fun r hr => RangeSet.lt_of_mem_iter hr)
    (fun r hr => (RangeSet.toSet_subset_of_mem_iter hr).trans hset) hbits'
  rw [RangeSet.flatMap_indices_iter] at hranges
  rw [verify, if_neg (not_not.mpr hbits.symm), if_neg hne, hranges, Outcome.ok_bind]
  refine ite_congr rfl (fun _ => rfl) fun _ => ?_
  exact if_neg (not_not.mpr (length_claimedBits hlen))

end KeyStore

namespace MacStore

variable {t : MacStore} {blake3 : Blake3}

/-- The MACs of a set of indices. -/
def macsAt (self : MacStore) (ranges : RangeSet) : List Mac := self.macs.values ranges.indices

/-- **The loop of the proof**, read by index. -/
theorem proveRanges_eq {ranges : List Range} (hlt : ∀ r ∈ ranges, r.start < r.stop)
    (hset : ∀ r ∈ ranges, r.toSet ⊆ t.macs.set) :
    t.proveRanges ranges =
      .ok ((t.macs.values (ranges.flatMap Range.indices)).map Mac.pointer,
        (t.macs.values (ranges.flatMap Range.indices)).flatMap Mac.toBytes) := by
  induction ranges with
  | nil => rfl
  | cons range ranges ih =>
    have hget : t.tryGet (Slice.fromRange range) = .ok (t.macs.values range.indices) := by
      rw [tryGet, Store.tryGet_values (hlt range List.mem_cons_self)
        (hset range List.mem_cons_self)]
      rfl
    have hrest := ih (fun r hr => hlt r (List.mem_cons_of_mem _ hr))
      (fun r hr => hset r (List.mem_cons_of_mem _ hr))
    rw [proveRanges, hget, Outcome.ok_bind, hrest, Outcome.ok_bind, List.flatMap_cons,
      Store.values_append, List.map_append, List.flatMap_append]
    rfl

/-- **What a proof is**: the pointer bits of the MACs, and one hash over all of them. -/
theorem prove_eq {ranges : RangeSet} (hset : ranges ⊆ t.macs.set) :
    t.prove blake3 ranges =
      .ok ((t.macsAt ranges).map Mac.pointer, blake3 ((t.macsAt ranges).flatMap Mac.toBytes)) := by
  have hsub : ∀ r ∈ ranges.iter, r.toSet ⊆ t.macs.set := fun r hr =>
    (RangeSet.toSet_subset_of_mem_iter hr).trans hset
  have hranges := proveRanges_eq (fun r hr => RangeSet.lt_of_mem_iter hr) hsub
  rw [RangeSet.flatMap_indices_iter] at hranges
  rw [prove, hranges, Outcome.ok_bind]
  rfl

end MacStore

/-! ### The bytes of a list of MACs -/

theorem Block.toBytes_injective : Function.Injective Block.toBytes := by
  intro a b h
  refine BitVec.eq_of_getLsbD_eq fun i hi => ?_
  have hbyte := List.ofFn_inj.mp h
  have hbyte := congrFun hbyte ⟨i / 8, by omega⟩
  have hbit := congrArg (·.getLsbD (i % 8)) hbyte
  simp only [BitVec.getLsbD_extractLsb'] at hbit
  have hmod : i % 8 < 8 := Nat.mod_lt _ (by decide)
  rwa [decide_eq_true hmod, Bool.true_and, Bool.true_and, Nat.div_add_mod] at hbit

theorem Mac.toBytes_injective : Function.Injective Mac.toBytes :=
  fun ⟨_⟩ ⟨_⟩ h => congrArg Mac.mk (Block.toBytes_injective h)

/-- MACs have sixteen bytes each, so their bytes determine a list of them. -/
theorem flatMap_toBytes_injective {macs macs' : List Mac} (hlen : macs.length = macs'.length)
    (h : macs.flatMap Mac.toBytes = macs'.flatMap Mac.toBytes) : macs = macs' := by
  induction macs generalizing macs' with
  | nil => exact (List.length_eq_zero_iff.mp hlen.symm).symm
  | cons mac macs ih =>
    cases macs' with
    | nil => cases hlen
    | cons mac' macs' =>
      rw [List.flatMap_cons, List.flatMap_cons] at h
      have hbytes : mac.toBytes.length = mac'.toBytes.length := by
        simp [Mac.toBytes, Block.toBytes]
      obtain ⟨hhead, htail⟩ := List.append_inj h hbytes
      rw [Mac.toBytes_injective hhead, ih (Nat.succ.inj hlen) htail]

/-! ### The two parties -/

section Parties

open KeyStore

variable {s : KeyStore} {t : MacStore} {x : ℕ → Bool} {blake3 : Blake3} {ranges : RangeSet}

/-- The pointer bits of the MACs are claims of the authenticated bits, and of the MACs. -/
theorem KeyStore.Authenticates.claimed (h : s.Authenticates t x) {l : List ℕ}
    (hs : ∀ i ∈ l, i ∈ s.keys.set) (ht : ∀ i ∈ l, i ∈ t.macs.set) :
    claimedBits (s.keys.values l) ((t.macs.values l).map Mac.pointer) = l.map x ∧
      claimedMacs s.delta (s.keys.values l) ((t.macs.values l).map Mac.pointer) =
        t.macs.values l := by
  induction l with
  | nil => exact ⟨rfl, rfl⟩
  | cons i l ih =>
    obtain ⟨key, hkey⟩ := Option.isSome_iff_exists.mp
      (Store.cell_isSome.mpr (hs i List.mem_cons_self))
    obtain ⟨mac, hmac⟩ := Option.isSome_iff_exists.mp
      (Store.cell_isSome.mpr (ht i List.mem_cons_self))
    obtain ⟨hbits, hmacs⟩ := ih (fun j hj => hs j (List.mem_cons_of_mem _ hj))
      fun j hj => ht j (List.mem_cons_of_mem _ hj)
    have hkeys : s.keys.values (i :: l) = key :: s.keys.values l := List.filterMap_cons_some hkey
    have hmacs' : t.macs.values (i :: l) = mac :: t.macs.values l := List.filterMap_cons_some hmac
    have hmac := h i key mac hkey hmac
    have hbit : (key.pointer ^^ mac.pointer) = x i := by
      rw [hmac, Key.pointer_auth, ← Bool.xor_assoc, Bool.xor_self, Bool.false_xor]
    rw [hkeys, hmacs', List.map_cons, List.map_cons]
    constructor
    · rw [claimedBits, List.zipWith_cons_cons, hbit]
      exact congrArg _ hbits
    · rw [claimedMacs, List.zipWith_cons_cons, hbit, ← hmac]
      exact congrArg _ hmacs

/-- **Verification in place.** The bits are overwritten exactly when the claim is accepted. -/
theorem KeyStore.verifyInPlace_eq (hne : ranges ≠ ∅) (hset : ranges ⊆ s.keys.set) {bits : List Bool}
    (hbits : bits.length = ranges.card) (proof : Hash) :
    s.verifyInPlace blake3 ranges proof bits =
      if proof = blake3 ((claimedMacs s.delta (s.keysAt ranges) bits).flatMap Mac.toBytes) then
        (.ok (), claimedBits (s.keysAt ranges) bits)
      else
        (.err .verify, bits) := by
  rw [verifyInPlace, Method.get_bind, verify_eq hne hset hbits]
  by_cases h : proof = blake3 ((claimedMacs s.delta (s.keysAt ranges) bits).flatMap Mac.toBytes)
  · rw [if_pos h, if_neg (not_not.mpr h.symm)]
    rfl
  · rw [if_neg h, if_pos (Ne.symm h)]
    rfl

theorem KeyStore.verifyInPlace_err {bits bits' : List Bool} {proof : Hash} {e : KeyStoreError}
    (h : s.verifyInPlace blake3 ranges proof bits = (.err e, bits')) : bits' = bits := by
  rw [verifyInPlace, Method.get_bind, Method.bind_apply, Method.call_apply] at h
  cases hverify : s.verify blake3 ranges bits proof with
  | ok data =>
    rw [hverify] at h
    cases h
  | err e' =>
    rw [hverify] at h
    exact (Prod.mk.inj h).2.symm
  | panic =>
    rw [hverify] at h
    cases h

/-- Two claims with one proof are claims of the same bits, unless the hash collides on their
MACs. -/
theorem KeyStore.verifyInPlace_injective (hne : ranges ≠ ∅) (hset : ranges ⊆ s.keys.set)
    {bits bits' data data' : List Bool} (hbits : bits.length = ranges.card)
    (hbits' : bits'.length = ranges.card) {proof : Hash} {S : Set (List (BitVec 8))}
    (hinj : Set.InjOn blake3 S)
    (hmem : (claimedMacs s.delta (s.keysAt ranges) bits).flatMap Mac.toBytes ∈ S)
    (hmem' : (claimedMacs s.delta (s.keysAt ranges) bits').flatMap Mac.toBytes ∈ S)
    (h : s.verifyInPlace blake3 ranges proof bits = (.ok (), data))
    (h' : s.verifyInPlace blake3 ranges proof bits' = (.ok (), data')) : bits = bits' := by
  have hlen : (s.keysAt ranges).length = ranges.card := by
    rw [keysAt, Store.length_values fun i hi => hset (RangeSet.mem_indices.mp hi),
      RangeSet.length_indices]
  rw [verifyInPlace_eq hne hset hbits] at h
  rw [verifyInPlace_eq hne hset hbits'] at h'
  split at h
  case isFalse => cases h
  case isTrue hproof =>
    split at h'
    case isFalse => cases h'
    case isTrue hproof' =>
      have hbytes := hinj hmem hmem' (hproof.symm.trans hproof')
      have hmacs := flatMap_toBytes_injective (by simp [claimedMacs, hbits, hbits']) hbytes
      rw [← map_pointer_claimedMacs s.delta (hbits.trans hlen.symm), hmacs,
        map_pointer_claimedMacs s.delta (hbits'.trans hlen.symm)]

/-- What the adjusted stores hold: the MACs authenticate the bits of the adjustments, the keys have
clear pointer bits and the MACs the bits themselves. -/
structure Derandomized (delta : Delta) (as : List Adjustment) (keys keys' : Store Key)
    (macs macs' : Store Mac) : Prop where
  adjusted : ∀ a ∈ as, ∀ i b, (i, b) ∈ a.pairs → ∃ key mac, keys'.cell i = some key ∧
    macs'.cell i = some mac ∧ mac = key.auth b delta ∧ key.pointer = false ∧ mac.pointer = b
  frame : ∀ i, (∀ a ∈ as, i ∉ a.ranges) →
    keys'.cell i = keys.cell i ∧ macs'.cell i = macs.cell i

/-- **Derandomization.** The two parties go through the disjoint sets in orders of their own. -/
theorem KeyStore.Authenticates.derandomize (h : s.Authenticates t x) {as bs : List Adjustment}
    (hperm : as.Perm bs) (hdisj : as.Pairwise fun a b => Disjoint a.ranges b.ranges)
    (hset : ∀ a ∈ as, a.ranges ⊆ s.keys.set ∩ t.macs.set) :
    ∃ keys macs,
      Method.forEach (Adjustment.run KeyStore.adjust) (as.map (.offset x)) s =
        (.ok (), { s with keys }) ∧
      Method.forEach (Adjustment.run MacStore.adjust) bs t = (.ok (), ⟨macs⟩) ∧
      Derandomized s.delta as s.keys keys t.macs macs := by
  have hset' : ∀ a ∈ as, ∀ i b, (i, b) ∈ a.pairs → i ∈ s.keys.set ∧ i ∈ t.macs.set := by
    intro a ha i b hi
    have hi' : i ∈ a.ranges := RangeSet.mem_indices.mp (List.of_mem_zip hi).1
    exact Finset.mem_inter.mp (hset a ha hi')
  have hdisj' : (as.map (Adjustment.offset x)).Pairwise fun a b => Disjoint a.ranges b.ranges :=
    List.pairwise_map.mpr hdisj
  obtain ⟨keys, hrun, hkeys⟩ := Adjustment.forEach_spec
    (p := fun keys => { s with keys := keys }) (fun _ _ _ => s.adjust_spec) (s := s.keys) hdisj'
    (fun a ha => by
      obtain ⟨b, hb, rfl⟩ := List.mem_map.mp ha
      exact (hset b hb).trans Finset.inter_subset_left)
  obtain ⟨macs, hrun', hmacs⟩ := Adjustment.forEach_spec (p := MacStore.mk)
    (fun _ _ _ => MacStore.adjust_spec) (s := t.macs)
    (hperm.pairwise hdisj fun hab => hab.symm)
    (fun a ha => (hset a (hperm.mem_iff.mpr ha)).trans Finset.inter_subset_right)
  refine ⟨keys, macs, hrun, hrun', fun a ha i b hi => ?_, fun i hi => ⟨?_, ?_⟩⟩
  · obtain ⟨hs, ht⟩ := hset' a ha i b hi
    obtain ⟨key, hkey⟩ := Option.isSome_iff_exists.mp (Store.cell_isSome.mpr hs)
    obtain ⟨mac, hmac⟩ := Option.isSome_iff_exists.mp (Store.cell_isSome.mpr ht)
    have hkeys := hkeys.cell i (x i ^^ b) (List.mem_flatMap.mpr
      ⟨_, List.mem_map_of_mem ha, Adjustment.mem_pairs_offset hi⟩)
    have hmacs := hmacs.cell i b (List.mem_flatMap.mpr ⟨a, hperm.mem_iff.mp ha, hi⟩)
    refine ⟨key.adjust (x i ^^ b) s.delta, mac.setPointer b, by rw [hkeys, hkey]; rfl,
      by rw [hmacs, hmac]; rfl, ?_, Key.pointer_adjust _ _ _, Mac.pointer_setPointer _ _⟩
    rw [Key.auth_adjust, h i key mac hkey hmac]
  · refine hkeys.frame i fun hmem => ?_
    obtain ⟨p, hp, rfl⟩ := List.mem_map.mp hmem
    obtain ⟨c, hc, hpc⟩ := List.mem_flatMap.mp hp
    obtain ⟨a, ha, rfl⟩ := List.mem_map.mp hc
    exact hi a ha (RangeSet.mem_indices.mp (List.of_mem_zip hpc).1)
  · refine hmacs.frame i fun hmem => ?_
    obtain ⟨p, hp, rfl⟩ := List.mem_map.mp hmem
    obtain ⟨a, ha, hpa⟩ := List.mem_flatMap.mp hp
    exact hi a (hperm.mem_iff.mpr ha) (RangeSet.mem_indices.mp (List.of_mem_zip hpa).1)

/-- **Authentication is exact.** Disjoint sets adjusted in any order authenticate the bits they were
adjusted to. An honest proof of a set is accepted and gives the bits in the order of the indices.
Any other claim is accepted exactly with the hash of the MACs of the bits it stands for, so two
accepted claims with one proof have the same bits, unless the hash collides. What is refused leaves
the bits as they were. -/
theorem authentication_exact (blake3 : Blake3) (h : s.Authenticates t x) :
    (∀ as bs : List Adjustment, as.Perm bs →
      (as.Pairwise fun a b => Disjoint a.ranges b.ranges) →
      (∀ a ∈ as, a.ranges ⊆ s.keys.set ∩ t.macs.set) →
      ∃ keys macs,
        Method.forEach (Adjustment.run KeyStore.adjust) (as.map (.offset x)) s =
          (.ok (), { s with keys }) ∧
        Method.forEach (Adjustment.run MacStore.adjust) bs t = (.ok (), ⟨macs⟩) ∧
        Derandomized s.delta as s.keys keys t.macs macs) ∧
    (∀ ranges : RangeSet, ranges ≠ ∅ → ranges ⊆ s.keys.set ∩ t.macs.set →
      (∃ bits proof, t.prove blake3 ranges = .ok (bits, proof) ∧
        s.verifyInPlace blake3 ranges proof bits = (.ok (), ranges.indices.map x)) ∧
      (∀ bits proof, bits.length = ranges.card →
        s.verifyInPlace blake3 ranges proof bits =
          if proof = blake3 ((claimedMacs s.delta (s.keysAt ranges) bits).flatMap Mac.toBytes) then
            (.ok (), claimedBits (s.keysAt ranges) bits)
          else
            (.err .verify, bits)) ∧
      ∀ bits bits' proof data data' S, bits.length = ranges.card → bits'.length = ranges.card →
        Set.InjOn blake3 S →
        (claimedMacs s.delta (s.keysAt ranges) bits).flatMap Mac.toBytes ∈ S →
        (claimedMacs s.delta (s.keysAt ranges) bits').flatMap Mac.toBytes ∈ S →
        s.verifyInPlace blake3 ranges proof bits = (.ok (), data) →
        s.verifyInPlace blake3 ranges proof bits' = (.ok (), data') → bits = bits') ∧
    ∀ ranges proof bits e bits', s.verifyInPlace blake3 ranges proof bits = (.err e, bits') →
      bits' = bits := by
  refine ⟨fun as bs hperm hdisj hset => h.derandomize hperm hdisj hset, ?_,
    fun ranges proof bits e bits' herr => verifyInPlace_err herr⟩
  intro ranges hne hset
  have hs : ranges ⊆ s.keys.set := hset.trans Finset.inter_subset_left
  have ht : ranges ⊆ t.macs.set := hset.trans Finset.inter_subset_right
  refine ⟨⟨_, _, MacStore.prove_eq ht, ?_⟩,
    fun bits proof hbits => verifyInPlace_eq hne hs hbits proof,
    fun bits bits' proof data data' S hbits hbits' hinj hmem hmem' hok hok' =>
      verifyInPlace_injective hne hs hbits hbits' hinj hmem hmem' hok hok'⟩
  obtain ⟨hbits, hmacs⟩ := h.claimed (l := ranges.indices)
    (fun i hi => hs (RangeSet.mem_indices.mp hi)) fun i hi => ht (RangeSet.mem_indices.mp hi)
  have hlen : ((t.macsAt ranges).map Mac.pointer).length = ranges.card := by
    rw [List.length_map, MacStore.macsAt,
      Store.length_values fun i hi => ht (RangeSet.mem_indices.mp hi), RangeSet.length_indices]
  have hmacs : claimedMacs s.delta (s.keysAt ranges) ((t.macsAt ranges).map Mac.pointer) =
      t.macsAt ranges := hmacs
  rw [verifyInPlace_eq hne hs hlen, hmacs, if_pos rfl]
  exact Prod.ext rfl hbits

/-- The bytes as one number. -/
def bytesHash (bytes : List (BitVec 8)) : Hash :=
  BitVec.ofNat 256 (bytes.foldl (fun n byte => 256 * n + byte.toNat) 0)

/-- The keys of three masks. -/
def maskKeys : KeyStore :=
  { KeyStore.new (.new 4) with keys := ⟨[⟨6⟩, ⟨8⟩, ⟨10⟩], {0, 1, 2}, by decide⟩ }

/-- The MACs of three masks: ones, but for the one in the middle. -/
def maskMacs : MacStore :=
  ⟨⟨[Key.auth ⟨6⟩ true (.new 4), Key.auth ⟨8⟩ false (.new 4), Key.auth ⟨10⟩ true (.new 4)],
    {0, 1, 2}, by decide⟩⟩

/-- The masks. -/
def maskBit (i : ℕ) : Bool := i != 1

theorem authenticates_mask : maskKeys.Authenticates maskMacs maskBit := by
  intro i k m hk hm
  obtain ⟨hi, hk⟩ := Store.cell_eq_some.mp hk
  obtain ⟨-, hm⟩ := Store.cell_eq_some.mp hm
  rcases Finset.mem_insert.mp hi with rfl | hi
  · cases hk
    cases hm
    rfl
  rcases Finset.mem_insert.mp hi with rfl | hi
  · cases hk
    cases hm
    rfl
  · obtain rfl := Finset.mem_singleton.mp hi
    cases hk
    cases hm
    rfl

/-- The outer masks become 0 and 1, and the one in the middle becomes 1. -/
def maskAdjustments : List Adjustment := [⟨{0, 2}, [false, true], rfl⟩, ⟨{1}, [true], rfl⟩]

/-- Masks are derandomized in different orders, an honest proof is accepted, and another claim is
refused. -/
theorem authentication_exact_masks :
    (∃ keys macs,
      Method.forEach (Adjustment.run KeyStore.adjust) (maskAdjustments.map (.offset maskBit))
        maskKeys = (.ok (), { maskKeys with keys }) ∧
      Method.forEach (Adjustment.run MacStore.adjust) maskAdjustments.reverse maskMacs =
        (.ok (), ⟨macs⟩) ∧
      Derandomized maskKeys.delta maskAdjustments maskKeys.keys keys maskMacs.macs macs) ∧
    (∃ bits proof, maskMacs.prove bytesHash {0, 2} = .ok (bits, proof) ∧
      maskKeys.verifyInPlace bytesHash {0, 2} proof bits = (.ok (), [true, true])) ∧
    maskKeys.verifyInPlace bytesHash {0, 2}
      (bytesHash ((maskMacs.macsAt {0, 2}).flatMap Mac.toBytes)) [false, true] =
        (.err .verify, [false, true]) := by
  have hset : ({0, 2} : RangeSet) ⊆ maskKeys.keys.set ∩ maskMacs.macs.set := by decide
  obtain ⟨hadjust, hprove, -⟩ := authentication_exact bytesHash authenticates_mask
  obtain ⟨hhonest, hclaim, -⟩ := hprove {0, 2} (by decide) hset
  refine ⟨?_, hhonest, ?_⟩
  · refine hadjust maskAdjustments maskAdjustments.reverse (List.reverse_perm _).symm ?_ ?_
    · simp [maskAdjustments]
    · simp only [maskAdjustments, List.forall_mem_cons]
      decide
  · rw [hclaim _ _ rfl, if_neg]
    decide +kernel

end Parties

end Mpz
