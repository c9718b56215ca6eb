import Mathlib.Data.List.Induction
import Mathlib.Data.List.GetD
import Mathlib.Tactic.Ring

/-!
# Round-robin queues

The items of a list are put into queues in turn, and what comes out of the queues is taken from them
in turn again. Item `i` is item `i / n` of queue `i % n`, and comes out where it went in.

## Main definitions

* `scatter` — the items, put into queues in turn
* `gather` — the items of queues, taken from them in turn

## Main results

* `getElem?_scatter` — which item is where in which queue
* `gather_eq_some` — queues of the right lengths can be emptied in turn
-/

namespace Mpz

variable {α : Type}

/-- An item is pushed to the queue whose turn it is. -/
def push (n : ℕ) (queues : List (List α)) (p : α × ℕ) : List (List α) :=
  queues.modify (p.2 % n) (· ++ [p.1])

/-- The items, put into queues in turn. -/
def scatter (n : ℕ) (items : List α) : List (List α) :=
  items.zipIdx.foldl (push n) (List.replicate n [])

/-- The next item is taken from the queue whose turn it is, if there is one. -/
def takeNext (n : ℕ) (s : List (List α) × List α) (i : ℕ) : Option (List (List α) × List α) :=
  match s.1[i % n]? with
  | some (x :: rest) => some (s.1.set (i % n) rest, s.2 ++ [x])
  | _ => none

/-- So many items, taken from the queues in turn. -/
def gather (n len : ℕ) (queues : List (List α)) : Option (List α) :=
  ((List.range len).foldlM (takeNext n) (queues, [])).map Prod.snd

/-- A queue of a list of them. -/
def queue (queues : List (List α)) (l : ℕ) : List α := queues.getD l []

variable {n : ℕ}

theorem scatter_snoc (items : List α) (x : α) :
    scatter n (items ++ [x]) = push n (scatter n items) (x, items.length) := by
  rw [scatter, List.zipIdx_append, List.foldl_append, List.zipIdx_singleton, List.foldl_cons,
    List.foldl_nil, Nat.zero_add]
  rfl

@[simp] theorem length_scatter (items : List α) : (scatter n items).length = n := by
  induction items using List.reverseRecOn with
  | nil => exact List.length_replicate
  | append_singleton items x ih => rw [scatter_snoc, push, List.length_modify, ih]

theorem queue_push {queues : List (List α)} {p : α × ℕ} {l : ℕ} (hl : l < queues.length) :
    queue (push n queues p) l = if p.2 % n = l then queue queues l ++
      [p.1] else queue queues l := by
  rw [queue, queue, push, List.getD_eq_getElem _ _ (by rwa [List.length_modify]),
    List.getD_eq_getElem _ _ hl, List.getElem_modify]

/-- An index is the place in the queue, and the queue. -/
theorem add_mul_eq_iff (hn : 0 < n) {l j i : ℕ} (hl : l < n) :
    l + j * n = i ↔ l = i % n ∧ j = i / n := by
  constructor
  · rintro rfl
    rw [Nat.add_mul_mod_self_right, Nat.mod_eq_of_lt hl, Nat.add_mul_div_right _ _ hn,
      Nat.div_eq_of_lt hl, Nat.zero_add]
    exact ⟨rfl, rfl⟩
  · rintro ⟨rfl, rfl⟩
    exact Nat.mod_add_div' i n

/-- **Which item is where.** -/
theorem getElem?_scatter (items : List α) {l : ℕ} (hl : l < n) (j : ℕ) :
    (queue (scatter n items) l)[j]? = items[l + j * n]? := by
  have hn : 0 < n := Nat.zero_lt_of_lt hl
  induction items using List.reverseRecOn generalizing j with
  | nil => simp [scatter, queue, hl]
  | append_singleton items x ih =>
    rw [scatter_snoc, queue_push (by rwa [length_scatter])]
    have hindex := add_mul_eq_iff hn hl (j := j) (i := items.length)
    split
    case isTrue hturn =>
      replace hturn : items.length % n = l := hturn
      -- The queue has as many items as there are turns before.
      have hlen : (queue (scatter n items) l).length = items.length / n := by
        have hmod := Nat.mod_add_div' items.length n
        refine Nat.le_antisymm (List.getElem?_eq_none_iff.mp ?_) (Nat.le_of_not_lt fun hlt => ?_)
        · rw [ih, List.getElem?_eq_none_iff, ← hturn, hmod]
        · have hnone := List.getElem?_eq_none_iff.mpr
            (Nat.le_refl (queue (scatter n items) l).length)
          rw [ih, List.getElem?_eq_none_iff] at hnone
          have hle := Nat.mul_le_mul_right n (Nat.succ_le_of_lt hlt)
          have hltn := Nat.mod_lt items.length hn
          rw [Nat.succ_mul] at hle
          omega
      rcases Nat.lt_trichotomy j (items.length / n) with h | h | h
      · have hle := Nat.mul_le_mul_right n (Nat.succ_le_of_lt h)
        have hmod := Nat.mod_add_div' items.length n
        rw [Nat.succ_mul] at hle
        rw [List.getElem?_append_left (by omega), ih, List.getElem?_append_left (by omega)]
      · have heq : l + j * n = items.length := hindex.mpr ⟨hturn.symm, h⟩
        rw [heq, List.getElem?_append_right (by omega), List.getElem?_append_right le_rfl, hlen, h,
          Nat.sub_self, Nat.sub_self]
      · have hle := Nat.mul_le_mul_right n (Nat.succ_le_of_lt h)
        have hmod := Nat.mod_add_div' items.length n
        rw [Nat.succ_mul] at hle
        rw [List.getElem?_eq_none (by rw [List.length_append, List.length_singleton]; omega),
          List.getElem?_eq_none (by rw [List.length_append, List.length_singleton]; omega)]
    case isFalse hturn =>
      have hne : l + j * n ≠ items.length := fun h => hturn (hindex.mp h).1.symm
      rw [ih]
      rcases Nat.lt_or_ge (l + j * n) items.length with h | h
      · rw [List.getElem?_append_left h]
      · rw [List.getElem?_eq_none h,
          List.getElem?_eq_none (by rw [List.length_append, List.length_singleton]; omega)]

theorem getElem?_scatter_mod (items : List α) (hn : 0 < n) (i : ℕ) :
    (queue (scatter n items) (i % n))[i / n]? = items[i]? := by
  rw [getElem?_scatter items (Nat.mod_lt i hn), Nat.mod_add_div']

/-- What is left in the queues after so many turns. -/
structure Taken (n : ℕ) (queues : List (List α)) (i : ℕ) (s : List (List α) × List α) : Prop where
  length : s.1.length = n
  left : ∀ l < n, ∃ c, queue s.1 l = (queue queues l).drop c ∧ i ≤ l + c * n ∧ l + c * n < i + n
  out_length : s.2.length = i
  out : ∀ k < i, s.2[k]? = (queue queues (k % n))[k / n]?

/-- **The next item is there**, and is taken. -/
theorem Taken.next {queues : List (List α)} {i : ℕ} {s : List (List α) × List α}
    (h : Taken n queues i s) (hn : 0 < n) {x : α} (hx : (queue queues (i % n))[i / n]? = some x) :
    ∃ s', takeNext n s i = some s' ∧ Taken n queues (i + 1) s' := by
  have hl : i % n < n := Nat.mod_lt i hn
  have hmod := Nat.mod_add_div' i n
  obtain ⟨c, hc, hle, hlt⟩ := h.left _ hl
  have hcount : c = i / n := by
    refine Nat.le_antisymm (Nat.le_of_not_lt fun hgt => ?_) (Nat.le_of_not_lt fun hgt => ?_)
    · have hmul := Nat.mul_le_mul_right n (Nat.succ_le_of_lt hgt)
      rw [Nat.succ_mul] at hmul
      omega
    · have hmul := Nat.mul_le_mul_right n (Nat.succ_le_of_lt hgt)
      rw [Nat.succ_mul] at hmul
      omega
  obtain ⟨hin, hxe⟩ := List.getElem?_eq_some_iff.mp hx
  have hfront : s.1[i % n]? = some (x :: (queue queues (i % n)).drop (i / n + 1)) := by
    rw [List.getElem?_eq_getElem (by rw [h.length]; exact hl), ← List.getD_eq_getElem _ [] _]
    refine congrArg some (hc.trans ?_)
    rw [hcount, List.drop_eq_getElem_cons hin, hxe]
  refine ⟨_, by rw [takeNext, hfront], ?_, fun l hln => ?_, ?_, fun k hk => ?_⟩
  · rw [List.length_set, h.length]
  · by_cases heq : i % n = l
    · subst heq
      refine ⟨i / n + 1, ?_, ?_, ?_⟩
      · rw [queue, List.getD_eq_getElem _ _ (by rw [List.length_set, h.length]; exact hl),
          List.getElem_set_self]
      · rw [Nat.succ_mul]
        omega
      · rw [Nat.succ_mul]
        omega
    · obtain ⟨c', hc', hle', hlt'⟩ := h.left l hln
      have hne : l + c' * n ≠ i := fun h' => heq ((add_mul_eq_iff hn hln).mp h').1.symm
      refine ⟨c', ?_, by omega, by omega⟩
      rw [← hc', queue, List.getD_eq_getElem?_getD, List.getElem?_set_ne heq]
      rfl
  · rw [List.length_append, List.length_singleton, h.out_length]
  · rcases Nat.lt_or_ge k i with hki | hki
    · rw [List.getElem?_append_left (by rw [h.out_length]; exact hki), h.out k hki]
    · have heq : k = i := by omega
      subst heq
      rw [List.getElem?_append_right (by rw [h.out_length]), h.out_length, Nat.sub_self, hx]
      rfl

/-- **Queues of the right lengths can be emptied in turn**, and what comes out is in order. -/
theorem gather_eq_some (hn : 0 < n) {queues : List (List α)} (hlen : queues.length = n) {len : ℕ}
    (hq : ∀ i < len, ∃ x, (queue queues (i % n))[i / n]? = some x) :
    ∃ out, gather n len queues = some out ∧ out.length = len ∧
      ∀ i < len, out[i]? = (queue queues (i % n))[i / n]? := by
  have hrun : ∀ i ≤ len, ∃ s, (List.range i).foldlM (takeNext n) (queues, []) = some s ∧
      Taken n queues i s := by
    intro i
    induction i with
    | zero =>
      intro _
      refine ⟨_, rfl, hlen, fun l hl => ⟨0, ?_, Nat.zero_le _, ?_⟩, rfl, fun k hk => ?_⟩
      · rw [List.drop_zero]
      · omega
      · omega
    | succ i ih =>
      intro hi
      obtain ⟨s, hs, htaken⟩ := ih (by omega)
      obtain ⟨x, hx⟩ := hq i (by omega)
      obtain ⟨s', hs', htaken'⟩ := htaken.next hn hx
      refine ⟨s', ?_, htaken'⟩
      rw [List.range_succ, List.foldlM_append, hs]
      change (do let s'' ← takeNext n s i; some s'') = _
      rw [hs']
      rfl
  obtain ⟨s, hs, htaken⟩ := hrun len le_rfl
  exact ⟨s.2, by rw [gather, hs, Option.map_some], htaken.out_length, htaken.out⟩

end Mpz
