import Mathlib.Data.List.Forall2
import Mathlib.Data.List.TakeWhile
import Mathlib.Order.Lattice

/-!
# Lists

An item may be replaced in one of two lists that are related item by item, a function of items and
their indices may be composed with another, and an ascending list is cut in two at a bound.

## Main results

* `List.Forall₂.set`, `List.Forall₂.rel` — an item is replaced, and the items at an index are
  related
* `List.Forall₂.exists_right`, `List.Forall₂.exists_left` — an item of one list is related to one of
  the other
* `List.mapIdx_map`, `List.map_mapIdx` — a function before, and one after
* `List.takeWhile_lt`, `List.dropWhile_lt` — the items of an ascending list below a bound, and the
  others
-/

namespace List

section

variable {α β : Type*} {R : α → β → Prop} {l : List α} {r : List β}

theorem Forall₂.set (h : Forall₂ R l r) {i : ℕ} {b : β} (hb : ∀ a, l[i]? = some a → R a b) :
    Forall₂ R l (r.set i b) := by
  induction h generalizing i with
  | nil => exact .nil
  | cons hab h ih =>
    cases i with
    | zero => exact .cons (hb _ rfl) h
    | succ i => exact .cons hab (ih hb)

theorem Forall₂.rel (h : Forall₂ R l r) {i : ℕ} {a : α} {b : β} (ha : l[i]? = some a)
    (hb : r[i]? = some b) : R a b := by
  induction h generalizing i with
  | nil => cases ha
  | cons hab h ih =>
    cases i with
    | zero =>
      cases ha
      cases hb
      exact hab
    | succ i => exact ih ha hb

theorem Forall₂.exists_right (h : Forall₂ R l r) {a : α} (ha : a ∈ l) : ∃ b ∈ r, R a b := by
  obtain ⟨i, hi⟩ := mem_iff_getElem?.mp ha
  have hlt : i < r.length := h.length_eq ▸ (getElem?_eq_some_iff.mp hi).1
  exact ⟨r[i], getElem_mem hlt, h.rel hi (getElem?_eq_getElem hlt)⟩

theorem Forall₂.exists_left (h : Forall₂ R l r) {b : β} (hb : b ∈ r) : ∃ a ∈ l, R a b :=
  h.flip.exists_right hb

theorem take_length_takeWhile (p : α → Bool) (l : List α) :
    l.take (l.takeWhile p).length = l.takeWhile p := by
  have hprefix : l.takeWhile p <+: l := takeWhile_prefix p
  exact (prefix_iff_eq_take.mp hprefix).symm

theorem drop_length_takeWhile (p : α → Bool) (l : List α) :
    l.drop (l.takeWhile p).length = l.dropWhile p := by
  have happend := takeWhile_append_dropWhile (p := p) (l := l)
  calc l.drop (l.takeWhile p).length
      = (l.takeWhile p ++ l.dropWhile p).drop (l.takeWhile p).length := by rw [happend]
    _ = l.dropWhile p := drop_left

variable {γ : Type*}

theorem mapIdx_map (f : ℕ → β → γ) (g : α → β) (l : List α) :
    (l.map g).mapIdx f = l.mapIdx fun i a => f i (g a) :=
  ext_getElem? fun i => by simp [Function.comp_def]

theorem map_mapIdx (g : β → γ) (f : ℕ → α → β) (l : List α) :
    (l.mapIdx f).map g = l.mapIdx fun i a => g (f i a) :=
  ext_getElem? fun i => by simp [Function.comp_def]

theorem mapIdx_self (l : List α) : l.mapIdx (fun _ a => a) = l := ext_getElem? fun i => by simp

theorem mapM_some {α β : Type*} {f : α → Option β} {g : α → β} {l : List α}
    (h : ∀ a ∈ l, f a = some (g a)) : l.mapM f = some (l.map g) := by
  induction l with
  | nil => rfl
  | cons a l ih =>
    rw [mapM_cons, h a mem_cons_self, ih fun a ha => h a (mem_cons_of_mem _ ha)]
    rfl

end

/-! ### Ascending lists -/

section

variable {α : Type*} [LinearOrder α] {l : List α}

theorem takeWhile_lt (b : α) (h : l.Pairwise (· ≤ ·)) :
    l.takeWhile (fun p => decide (p < b)) = l.filter fun p => decide (p < b) := by
  induction l with
  | nil => rfl
  | cons a l ih =>
    obtain ⟨hle, hl⟩ := pairwise_cons.mp h
    by_cases ha : a < b
    · rw [takeWhile_cons_of_pos (by rwa [decide_eq_true_iff]),
        filter_cons_of_pos (by rwa [decide_eq_true_iff]), ih hl]
    · have hnil : l.filter (fun p => decide (p < b)) = [] := filter_eq_nil_iff.mpr fun x hx hlt =>
        ha ((hle x hx).trans_lt (of_decide_eq_true hlt))
      rw [takeWhile_cons_of_neg (by rwa [decide_eq_true_iff]),
        filter_cons_of_neg (by rwa [decide_eq_true_iff]), hnil]

theorem dropWhile_lt (b : α) (h : l.Pairwise (· ≤ ·)) :
    l.dropWhile (fun p => decide (p < b)) = l.filter fun p => decide (b ≤ p) := by
  induction l with
  | nil => rfl
  | cons a l ih =>
    obtain ⟨hle, hl⟩ := pairwise_cons.mp h
    by_cases ha : a < b
    · rw [dropWhile_cons_of_pos (by rwa [decide_eq_true_iff]), ih hl,
        filter_cons_of_neg (by rw [decide_eq_true_iff]; exact not_le_of_gt ha)]
    · have hab : b ≤ a := le_of_not_gt ha
      have hself : l.filter (fun p => decide (b ≤ p)) = l := filter_eq_self.mpr fun x hx =>
        decide_eq_true (hab.trans (hle x hx))
      rw [dropWhile_cons_of_neg (by rwa [decide_eq_true_iff]),
        filter_cons_of_pos (by rwa [decide_eq_true_iff]), hself]

end

end List
