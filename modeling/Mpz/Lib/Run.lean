import Mathlib.Data.List.Induction
import Mpz.Lib.Method

/-!
# Runs

A system takes labelled steps. A run is a finite sequence of them, and every state that a system
reaches is the last one of a run, so a statement about the last state of every run is a statement
about every reachable state.

## Main definitions

* `Run` — the runs of a step relation, with the labels of their steps
* `exec` — the run of a step function
* `Method.Returns`, `Method.Ends` — a call that comes back, and one that comes back with a value

## Main results

* `Run.invariant` — what holds at first and is kept by every step holds at the end
-/

namespace Mpz

variable {σ τ ι κ : Type}

/-- `Run step s is t`: the steps labelled `is`, taken one after the other from `s`, end in `t`. -/
inductive Run (step : σ → ι → σ → Prop) (s : σ) : List ι → σ → Prop where
  /-- No step is taken. -/
  | nil : Run step s [] s
  /-- One more step is taken. -/
  | snoc {is : List ι} {i : ι} {t u : σ} :
    Run step s is t → step t i u → Run step s (is ++ [i]) u

/-- The state behind the steps of a list, where a step function takes all of them. -/
def exec (next : σ → ι → Option σ) : σ → List ι → Option σ
  | s, [] => some s
  | s, i :: is => do
    let t ← next s i
    exec next t is

namespace Run

variable {step : σ → ι → σ → Prop} {s t u : σ} {is js : List ι}

theorem single {i : ι} (h : step s i t) : Run step s [i] t := Run.nil.snoc h

theorem trans (h : Run step s is t) (h' : Run step t js u) : Run step s (is ++ js) u := by
  induction h' with
  | nil => rwa [List.append_nil]
  | snoc _ hstep ih =>
    rw [← List.append_assoc]
    exact ih.snoc hstep

theorem of_nil (h : Run step s [] u) : u = s := by
  generalize hks : ([] : List ι) = ks at h
  cases h with
  | nil => rfl
  | snoc hrun hstep =>
    exact absurd hks.symm (List.append_ne_nil_of_right_ne_nil _ (List.cons_ne_nil _ _))

/-- The last step of a run. -/
theorem of_snoc {i : ι} (h : Run step s (is ++ [i]) u) : ∃ t, Run step s is t ∧ step t i u := by
  generalize hks : is ++ [i] = ks at h
  cases h with
  | nil => exact absurd hks (List.append_ne_nil_of_right_ne_nil _ (List.cons_ne_nil _ _))
  | snoc hrun hstep =>
    obtain ⟨rfl, hi⟩ := List.append_inj' hks rfl
    obtain rfl := List.singleton_inj.mp hi
    exact ⟨_, hrun, hstep⟩

/-- A run of two lists of steps goes through a state between them. -/
theorem of_append (h : Run step s (is ++ js) u) : ∃ t, Run step s is t ∧ Run step t js u := by
  induction js using List.reverseRecOn generalizing u with
  | nil => exact ⟨u, List.append_nil is ▸ h, nil⟩
  | append_singleton js i ih =>
    rw [← List.append_assoc] at h
    obtain ⟨t, hrun, hstep⟩ := h.of_snoc
    obtain ⟨r, hleft, hright⟩ := ih hrun
    exact ⟨r, hleft, hright.snoc hstep⟩

/-- What a step function runs through is a run. -/
theorem of_exec {next : σ → ι → Option σ} (hnext : ∀ s i t, next s i = some t → step s i t)
    (h : exec next s is = some t) : Run step s is t := by
  induction is generalizing s with
  | nil =>
    cases h
    exact nil
  | cons i is ih =>
    rw [exec, Option.bind_eq_bind, Option.bind_eq_some_iff] at h
    obtain ⟨u, hu, h⟩ := h
    exact (single (hnext s i u hu)).trans (ih h)

/-- The run of a step function that comes through. -/
theorem of_isSome (next : σ → ι → Option σ) (hnext : ∀ s i t, next s i = some t → step s i t)
    (h : (exec next s is).isSome) : Run step s is ((exec next s is).get h) :=
  of_exec hnext (Option.some_get h).symm

/-- Steps that lead somewhere from everywhere. -/
theorem of_foldl {next : σ → ι → σ} (hnext : ∀ s i, step s i (next s i)) (s : σ) (is : List ι) :
    Run step s is (is.foldl next s) := by
  induction is generalizing s with
  | nil => exact nil
  | cons i is ih => exact (single (hnext s i)).trans (ih (next s i))

/-- A weaker step relation has more runs. -/
theorem mono {step' : σ → ι → σ → Prop} (hstep : ∀ s i t, step s i t → step' s i t)
    (h : Run step s is t) : Run step' s is t := by
  induction h with
  | nil => exact nil
  | snoc _ hs ih => exact ih.snoc (hstep _ _ _ hs)

/-- **The invariant rule.** -/
theorem invariant {P : σ → Prop} (h : Run step s is t) (hs : P s)
    (hstep : ∀ t i u, P t → step t i u → P u) : P t := by
  induction h with
  | nil => exact hs
  | snoc _ h ih => exact hstep _ _ _ ih h

/-- What is related by every step is related by every run, where the relation is an order. -/
theorem related {r : σ → σ → Prop} (hrefl : ∀ s, r s s) (htrans : ∀ {s t u}, r s t → r t u → r s u)
    (h : Run step s is t) (hstep : ∀ s i t, step s i t → r s t) : r s t :=
  h.invariant (P := r s) (hrefl s) fun _ _ _ ih hs => htrans ih (hstep _ _ _ hs)

/-- The invariant rule for a property that speaks of the steps taken so far. -/
theorem invariant_labels {P : List ι → σ → Prop} (h : Run step s is t) (hs : P [] s)
    (hstep : ∀ is t i u, P is t → step t i u → P (is ++ [i]) u) : P is t := by
  induction h with
  | nil => exact hs
  | snoc _ h ih => exact hstep _ _ _ _ ih h

end Run

namespace Method

variable {ε α : Type}

/-- The call comes back, with a value or an error, and leaves `t`. -/
def Returns (m : Method σ ε α) (s t : σ) : Prop := ∃ o, o ≠ .panic ∧ m s = (o, t)

/-- The call comes back with a value, and leaves `t`. -/
def Ends (m : Method σ ε α) (s t : σ) : Prop := ∃ a, m s = (.ok a, t)

theorem Ends.returns {m : Method σ ε α} {s t : σ} (h : m.Ends s t) : m.Returns s t := by
  obtain ⟨a, h⟩ := h
  exact ⟨.ok a, nofun, h⟩

/-- What a call leaves, if it comes back. -/
def returned (m : Method σ ε α) (s : σ) : Option σ :=
  match m s with
  | (.panic, _) => none
  | (_, t) => some t

theorem Returns.of_returned {m : Method σ ε α} {s t : σ} (h : m.returned s = some t) :
    m.Returns s t := by
  rw [returned] at h
  rcases hm : m s with ⟨a | e | _, s'⟩ <;> rw [hm] at h <;> cases h
  · exact ⟨.ok a, nofun, hm⟩
  · exact ⟨.err e, nofun, hm⟩

/-- What a call leaves, if it comes back with a value. -/
def ended (m : Method σ ε α) (s : σ) : Option σ :=
  match m s with
  | (.ok _, t) => some t
  | _ => none

theorem Ends.of_ended {m : Method σ ε α} {s t : σ} (h : m.ended s = some t) : m.Ends s t := by
  rw [ended] at h
  rcases hm : m s with ⟨a | e | _, s'⟩ <;> rw [hm] at h <;> cases h
  exact ⟨a, hm⟩

theorem Returns.eq {m : Method σ ε α} {s t : σ} (h : m.Returns s t) : (m s).2 = t := by
  obtain ⟨o, -, h⟩ := h
  rw [h]

theorem Preserves.returns {P : σ → Prop} {m : Method σ ε α} {s t : σ} (hm : m.Preserves P)
    (h : m.Returns s t) (hs : P s) : P t :=
  h.eq ▸ hm s hs

end Method

end Mpz
