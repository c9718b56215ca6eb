import Mpz.Zk.Prover

/-!
# Executions sharing one check

Several executions are in progress at once: each reserves its place in the check when it starts and
writes it when it finishes. `Schedule` is the order in which a party starts and finishes them:
starts in the order of the jobs, finishes in any order. Whatever the schedule, every execution's
triples end up at the place of its job.

## Main definitions

* `Zk.Event`, `Zk.Schedule` — the calls of one party, and their order
* `Zk.Party`, `Zk.Side` — what the calls do, and the state they act on
* `Zk.Plan`, `Zk.Party.Follows` — what every job writes and returns

## Main results

* `Zk.Party.events_of_schedule` — the state behind any schedule
-/

namespace Mpz.Zk

variable {X O : Type}

/-- A call of a party. -/
inductive Event where
  /-- Start the execution of the next job. -/
  | execute
  /-- Run the execution of a job to its end, and finish it. -/
  | finish (i : ℕ)
  deriving DecidableEq, Repr

/-- The events start every job from `started` on in order, and finish the active ones and those
once each, in any order. -/
def Schedule (n : ℕ) : ℕ → List ℕ → List Event → Prop
  | started, active, [] => started = n ∧ active = []
  | started, active, .execute :: es => started < n ∧ Schedule n (started + 1) (started :: active) es
  | started, active, .finish i :: es => i ∈ active ∧ Schedule n started (active.erase i) es

instance decidableSchedule (n : ℕ) : ∀ started active es, Decidable (Schedule n started active es)
  | _, _, [] => inferInstanceAs (Decidable (_ ∧ _))
  | started, active, .execute :: es =>
    haveI := decidableSchedule n (started + 1) (started :: active) es
    inferInstanceAs (Decidable (_ ∧ _))
  | started, active, .finish i :: es =>
    haveI := decidableSchedule n started (active.erase i) es
    inferInstanceAs (Decidable (_ ∧ _))

/-- How a party starts and runs the execution of the `i`-th job. -/
structure Party (X O : Type) where
  /-- Start the execution of a job. -/
  execute : ℕ → Shared → Option (X × Shared)
  /-- Run an execution to its end, and finish it. -/
  run : ℕ → X → Shared → Option (O × Shared)

/-- The state of a party. -/
structure Side (X O : Type) where
  /-- The check. -/
  shared : Shared
  /-- The number of jobs started. -/
  started : ℕ
  /-- The executions in progress, with the numbers of their jobs. -/
  active : List (ℕ × X)
  /-- What the finished executions returned. -/
  outputs : List (ℕ × O)

/-- No job is started. -/
def Side.new : Side X O := ⟨.empty, 0, [], []⟩

/-- One call. -/
def Party.event (P : Party X O) (s : Side X O) : Event → Option (Side X O)
  | .execute => do
    let (x, shared) ← P.execute s.started s.shared
    some { s with shared, started := s.started + 1, active := (s.started, x) :: s.active }
  | .finish i => do
    let x ← s.active.lookup i
    let (o, shared) ← P.run i x s.shared
    some
      { s with
        shared, active := s.active.eraseP fun p => p.1 == i, outputs := (i, o) :: s.outputs }

/-- The calls of a list, one after the other. -/
def Party.events (P : Party X O) (s : Side X O) : List Event → Option (Side X O)
  | [] => some s
  | e :: es => do
    let s ← P.event s e
    P.events s es

/-! ### Places -/

/-- The place of the `n`-th job, for jobs of the given sizes. -/
def offset (size : ℕ → ℕ) : ℕ → ℕ
  | 0 => 0
  | n + 1 => offset size n + size n

theorem offset_add_le (size : ℕ → ℕ) {i n : ℕ} (h : i < n) :
    offset size i + size i ≤ offset size n := by
  induction n with
  | zero => omega
  | succ n ih =>
    rw [offset]
    rcases Nat.lt_succ_iff_lt_or_eq.mp h with h | rfl
    · exact (ih h).trans (Nat.le_add_right _ _)
    · exact le_rfl

/-- Every position belongs to the place of a job. -/
theorem exists_offset (size : ℕ → ℕ) {n k : ℕ} (h : k < offset size n) :
    ∃ i < n, ∃ j < size i, k = offset size i + j := by
  induction n with
  | zero => simp [offset] at h
  | succ n ih =>
    by_cases hk : k < offset size n
    · obtain ⟨i, hi, hrest⟩ := ih hk
      exact ⟨i, by omega, hrest⟩
    · rw [offset] at h
      exact ⟨n, by omega, k - offset size n, by omega, by omega⟩

/-- The places of two jobs do not meet. -/
theorem offset_disjoint (size : ℕ → ℕ) {i i' j : ℕ} (hne : i ≠ i') (hj : j < size i) :
    offset size i + j < offset size i' ∨ offset size i' + size i' ≤ offset size i + j := by
  rcases Nat.lt_or_gt_of_ne hne with h | h
  · have := offset_add_le size h
    omega
  · have := offset_add_le size h
    omega

/-! ### What a schedule leaves -/

/-- What the execution of every job is, writes and returns. -/
structure Plan (X O : Type) where
  /-- The number of AND gates. -/
  size : ℕ → ℕ
  /-- The execution, at a place of the check. -/
  exec : ℕ → ℕ → X
  /-- The triples it writes. -/
  triples : ℕ → List Triple
  /-- The adjust bits it writes. -/
  adjust : ℕ → List Bool
  /-- What it returns. -/
  output : ℕ → O

/-- The calls of a party do what the plan says, for the first `n` jobs. -/
structure Party.Follows (P : Party X O) (plan : Plan X O) (n : ℕ) : Prop where
  length_triples : ∀ i < n, (plan.triples i).length = plan.size i
  length_adjust : ∀ i < n, (plan.adjust i).length = plan.size i
  execute : ∀ i < n, ∀ shared, P.execute i shared =
    some (plan.exec i shared.check.triples.length, (shared.reserve (plan.size i)).2)
  run : ∀ i < n, ∀ checkIdx shared check,
    shared.check.write checkIdx (plan.triples i) (plan.adjust i) = some check →
    P.run i (plan.exec i checkIdx) shared = some (plan.output i, ⟨check, shared.clones - 1⟩)

/-- The place of a job holds what it writes. -/
def Check.Holds (check : Check) (plan : Plan X O) (i : ℕ) : Prop :=
  ∀ j < plan.size i,
    check.triples[offset plan.size i + j]? = (plan.triples i)[j]? ∧
    check.adjust[offset plan.size i + j]? = (plan.adjust i)[j]?

/-- The jobs of `active` are in progress, and the other started ones have been written. -/
structure Side.Inv (plan : Plan X O) (started : ℕ) (active : List ℕ) (s : Side X O) : Prop where
  started_eq : s.started = started
  active_eq : s.active = active.map fun i => (i, plan.exec i (offset plan.size i))
  nodup : active.Nodup
  active_lt : ∀ i ∈ active, i < started
  clones : s.shared.clones = active.length
  length_triples : s.shared.check.triples.length = offset plan.size started
  length_adjust : s.shared.check.adjust.length = offset plan.size started
  holds : ∀ i < started, i ∉ active → s.shared.check.Holds plan i
  outputs : ∀ i < started, i ∉ active → s.outputs.lookup i = some (plan.output i)

theorem Side.Inv.new (plan : Plan X O) : Side.Inv plan 0 [] (.new : Side X O) where
  started_eq := rfl
  active_eq := rfl
  nodup := List.nodup_nil
  active_lt _ hi := absurd hi List.not_mem_nil
  clones := rfl
  length_triples := rfl
  length_adjust := rfl
  holds i hi := absurd hi (Nat.not_lt_zero i)
  outputs i hi := absurd hi (Nat.not_lt_zero i)

namespace Party

variable {P : Party X O} {plan : Plan X O} {n started : ℕ} {active : List ℕ} {s : Side X O}

/-- Starting a job reserves its place and touches no other. -/
theorem event_execute (hP : P.Follows plan n) (h : s.Inv plan started active)
    (hlt : started < n) :
    ∃ s', P.event s .execute = some s' ∧ s'.Inv plan (started + 1) (started :: active) := by
  rw [event, h.started_eq, hP.execute started hlt, h.length_triples]
  refine ⟨_, rfl, ?_⟩
  have hnot : started ∉ active := fun hmem => lt_irrefl _ (h.active_lt _ hmem)
  exact
    { started_eq := rfl
      active_eq := by simp [h.active_eq]
      nodup := List.nodup_cons.mpr ⟨hnot, h.nodup⟩
      active_lt := by
        intro i hi
        rcases List.mem_cons.mp hi with rfl | hi
        · exact Nat.lt_succ_self _
        · exact Nat.lt_succ_of_lt (h.active_lt i hi)
      clones := by simp [Shared.reserve, h.clones]
      length_triples := by simp [Shared.reserve, Check.reserve, h.length_triples, offset]
      length_adjust := by simp [Shared.reserve, Check.reserve, h.length_triples, offset]
      holds := by
        intro i hi hmem j hj
        obtain ⟨hne, hmem⟩ := not_or.mp (mt List.mem_cons.mpr hmem)
        have hi' : i < started := lt_of_le_of_ne (Nat.lt_succ_iff.mp hi) hne
        have hle := offset_add_le plan.size hi'
        obtain ⟨ht, ha⟩ := h.holds i hi' hmem j hj
        simp only [Shared.reserve, Check.reserve, h.length_triples]
        rw [getElem?_resize _ (by omega) (by rw [h.length_triples]; omega),
          getElem?_resize _ (by omega) (by rw [h.length_adjust]; omega)]
        exact ⟨ht, ha⟩
      outputs := by
        intro i hi hmem
        obtain ⟨hne, hmem⟩ := not_or.mp (mt List.mem_cons.mpr hmem)
        exact h.outputs i (lt_of_le_of_ne (Nat.lt_succ_iff.mp hi) hne) hmem }

/-- A write to the place of a job fills it and touches no other. -/
theorem exists_write (hP : P.Follows plan n) (h : s.Inv plan started active) (hle : started ≤ n)
    {i : ℕ} (hi : i < started) :
    ∃ check, s.shared.check.write (offset plan.size i) (plan.triples i) (plan.adjust i) =
        some check ∧
      check.triples.length = s.shared.check.triples.length ∧
      check.adjust.length = s.shared.check.adjust.length ∧ check.Holds plan i ∧
      ∀ i' ≠ i, s.shared.check.Holds plan i' → check.Holds plan i' := by
  have hfit := offset_add_le plan.size hi
  have hlt := hP.length_triples i (by omega)
  have hla := hP.length_adjust i (by omega)
  have ht : copyFrom s.shared.check.triples (offset plan.size i) (plan.triples i) = some _ :=
    copyFrom_of_le (by rw [hlt, h.length_triples]; exact hfit)
  have ha : copyFrom s.shared.check.adjust (offset plan.size i) (plan.adjust i) = some _ :=
    copyFrom_of_le (by rw [hla, h.length_adjust]; exact hfit)
  refine ⟨⟨_, _⟩, ?_, length_of_copyFrom ht, length_of_copyFrom ha, fun j hj => ?_,
    fun i' hne hold j hj => ?_⟩
  · rw [Check.write, if_pos (by rw [hlt, hla]), ht, ha]
    rfl
  · rw [getElem?_copyFrom ht, getElem?_copyFrom ha, hlt, hla, if_pos (by omega),
      if_pos (by omega), Nat.add_sub_cancel_left]
    exact ⟨rfl, rfl⟩
  · have hdis := offset_disjoint plan.size hne hj
    rw [getElem?_copyFrom ht, getElem?_copyFrom ha, hlt, hla, if_neg (by omega),
      if_neg (by omega)]
    exact hold j hj

theorem lookup_map_of_mem {f : ℕ → X} {l : List ℕ} {i : ℕ} (h : i ∈ l) :
    (l.map fun i => (i, f i)).lookup i = some (f i) := by
  induction l with
  | nil => exact absurd h List.not_mem_nil
  | cons k l ih =>
    rw [List.map_cons, List.lookup_cons]
    by_cases hk : i = k
    · simp [hk]
    · rw [beq_false_of_ne hk]
      exact ih ((List.mem_cons.mp h).resolve_left hk)

/-- Finishing an execution writes its place and touches no other. -/
theorem event_finish (hP : P.Follows plan n) (h : s.Inv plan started active) (hle : started ≤ n)
    {i : ℕ} (hi : i ∈ active) :
    ∃ s', P.event s (.finish i) = some s' ∧ s'.Inv plan started (active.erase i) := by
  have hlt := h.active_lt i hi
  obtain ⟨check, hwrite, hlt', hla', hholds, hkeep⟩ := exists_write hP h hle hlt
  have hlookup : s.active.lookup i = some (plan.exec i (offset plan.size i)) := by
    rw [h.active_eq]
    exact lookup_map_of_mem hi
  rw [event, hlookup]
  simp only [Option.bind_eq_bind, Option.bind_some, hP.run i (by omega) _ _ _ hwrite]
  refine ⟨_, rfl, ?_⟩
  have hmem : ∀ i' ∉ active.erase i, i' = i ∨ i' ∉ active := by
    intro i' hi'
    by_cases hii : i' = i
    · exact .inl hii
    · exact .inr fun hact => hi' ((List.mem_erase_of_ne hii).mpr hact)
  exact
    { started_eq := h.started_eq
      active_eq := by
        have hpred : (fun k => i == k) =
            (fun p => p.1 == i) ∘ fun i => (i, plan.exec i (offset plan.size i)) := by
          funext k
          simp [eq_comm]
        change s.active.eraseP (fun p => p.1 == i) = _
        rw [h.active_eq, List.eraseP_map, List.erase_eq_eraseP, hpred]
      nodup := h.nodup.erase i
      active_lt := fun i' hi' => h.active_lt i' (List.mem_of_mem_erase hi')
      clones := by simp [h.clones, List.length_erase_of_mem hi]
      length_triples := hlt'.trans h.length_triples
      length_adjust := hla'.trans h.length_adjust
      holds := by
        intro i' hi' hnot
        by_cases hii : i' = i
        · exact hii ▸ hholds
        · exact hkeep i' hii (h.holds i' hi' ((hmem i' hnot).resolve_left hii))
      outputs := by
        intro i' hi' hnot
        rw [List.lookup_cons]
        by_cases hii : i' = i
        · simp [hii]
        · rw [beq_false_of_ne hii]
          exact h.outputs i' hi' ((hmem i' hnot).resolve_left hii) }

/-- **Any schedule.** Every call succeeds, and in the end no execution is in progress, the check
holds what every job writes, at its place, and the outputs are those of the plan. -/
theorem events_of_schedule (hP : P.Follows plan n) {es : List Event}
    (hes : Schedule n started active es) (h : s.Inv plan started active) (hle : started ≤ n) :
    ∃ s', P.events s es = some s' ∧ s'.Inv plan n [] := by
  induction es generalizing started active s with
  | nil =>
    obtain ⟨rfl, rfl⟩ := hes
    exact ⟨s, rfl, h⟩
  | cons e es ih =>
    cases e with
    | execute =>
      obtain ⟨s₁, hs₁, h₁⟩ := event_execute hP h hes.1
      obtain ⟨s', hs', h'⟩ := ih hes.2 h₁ hes.1
      refine ⟨s', ?_, h'⟩
      rw [events, hs₁]
      exact hs'
    | finish i =>
      obtain ⟨s₁, hs₁, h₁⟩ := event_finish hP h hle hes.1
      obtain ⟨s', hs', h'⟩ := ih hes.2 h₁ hle
      refine ⟨s', ?_, h'⟩
      rw [events, hs₁]
      exact hs'

end Party

end Mpz.Zk
