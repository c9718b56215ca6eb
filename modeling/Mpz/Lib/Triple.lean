import Mpz.Lib.Method

/-!
# Triples

A triple says of a method that from a receiver that satisfies the precondition it comes back, with a
value and a receiver that satisfy one postcondition, or with an error and a receiver that satisfy
another. So it excludes a panic, and it may exclude errors. What a method yields says the same, but
for the panics.

## Main definitions

* `Method.Triple`, `Method.Yields`

## Main results

* `Method.Triple.bind`, `Method.Triple.zoom`, `Method.Triple.forEach` — the rules
* `Method.Triple.ne_panic` — a method with a triple does not panic
* `Method.Yields.bind`, `Method.Yields.zoom` — the rules, but for panics
-/

namespace Mpz.Method

variable {σ τ ε ε' α β : Type}

/-- From `P`, the method comes back, with a value and `Q` or with an error and `R`. -/
def Triple (P : σ → Prop) (m : Method σ ε α) (Q : α → σ → Prop) (R : ε → σ → Prop) : Prop :=
  ∀ s, P s → (∃ a t, m s = (.ok a, t) ∧ Q a t) ∨ ∃ e t, m s = (.err e, t) ∧ R e t

namespace Triple

variable {P P' : σ → Prop} {Q Q' : α → σ → Prop} {R R' : ε → σ → Prop} {m : Method σ ε α}

theorem conseq (h : Triple P m Q R) (hP : ∀ s, P' s → P s) (hQ : ∀ a s, Q a s → Q' a s)
    (hR : ∀ e s, R e s → R' e s) : Triple P' m Q' R' := fun s hs =>
  (h s (hP s hs)).imp (fun ⟨a, t, hm, ht⟩ => ⟨a, t, hm, hQ a t ht⟩)
    fun ⟨e, t, hm, ht⟩ => ⟨e, t, hm, hR e t ht⟩

theorem pure (a : α) (h : ∀ s, P s → Q a s) : Triple P (pure a : Method σ ε α) Q R :=
  fun s hs => .inl ⟨a, s, rfl, h s hs⟩

theorem throw (e : ε) (h : ∀ s, P s → R e s) : Triple P (throw e : Method σ ε α) Q R :=
  fun s hs => .inr ⟨e, s, rfl, h s hs⟩

theorem modify {f : σ → σ} {Q : Unit → σ → Prop} (h : ∀ s, P s → Q () (f s)) :
    Triple P (modify f : Method σ ε Unit) Q R := fun s hs => .inl ⟨(), f s, rfl, h s hs⟩

theorem bind {f : α → Method σ ε β} {Q' : β → σ → Prop} (hm : Triple P m Q R)
    (hf : ∀ a, Triple (Q a) (f a) Q' R) : Triple P (m >>= f) Q' R := by
  intro s hs
  rw [bind_apply]
  rcases hm s hs with ⟨a, t, hms, ht⟩ | ⟨e, t, hms, ht⟩
  · rw [hms]
    exact hf a t ht
  · rw [hms]
    exact .inr ⟨e, t, rfl, ht⟩

/-- The state that is read satisfies the precondition. -/
theorem get_bind {f : σ → Method σ ε α} (hf : ∀ s, P s → Triple (· = s) (f s) Q R) :
    Triple P (get >>= f) Q R := fun s hs => hf s hs s rfl

/-- A call that does not touch the receiver is made from one at a time. -/
theorem call {o : Outcome ε α} (h : ∀ s, P s → (∃ a, o = .ok a ∧ Q a s) ∨ ∃ e, o = .err e ∧ R e s) :
    Triple P (call o) Q R := by
  intro s hs
  rcases h s hs with ⟨a, rfl, ha⟩ | ⟨e, rfl, he⟩
  · exact .inl ⟨a, s, rfl, ha⟩
  · exact .inr ⟨e, s, rfl, he⟩

/-- A call that does not touch the receiver, of which it is known that it comes back. -/
theorem call_of_ne_panic {o : Outcome ε α} (hne : ∀ s, P s → o ≠ .panic)
    (hQ : ∀ s a, P s → o = .ok a → Q a s) :
    Triple P (Method.call o) Q fun _ _ => True := .call fun s hs => by
  cases o with
  | ok a => exact .inl ⟨a, rfl, hQ s a hs rfl⟩
  | err e => exact .inr ⟨e, rfl, trivial⟩
  | panic => exact absurd rfl (hne s hs)

theorem ite {c : Prop} [Decidable c] {n : Method σ ε α} (hm : c → Triple P m Q R)
    (hn : ¬ c → Triple P n Q R) : Triple P (if c then m else n) Q R := by
  split
  case isTrue h => exact hm h
  case isFalse h => exact hn h

/-- A call on a component, which leaves the others alone. -/
theorem zoom {proj : σ → τ} {put : σ → τ → σ} {into : ε' → ε} {m : Method τ ε' α}
    (h : ∀ s, P s → Triple (· = proj s) m (fun a c => Q a (put s c)) fun e c =>
      R (into e) (put s c)) :
    Triple P (zoom proj put into m) Q R := by
  intro s hs
  rw [zoom_apply]
  rcases h s hs (proj s) rfl with ⟨a, c, hm, hc⟩ | ⟨e, c, hm, hc⟩
  · rw [hm]
    exact .inl ⟨a, _, rfl, hc⟩
  · rw [hm]
    exact .inr ⟨into e, _, rfl, hc⟩

/-- The loop rule, for an invariant of the body. -/
theorem forEach {f : β → Method σ ε Unit} {l : List β}
    (hf : ∀ b ∈ l, Triple P (f b) (fun _ => P) R) : Triple P (forEach f l) (fun _ => P) R := by
  induction l with
  | nil => exact pure () fun _ h => h
  | cons b l ih =>
    exact bind (hf b List.mem_cons_self) fun _ => ih fun b hb => hf b (List.mem_cons_of_mem _ hb)

theorem ne_panic (h : Triple P m Q R) {s : σ} (hs : P s) : (m s).1 ≠ .panic := by
  rcases h s hs with ⟨a, t, hm, -⟩ | ⟨e, t, hm, -⟩ <;> rw [hm] <;> exact nofun

/-- What comes back from every receiver. -/
theorem of_ne_panic (h : ∀ s, P s → (m s).1 ≠ .panic) :
    Triple P m (fun _ _ => True) fun _ _ => True := by
  intro s hs
  rcases hm : m s with ⟨a | e | _, t⟩
  · exact .inl ⟨a, t, rfl, trivial⟩
  · exact .inr ⟨e, t, rfl, trivial⟩
  · exact absurd (congrArg Prod.fst hm) (h s hs)

end Triple

/-! ### Partial correctness -/

/-- From `P`, a value comes with `Q` and an error with `R`. Nothing is said of a panic. -/
def Yields (P : σ → Prop) (m : Method σ ε α) (Q : α → σ → Prop) (R : ε → Prop) : Prop :=
  ∀ s, P s → (∀ a t, m s = (.ok a, t) → Q a t) ∧ ∀ e t, m s = (.err e, t) → R e

namespace Yields

variable {P P' : σ → Prop} {Q Q' : α → σ → Prop} {R R' : ε → Prop} {m : Method σ ε α}

theorem conseq (h : Yields P m Q R) (hP : ∀ s, P' s → P s) (hQ : ∀ a s, Q a s → Q' a s)
    (hR : ∀ e, R e → R' e) : Yields P' m Q' R' := fun s hs =>
  ⟨fun a t hm => hQ a t ((h s (hP s hs)).1 a t hm), fun e t hm => hR e ((h s (hP s hs)).2 e t hm)⟩

theorem pure (a : α) (h : ∀ s, P s → Q a s) : Yields P (pure a : Method σ ε α) Q R := by
  intro s hs
  refine ⟨fun a' t hm => ?_, nofun⟩
  cases hm
  exact h s hs

theorem throw (e : ε) (h : R e) : Yields P (throw e : Method σ ε α) Q R := by
  intro s _
  refine ⟨nofun, fun e' t hm => ?_⟩
  cases hm
  exact h

theorem modify {f : σ → σ} {Q : Unit → σ → Prop} (h : ∀ s, P s → Q () (f s)) :
    Yields P (modify f : Method σ ε Unit) Q R := by
  intro s hs
  refine ⟨fun a t hm => ?_, nofun⟩
  cases hm
  exact h s hs

theorem bind {f : α → Method σ ε β} {Q' : β → σ → Prop} (hm : Yields P m Q R)
    (hf : ∀ a, Yields (Q a) (f a) Q' R) : Yields P (m >>= f) Q' R := by
  intro s hs
  obtain ⟨hok, herr⟩ := hm s hs
  constructor
  · intro b t h
    obtain ⟨a, s', hms, hfs⟩ := bind_eq_ok.mp h
    exact (hf a s' (hok a s' hms)).1 b t hfs
  · intro e t h
    rcases bind_cases h with ⟨a, s', hms, hfs⟩ | ⟨e', hms, he⟩ | ⟨-, he⟩
    · exact (hf a s' (hok a s' hms)).2 e t hfs
    · cases he
      exact herr e t hms
    · cases he

/-- The state that is read satisfies the precondition. -/
theorem get_bind {f : σ → Method σ ε α} (hf : ∀ s, P s → Yields (· = s) (f s) Q R) :
    Yields P (get >>= f) Q R := fun s hs => hf s hs s rfl

/-- A call that does not touch the receiver. -/
theorem call {o : Outcome ε α} (hQ : ∀ s a, P s → o = .ok a → Q a s) (hR : ∀ e, o = .err e → R e) :
    Yields P (call o) Q R := by
  intro s hs
  refine ⟨fun a t hm => ?_, fun e t hm => ?_⟩
  · obtain ⟨ho, rfl⟩ := Prod.mk.inj hm
    exact hQ s a hs ho
  · exact hR e (Prod.mk.inj hm).1

theorem ite {c : Prop} [Decidable c] {n : Method σ ε α} (hm : c → Yields P m Q R)
    (hn : ¬ c → Yields P n Q R) : Yields P (if c then m else n) Q R := by
  split
  case isTrue h => exact hm h
  case isFalse h => exact hn h

/-- A call on a component, which leaves the others alone. -/
theorem zoom {proj : σ → τ} {put : σ → τ → σ} {into : ε' → ε} {m : Method τ ε' α}
    (h : ∀ s, P s → Yields (· = proj s) m (fun a c => Q a (put s c)) fun e => R (into e)) :
    Yields P (zoom proj put into m) Q R := by
  intro s hs
  obtain ⟨hok, herr⟩ := h s hs (proj s) rfl
  rw [zoom_apply]
  rcases hm : m (proj s) with ⟨a | e | _, c⟩
  · refine ⟨fun a' t h => ?_, nofun⟩
    cases h
    exact hok a c hm
  · refine ⟨nofun, fun e' t h => ?_⟩
    cases h
    exact herr e c hm
  · exact ⟨nofun, nofun⟩

end Yields

end Mpz.Method
