import Mathlib.Tactic.ByContra
import Mpz.Lib.Method

/-!
# What a refused call leaves

A method that returns an error may have written before it did. `LeavesOnErr m s t` says that from
`s` an error leaves `t`, so a method is atomic at `s` where an error leaves `s`.

## Main definitions

* `Method.LeavesOnErr`, `Method.Atomic`
* `Method.NeverErrs` — the method returns no error

## Main results

* `Method.LeavesOnErr.bind_iff` and its cases, `Method.LeavesOnErr.zoom` — the rules
* `Method.torn_iff_of`, `Method.zoom_bind_zoom_atomic_iff` — when calls on two components are
  refused as a whole
* `Method.forEach_err_iff` — when a loop over independent items is refused
-/

namespace Mpz.Method

variable {σ τ ε ε' α β : Type}

/-- From `s`, an error leaves `t`. -/
def LeavesOnErr (m : Method σ ε α) (s t : σ) : Prop := ∀ e u, m s = (.err e, u) → u = t

/-- An error leaves the receiver as it was. -/
abbrev Atomic (m : Method σ ε α) (s : σ) : Prop := m.LeavesOnErr s s

/-- The method returns no error. -/
def NeverErrs (m : Method σ ε α) : Prop := ∀ s e, (m s).1 ≠ .err e

namespace NeverErrs

variable {m : Method σ ε α}

theorem pure (a : α) : (pure a : Method σ ε α).NeverErrs := fun _ _ => nofun

theorem bind {f : α → Method σ ε β} (hm : m.NeverErrs) (hf : ∀ a, (f a).NeverErrs) :
    (m >>= f).NeverErrs := by
  intro s e
  rw [bind_apply]
  rcases hms : m s with ⟨a | e' | _, t⟩
  · exact hf a t e
  · exact absurd (congrArg Prod.fst hms) (hm s e')
  · exact nofun

theorem get_bind {f : σ → Method σ ε α} (hf : ∀ s, (f s).NeverErrs) : (get >>= f).NeverErrs :=
  fun s => hf s s

theorem zoom {proj : σ → τ} {put : σ → τ → σ} {into : ε' → ε} {m : Method τ ε' α}
    (hm : m.NeverErrs) : (zoom proj put into m).NeverErrs := by
  intro s e
  rw [zoom_apply]
  rcases hms : m (proj s) with ⟨a | e' | _, t⟩
  · exact nofun
  · exact absurd (congrArg Prod.fst hms) (hm _ e')
  · exact nofun

end NeverErrs

namespace LeavesOnErr

variable {m : Method σ ε α} {s t : σ}

theorem of_ne_err (h : ∀ e, (m s).1 ≠ .err e) : m.LeavesOnErr s t := fun e _ hm =>
  absurd (congrArg Prod.fst hm) (h e)

theorem pure (a : α) : (pure a : Method σ ε α).LeavesOnErr s t := of_ne_err fun _ => nofun

theorem throw (e : ε) : (throw e : Method σ ε α).Atomic s := fun _ _ h => (Prod.mk.inj h).2.symm

theorem call (o : Outcome ε α) : (call o : Method σ ε α).Atomic s := fun _ _ h =>
  (Prod.mk.inj h).2.symm

/-- **The rule of a sequence.** -/
theorem bind_iff {f : α → Method σ ε β} : (m >>= f).LeavesOnErr s t ↔
    m.LeavesOnErr s t ∧ ∀ a s', m s = (.ok a, s') → (f a).LeavesOnErr s' t := by
  constructor
  · refine fun h => ⟨fun e u hm => h e u ?_, fun a s' hm e u hf => h e u ?_⟩
    · rw [bind_apply, hm]
    · rw [bind_apply_of_ok hm, hf]
  · rintro ⟨hm, hf⟩ e u h
    rcases bind_cases h with ⟨a, s', hms, h⟩ | ⟨e', hms, -⟩ | ⟨-, h⟩
    · exact hf a s' hms e u h
    · exact hm e' u hms
    · cases h

theorem of_err {e : ε} {u : σ} (h : m s = (.err e, u)) : m.LeavesOnErr s t ↔ u = t := by
  constructor
  · exact fun hm => hm e u h
  · intro hu e' u' hm
    rw [h] at hm
    exact (Prod.mk.inj hm).2.symm.trans hu

theorem bind_of_ok {f : α → Method σ ε β} {a : α} {s' : σ} (h : m s = (.ok a, s')) :
    (m >>= f).LeavesOnErr s t ↔ (f a).LeavesOnErr s' t := by
  rw [LeavesOnErr, LeavesOnErr, bind_apply_of_ok h]

theorem bind_of_err {f : α → Method σ ε β} {e : ε} {s' : σ} (h : m s = (.err e, s')) :
    (m >>= f).LeavesOnErr s t ↔ s' = t := of_err (by rw [bind_apply, h])

theorem bind_of_panic {f : α → Method σ ε β} (h : (m s).1 = .panic) :
    (m >>= f).LeavesOnErr s t := of_ne_err fun e he => by
  rcases hm : m s with ⟨a | e' | _, s'⟩ <;> rw [hm] at h <;> cases h
  rw [bind_apply, hm] at he
  cases he

/-- A call on a component leaves the receiver with what the component's call leaves. -/
theorem zoom_iff {proj : σ → τ} {put : σ → τ → σ} {into : ε' → ε} {m : Method τ ε' α} :
    (zoom proj put into m).LeavesOnErr s t ↔ ∀ e c, m (proj s) = (.err e, c) → put s c = t := by
  constructor
  · intro h e c hm
    refine h (into e) _ ?_
    rw [zoom_apply, hm, Outcome.mapErr_err]
  · intro h e u hm
    rw [zoom_apply] at hm
    rcases hms : m (proj s) with ⟨a | e' | _, c⟩ <;> rw [hms] at hm <;> cases hm
    exact h e' c hms

/-- A call on a component that is atomic there. -/
theorem zoom {proj : σ → τ} {put : σ → τ → σ} {into : ε' → ε} {m : Method τ ε' α}
    (hm : m.Atomic (proj s)) (hput : put s (proj s) = s) : (zoom proj put into m).Atomic s :=
  zoom_iff.mpr fun e c h => by rw [hm e c h, hput]

end LeavesOnErr

/-! ### Two components -/

section Torn

variable {ρ ε₁ ε₂ : Type} {m : Method τ ε₁ α} {n : Method ρ ε₂ β} {c : τ} {d : ρ}

/-- A call on one component changes it, and fails or has the call on another one refused behind
it. -/
def Torn (m : Method τ ε₁ α) (n : Method ρ ε₂ β) (c : τ) (d : ρ) : Prop :=
  (m c).2 ≠ c ∧ ((∃ e, (m c).1 = .err e) ∨ (∃ a, (m c).1 = .ok a) ∧ ∃ e, (n d).1 = .err e)

/-- Where the first call is atomic, it has to go through. -/
theorem torn_iff (hm : m.Atomic c) :
    Torn m n c d ↔ (∃ a c', m c = (.ok a, c') ∧ c' ≠ c) ∧ ∃ e, (n d).1 = .err e := by
  constructor
  · rintro ⟨hne, ⟨e, he⟩ | ⟨⟨a, ha⟩, hn⟩⟩
    · exact absurd (hm e _ (Prod.ext he rfl)) hne
    · exact ⟨⟨a, _, Prod.ext ha rfl, hne⟩, hn⟩
  · rintro ⟨⟨a, c', ha, hne⟩, hn⟩
    rw [Torn, ha]
    exact ⟨hne, .inr ⟨⟨a, rfl⟩, hn⟩⟩

/-- Where the first call is accepted exactly under a condition, and then changes nothing exactly
under another one. -/
theorem torn_iff_of {A S : Prop} (hm : m.Atomic c)
    (haccept : A → ∃ a c', m c = (.ok a, c') ∧ (c' = c ↔ S))
    (haccepted : ∀ {a c'}, m c = (.ok a, c') → A) :
    Torn m n c d ↔ (A ∧ ¬ S) ∧ ∃ e, (n d).1 = .err e := by
  rw [torn_iff hm]
  refine and_congr_left fun _ => ⟨?_, ?_⟩
  · rintro ⟨a, c', ha, hne⟩
    obtain ⟨a', c'', ha', hsame⟩ := haccept (haccepted ha)
    obtain ⟨-, rfl⟩ := Prod.mk.inj (ha'.symm.trans ha)
    exact ⟨haccepted ha, fun h => hne (hsame.mpr h)⟩
  · rintro ⟨hA, hS⟩
    obtain ⟨a, c', ha, hsame⟩ := haccept hA
    exact ⟨a, c', ha, fun h => hS (hsame.mp h)⟩

/-- **The rule of two components.** Calls on one component and then on another are refused as a
whole exactly where they are not torn. -/
theorem zoom_bind_zoom_atomic_iff {p : σ → τ} {f : σ → τ → σ} {i : ε₁ → ε} {q : σ → ρ}
    {g : σ → ρ → σ} {j : ε₂ → ε} {s : σ} (hf : ∀ c, f s c = s ↔ c = p s)
    (hq : ∀ c, q (f s c) = q s) (hg : ∀ c, g (f s c) (q s) = f s c)
    (hn : n.Atomic (q s)) :
    (zoom p f i m >>= fun _ => zoom q g j n).Atomic s ↔ ¬ Torn m n (p s) (q s) := by
  rw [Atomic, Torn]
  rcases hm : m (p s) with ⟨a | e | _, c⟩
  · have hrun : zoom p f i m s = (.ok a, f s c) := by rw [zoom_apply, hm, Outcome.mapErr_ok]
    rw [LeavesOnErr.bind_of_ok hrun, LeavesOnErr.zoom_iff, hq]
    constructor
    · rintro h ⟨hc, ⟨e, he⟩ | ⟨-, e, he⟩⟩
      · cases he
      · have hs := h e _ (Prod.ext he rfl)
        rw [hn e _ (Prod.ext he rfl), hg] at hs
        exact hc ((hf c).mp hs)
    · intro h e d he
      rw [hn e d he, hg]
      by_contra hc
      exact h ⟨fun hcp => hc ((hf c).mpr hcp), .inr ⟨⟨a, rfl⟩, e, congrArg Prod.fst he⟩⟩
  · have hrun : zoom p f i m s = (.err (i e), f s c) := by
      rw [zoom_apply, hm, Outcome.mapErr_err]
    rw [LeavesOnErr.bind_of_err hrun, hf]
    constructor
    · rintro hc ⟨hne, -⟩
      exact hne hc
    · intro h
      by_contra hc
      exact h ⟨hc, .inl ⟨e, rfl⟩⟩
  · refine iff_of_true (LeavesOnErr.bind_of_panic ?_) ?_
    · rw [zoom_apply, hm, Outcome.mapErr_panic]
    · rintro ⟨-, ⟨e, h⟩ | ⟨⟨a, h⟩, -⟩⟩ <;> cases h

end Torn

/-- **When a loop is refused.** Items are good or bad where the loop comes to them, a bad one is
refused, and a good one changes nothing about the others: then the loop is refused exactly when one
of the items is bad. -/
theorem forEach_err_iff {f : β → Method σ ε Unit} {P : σ → Prop} {g : β → σ → Prop}
    {R : β → β → Prop} {l : List β} {s : σ} (hs : P s) (hl : l.Pairwise R)
    (hgood : ∀ b ∈ l, ∀ s, P s → g b s →
      ∃ t, f b s = (.ok (), t) ∧ P t ∧ ∀ c, R b c → (g c t ↔ g c s))
    (hbad : ∀ b ∈ l, ∀ s, P s → ¬ g b s → ∃ e t, f b s = (.err e, t) ∧ P t) :
    (∃ e t, forEach f l s = (.err e, t) ∧ P t) ∧ (∃ b ∈ l, ¬ g b s) ∨
      (∃ t, forEach f l s = (.ok (), t)) ∧ ∀ b ∈ l, g b s := by
  induction l generalizing s with
  | nil => exact .inr ⟨⟨s, rfl⟩, nofun⟩
  | cons b l ih =>
    obtain ⟨hhead, hl⟩ := List.pairwise_cons.mp hl
    by_cases hb : g b s
    · obtain ⟨t, hf, ht, hcongr⟩ := hgood b List.mem_cons_self s hs hb
      have hrun : forEach f (b :: l) s = forEach f l t := by rw [forEach, bind_apply_of_ok hf]
      rw [hrun]
      refine (ih ht hl (fun c hc => hgood c (List.mem_cons_of_mem _ hc))
        fun c hc => hbad c (List.mem_cons_of_mem _ hc)).imp ?_ ?_
      · rintro ⟨herr, c, hc, hbad⟩
        exact ⟨herr, c, List.mem_cons_of_mem _ hc, fun h => hbad ((hcongr c (hhead c hc)).mpr h)⟩
      · rintro ⟨hok, hall⟩
        refine ⟨hok, List.forall_mem_cons.mpr ⟨hb, fun c hc => ?_⟩⟩
        exact (hcongr c (hhead c hc)).mp (hall c hc)
    · obtain ⟨e, t, hf, ht⟩ := hbad b List.mem_cons_self s hs hb
      refine .inl ⟨⟨e, t, ?_, ht⟩, b, List.mem_cons_self, hb⟩
      rw [forEach, bind_apply, hf]

end Mpz.Method
