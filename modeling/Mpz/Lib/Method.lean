import Mathlib.Logic.Basic

/-!
# Fallible methods on a mutable receiver

A method `fn f(&mut self, ..) -> Result<A, E>` can return a value, return an error, or panic, and
in each case it leaves a receiver behind: an early return keeps whatever was written before it.
`Method σ ε α` says exactly that, so a statement about the state after an error is a statement
about the same function as one about the state after success.

## Main definitions

* `Outcome` — a value, an error, or a panic, with its monad structure
* `Method` — a method on a receiver of type `σ`, with its monad structure
* `Method.zoom` — a call on one component of the receiver
* `Method.forEach`, `Method.collect` — loops over a list, stopping at the first failure

## Main results

* `Method.bind_eq_ok` — what a successful sequence of calls went through
* `Method.Preserves` and its rules — an invariant kept by every outcome
* `Method.Keeps`, `Method.Moves` and their rules — what every outcome does to a component
-/

namespace Mpz

/-- What a fallible call gives back. -/
inductive Outcome (ε α : Type) where
  /-- It returned a value. -/
  | ok (a : α)
  /-- It returned an error. -/
  | err (e : ε)
  /-- It did not return. -/
  | panic
  deriving DecidableEq, Repr

namespace Outcome

variable {ε ε' α : Type}

/-- The conversion of an error that `?` performs. -/
def mapErr (f : ε → ε') : Outcome ε α → Outcome ε' α
  | ok a => ok a
  | err e => err (f e)
  | panic => panic

instance : Monad (Outcome ε) where
  pure := ok
  bind o f := match o with
    | ok a => f a
    | err e => err e
    | panic => panic

/-- An index that may be out of bounds, or an `unwrap`. -/
def ofOption : Option α → Outcome ε α
  | some a => ok a
  | none => panic

@[simp] theorem ofOption_some (a : α) : (ofOption (some a) : Outcome ε α) = ok a := rfl

@[simp] theorem ofOption_none : (ofOption none : Outcome ε α) = panic := rfl

@[simp] theorem pure_eq_ok (a : α) : (pure a : Outcome ε α) = ok a := rfl

@[simp] theorem ok_bind {β : Type} (a : α) (f : α → Outcome ε β) : (ok a >>= f) = f a := rfl

@[simp] theorem err_bind {β : Type} (e : ε) (f : α → Outcome ε β) :
    ((err e : Outcome ε α) >>= f) = err e := rfl

@[simp] theorem panic_bind {β : Type} (f : α → Outcome ε β) :
    ((panic : Outcome ε α) >>= f) = panic := rfl

theorem bind_eq_ok {β : Type} {o : Outcome ε α} {f : α → Outcome ε β} {b : β} :
    (o >>= f) = ok b ↔ ∃ a, o = ok a ∧ f a = ok b := by
  cases o <;> simp

@[simp] theorem ofOption_eq_ok {o : Option α} {a : α} :
    (ofOption o : Outcome ε α) = ok a ↔ o = some a := by
  cases o <;> simp

@[simp] theorem mapErr_ok (f : ε → ε') (a : α) : (ok a : Outcome ε α).mapErr f = ok a := rfl

@[simp] theorem mapErr_err (f : ε → ε') (e : ε) : (err e : Outcome ε α).mapErr f = err (f e) := rfl

@[simp] theorem mapErr_panic (f : ε → ε') : (panic : Outcome ε α).mapErr f = panic := rfl

@[simp] theorem mapErr_eq_ok {f : ε → ε'} {o : Outcome ε α} {a : α} :
    o.mapErr f = ok a ↔ o = ok a := by
  cases o <;> simp [mapErr]

theorem mapErr_eq_err {f : ε → ε'} {o : Outcome ε α} {e : ε'} :
    o.mapErr f = err e ↔ ∃ e', o = err e' ∧ f e' = e := by
  cases o <;> simp [mapErr]

@[simp] theorem mapErr_eq_panic {f : ε → ε'} {o : Outcome ε α} :
    o.mapErr f = panic ↔ o = panic := by
  cases o <;> simp [mapErr]

end Outcome

/-- A method with a receiver of type `σ`: what it returns, and the receiver it leaves. -/
def Method (σ ε α : Type) : Type := σ → Outcome ε α × σ

namespace Method

variable {σ τ ε ε' α β γ : Type}

instance : Monad (Method σ ε) where
  pure a := fun s => (.ok a, s)
  bind m f := fun s => match m s with
    | (.ok a, s') => f a s'
    | (.err e, s') => (.err e, s')
    | (.panic, s') => (.panic, s')

/-- Return an error. -/
def throw (e : ε) : Method σ ε α := fun s => (.err e, s)

/-- Panic. -/
def panic : Method σ ε α := fun s => (.panic, s)

/-- Read the receiver. -/
def get : Method σ ε σ := fun s => (.ok s, s)

/-- Write the receiver. -/
def modify (f : σ → σ) : Method σ ε Unit := fun s => (.ok (), f s)

/-- A call that does not touch the receiver. -/
def call (o : Outcome ε α) : Method σ ε α := fun s => (o, s)

/-- A method of the component `proj` of the receiver, put back by `put`. -/
def zoom (proj : σ → τ) (put : σ → τ → σ) (into : ε' → ε) (m : Method τ ε' α) : Method σ ε α :=
  fun s => ((m (proj s)).1.mapErr into, put s (m (proj s)).2)

/-- `for b in l { f(b)?; }` -/
def forEach (f : β → Method σ ε Unit) : List β → Method σ ε Unit
  | [] => pure ()
  | b :: l => do f b; forEach f l

/-- `for b in l { acc.extend(f(b)?); }`, returning what was accumulated. -/
def collect (f : β → Method σ ε (List γ)) : List β → Method σ ε (List γ)
  | [] => pure []
  | b :: l => do
    let c ← f b
    let cs ← collect f l
    return c ++ cs

/-! ### Running a method -/

@[simp] theorem pure_apply (a : α) (s : σ) : (pure a : Method σ ε α) s = (.ok a, s) := rfl

@[simp] theorem throw_apply (e : ε) (s : σ) : (throw e : Method σ ε α) s = (.err e, s) := rfl

@[simp] theorem panic_apply (s : σ) : (panic : Method σ ε α) s = (.panic, s) := rfl

@[simp] theorem get_apply (s : σ) : (get : Method σ ε σ) s = (.ok s, s) := rfl

@[simp] theorem modify_apply (f : σ → σ) (s : σ) :
    (modify f : Method σ ε Unit) s = (.ok (), f s) := rfl

@[simp] theorem call_apply (o : Outcome ε α) (s : σ) : (call o : Method σ ε α) s = (o, s) := rfl

@[simp] theorem zoom_apply (proj : σ → τ) (put : σ → τ → σ) (into : ε' → ε) (m : Method τ ε' α)
    (s : σ) : zoom proj put into m s = ((m (proj s)).1.mapErr into, put s (m (proj s)).2) := rfl

/-- A call on a component of a component. -/
theorem zoom_zoom {ρ ε'' : Type} (p : σ → τ) (f : σ → τ → σ) (i : ε' → ε) (q : τ → ρ)
    (g : τ → ρ → τ) (j : ε'' → ε') (m : Method ρ ε'' α) :
    zoom p f i (zoom q g j m) =
      zoom (fun s => q (p s)) (fun s c => f s (g (p s) c)) (fun e => i (j e)) m := by
  funext s
  simp only [zoom_apply]
  rcases m (q (p s)) with ⟨a | e | _, c⟩ <;> rfl

theorem ite_apply (c : Prop) [Decidable c] (m n : Method σ ε α) (s : σ) :
    (if c then m else n) s = if c then m s else n s := by
  split <;> rfl

theorem bind_apply (m : Method σ ε α) (f : α → Method σ ε β) (s : σ) :
    (m >>= f) s = match m s with
      | (.ok a, s') => f a s'
      | (.err e, s') => (.err e, s')
      | (.panic, s') => (.panic, s') := rfl

theorem bind_apply_of_ok {m : Method σ ε α} {f : α → Method σ ε β} {s s' : σ} {a : α}
    (h : m s = (.ok a, s')) : (m >>= f) s = f a s' := by
  rw [bind_apply, h]

@[simp] theorem get_bind (f : σ → Method σ ε α) (s : σ) : (get >>= f) s = f s s := rfl

@[simp] theorem modify_bind (f : σ → σ) (g : Unit → Method σ ε α) (s : σ) :
    (modify f >>= g) s = g () (f s) := rfl

@[simp] theorem call_ok_bind (a : α) (f : α → Method σ ε β) (s : σ) :
    ((call (.ok a) : Method σ ε α) >>= f) s = f a s := rfl

@[simp] theorem pure_bind' (a : α) (f : α → Method σ ε β) (s : σ) :
    ((pure a : Method σ ε α) >>= f) s = f a s := rfl

@[simp] theorem throw_bind (e : ε) (f : α → Method σ ε β) (s : σ) :
    ((throw e : Method σ ε α) >>= f) s = (.err e, s) := rfl

/-- **Inversion of a sequence.** It succeeds exactly when both halves do, the second from the
receiver the first left. -/
theorem bind_eq_ok {m : Method σ ε α} {f : α → Method σ ε β} {s t : σ} {b : β} :
    (m >>= f) s = (.ok b, t) ↔ ∃ a s', m s = (.ok a, s') ∧ f a s' = (.ok b, t) := by
  rw [bind_apply]
  rcases m s with ⟨o, s'⟩
  cases o <;> simp [and_assoc]

/-- **Inversion of a sequence**, whatever it returns: its first half went through, or its outcome is
the one of the first half. -/
theorem bind_cases {m : Method σ ε α} {f : α → Method σ ε β} {s t : σ} {o : Outcome ε β}
    (h : (m >>= f) s = (o, t)) :
    (∃ a s', m s = (.ok a, s') ∧ f a s' = (o, t)) ∨
      (∃ e, m s = (.err e, t) ∧ o = .err e) ∨ m s = (.panic, t) ∧ o = .panic := by
  rw [bind_apply] at h
  rcases hm : m s with ⟨a | e | _, s'⟩ <;> rw [hm] at h
  · exact .inl ⟨a, s', rfl, h⟩
  · obtain ⟨rfl, rfl⟩ := Prod.mk.inj h
    exact .inr (.inl ⟨e, rfl, rfl⟩)
  · obtain ⟨rfl, rfl⟩ := Prod.mk.inj h
    exact .inr (.inr ⟨rfl, rfl⟩)

/-- A sequence panics where one of its halves does. -/
theorem bind_panic_iff {m : Method σ ε α} {f : α → Method σ ε β} {s : σ} :
    ((m >>= f) s).1 = .panic ↔
      (m s).1 = .panic ∨ ∃ a s', m s = (.ok a, s') ∧ (f a s').1 = .panic := by
  rw [bind_apply]
  rcases m s with ⟨a | e | _, s'⟩
  · constructor
    · exact fun h => .inr ⟨a, s', rfl, h⟩
    · rintro (h | ⟨a', t, h, hf⟩)
      · cases h
      · cases h
        exact hf
  · simp
  · simp

theorem call_bind_eq_ok {o : Outcome ε α} {f : α → Method σ ε β} {s t : σ} {b : β} :
    (call o >>= f) s = (.ok b, t) ↔ ∃ a, o = .ok a ∧ f a s = (.ok b, t) := by
  simp only [bind_eq_ok, call_apply, Prod.mk.injEq]
  constructor
  · rintro ⟨a, s', ⟨rfl, rfl⟩, h⟩; exact ⟨a, rfl, h⟩
  · rintro ⟨a, rfl, h⟩; exact ⟨a, s, ⟨rfl, rfl⟩, h⟩

/-- **Inversion of a check.** What passes it did not meet its condition. -/
theorem guard_eq_ok {c : Prop} [Decidable c] {e : ε} {m : Method σ ε α} {s t : σ} {a : α} :
    (if c then throw e else m) s = (.ok a, t) ↔ ¬ c ∧ m s = (.ok a, t) := by
  rw [ite_apply]
  split <;> simp_all

/-- Of two checks, one refuses. -/
theorem guards_refuse {p q : Prop} [Decidable p] [Decidable q] {e e' : ε} {m : Method σ ε α} {s : σ}
    (h : p ∨ q) : ∃ e'', (if p then throw e else if q then throw e' else m) s = (.err e'', s) := by
  rw [ite_apply]
  split
  case isTrue => exact ⟨e, rfl⟩
  case isFalse hp =>
    rw [ite_apply, if_pos (h.resolve_left hp)]
    exact ⟨e', rfl⟩

/-- What a check refuses, it leaves as it was. -/
theorem guard_unchanged {c : Prop} [Decidable c] {e : ε} {m : Method σ ε α} {s t : σ}
    {o : Outcome ε α} (hm : m s = (o, t) → t = s) (h : (if c then throw e else m) s = (o, t)) :
    t = s := by
  rw [ite_apply] at h
  split at h
  · exact (Prod.mk.inj h).2.symm
  · exact hm h

theorem zoom_eq_ok {proj : σ → τ} {put : σ → τ → σ} {into : ε' → ε} {m : Method τ ε' α}
    {s t : σ} {a : α} :
    zoom proj put into m s = (.ok a, t) ↔
      ∃ c, m (proj s) = (.ok a, c) ∧ t = put s c := by
  rw [zoom_apply]
  rcases m (proj s) with ⟨o, c⟩
  cases o <;> simp [and_assoc, eq_comm]

/-! ### Invariants

`Preserves P m` speaks of every outcome: the receiver satisfies `P` after a success, after an
error and at the point of a panic. -/

/-- `m` keeps `P`, whatever it returns. -/
def Preserves (P : σ → Prop) (m : Method σ ε α) : Prop := ∀ s, P s → P (m s).2

section Preserves

variable {P : σ → Prop}

theorem Preserves.pure (a : α) : Preserves P (pure a : Method σ ε α) := fun _ h => h

theorem Preserves.throw (e : ε) : Preserves P (throw e : Method σ ε α) := fun _ h => h

theorem Preserves.panic : Preserves P (panic : Method σ ε α) := fun _ h => h

theorem Preserves.call (o : Outcome ε α) : Preserves P (call o : Method σ ε α) := fun _ h => h

theorem Preserves.modify {f : σ → σ} (h : ∀ s, P s → P (f s)) :
    Preserves P (modify f : Method σ ε Unit) := h

theorem Preserves.bind {m : Method σ ε α} {f : α → Method σ ε β} (hm : Preserves P m)
    (hf : ∀ a, Preserves P (f a)) : Preserves P (m >>= f) := by
  intro s hs
  have h := hm s hs
  rw [bind_apply]
  rcases hms : m s with ⟨o, s'⟩
  rw [hms] at h
  cases o with
  | ok a => exact hf a s' h
  | err e => exact h
  | panic => exact h

/-- The state read by `get` is one that satisfies the invariant. -/
theorem Preserves.get_bind {f : σ → Method σ ε α}
    (hf : ∀ s, P s → P (f s s).2) : Preserves P (get >>= f) := hf

/-- Whatever is read, the calls that follow keep the invariant. -/
theorem Preserves.read {f : σ → Method σ ε α} (hf : ∀ s, Preserves P (f s)) :
    Preserves P (get >>= f) := get_bind fun s => hf s s

theorem Preserves.ite {c : Prop} [Decidable c] {m n : Method σ ε α} (hm : Preserves P m)
    (hn : Preserves P n) : Preserves P (if c then m else n) := by
  split
  · exact hm
  · exact hn

theorem Preserves.zoom {proj : σ → τ} {put : σ → τ → σ} {into : ε' → ε} {m : Method τ ε' α}
    {Q : τ → Prop} (hm : Preserves Q m) (hproj : ∀ s, P s → Q (proj s))
    (hput : ∀ s t, P s → Q t → P (put s t)) : Preserves P (zoom proj put into m) :=
  fun s hs => hput s _ hs (hm _ (hproj s hs))

theorem Preserves.forEach {f : β → Method σ ε Unit} (hf : ∀ b, Preserves P (f b)) :
    ∀ l, Preserves P (forEach f l)
  | [] => Preserves.pure ()
  | b :: l => (hf b).bind fun _ => Preserves.forEach hf l

theorem Preserves.collect {f : β → Method σ ε (List γ)} (hf : ∀ b, Preserves P (f b)) :
    ∀ l, Preserves P (collect f l)
  | [] => Preserves.pure []
  | b :: l => (hf b).bind fun _ => (Preserves.collect hf l).bind fun _ => Preserves.pure _

end Preserves

/-! ### Frames

What a method does to one component of the receiver, whatever it returns. -/

section Frames

variable {proj : σ → τ} {R : τ → τ → Prop}

/-- `m` leaves the component as it was. -/
def Keeps (proj : σ → τ) (m : Method σ ε α) : Prop := ∀ s, proj (m s).2 = proj s

/-- `m` moves the component along `R`. -/
def Moves (proj : σ → τ) (R : τ → τ → Prop) (m : Method σ ε α) : Prop :=
  ∀ s, R (proj s) (proj (m s).2)

theorem Keeps.iff_preserves {m : Method σ ε α} :
    Keeps proj m ↔ ∀ c, Preserves (fun s => proj s = c) m := by
  constructor
  · intro h c s hs
    exact (h s).trans hs
  · intro h s
    exact h (proj s) s rfl

theorem Keeps.eq {m : Method σ ε α} {s t : σ} {o : Outcome ε α} (hm : Keeps proj m)
    (h : m s = (o, t)) : proj t = proj s := by
  have := hm s
  rwa [h] at this

theorem Keeps.preserves {m : Method σ ε α} (hm : Keeps proj m) (P : τ → Prop) :
    Preserves (fun s => P (proj s)) m := by
  intro s hs
  show P (proj (m s).2)
  rwa [hm s]

/-- What keeps a component keeps what is read from it. -/
theorem Keeps.map {ρ : Type} {m : Method σ ε α} (hm : Keeps proj m) (f : τ → ρ) :
    Keeps (fun s => f (proj s)) m := fun s => congrArg f (hm s)

theorem Keeps.pure (a : α) : Keeps proj (pure a : Method σ ε α) := fun _ => rfl

theorem Keeps.throw (e : ε) : Keeps proj (throw e : Method σ ε α) := fun _ => rfl

theorem Keeps.panic : Keeps proj (panic : Method σ ε α) := fun _ => rfl

theorem Keeps.call (o : Outcome ε α) : Keeps proj (call o : Method σ ε α) := fun _ => rfl

theorem Keeps.bind {m : Method σ ε α} {f : α → Method σ ε β} (hm : Keeps proj m)
    (hf : ∀ a, Keeps proj (f a)) : Keeps proj (m >>= f) :=
  iff_preserves.mpr fun c =>
    Preserves.bind (iff_preserves.mp hm c) fun a => iff_preserves.mp (hf a) c

theorem Keeps.get_bind {f : σ → Method σ ε α} (hf : ∀ s, Keeps proj (f s)) :
    Keeps proj (get >>= f) := fun s => hf s s

theorem Keeps.ite {c : Prop} [Decidable c] {m n : Method σ ε α} (hm : Keeps proj m)
    (hn : Keeps proj n) : Keeps proj (if c then m else n) := by
  split
  · exact hm
  · exact hn

theorem Keeps.zoom {ρ : Type} {proj' : σ → ρ} {put : σ → ρ → σ} {into : ε' → ε}
    {m : Method ρ ε' α} (hput : ∀ s c, proj (put s c) = proj s) :
    Keeps proj (zoom proj' put into m) := fun s => hput s _

theorem Keeps.forEach {f : β → Method σ ε Unit} (hf : ∀ b, Keeps proj (f b)) (l : List β) :
    Keeps proj (forEach f l) :=
  iff_preserves.mpr fun c => Preserves.forEach (fun b => iff_preserves.mp (hf b) c) l

theorem Keeps.collect {f : β → Method σ ε (List γ)} (hf : ∀ b, Keeps proj (f b)) (l : List β) :
    Keeps proj (collect f l) :=
  iff_preserves.mpr fun c => Preserves.collect (fun b => iff_preserves.mp (hf b) c) l

variable (proj) in
/-- What a sequence does to a component that its second half keeps. -/
theorem Keeps.bind_eq {m : Method σ ε α} {f : α → Method σ ε β} (hf : ∀ a, Keeps proj (f a))
    (s : σ) :
    proj ((m >>= f) s).2 = proj (m s).2 := by
  rw [bind_apply]
  rcases m s with ⟨a | e | _, s'⟩
  · exact hf a s'
  · rfl
  · rfl

theorem Keeps.moves {m : Method σ ε α} (hR : ∀ c, R c c) (hm : Keeps proj m) : Moves proj R m :=
  fun s => (hm s).symm ▸ hR _

theorem Keeps.bind_moves {m : Method σ ε α} {f : α → Method σ ε β} (hR : ∀ c, R c c)
    (hm : Keeps proj m) (hf : ∀ a, Moves proj R (f a)) : Moves proj R (m >>= f) := by
  intro s
  have h := hm s
  rw [bind_apply]
  rcases hms : m s with ⟨o, s'⟩
  rw [hms] at h
  cases o with
  | ok a => exact h ▸ hf a s'
  | err e => exact h ▸ hR _
  | panic => exact h ▸ hR _

theorem Moves.bind_keeps {m : Method σ ε α} {f : α → Method σ ε β} (hm : Moves proj R m)
    (hf : ∀ a, Keeps proj (f a)) : Moves proj R (m >>= f) := by
  intro s
  have h := hm s
  rw [bind_apply]
  rcases hms : m s with ⟨o, s'⟩
  rw [hms] at h
  cases o with
  | ok a => exact (hf a s').symm ▸ h
  | err e => exact h
  | panic => exact h

theorem Moves.get_bind {f : σ → Method σ ε α} (hf : ∀ s, R (proj s) (proj (f s s).2)) :
    Moves proj R (get >>= f) := hf

end Frames

end Method

end Mpz
