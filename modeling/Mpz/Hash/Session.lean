import Mpz.Hash.Vm
import Mpz.Lib.Run

/-!
# Sessions of a hasher

The data of a message is given to a hasher in pieces, and in between the machine is used by others.
A session is such a sequence of calls and of whatever else is done with the machine. The message is
what the memory comes to hold at the pieces, one after the other.

## Main definitions

* `Hasher.Act`, `Hasher.Step` — the steps of a session
* `Hasher.message` — the message of a session, and its size

## Main results

* `Hasher.session_invariant` — the rule of a session
-/

namespace Mpz.Hasher

variable {H ι : Type}

/-- What happens in a session. -/
inductive Act (ι : Type) where
  /-- The hasher is called, and calls some circuits. -/
  | call (i : ι) (made : List (Call × Slice))
  /-- The machine is used by others. -/
  | other

variable (data : ι → List Slice)

/-- The pieces of the message that are given to the hasher. -/
def Act.pieces : Act ι → List Slice
  | .call i _ => data i
  | .other => []

/-- The circuits that are called by the hasher. -/
def Act.made : Act ι → List (Call × Slice)
  | .call _ made => made
  | .other => []

/-- The length of the message in bits. -/
def messageSize (acts : List (Act ι)) : ℕ := ((acts.flatMap (Act.pieces data)).map Slice.size).sum

/-- The message, of what the memory comes to hold. -/
def message (v : ℕ → Bool) (acts : List (Act ι)) : List Bool :=
  (acts.flatMap (Act.pieces data)).flatMap (Slice.read v)

variable {data}

theorem length_message (v : ℕ → Bool) (acts : List (Act ι)) :
    (message data v acts).length = messageSize data acts := by
  rw [message, List.length_flatMap, messageSize]
  congr 2
  funext slice
  rw [Slice.length_read]

theorem message_append (v : ℕ → Bool) (acts acts' : List (Act ι)) :
    message data v (acts ++ acts') = message data v acts ++ message data v acts' := by
  rw [message, List.flatMap_append, List.flatMap_append, ← message, ← message]

theorem message_call (v : ℕ → Bool) (i : ι) (made : List (Call × Slice)) :
    message data v [.call i made] = (data i).flatMap (Slice.read v) := by
  simp [message, Act.pieces]

theorem message_other (v : ℕ → Bool) : message data v [.other] = [] := rfl

/-- The steps of a session: calls of the hasher on what is allocated, and whatever else is done with
the machine. -/
inductive Step {ε : Type} (data : ι → List Slice) (run : H → ι → Method Vm ε H) :
    H × Vm → Act ι → H × Vm → Prop where
  /-- The hasher is called. -/
  | call {h h' : H} {s t : Vm} {i : ι} {made : List (Call × Slice)} :
    (∀ slice ∈ data i, s.Allocated slice) → run h i s = (.ok h', t) →
    t.calls = s.calls ++ made → Step data run (h, s) (.call i made) (h', t)
  /-- The machine goes on. -/
  | other {h : H} {s t : Vm} : s.Leads t → Step data run (h, s) .other (h, t)

/-- **The rule of a session.** What is kept by every call, and by what else is done with the
machine, holds at its end. -/
theorem session_invariant {ε : Type} {run : H → ι → Method Vm ε H} {acts : List (Act ι)} {h₀ h : H}
    {s t : Vm} {P : List (Act ι) → H → Vm → Prop}
    (hrun : Run (Step data run) (h₀, s) acts (h, t)) (hinit : P [] h₀ s)
    (hcall : ∀ acts h s i, P acts h s → (∀ slice ∈ data i, s.Allocated slice) →
      Vm.Gives (run h i) s fun h' t =>
        ∀ made, t.calls = s.calls ++ made → P (acts ++ [.call i made]) h' t)
    (hother : ∀ acts h s t, P acts h s → s.Leads t → P (acts ++ [.other]) h t) :
    P acts h t ∧ s.Leads t := by
  refine hrun.invariant_labels (P := fun acts p => P acts p.1 p.2 ∧ s.Leads p.2) ⟨hinit, .refl s⟩ ?_
  rintro acts ⟨h, s'⟩ act ⟨h', t⟩ ⟨hP, hleads⟩ hstep
  cases hstep with
  | @call _ _ _ _ i made halloc hok hmade =>
    obtain ⟨hleads', hP'⟩ := (hcall acts h s' i hP halloc).of_eq hok
    exact ⟨hP' made hmade, hleads.trans hleads'⟩
  | other hother' => exact ⟨hother acts h s' t hP hother', hleads.trans hother'⟩

end Mpz.Hasher
