import Mathlib.Data.Finset.Card
import Mathlib.Data.List.Sort
import Mathlib.Logic.Function.Basic
import Mpz.Lib.Run

/-!
# An adaptive barrier

The instances of a barrier wait for each other. The last one to arrive elects a leader among those
that wait, and the leader wakes the others when it is ready to proceed. The barrier adapts to the
number of live instances, which changes when one is cloned or dropped.

A call of `wait` has a number, which is also that of its channel. What has become of it is its
`Progress`: the instance waits at the channel, a result was sent to it, the sender was dropped, or
the leader was given its result and holds it. So the list of waiters that a leader owes a wake-up is
in one place at any time, and it is the progress of the leader's call.

## Two ways to spoil a round

An instance that is dropped while others wait is not expected any more, but nobody looks whether it
was the last one that was missing. And a call of `wait` that is given up has arrived for good: it
counts for its round, and it can be elected. `Act.Careful` rules out these two and nothing else.

## Main definitions

* `AdaptiveBarrier.State` — the state that the instances share
* `AdaptiveBarrier.World`, `AdaptiveBarrier.Act` — the instances and their calls of `wait`
* `AdaptiveBarrier.Inv` — the invariant

## Main results

* `barrier_safe` — what holds in every state that careful steps reach
* `lost_wakeup`, `cancelled_leader` — what the other steps lead to
-/

namespace Mpz

namespace AdaptiveBarrier

/-- A call of `wait` that waits at the barrier: its instance and its channel. -/
structure Waiter where
  /-- The instance. -/
  id : ℕ
  /-- The channel. -/
  sender : ℕ
  deriving DecidableEq, Repr

/-- Result returned by `wait`. -/
inductive BarrierResult where
  /-- The current instance was elected as the leader. -/
  | leader (waiters : List Waiter)
  /-- The current instance waited for the leader. -/
  | waiter
  deriving DecidableEq, Repr

/-- The state that the instances share. -/
structure State where
  /-- Number of live clones. -/
  alive : ℕ
  /-- Next clone id. -/
  idNext : ℕ
  /-- Number of clones that have arrived. -/
  arrived : ℕ
  /-- Number of clones expected to arrive. -/
  expected : ℕ
  /-- Waiters for the barrier. -/
  waiters : List Waiter
  deriving DecidableEq, Repr

namespace State

variable (s : State)

/-- The state of no instance. -/
def default : State := ⟨0, 0, 0, 0, []⟩

/-- Some instance has arrived. -/
def isPending : Bool := s.arrived != 0

/-- As many have arrived as are expected. -/
def isReady : Bool := s.arrived == s.expected

/-- Registers a new clone. -/
def register : Outcome Empty (ℕ × State) :=
  if s.isPending then .panic
  else .ok (s.idNext, { s with idNext := s.idNext + 1, alive := s.alive + 1 })

/-- Deregisters a clone. -/
def deregister : State :=
  { s with alive := s.alive - 1, expected := if s.isPending then s.expected - 1 else s.expected }

/-- One more arrives. -/
def arrive : State := { s with arrived := s.arrived + 1 }

/-- The first one arrives. -/
def start : State := { s with arrived := 1, expected := s.alive }

/-- Joins the waiters. -/
def wait (id sender : ℕ) : State := { s with waiters := s.waiters ++ [⟨id, sender⟩] }

end State

/-- How far a call of `wait` has come. -/
inductive Progress where
  /-- It waits at its channel. -/
  | waiting
  /-- A result was sent to it. -/
  | sent (result : BarrierResult)
  /-- Its sender was dropped. -/
  | closed
  /-- It returned to a leader, which holds the waiters. -/
  | holds (waiters : List Waiter)
  /-- It is over, and nothing is left of its result. -/
  | over
  deriving DecidableEq, Repr

/-- Who is to be woken by the leader that has this result. -/
def Progress.waiters : Progress → List Waiter
  | sent (.leader ws) => ws
  | holds ws => ws
  | _ => []

/-- The sender of channel `n` sends or is dropped. It is too late for a call that is over. -/
def deliver (p : Progress) (calls : ℕ → Progress) (n : ℕ) : ℕ → Progress :=
  if calls n = .waiting then Function.update calls n p else calls

/-- The instances of a barrier, and their calls of `wait`. -/
structure World where
  /-- The state that the instances share. -/
  state : State
  /-- The instances. -/
  live : Finset ℕ
  /-- The call of an instance that is waiting. -/
  pending : ℕ → Option ℕ
  /-- The calls of `wait`. -/
  calls : ℕ → Progress
  /-- The number of the next call. -/
  next : ℕ

namespace World

/-- Creates a new barrier. -/
def new : World :=
  ⟨{ State.default with alive := 1, idNext := 1 }, {0}, fun _ => none, fun _ => .over, 0⟩

variable (w : World)

/-- Clones an instance. -/
def clone : Outcome Empty World :=
  match w.state.register with
  | .ok (id, state) => .ok { w with state, live := insert id w.live }
  | _ => .panic

/-- The waiter with the highest id is sent the others. -/
def wakeLeader : Outcome Empty World :=
  let waiters := w.state.waiters.insertionSort fun v u => v.id ≤ u.id
  match waiters.getLast? with
  | none => .panic
  | some leader =>
    if w.calls leader.sender = .waiting then
      .ok { w with
        calls := Function.update w.calls leader.sender (.sent (.leader waiters.dropLast))
        state := { w.state with waiters := [], arrived := 0, expected := 0 } }
    else .panic

/-- An instance arrives, and its call of `wait` gets to the channel. -/
def arrive (i : ℕ) : World :=
  { w with
    state := (if w.state.isPending then w.state.arrive else w.state.start).wait i w.next
    pending := Function.update w.pending i (some w.next)
    calls := Function.update w.calls w.next .waiting
    next := w.next + 1 }

/-- Waits until all instances of the barrier have arrived. -/
def wait (i : ℕ) : Outcome Empty World :=
  if w.state.alive = 1 then
    .ok { w with calls := Function.update w.calls w.next (.holds []), next := w.next + 1 }
  else if (w.arrive i).state.isReady then (w.arrive i).wakeLeader
  else .ok (w.arrive i)

/-- A call of `wait` that was sent something returns. -/
def resume (i : ℕ) : World :=
  match w.pending i with
  | none => w
  | some n =>
    { w with
      pending := Function.update w.pending i none
      calls := Function.update w.calls n <|
        match w.calls n with
        | .sent (.leader ws) => .holds ws
        | _ => .over }

/-- Nothing is left of a call of `wait`, and the waiters it had are woken, or their senders
dropped. -/
def release (q : Progress) (n : ℕ) : World :=
  { w with
    calls := ((w.calls n).waiters.map Waiter.sender).foldl (deliver q)
      (Function.update w.calls n .over) }

/-- A call of `wait` is given up. -/
def cancel (i : ℕ) : World :=
  match w.pending i with
  | none => w
  | some n => { w.release .closed n with pending := Function.update w.pending i none }

/-- An instance is dropped, and with it its call of `wait`. -/
def drop (i : ℕ) : World :=
  { w.cancel i with state := w.state.deregister, live := w.live.erase i }

end World

/-- What can happen. -/
inductive Act where
  /-- An instance is cloned. -/
  | clone (i : ℕ)
  /-- An instance waits. -/
  | wait (i : ℕ)
  /-- A call of `wait` returns. -/
  | resume (i : ℕ)
  /-- A call of `wait` is given up. -/
  | cancel (i : ℕ)
  /-- An instance is dropped. -/
  | drop (i : ℕ)
  /-- The leader proceeds past the barrier. -/
  | proceed (n : ℕ)
  /-- The leader drops its result. -/
  | dropResult (n : ℕ)
  deriving DecidableEq, Repr

namespace Act

variable (w : World)

/-- What can happen now. A call of `wait` borrows its instance. -/
def Enabled : Act → Prop
  | clone i => i ∈ w.live ∧ w.pending i = none
  | wait i => i ∈ w.live ∧ w.pending i = none
  | resume i => ∃ n ∈ w.pending i, w.calls n ≠ .waiting
  | cancel i => w.pending i ≠ none
  | drop i => i ∈ w.live
  | proceed n => ∃ ws, w.calls n = .holds ws
  | dropResult n => ∃ ws, w.calls n = .holds ws

instance : DecidablePred fun n => ∃ ws, w.calls n = .holds ws := fun n =>
  match h : w.calls n with
  | .holds ws => isTrue ⟨ws, h⟩
  | .waiting | .sent _ | .closed | .over => isFalse (by rintro ⟨ws, h'⟩; cases h.symm.trans h')

instance : DecidablePred fun i => ∃ n ∈ w.pending i, w.calls n ≠ .waiting := fun i =>
  decidable_of_iff ((w.pending i).any fun n => w.calls n ≠ .waiting) <| by
    rw [Option.any_eq_true]
    simp

instance : (a : Act) → Decidable (a.Enabled w)
  | clone i | wait i => inferInstanceAs (Decidable (i ∈ w.live ∧ w.pending i = none))
  | resume i => inferInstanceAs (Decidable (∃ n ∈ w.pending i, w.calls n ≠ .waiting))
  | cancel i => inferInstanceAs (Decidable (w.pending i ≠ none))
  | drop i => inferInstanceAs (Decidable (i ∈ w.live))
  | proceed n | dropResult n => inferInstanceAs (Decidable (∃ ws, w.calls n = .holds ws))

/-- What it does. -/
def run : Act → Outcome Empty World
  | clone _ => w.clone
  | wait i => w.wait i
  | resume i => .ok (w.resume i)
  | cancel i => .ok (w.cancel i)
  | drop i => .ok (w.drop i)
  | proceed n => .ok (w.release (.sent .waiter) n)
  | dropResult n => .ok (w.release .closed n)

/-- A call of `wait` is not given up before its round is released, and an instance is not dropped
where it is the last one that is missing. -/
def Careful : Act → Prop
  | cancel i => i ∉ w.state.waiters.map Waiter.id
  | drop i => i ∉ w.state.waiters.map Waiter.id ∧
      (w.state.isPending → w.state.arrived + 1 < w.state.expected)
  | _ => True

instance : (a : Act) → Decidable (a.Careful w)
  | cancel i => inferInstanceAs (Decidable (i ∉ w.state.waiters.map Waiter.id))
  | drop i => inferInstanceAs (Decidable (i ∉ w.state.waiters.map Waiter.id ∧
      (w.state.isPending → w.state.arrived + 1 < w.state.expected)))
  | clone _ | wait _ | resume _ | proceed _ | dropResult _ => isTrue trivial

end Act

/-- A step. -/
def Step (w : World) (a : Act) (w' : World) : Prop := a.Enabled w ∧ a.run w = .ok w'

/-- A careful step. -/
def CarefulStep (w : World) (a : Act) (w' : World) : Prop := a.Careful w ∧ Step w a w'

/-- The state behind a step. -/
def next (w : World) (a : Act) : Option World :=
  match a.run w with
  | .ok w' => if a.Enabled w then some w' else none
  | _ => none

/-- The state behind a careful step. -/
def carefulNext (w : World) (a : Act) : Option World :=
  if a.Careful w then next w a else none

theorem step_of_next (w : World) (a : Act) (w' : World) (h : next w a = some w') : Step w a w' := by
  rw [next] at h
  split at h
  next u hrun =>
    split at h
    next hen =>
      obtain rfl := Option.some.inj h
      exact ⟨hen, hrun⟩
    next => cases h
  next => cases h

theorem carefulStep_of_next (w : World) (a : Act) (w' : World) (h : carefulNext w a = some w') :
    CarefulStep w a w' := by
  rw [carefulNext] at h
  split at h
  next hcare => exact ⟨hcare, step_of_next w a w' h⟩
  next => cases h

/-- Every instance waits at the barrier, and nobody is elected. -/
def World.Stuck (w : World) : Prop :=
  w.live.Nonempty ∧ ∀ i ∈ w.live, ∃ n, w.pending i = some n ∧ w.calls n = .waiting ∧
    ∀ m, ⟨i, n⟩ ∉ (w.calls m).waiters

/-! ### The invariant -/

/-- Every waiter is accounted for, by the state or by the result of one leader. -/
structure Tracked (w : World) : Prop where
  alive : w.state.alive = w.live.card
  idNext : ∀ i ∈ w.live, i < w.state.idNext
  arrived : w.state.arrived = w.state.waiters.length
  nodup : (w.state.waiters.map Waiter.id).Nodup
  /-- The waiters of the state wait at their channels. -/
  parked : ∀ v ∈ w.state.waiters, w.pending v.id = some v.sender ∧ w.calls v.sender = .waiting
  pending : ∀ i n, w.pending i = some n →
    i ∈ w.live ∧ n < w.next ∧ w.calls n ≠ .over ∧ ∀ ws, w.calls n ≠ .holds ws
  inj : ∀ i j n, w.pending i = some n → w.pending j = some n → i = j
  fresh : ∀ n, w.next ≤ n → w.calls n = .over
  /-- The waiters of a leader wait at their channels, where it has not woken them. -/
  listed : ∀ n, ∀ v ∈ (w.calls n).waiters,
    v.sender < w.next ∧ (w.calls v.sender = .waiting → w.pending v.id = some v.sender)
  /-- They are not those of the state. -/
  apart : ∀ n, ∀ v ∈ (w.calls n).waiters, ∀ u ∈ w.state.waiters, v.sender ≠ u.sender
  /-- They have one leader. -/
  disjoint : ∀ n m, ∀ v ∈ (w.calls n).waiters, ∀ u ∈ (w.calls m).waiters,
    v.sender = u.sender → n = m
  /-- Whoever waits is on a list. -/
  owed : ∀ i n, w.pending i = some n → w.calls n = .waiting →
    ⟨i, n⟩ ∈ w.state.waiters ∨ ∃ m, ⟨i, n⟩ ∈ (w.calls m).waiters

/-- Besides, a round that is pending waits for an instance. -/
structure Inv (w : World) : Prop extends Tracked w where
  expected : w.state.waiters ≠ [] →
    w.state.expected = w.state.alive ∧ w.state.waiters.length < w.state.alive

@[simp] theorem waiters_waiting : Progress.waiting.waiters = [] := rfl

@[simp] theorem waiters_over : Progress.over.waiters = [] := rfl

@[simp] theorem waiters_closed : Progress.closed.waiters = [] := rfl

@[simp] theorem waiters_sent_waiter : (Progress.sent .waiter).waiters = [] := rfl

@[simp] theorem waiters_sent_leader (ws : List Waiter) :
    (Progress.sent (.leader ws)).waiters = ws := rfl

@[simp] theorem waiters_holds (ws : List Waiter) : (Progress.holds ws).waiters = ws := rfl

theorem Inv.new : Inv World.new where
  alive := rfl
  idNext i hi := by
    rw [Finset.mem_singleton.mp hi]
    exact Nat.zero_lt_one
  arrived := rfl
  expected h := absurd rfl h
  nodup := List.nodup_nil
  parked := nofun
  pending := nofun
  inj := nofun
  fresh _ _ := rfl
  listed := nofun
  apart := nofun
  disjoint := nofun
  owed := nofun

namespace Tracked

variable {w : World} (h : Tracked w)
include h

theorem isPending_iff : w.state.isPending ↔ w.state.waiters ≠ [] := by
  rw [State.isPending, bne_iff_ne, h.arrived, ne_eq, List.length_eq_zero_iff]

theorem waiters_eq_nil (hw : ¬ w.state.isPending) : w.state.waiters = [] := by
  rwa [h.isPending_iff, not_not] at hw

theorem lt_next {n : ℕ} (hn : w.calls n ≠ .over) : n < w.next := by
  by_contra hle
  exact hn (h.fresh n (not_lt.mp hle))

theorem id_ne {i : ℕ} (hi : w.pending i = none) : ∀ v ∈ w.state.waiters, v.id ≠ i := by
  rintro v hv rfl
  have hv := (h.parked v hv).1
  rw [hi] at hv
  cases hv

/-- Who has not arrived is not at the call of a waiter. -/
theorem sender_ne {i n : ℕ} (hi : w.pending i = some n) (hid : i ∉ w.state.waiters.map Waiter.id) :
    ∀ v ∈ w.state.waiters, v.sender ≠ n := by
  rintro v hv rfl
  exact hid (List.mem_map.mpr ⟨v, hv, h.inj _ _ _ (h.parked v hv).1 hi⟩)

end Tracked

/-! ### What is delivered -/

/-- A call that has come this far, and not in this step, had come so far before. -/
theorem eq_of_update {calls : ℕ → Progress} {n m : ℕ} {p q : Progress}
    (h : Function.update calls n p m = q) (hpq : p ≠ q) : calls m = q := by
  rcases eq_or_ne m n with rfl | hmn
  · rw [Function.update_self] at h
    exact absurd h hpq
  · rwa [Function.update_of_ne hmn] at h

theorem deliver_apply (p : Progress) (calls : ℕ → Progress) (n m : ℕ) :
    deliver p calls n m = if m = n ∧ calls m = .waiting then p else calls m := by
  rw [deliver]
  by_cases hmn : m = n
  · subst hmn
    split <;> simp_all
  · split <;> simp [hmn]

theorem foldl_deliver_apply {p : Progress} (hp : p ≠ .waiting) (l : List ℕ) (calls : ℕ → Progress)
    (m : ℕ) : l.foldl (deliver p) calls m =
      if m ∈ l ∧ calls m = .waiting then p else calls m := by
  induction l generalizing calls with
  | nil => simp
  | cons n l ih =>
    rw [List.foldl_cons, ih, deliver_apply]
    by_cases hw : calls m = .waiting
    · rcases eq_or_ne m n with rfl | hmn
      · simp [hw, hp]
      · simp [hw, hmn]
    · simp [hw]

/-- What a leader sends to its waiters, or leaves them with. -/
def IsSignal (q : Progress) : Prop := q = .closed ∨ q = .sent .waiter

namespace World

variable {w : World} {q : Progress}

theorem release_calls (hq : IsSignal q) (n m : ℕ) : (w.release q n).calls m =
    if m = n then .over
    else if m ∈ (w.calls n).waiters.map Waiter.sender ∧ w.calls m = .waiting then q
    else w.calls m := by
  have hne : q ≠ .waiting := by
    rcases hq with rfl | rfl <;> nofun
  show ((w.calls n).waiters.map Waiter.sender).foldl (deliver q) _ m = _
  rw [foldl_deliver_apply hne]
  by_cases hmn : m = n
  · subst hmn
    simp
  · simp [hmn]

/-- The lists of the other leaders are left alone. -/
theorem release_waiters (hq : IsSignal q) (n m : ℕ) : ((w.release q n).calls m).waiters =
    if m = n then [] else (w.calls m).waiters := by
  rw [release_calls hq]
  by_cases hmn : m = n
  · rw [if_pos hmn, if_pos hmn, waiters_over]
  · rw [if_neg hmn, if_neg hmn]
    split
    next hm => rcases hq with rfl | rfl <;> simp [hm.2]
    next => rfl

theorem release_calls_eq_waiting (hq : IsSignal q) {n m : ℕ} :
    (w.release q n).calls m = .waiting ↔
      m ≠ n ∧ m ∉ (w.calls n).waiters.map Waiter.sender ∧ w.calls m = .waiting := by
  rw [release_calls hq]
  by_cases hmn : m = n
  · simp [hmn]
  · rw [if_neg hmn]
    split
    next hm => rcases hq with rfl | rfl <;> simp [hm.1]
    next hm =>
      constructor
      · exact fun hw => ⟨hmn, fun hm' => hm ⟨hm', hw⟩, hw⟩
      · exact fun hw => hw.2.2

end World

/-! ### What keeps the invariant -/

/-- The instance of the call `n` does not wait any more. -/
def World.unpend (w : World) (n j : ℕ) : Option ℕ :=
  if w.pending j = some n then none else w.pending j

theorem World.unpend_eq_some {w : World} {n j m : ℕ} :
    w.unpend n j = some m ↔ w.pending j = some m ∧ m ≠ n := by
  rw [unpend]
  split
  next hj => simp [hj, eq_comm]
  next hj =>
    constructor
    · exact fun hm => ⟨hm, fun hmn => hj (hmn ▸ hm)⟩
    · exact fun hm => hm.1

namespace Tracked

variable {w : World} (h : Tracked w)
include h

theorem unpend_eq_update {i n : ℕ} (hi : w.pending i = some n) :
    w.unpend n = Function.update w.pending i none := by
  funext j
  rw [World.unpend]
  rcases eq_or_ne j i with rfl | hji
  · rw [if_pos hi, Function.update_self]
  · rw [if_neg fun hj => hji (h.inj _ _ _ hj hi), Function.update_of_ne hji]

theorem unpend_eq_self {n : ℕ} {ws : List Waiter} (hn : w.calls n = .holds ws) :
    w.unpend n = w.pending := by
  funext j
  rw [World.unpend, if_neg]
  exact fun hj => (h.pending j n hj).2.2.2 ws hn

/-- **The rule of a call that does not wait any more.** The call `n` is settled, and so are the
calls on the lists that go away. -/
theorem settle {calls : ℕ → Progress} {n : ℕ}
    (hwait : ∀ m, calls m = .waiting → m ≠ n ∧ w.calls m = .waiting)
    (hparked : ∀ v ∈ w.state.waiters, calls v.sender = .waiting)
    (hlist : ∀ m, (calls m).waiters = (w.calls m).waiters ∨
      (calls m).waiters = [] ∧ ∀ v ∈ (w.calls m).waiters, calls v.sender ≠ .waiting)
    (hover : ∀ m ≠ n, (calls m = .over ↔ w.calls m = .over) ∧
      ∀ ws, calls m = .holds ws → w.calls m = .holds ws)
    (hn : n < w.next) :
    Tracked { w with calls := calls, pending := w.unpend n } := by
  have hsub : ∀ m, ∀ v ∈ (calls m).waiters, v ∈ (w.calls m).waiters := by
    intro m v hv
    rcases hlist m with hm | ⟨hm, -⟩
    · rwa [← hm]
    · rw [hm] at hv
      cases hv
  refine ⟨h.alive, h.idNext, h.arrived, h.nodup, ?parked, ?pending, ?inj, ?fresh, ?listed, ?apart,
    ?disjoint, ?owed⟩
  case parked =>
    intro v hv
    exact ⟨World.unpend_eq_some.mpr ⟨(h.parked v hv).1, (hwait _ (hparked v hv)).1⟩, hparked v hv⟩
  case pending =>
    intro i m hi
    obtain ⟨hi, hmn⟩ := World.unpend_eq_some.mp hi
    obtain ⟨hlive, hlt, hne, hholds⟩ := h.pending i m hi
    obtain ⟨hiff, hws⟩ := hover m hmn
    exact ⟨hlive, hlt, hiff.not.mpr hne, fun ws hm => hholds ws (hws ws hm)⟩
  case inj =>
    intro i j m hi hj
    exact h.inj i j m (World.unpend_eq_some.mp hi).1 (World.unpend_eq_some.mp hj).1
  case fresh =>
    intro m hm
    exact (hover m (hn.trans_le hm).ne').1.mpr (h.fresh m hm)
  case listed =>
    intro m v hv
    obtain ⟨hlt, hpend⟩ := h.listed m v (hsub m v hv)
    refine ⟨hlt, fun hw => ?_⟩
    obtain ⟨hne, hw⟩ := hwait _ hw
    exact World.unpend_eq_some.mpr ⟨hpend hw, hne⟩
  case apart =>
    intro m v hv
    exact h.apart m v (hsub m v hv)
  case disjoint =>
    intro m k v hv u hu
    exact h.disjoint m k v (hsub m v hv) u (hsub k u hu)
  case owed =>
    intro i m hi hw
    refine (h.owed i m (World.unpend_eq_some.mp hi).1 (hwait m hw).2).imp_right ?_
    rintro ⟨k, hk⟩
    refine ⟨k, ?_⟩
    show _ ∈ (calls k).waiters
    rcases hlist k with hm | ⟨-, hall⟩
    · rwa [hm]
    · exact absurd hw (hall _ hk)

/-- A call that is over settles its list. -/
theorem release {q : Progress} (hq : IsSignal q) {n : ℕ}
    (hn : ∀ v ∈ w.state.waiters, v.sender ≠ n) (hlt : n < w.next) :
    Tracked { w.release q n with pending := w.unpend n } := by
  show Tracked { w with calls := (w.release q n).calls, pending := w.unpend n }
  refine h.settle ?_ ?_ ?_ ?_ hlt
  · intro m hm
    obtain ⟨hmn, -, hw⟩ := (World.release_calls_eq_waiting hq).mp hm
    exact ⟨hmn, hw⟩
  · intro v hv
    refine (World.release_calls_eq_waiting hq).mpr ⟨hn v hv, fun hm => ?_, (h.parked v hv).2⟩
    obtain ⟨u, hu, huv⟩ := List.mem_map.mp hm
    exact h.apart n u hu v hv huv
  · intro m
    rw [World.release_waiters hq]
    rcases eq_or_ne m n with rfl | hmn
    · refine .inr ⟨if_pos rfl, fun v hv hw => ?_⟩
      exact ((World.release_calls_eq_waiting hq).mp hw).2.1 (List.mem_map.mpr ⟨v, hv, rfl⟩)
    · exact .inl (if_neg hmn)
  · intro m hmn
    rw [World.release_calls hq, if_neg hmn]
    split
    next hm => rcases hq with rfl | rfl <;> simp [hm.2]
    next => exact ⟨Iff.rfl, fun _ hm => hm⟩

/-- A call that returns takes its list with it. -/
theorem resume {i n : ℕ} (hi : w.pending i = some n) (hw : w.calls n ≠ .waiting) :
    Tracked (w.resume i) := by
  have hcalls : ∃ p : Progress, p ≠ .waiting ∧ p.waiters = (w.calls n).waiters ∧
      w.resume i = { w with calls := Function.update w.calls n p, pending := w.unpend n } := by
    rw [World.resume, hi, h.unpend_eq_update hi]
    refine ⟨_, ?_, ?_, rfl⟩
    · split <;> nofun
    · obtain ⟨-, -, -, hholds⟩ := h.pending i n hi
      split
      next heq => rw [heq, waiters_sent_leader, waiters_holds]
      next hne =>
        rcases hp : w.calls n with _ | ⟨ws | _⟩ | _ | ws | _
        · rfl
        · exact absurd hp (hne ws)
        · rfl
        · rfl
        · exact absurd hp (hholds ws)
        · rfl
  obtain ⟨p, hp, hlist, heq⟩ := hcalls
  have hself : ∀ m, m ≠ n → Function.update w.calls n p m = w.calls m := fun m hmn =>
    Function.update_of_ne hmn _ _
  rw [heq]
  refine h.settle ?_ ?_ ?_ ?_ (h.pending i n hi).2.1
  · intro m hm
    rcases eq_or_ne m n with rfl | hmn
    · rw [Function.update_self] at hm
      exact absurd hm hp
    · rw [hself m hmn] at hm
      exact ⟨hmn, hm⟩
  · intro v hv
    obtain ⟨-, hv⟩ := h.parked v hv
    rw [hself _ fun hvn => hw (hvn ▸ hv)]
    exact hv
  · intro m
    rcases eq_or_ne m n with rfl | hmn
    · rw [Function.update_self]
      exact .inl hlist
    · rw [hself m hmn]
      exact .inl rfl
  · intro m hmn
    rw [hself m hmn]
    exact ⟨Iff.rfl, fun _ hm => hm⟩

/-- A call that is given up. -/
theorem cancel {i : ℕ} (hid : i ∉ w.state.waiters.map Waiter.id) : Tracked (w.cancel i) := by
  rw [World.cancel]
  split
  next => exact h
  next n hi =>
    rw [← h.unpend_eq_update hi]
    exact h.release (.inl rfl) (h.sender_ne hi hid) (h.pending i n hi).2.1

omit h in
theorem arrive_waiters (i : ℕ) :
    (w.arrive i).state.waiters = w.state.waiters ++ [⟨i, w.next⟩] := by
  show ((if w.state.isPending then w.state.arrive else w.state.start).wait i w.next).waiters = _
  split <;> rfl

omit h in
theorem arrive_waiters_ne_nil (i : ℕ) : (w.arrive i).state.waiters ≠ [] := by
  rw [arrive_waiters]
  exact List.append_ne_nil_of_right_ne_nil _ (List.cons_ne_nil _ _)

/-- A new call gets a channel. -/
theorem arrive {i : ℕ} (hi : i ∈ w.live) (hnone : w.pending i = none) : Tracked (w.arrive i) := by
  have hover : w.calls w.next = .over := h.fresh _ le_rfl
  have hstate := arrive_waiters (w := w) i
  have hself : ∀ {m}, m ≠ w.next → (w.arrive i).calls m = w.calls m := fun hm =>
    Function.update_of_ne hm _ _
  have hnext : (w.arrive i).calls w.next = .waiting := Function.update_self ..
  have hpend : ∀ {j}, j ≠ i → (w.arrive i).pending j = w.pending j := fun hj =>
    Function.update_of_ne hj _ _
  have hpi : (w.arrive i).pending i = some w.next := Function.update_self ..
  have hlist : ∀ m, ∀ v ∈ ((w.arrive i).calls m).waiters, v ∈ (w.calls m).waiters := by
    intro m v hv
    rcases eq_or_ne m w.next with rfl | hm
    · rw [hnext] at hv
      cases hv
    · rwa [hself hm] at hv
  have hmem : ∀ {v}, v ∈ (w.arrive i).state.waiters → v ∈ w.state.waiters ∨ v = ⟨i, w.next⟩ := by
    intro v hv
    rwa [hstate, List.mem_append, List.mem_singleton] at hv
  refine ⟨?alive, ?idNext, ?arrived, ?nodup, ?parked, ?pending, ?inj, ?fresh, ?listed, ?apart,
    ?disjoint, ?owed⟩
  case alive =>
    rw [World.arrive]
    split <;> exact h.alive
  case idNext =>
    intro j hj
    rw [World.arrive]
    split <;> exact h.idNext j hj
  case arrived =>
    rw [hstate, List.length_append, List.length_singleton, ← h.arrived]
    rw [World.arrive]
    split
    next => rfl
    next hp =>
      rw [State.isPending, bne_iff_ne, not_not] at hp
      rw [hp]
      rfl
  case nodup =>
    rw [hstate, List.map_append, List.nodup_append]
    refine ⟨h.nodup, List.nodup_singleton _, ?_⟩
    intro id hid id' hid' heq
    obtain ⟨v, hv, rfl⟩ := List.mem_map.mp hid
    exact h.id_ne hnone v hv (heq.trans (List.mem_singleton.mp hid'))
  case parked =>
    intro v hv
    rcases hmem hv with hv | rfl
    · obtain ⟨hp, hw⟩ := h.parked v hv
      rw [hpend (h.id_ne hnone v hv), hself fun hn => by rw [hn, hover] at hw; cases hw]
      exact ⟨hp, hw⟩
    · exact ⟨hpi, hnext⟩
  case pending =>
    intro j n hj
    rcases eq_or_ne j i with rfl | hji
    · obtain rfl := Option.some.inj (hpi.symm.trans hj)
      refine ⟨hi, Nat.lt_succ_self _, ?_⟩
      rw [hnext]
      exact ⟨nofun, nofun⟩
    · rw [hpend hji] at hj
      obtain ⟨hlive, hlt, hrest⟩ := h.pending j n hj
      rw [hself hlt.ne]
      exact ⟨hlive, Nat.lt_succ_of_lt hlt, hrest⟩
  case inj =>
    intro j k n hj hk
    rcases eq_or_ne j i with rfl | hji <;> rcases eq_or_ne k j with rfl | hkj
    · rfl
    · obtain rfl := Option.some.inj (hpi.symm.trans hj)
      rw [hpend hkj] at hk
      exact absurd (h.pending k _ hk).2.1 (lt_irrefl _)
    · rfl
    · rw [hpend hji] at hj
      rcases eq_or_ne k i with rfl | hki
      · obtain rfl := Option.some.inj (hpi.symm.trans hk)
        exact absurd (h.pending j _ hj).2.1 (lt_irrefl _)
      · rw [hpend hki] at hk
        exact h.inj j k n hj hk
  case fresh =>
    intro m hm
    rw [hself (Nat.lt_of_succ_le hm).ne']
    exact h.fresh m (Nat.le_of_succ_le hm)
  case listed =>
    intro m v hv
    obtain ⟨hlt, hw⟩ := h.listed m v (hlist m v hv)
    refine ⟨Nat.lt_succ_of_lt hlt, fun hwait => ?_⟩
    rw [hself hlt.ne] at hwait
    rw [hpend]
    · exact hw hwait
    · rintro rfl
      rw [hnone] at hw
      cases hw hwait
  case apart =>
    intro m v hv u hu
    have hv := hlist m v hv
    rcases hmem hu with hu | rfl
    · exact h.apart m v hv u hu
    · exact (h.listed m v hv).1.ne
  case disjoint =>
    intro m k v hv u hu
    exact h.disjoint m k v (hlist m v hv) u (hlist k u hu)
  case owed =>
    intro j n hj hw
    rw [hstate, List.mem_append, List.mem_singleton]
    rcases eq_or_ne j i with rfl | hji
    · obtain rfl := Option.some.inj (hpi.symm.trans hj)
      exact .inl (.inr rfl)
    · rw [hpend hji] at hj
      have hlt := (h.pending j n hj).2.1
      rw [hself hlt.ne] at hw
      rcases h.owed j n hj hw with hm | ⟨m, hm⟩
      · exact .inl (.inl hm)
      · refine .inr ⟨m, ?_⟩
        rcases eq_or_ne m w.next with rfl | hmn
        · rw [hover] at hm
          cases hm
        · rwa [hself hmn]

/-- A call that returns at once. -/
theorem lone : Tracked { w with
    calls := Function.update w.calls w.next (.holds []), next := w.next + 1 } := by
  have hself : ∀ {m}, m ≠ w.next →
      Function.update w.calls w.next (.holds []) m = w.calls m := fun hm =>
    Function.update_of_ne hm _ _
  have hlist : ∀ m, (Function.update w.calls w.next (.holds []) m).waiters =
      (w.calls m).waiters := by
    intro m
    rcases eq_or_ne m w.next with rfl | hm
    · rw [Function.update_self, h.fresh _ le_rfl]
      rfl
    · rw [hself hm]
  have hwait : ∀ m, Function.update w.calls w.next (.holds []) m = .waiting ↔
      w.calls m = .waiting := by
    intro m
    rcases eq_or_ne m w.next with rfl | hm
    · rw [Function.update_self, h.fresh _ le_rfl]
      exact iff_of_false nofun nofun
    · rw [hself hm]
  refine ⟨h.alive, h.idNext, h.arrived, h.nodup, ?parked, ?pending, h.inj, ?fresh, ?listed, ?apart,
    ?disjoint, ?owed⟩
  case parked =>
    intro v hv
    exact (h.parked v hv).imp_right (hwait _).mpr
  case pending =>
    intro i n hi
    obtain ⟨hlive, hlt, hrest⟩ := h.pending i n hi
    rw [← hself hlt.ne] at hrest
    exact ⟨hlive, Nat.lt_succ_of_lt hlt, hrest⟩
  case fresh =>
    intro m hm
    exact (hself (Nat.lt_of_succ_le hm).ne').trans (h.fresh m (Nat.le_of_succ_le hm))
  case listed =>
    intro m v hv
    have hv : v ∈ (w.calls m).waiters := hlist m ▸ hv
    obtain ⟨hlt, hw⟩ := h.listed m v hv
    exact ⟨Nat.lt_succ_of_lt hlt, fun hw' => hw ((hwait _).mp hw')⟩
  case apart =>
    intro m v hv
    exact h.apart m v (hlist m ▸ hv)
  case disjoint =>
    intro m k v hv u hu
    exact h.disjoint m k v (hlist m ▸ hv) u (hlist k ▸ hu)
  case owed =>
    intro i n hi hw
    refine (h.owed i n hi ((hwait n).mp hw)).imp_right ?_
    rintro ⟨m, hm⟩
    refine ⟨m, ?_⟩
    show _ ∈ (Function.update w.calls w.next (.holds []) m).waiters
    rwa [hlist]

/-- **The election.** Of the calls that wait, one is the leader and is sent the others. -/
theorem wakeLeader (hw : w.state.waiters ≠ []) : ∃ leader ws w',
    w.wakeLeader = .ok w' ∧ (ws ++ [leader]).Perm w.state.waiters ∧
    (∀ v ∈ ws, v.id < leader.id) ∧ w' = { w with
      calls := Function.update w.calls leader.sender (.sent (.leader ws))
      state := { w.state with waiters := [], arrived := 0, expected := 0 } } ∧ Tracked w' := by
  have hperm := List.perm_insertionSort (fun v u : Waiter => v.id ≤ u.id) w.state.waiters
  have hne : w.state.waiters.insertionSort (fun v u => v.id ≤ u.id) ≠ [] := fun hnil =>
    hw (List.perm_nil.mp (hnil ▸ hperm).symm)
  obtain ⟨ws, leader, hsort⟩ := List.eq_nil_or_concat'
    (w.state.waiters.insertionSort fun v u => v.id ≤ u.id) |>.resolve_left hne
  rw [hsort] at hperm
  have hleader := h.parked leader (hperm.mem_iff.mp (by simp))
  have hself : ∀ {m}, m ≠ leader.sender → Function.update w.calls leader.sender
      (.sent (.leader ws)) m = w.calls m := fun hm => Function.update_of_ne hm _ _
  have hmem : ∀ {v}, v ∈ ws → v ∈ w.state.waiters := fun hv =>
    hperm.mem_iff.mp (List.mem_append_left _ hv)
  have hlt := h.lt_next (n := leader.sender) (by rw [hleader.2]; nofun)
  -- the leader waits, so its list is empty before, and it does not wait behind
  have hwait : ∀ {m}, Function.update w.calls leader.sender (.sent (.leader ws)) m = .waiting →
      m ≠ leader.sender ∧ w.calls m = .waiting := by
    intro m hm
    rcases eq_or_ne m leader.sender with rfl | hml
    · rw [Function.update_self] at hm
      cases hm
    · rw [hself hml] at hm
      exact ⟨hml, hm⟩
  refine ⟨leader, ws, _, ?_, hperm, ?_, rfl, h.alive, h.idNext, rfl, List.nodup_nil, nofun,
    ?pending, h.inj, ?fresh, ?listed, nofun, ?disjoint, ?owed⟩
  · rw [World.wakeLeader, hsort, List.getLast?_concat, List.dropLast_concat]
    exact if_pos hleader.2
  · intro v hv
    have hsorted := List.pairwise_insertionSort (fun v u : Waiter => v.id ≤ u.id) w.state.waiters
    rw [hsort, List.pairwise_append] at hsorted
    have hnodup := (hperm.map Waiter.id).nodup_iff.mpr h.nodup
    rw [List.map_append, List.nodup_append] at hnodup
    exact lt_of_le_of_ne (hsorted.2.2 v hv leader (List.mem_singleton_self _))
      (hnodup.2.2 _ (List.mem_map_of_mem hv) _ (List.mem_singleton_self _))
  case pending =>
    intro i n hi
    obtain ⟨hlive, hn, hrest⟩ := h.pending i n hi
    refine ⟨hlive, hn, ?_⟩
    show Function.update w.calls leader.sender (.sent (.leader ws)) n ≠ .over ∧
      ∀ vs, Function.update w.calls leader.sender (.sent (.leader ws)) n ≠ .holds vs
    rcases eq_or_ne n leader.sender with rfl | hnl
    · rw [Function.update_self]
      exact ⟨nofun, nofun⟩
    · rwa [hself hnl]
  case fresh =>
    intro m hm
    exact (hself (hlt.trans_le hm).ne').trans (h.fresh m hm)
  case listed =>
    intro m v (hv : v ∈ (Function.update w.calls leader.sender (.sent (.leader ws)) m).waiters)
    rcases eq_or_ne m leader.sender with rfl | hml
    · rw [Function.update_self] at hv
      obtain ⟨hpend, hwv⟩ := h.parked v (hmem hv)
      exact ⟨h.lt_next (by rw [hwv]; nofun), fun _ => hpend⟩
    · rw [hself hml] at hv
      exact (h.listed m v hv).imp_right fun hpend hw => hpend (hwait hw).2
  case disjoint =>
    intro m k v (hv : v ∈ (Function.update w.calls leader.sender (.sent (.leader ws)) m).waiters)
      u (hu : u ∈ (Function.update w.calls leader.sender (.sent (.leader ws)) k).waiters) huv
    rcases eq_or_ne m leader.sender with rfl | hml <;>
      rcases eq_or_ne k leader.sender with rfl | hkl
    · rfl
    · rw [Function.update_self] at hv
      rw [hself hkl] at hu
      exact absurd huv.symm (h.apart k u hu v (hmem hv))
    · rw [hself hml] at hv
      rw [Function.update_self] at hu
      exact absurd huv (h.apart m v hv u (hmem hu))
    · rw [hself hml] at hv
      rw [hself hkl] at hu
      exact h.disjoint m k v hv u hu huv
  case owed =>
    intro i n hi hn
    obtain ⟨hnl, hn⟩ := hwait hn
    refine .inr ?_
    rcases h.owed i n hi hn with hm | ⟨m, hm⟩
    · refine ⟨leader.sender, ?_⟩
      have hm := hperm.mem_iff.mpr hm
      rw [List.mem_append, List.mem_singleton] at hm
      show _ ∈ (Function.update w.calls leader.sender (.sent (.leader ws)) leader.sender).waiters
      rw [Function.update_self]
      refine hm.resolve_right ?_
      rintro rfl
      exact hnl rfl
    · refine ⟨m, ?_⟩
      show _ ∈ (Function.update w.calls leader.sender (.sent (.leader ws)) m).waiters
      rw [hself]
      · exact hm
      · rintro rfl
        rw [hleader.2] at hm
        cases hm

/-- An instance that does not wait is dropped. -/
theorem erase {i : ℕ} (hi : i ∈ w.live) (hnone : w.pending i = none) :
    Tracked { w with state := w.state.deregister, live := w.live.erase i } := by
  refine ⟨?_, ?_, h.arrived, h.nodup, h.parked, ?_, h.inj, h.fresh, h.listed, h.apart, h.disjoint,
    h.owed⟩
  · rw [Finset.card_erase_of_mem hi, ← h.alive]
    rfl
  · intro j hj
    exact h.idNext j (Finset.mem_of_mem_erase hj)
  · intro j n hj
    obtain ⟨hlive, hrest⟩ := h.pending j n hj
    refine ⟨Finset.mem_erase.mpr ⟨?_, hlive⟩, hrest⟩
    rintro rfl
    rw [hnone] at hj
    cases hj

theorem clone {w' : World} (hc : w.clone = .ok w') : Tracked w' ∧ w'.state.waiters = [] := by
  rw [World.clone, State.register] at hc
  split at hc
  next hreg =>
    split at hreg
    · cases hreg
    next hp =>
      cases hreg
      cases hc
      refine ⟨⟨?_, ?_, h.arrived, h.nodup, h.parked, ?_, h.inj, h.fresh, h.listed, h.apart,
        h.disjoint, h.owed⟩, h.waiters_eq_nil hp⟩
      · rw [Finset.card_insert_of_notMem fun hmem => lt_irrefl _ (h.idNext _ hmem), ← h.alive]
      · intro j hj
        rcases Finset.mem_insert.mp hj with rfl | hj
        · exact Nat.lt_succ_self _
        · exact Nat.lt_succ_of_lt (h.idNext j hj)
      · intro j n hj
        exact (h.pending j n hj).imp_left Finset.mem_insert_of_mem
  next => cases hc

end Tracked

/-! ### The steps -/

namespace World

variable (w : World) (i : ℕ)

@[simp] theorem cancel_state : (w.cancel i).state = w.state := by
  rw [cancel]
  split <;> rfl

@[simp] theorem cancel_live : (w.cancel i).live = w.live := by
  rw [cancel]
  split <;> rfl

@[simp] theorem cancel_pending : (w.cancel i).pending i = none := by
  rw [cancel]
  split
  next h => exact h
  next => exact Function.update_self ..

@[simp] theorem resume_state : (w.resume i).state = w.state := by
  rw [resume]
  split <;> rfl

end World

namespace Inv

variable {w w' : World} (h : Inv w)
include h

/-- Who arrives joins the waiters, and the round is released where it was the last one. -/
theorem wait {i : ℕ} (hi : i ∈ w.live) (hnone : w.pending i = none) :
    (w.live = {i} ∧ w.wait i = .ok { w with
      calls := Function.update w.calls w.next (.holds []), next := w.next + 1 }) ∨
    (w.live ≠ {i} ∧ w.wait i = .ok (w.arrive i) ∧
      w.state.waiters.length + 1 < w.state.alive ∧ Inv (w.arrive i)) ∨
    w.live ≠ {i} ∧ w.wait i = (w.arrive i).wakeLeader ∧
      w.state.waiters.length + 1 = w.state.alive := by
  have hlone : w.state.alive = 1 ↔ w.live = {i} := by
    rw [h.alive, Finset.card_eq_one]
    constructor
    · rintro ⟨j, hj⟩
      rw [hj] at hi ⊢
      rw [Finset.mem_singleton.mp hi]
    · exact fun hl => ⟨i, hl⟩
  have hwaiters : (w.arrive i).state.waiters.length = w.state.waiters.length + 1 := by
    rw [Tracked.arrive_waiters, List.length_append, List.length_singleton]
  -- the round expects as many as there are, whether it is pending or starts
  have hexp : (w.arrive i).state.expected = w.state.alive := by
    rw [World.arrive]
    split
    next hp => exact (h.expected (h.isPending_iff.mp hp)).1
    next => rfl
  have hready : (w.arrive i).state.isReady ↔ w.state.waiters.length + 1 = w.state.alive := by
    rw [State.isReady, beq_iff_eq, hexp, (h.arrive hi hnone).arrived, hwaiters]
  rw [World.wait]
  by_cases ha : w.state.alive = 1
  · exact .inl ⟨hlone.mp ha, if_pos ha⟩
  · rw [if_neg ha]
    by_cases hr : (w.arrive i).state.isReady
    · rw [if_pos hr]
      exact .inr (.inr ⟨fun hl => ha (hlone.mpr hl), rfl, hready.mp hr⟩)
    · have hlt : w.state.waiters.length + 1 < w.state.alive := by
        refine lt_of_le_of_ne ?_ (hready.not.mp hr)
        by_cases hw : w.state.waiters = []
        · rw [hw, h.alive]
          exact Finset.card_pos.mpr ⟨i, hi⟩
        · exact (h.expected hw).2
      rw [if_neg hr]
      refine .inr (.inl ⟨fun hl => ha (hlone.mpr hl), rfl, hlt, h.arrive hi hnone, fun _ => ?_⟩)
      have halive : (w.arrive i).state.alive = w.state.alive := by
        rw [World.arrive]
        split <;> rfl
      rw [hexp, halive, hwaiters]
      exact ⟨rfl, hlt⟩

/-- A leader is done with its result. -/
theorem settled {q : Progress} (hq : IsSignal q) {n : ℕ} {ws : List Waiter}
    (hn : w.calls n = .holds ws) : Inv (w.release q n) := by
  have ht := h.release hq (n := n) ?_ (h.lt_next (by rw [hn]; nofun))
  · rw [h.unpend_eq_self hn] at ht
    exact ⟨ht, h.expected⟩
  · rintro v hv rfl
    rw [(h.parked v hv).2] at hn
    cases hn

/-- **A careful step keeps the invariant.** -/
theorem step {a : Act} (hs : CarefulStep w a w') : Inv w' := by
  obtain ⟨hcare, hen, hrun⟩ := hs
  have hkeep : ∀ {u : World}, u.state = w.state → Tracked u → Inv u := fun hu ht =>
    ⟨ht, by rw [hu]; exact h.expected⟩
  cases a with
  | clone i =>
    obtain ⟨ht, hnil⟩ := h.clone hrun
    exact ⟨ht, fun hne => absurd hnil hne⟩
  | wait i =>
    rcases h.wait hen.1 hen.2 with ⟨-, hw⟩ | ⟨-, hw, -, hinv⟩ | ⟨-, hw, -⟩
    · obtain rfl := Outcome.ok.inj (hw.symm.trans hrun)
      exact hkeep rfl h.lone
    · obtain rfl := Outcome.ok.inj (hw.symm.trans hrun)
      exact hinv
    · obtain ⟨leader, ws, u, hu, -, -, heq, ht⟩ :=
        (h.arrive hen.1 hen.2).wakeLeader (Tracked.arrive_waiters_ne_nil i)
      obtain rfl := Outcome.ok.inj (hu.symm.trans (hw.symm.trans hrun))
      refine ⟨ht, fun hnil => absurd ?_ hnil⟩
      rw [heq]
  | resume i =>
    obtain ⟨n, hn, hw⟩ := hen
    obtain rfl := Outcome.ok.inj hrun
    exact hkeep (w.resume_state i) (h.resume hn hw)
  | cancel i =>
    obtain rfl := Outcome.ok.inj hrun
    exact hkeep (w.cancel_state i) (h.cancel hcare)
  | drop i =>
    obtain rfl := Outcome.ok.inj hrun
    obtain ⟨hid, hmissing⟩ := hcare
    have ht := (h.cancel hid).erase (i := i) (by rw [w.cancel_live]; exact hen) (w.cancel_pending i)
    rw [w.cancel_state, w.cancel_live] at ht
    refine ⟨ht, fun hne => ?_⟩
    have hp : w.state.isPending := h.isPending_iff.mpr hne
    have hlt := hmissing hp
    rw [h.arrived, (h.expected hne).1] at hlt
    show (if w.state.isPending then w.state.expected - 1 else w.state.expected) =
      w.state.alive - 1 ∧ w.state.waiters.length < w.state.alive - 1
    rw [if_pos hp, (h.expected hne).1]
    exact ⟨rfl, by omega⟩
  | proceed n =>
    obtain ⟨ws, hn⟩ := hen
    obtain rfl := Outcome.ok.inj hrun
    exact h.settled (.inr rfl) hn
  | dropResult n =>
    obtain ⟨ws, hn⟩ := hen
    obtain rfl := Outcome.ok.inj hrun
    exact h.settled (.inl rfl) hn

end Inv

/-! ### What the invariant gives -/

/-- The call `n` is elected in this step. -/
def Elected (w w' : World) (n : ℕ) (ws : List Waiter) : Prop :=
  w'.calls n = .sent (.leader ws) ∧ w.calls n ≠ .sent (.leader ws)

/-- What is promised of a state and of the steps from it. -/
structure Safe (w : World) : Prop where
  /-- Some instance has not arrived in the round that is pending. -/
  missing : w.live.Nonempty → ∃ i ∈ w.live, i ∉ w.state.waiters.map Waiter.id
  not_stuck : ¬ w.Stuck
  /-- Nothing panics but a clone while an instance waits. -/
  no_panic : ∀ a : Act, a.Enabled w → a.run w = .panic →
    (∃ i, a = .clone i) ∧ ∃ i ∈ w.live, w.pending i ≠ none
  /-- A round is released when every live instance waits, and one of them is elected and is given
  all the others. -/
  released : ∀ a w' n ws, Step w a w' → Elected w w' n ws →
    (∃ l, w'.pending l = some n ∧ (∀ v ∈ ws, v.id < l) ∧
      ∀ i, i ∈ w'.live ↔ i = l ∨ i ∈ ws.map Waiter.id) ∧
    (∀ v ∈ ws, w'.pending v.id = some v.sender ∧ w'.calls v.sender = .waiting) ∧
    (ws.map Waiter.id).Nodup ∧ ∀ m vs, Elected w w' m vs → m = n
  /-- An instance is let through at once where there is no other. -/
  alone : ∀ i w', Step w (.wait i) w' → w'.pending i = none →
    w.live = {i} ∧ w'.calls w.next = .holds []
  /-- Whoever waits does so for its round, or for the one leader that has it on its list. -/
  listed : ∀ i n, w.pending i = some n → w.calls n = .waiting →
    (⟨i, n⟩ ∈ w.state.waiters ∧ ∀ m, ⟨i, n⟩ ∉ (w.calls m).waiters) ∨
      ⟨i, n⟩ ∉ w.state.waiters ∧ ∃! m, ⟨i, n⟩ ∈ (w.calls m).waiters
  /-- A leader wakes those on its list when it proceeds or when its result is dropped, and nothing
  else wakes them. -/
  woken : ∀ a w' m, ∀ v ∈ (w.calls m).waiters, Step w a w' → w.calls v.sender = .waiting →
    w'.pending v.id = some v.sender →
    (w'.calls m = .over → IsSignal (w'.calls v.sender)) ∧
      (w'.calls m ≠ .over → w'.calls v.sender = .waiting ∧ v ∈ (w'.calls m).waiters)

namespace Inv

variable {w w' : World} (h : Inv w)
include h

theorem missing (hne : w.live.Nonempty) : ∃ i ∈ w.live, i ∉ w.state.waiters.map Waiter.id := by
  by_contra hall
  push Not at hall
  have hcard : w.live.card ≤ w.state.waiters.length := by
    have hsub : w.live ⊆ (w.state.waiters.map Waiter.id).toFinset := fun i hi =>
      List.mem_toFinset.mpr (hall i hi)
    calc w.live.card ≤ (w.state.waiters.map Waiter.id).toFinset.card := Finset.card_le_card hsub
      _ = w.state.waiters.length := by
        rw [List.toFinset_card_of_nodup h.nodup, List.length_map]
  obtain ⟨i, hi⟩ := hne
  have hw : w.state.waiters ≠ [] := by
    intro hnil
    have := hall i hi
    rw [hnil] at this
    cases this
  have hlt := (h.expected hw).2
  rw [h.alive] at hlt
  exact absurd hcard (not_le.mpr hlt)

theorem not_stuck : ¬ w.Stuck := by
  rintro ⟨hne, hall⟩
  obtain ⟨i, hi, hid⟩ := h.missing hne
  obtain ⟨n, hn, hw, hlist⟩ := hall i hi
  rcases h.owed i n hn hw with hm | ⟨m, hm⟩
  · exact hid (List.mem_map.mpr ⟨_, hm, rfl⟩)
  · exact hlist m hm

theorem listed_once {i n : ℕ} (hi : w.pending i = some n) (hn : w.calls n = .waiting) :
    (⟨i, n⟩ ∈ w.state.waiters ∧ ∀ m, ⟨i, n⟩ ∉ (w.calls m).waiters) ∨
      ⟨i, n⟩ ∉ w.state.waiters ∧ ∃! m, ⟨i, n⟩ ∈ (w.calls m).waiters := by
  rcases h.owed i n hi hn with hm | ⟨m, hm⟩
  · exact .inl ⟨hm, fun m hm' => h.apart m _ hm' _ hm rfl⟩
  · exact .inr ⟨fun hm' => h.apart m _ hm _ hm' rfl, m, hm, fun k hk =>
      h.disjoint k m _ hk _ hm rfl⟩

theorem no_panic {a : Act} (hen : a.Enabled w) (hp : a.run w = .panic) :
    (∃ i, a = .clone i) ∧ ∃ i ∈ w.live, w.pending i ≠ none := by
  cases a with
  | clone i =>
    refine ⟨⟨i, rfl⟩, ?_⟩
    have hpend : w.state.isPending := by
      by_contra hnp
      rw [Act.run, World.clone, State.register, if_neg hnp] at hp
      cases hp
    obtain ⟨v, hv⟩ := List.exists_mem_of_ne_nil _ (h.isPending_iff.mp hpend)
    obtain ⟨hv, -⟩ := h.parked v hv
    exact ⟨v.id, (h.pending _ _ hv).1, by rw [hv]; nofun⟩
  | wait i =>
    rcases h.wait hen.1 hen.2 with ⟨-, hw⟩ | ⟨-, hw, -⟩ | ⟨-, hw, -⟩
    · cases hw.symm.trans hp
    · cases hw.symm.trans hp
    · obtain ⟨leader, ws, u, hu, -⟩ :=
        (h.arrive hen.1 hen.2).wakeLeader (Tracked.arrive_waiters_ne_nil i)
      cases hu.symm.trans (hw.symm.trans hp)
  | resume i => cases hp
  | cancel i => cases hp
  | drop i => cases hp
  | proceed n => cases hp
  | dropResult n => cases hp

/-- The round is released when the last one arrives. -/
theorem released_wait {i n : ℕ} {ws : List Waiter} (hi : i ∈ w.live) (hnone : w.pending i = none)
    (hrun : w.wait i = .ok w') (he : Elected w w' n ws) :
    (∃ l, w'.pending l = some n ∧ (∀ v ∈ ws, v.id < l) ∧
      ∀ i, i ∈ w'.live ↔ i = l ∨ i ∈ ws.map Waiter.id) ∧
    (∀ v ∈ ws, w'.pending v.id = some v.sender ∧ w'.calls v.sender = .waiting) ∧
    (ws.map Waiter.id).Nodup ∧ ∀ m vs, Elected w w' m vs → m = n := by
  have harr : ∀ m vs, (w.arrive i).calls m = .sent (.leader vs) →
      w.calls m = .sent (.leader vs) := fun m vs hm => eq_of_update hm nofun
  rcases h.wait hi hnone with ⟨-, hw⟩ | ⟨-, hw, -⟩ | ⟨-, hw, hcard⟩
  · obtain rfl := Outcome.ok.inj (hw.symm.trans hrun)
    exact absurd (eq_of_update he.1 nofun) he.2
  · obtain rfl := Outcome.ok.inj (hw.symm.trans hrun)
    exact absurd (harr n ws he.1) he.2
  · have ht := h.arrive hi hnone
    obtain ⟨leader, vs, u, hu, hperm, hlt, heq, -⟩ :=
      ht.wakeLeader (Tracked.arrive_waiters_ne_nil i)
    obtain rfl := Outcome.ok.inj (hu.symm.trans (hw.symm.trans hrun))
    have hself : ∀ m us, Elected w u m us → m = leader.sender ∧ us = vs := by
      rintro m us ⟨hm, hne⟩
      rw [heq] at hm
      have hm : Function.update (w.arrive i).calls leader.sender (.sent (.leader vs)) m =
        .sent (.leader us) := hm
      rcases eq_or_ne m leader.sender with rfl | hml
      · rw [Function.update_self] at hm
        cases hm
        exact ⟨rfl, rfl⟩
      · rw [Function.update_of_ne hml] at hm
        exact absurd (harr m us hm) hne
    obtain ⟨rfl, rfl⟩ := hself n ws he
    have hparked : ∀ v ∈ ws ++ [leader], (w.arrive i).pending v.id = some v.sender ∧
        (w.arrive i).calls v.sender = .waiting := fun v hv => ht.parked v (hperm.mem_iff.mp hv)
    have hleader := hparked leader (by simp)
    have hids := (hperm.map Waiter.id).nodup_iff.mpr ht.nodup
    -- as many wait as there are, so they are the live ones
    have hlive : ((ws ++ [leader]).map Waiter.id).toFinset = w.live := by
      refine Finset.eq_of_subset_of_card_le ?_ ?_
      · intro j hj
        obtain ⟨v, hv, rfl⟩ := List.mem_map.mp (List.mem_toFinset.mp hj)
        exact (ht.pending _ _ (hparked v hv).1).1
      · rw [List.toFinset_card_of_nodup hids, List.length_map, hperm.length_eq,
          Tracked.arrive_waiters, List.length_append, List.length_singleton, hcard, h.alive]
    rw [heq]
    refine ⟨⟨leader.id, hleader.1, hlt, fun j => ?_⟩, fun v hv => ?_, ?_, ?_⟩
    · show j ∈ w.live ↔ _
      rw [← hlive, List.mem_toFinset, List.map_append, List.mem_append, List.map_singleton,
        List.mem_singleton, or_comm]
    · obtain ⟨hp, hwait⟩ := hparked v (List.mem_append_left _ hv)
      refine ⟨hp, (Function.update_of_ne (fun hs => ?_) _ _).trans hwait⟩
      exact (hlt v hv).ne (ht.inj _ _ _ hp (hs ▸ hleader.1))
    · rw [List.map_append] at hids
      exact hids.of_append_left
    · intro m us hm
      rw [← heq] at hm
      exact (hself m us hm).1

omit h in
/-- No other step elects a leader. -/
theorem not_elected {a : Act} (ha : ∀ i, a ≠ .wait i) (hs : Step w a w') (n : ℕ)
    (ws : List Waiter) : ¬ Elected w w' n ws := by
  obtain ⟨hen, hrun⟩ := hs
  have hrel : ∀ {q m}, IsSignal q → (w.release q m).calls n = .sent (.leader ws) →
      w.calls n = .sent (.leader ws) := by
    intro q m hq hn
    rw [World.release_calls hq] at hn
    split at hn
    · cases hn
    · split at hn
      · rcases hq with rfl | rfl <;> cases hn
      · exact hn
  have hcancel : ∀ i, (w.cancel i).calls n = .sent (.leader ws) →
      w.calls n = .sent (.leader ws) := by
    intro i hn
    rw [World.cancel] at hn
    split at hn
    · exact hn
    · exact hrel (.inl rfl) hn
  rintro ⟨hn, hne⟩
  refine hne ?_
  cases a with
  | clone i =>
    rw [Act.run, World.clone] at hrun
    split at hrun <;> cases hrun
    exact hn
  | wait i => exact absurd rfl (ha i)
  | resume i =>
    cases hrun
    rw [World.resume] at hn
    split at hn
    · exact hn
    next m _ =>
      refine eq_of_update hn ?_
      split <;> nofun
  | cancel i =>
    cases hrun
    exact hcancel i hn
  | drop i =>
    cases hrun
    exact hcancel i hn
  | proceed m =>
    cases hrun
    exact hrel (.inr rfl) hn
  | dropResult m =>
    cases hrun
    exact hrel (.inl rfl) hn

/-- A call that is over takes its list along, and leaves the others alone. -/
theorem woken_release {q : Progress} (hq : IsSignal q) {n m : ℕ} {v : Waiter}
    (hv : v ∈ (w.calls m).waiters) (hw : w.calls v.sender = .waiting)
    (hp : w.unpend n v.id = some v.sender) :
    ((w.release q n).calls m = .over → IsSignal ((w.release q n).calls v.sender)) ∧
      ((w.release q n).calls m ≠ .over → (w.release q n).calls v.sender = .waiting ∧
        v ∈ ((w.release q n).calls m).waiters) := by
  obtain ⟨-, hvn⟩ := World.unpend_eq_some.mp hp
  have hm : w.calls m ≠ .waiting := by
    intro hm
    rw [hm] at hv
    cases hv
  rcases eq_or_ne m n with rfl | hmn
  · have hself : (w.release q m).calls m = .over := by
      rw [World.release_calls hq, if_pos rfl]
    refine ⟨fun _ => ?_, fun hne => absurd hself hne⟩
    rw [World.release_calls hq, if_neg hvn, if_pos ⟨List.mem_map_of_mem hv, hw⟩]
    exact hq
  · have hself : (w.release q n).calls m = w.calls m := by
      rw [World.release_calls hq, if_neg hmn, if_neg fun h => hm h.2]
    refine ⟨fun hover => ?_, fun _ => ⟨?_, by rwa [hself]⟩⟩
    · rw [hself] at hover
      rw [hover] at hv
      cases hv
    · refine (World.release_calls_eq_waiting hq).mpr ⟨hvn, fun hmem => ?_, hw⟩
      obtain ⟨u, hu, huv⟩ := List.mem_map.mp hmem
      exact hmn (h.disjoint m n v hv u hu huv.symm)

theorem woken_cancel {i m : ℕ} {v : Waiter}
    (hv : v ∈ (w.calls m).waiters) (hw : w.calls v.sender = .waiting)
    (hp : (w.cancel i).pending v.id = some v.sender) :
    ((w.cancel i).calls m = .over → IsSignal ((w.cancel i).calls v.sender)) ∧
      ((w.cancel i).calls m ≠ .over → (w.cancel i).calls v.sender = .waiting ∧
        v ∈ ((w.cancel i).calls m).waiters) := by
  rw [World.cancel] at hp ⊢
  split at hp
  next =>
    refine ⟨fun hover => ?_, fun _ => ⟨hw, hv⟩⟩
    rw [hover] at hv
    cases hv
  next n hi =>
    rw [← h.unpend_eq_update hi] at hp
    exact h.woken_release (.inl rfl) hv hw hp

/-- **The wake-up.** -/
theorem woken {a : Act} (hs : Step w a w') {m : ℕ} {v : Waiter} (hv : v ∈ (w.calls m).waiters)
    (hw : w.calls v.sender = .waiting) (hp : w'.pending v.id = some v.sender) :
    (w'.calls m = .over → IsSignal (w'.calls v.sender)) ∧
      (w'.calls m ≠ .over → w'.calls v.sender = .waiting ∧ v ∈ (w'.calls m).waiters) := by
  obtain ⟨hen, hrun⟩ := hs
  have hover : w.calls m ≠ .over := by
    intro hm
    rw [hm] at hv
    cases hv
  have hwaiting : w.calls m ≠ .waiting := by
    intro hm
    rw [hm] at hv
    cases hv
  -- it is enough that the two calls are left alone
  have hsame : ∀ {u : World}, u.calls m = w.calls m → u.calls v.sender = .waiting →
      (u.calls m = .over → IsSignal (u.calls v.sender)) ∧
        (u.calls m ≠ .over → u.calls v.sender = .waiting ∧ v ∈ (u.calls m).waiters) := by
    intro u hm hvs
    rw [hm]
    exact ⟨fun h => absurd h hover, fun _ => ⟨hvs, hv⟩⟩
  have hunpend : ∀ {n ws}, w.calls n = .holds ws → w.unpend n v.id = some v.sender := by
    intro n ws hn
    rw [h.unpend_eq_self hn]
    exact (h.listed m v hv).2 hw
  cases a with
  | clone i =>
    rw [Act.run, World.clone] at hrun
    split at hrun <;> cases hrun
    exact hsame rfl hw
  | wait i =>
    obtain ⟨hi, hnone⟩ := hen
    have hm : m ≠ w.next := (h.lt_next hover).ne
    have hvn : v.sender ≠ w.next := (h.listed m v hv).1.ne
    have harr : ∀ {k}, k ≠ w.next → (w.arrive i).calls k = w.calls k := fun hk =>
      Function.update_of_ne hk _ _
    rcases h.wait hi hnone with ⟨-, hr⟩ | ⟨-, hr, -⟩ | ⟨-, hr, -⟩
    · obtain rfl := Outcome.ok.inj (hr.symm.trans hrun)
      exact hsame (Function.update_of_ne hm _ _) ((Function.update_of_ne hvn _ _).trans hw)
    · obtain rfl := Outcome.ok.inj (hr.symm.trans hrun)
      exact hsame (harr hm) ((harr hvn).trans hw)
    · have ht := h.arrive hi hnone
      obtain ⟨leader, ws, u, hu, hperm, -, heq, -⟩ :=
        ht.wakeLeader (Tracked.arrive_waiters_ne_nil i)
      obtain rfl := Outcome.ok.inj (hu.symm.trans (hr.symm.trans hrun))
      have hmem := hperm.mem_iff.mp (List.mem_append_right ws (List.mem_singleton_self leader))
      have hml : m ≠ leader.sender := by
        rintro rfl
        exact hwaiting ((harr hm).symm.trans (ht.parked leader hmem).2)
      have hvl : v.sender ≠ leader.sender := ht.apart m v (by rwa [harr hm]) leader hmem
      refine hsame ?_ ?_
      · rw [heq]
        exact (Function.update_of_ne hml _ _).trans (harr hm)
      · rw [heq]
        exact ((Function.update_of_ne hvl _ _).trans (harr hvn)).trans hw
  | resume i =>
    obtain ⟨n, hn, hnw⟩ := hen
    cases hrun
    have hn : w.pending i = some n := hn
    rw [World.resume, hn] at hp ⊢
    have hvn : v.sender ≠ n := fun hvn => hnw (hvn ▸ hw)
    rcases eq_or_ne m n with rfl | hmn
    · have hleader : ∃ ws, w.calls m = .sent (.leader ws) := by
        rcases hc : w.calls m with _ | ⟨ws | _⟩ | _ | ws | _
        · exact absurd hc hnw
        · exact ⟨ws, rfl⟩
        · rw [hc] at hv; cases hv
        · rw [hc] at hv; cases hv
        · exact absurd hc ((h.pending i m hn).2.2.2 ws)
        · exact absurd hc hover
      obtain ⟨ws, hc⟩ := hleader
      have hself : Function.update w.calls m (match w.calls m with
          | .sent (.leader ws) => .holds ws
          | _ => .over) m = .holds ws := by
        rw [Function.update_self, hc]
      refine ⟨fun hm => ?_, fun _ => ⟨(Function.update_of_ne hvn _ _).trans hw, ?_⟩⟩
      · cases hself.symm.trans hm
      · show v ∈ (Function.update w.calls m _ m).waiters
        rw [hself]
        rwa [hc] at hv
    · exact hsame (Function.update_of_ne hmn _ _) ((Function.update_of_ne hvn _ _).trans hw)
  | cancel i =>
    cases hrun
    exact h.woken_cancel hv hw hp
  | drop i =>
    cases hrun
    exact h.woken_cancel hv hw hp
  | proceed n =>
    obtain ⟨ws, hn⟩ := hen
    cases hrun
    exact h.woken_release (.inr rfl) hv hw (hunpend hn)
  | dropResult n =>
    obtain ⟨ws, hn⟩ := hen
    cases hrun
    exact h.woken_release (.inl rfl) hv hw (hunpend hn)

theorem alone {i : ℕ} (hs : Step w (.wait i) w') (hnone : w'.pending i = none) :
    w.live = {i} ∧ w'.calls w.next = .holds [] := by
  obtain ⟨⟨hi, hpi⟩, hrun⟩ := hs
  have hself : (w.arrive i).pending i = some w.next := Function.update_self ..
  rcases h.wait hi hpi with ⟨hlive, hr⟩ | ⟨-, hr, -⟩ | ⟨-, hr, -⟩
  · obtain rfl := Outcome.ok.inj (hr.symm.trans hrun)
    exact ⟨hlive, Function.update_self ..⟩
  · obtain rfl := Outcome.ok.inj (hr.symm.trans hrun)
    rw [hself] at hnone
    cases hnone
  · obtain ⟨leader, ws, u, hu, -, -, heq, -⟩ :=
      (h.arrive hi hpi).wakeLeader (Tracked.arrive_waiters_ne_nil i)
    obtain rfl := Outcome.ok.inj (hu.symm.trans (hr.symm.trans hrun))
    rw [heq] at hnone
    cases hself.symm.trans hnone

theorem safe : Safe w where
  missing := h.missing
  not_stuck := h.not_stuck
  no_panic _ := h.no_panic
  released a w' n ws hs he := by
    cases a with
    | wait i => exact h.released_wait hs.1.1 hs.1.2 hs.2 he
    | _ => exact absurd he (not_elected (by rintro _ ⟨⟩) hs n ws)
  alone _ _ := h.alone
  listed _ _ := h.listed_once
  woken _ _ _ _ hv hs := h.woken hs hv

end Inv

end AdaptiveBarrier

open AdaptiveBarrier

/-- **The barrier is safe as long as its steps are careful.** -/
theorem barrier_safe {as : List Act} {w : World} (h : Run CarefulStep .new as w) : Safe w :=
  (h.invariant (P := Inv) Inv.new fun _ _ _ hi hs => hi.step hs).safe

/-- Three instances meet, and a fourth one is dropped before. -/
theorem barrier_safe_three : ∃ w, Run CarefulStep .new
    [.clone 0, .clone 0, .clone 1, .drop 3, .wait 1, .wait 0, .wait 2, .resume 2, .proceed 2] w ∧
    Safe w := by
  have h : Run CarefulStep .new
    [.clone 0, .clone 0, .clone 1, .drop 3, .wait 1, .wait 0, .wait 2, .resume 2, .proceed 2] _ :=
    Run.of_isSome carefulNext carefulStep_of_next (by decide +kernel)
  exact ⟨_, h, barrier_safe h⟩

/-- One instance waits and the other one is dropped: nobody wakes the first one. -/
theorem lost_wakeup : ∃ w, Run Step .new [.clone 0, .wait 0, .drop 1] w ∧ w.Stuck := by
  refine ⟨_, Run.of_isSome next step_of_next (by decide +kernel), ⟨0, by decide +kernel⟩, ?_⟩
  intro i hi
  have hlive : ((exec next World.new [.clone 0, .wait 0, .drop 1]).get (by decide +kernel)).live =
    {0} := by decide +kernel
  obtain rfl : i = 0 := Finset.mem_singleton.mp (hlive ▸ hi)
  refine ⟨0, by decide +kernel, by decide +kernel, fun m => ?_⟩
  cases m with
  | zero => decide +kernel
  | succ m => exact List.not_mem_nil

/-- One of two instances gives up its wait before the other one arrives. It has the higher number,
so it is elected, and nobody is there to be told. -/
theorem cancelled_leader : ∃ w, Run Step .new [.clone 0, .wait 1, .cancel 1] w ∧
    (Act.wait 0).Enabled w ∧ (Act.wait 0).run w = .panic :=
  ⟨_, Run.of_isSome next step_of_next (by decide +kernel), by decide +kernel, by rfl⟩

end Mpz
