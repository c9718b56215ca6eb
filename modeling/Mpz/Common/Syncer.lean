import Mathlib.Algebra.Order.Group.Nat
import Mathlib.Data.List.Induction
import Mathlib.Data.List.Nodup
import Mpz.Lib.Run

/-!
# The order of execution across logical threads

The leader dictates an order, and the follower keeps to it. A call on the leader takes the next
ticket, sends it on the channel of its thread and runs its closure, under a lock. A call on the
follower takes a ticket from the channel of its thread, and runs its closure when the ticket is
next.

The two sides make the same calls on a channel, so the closure of the `k`-th call of a thread is the
same on both. In a `Syncer` the leader runs its closure when the ticket is sent. In an `AsyncSyncer`
it does so while the ticket is being sent, and a closure of the follower may take several polls.

A ticket that is taken and not delivered is a hole in the order: the follower waits for it forever.
So a call of the leader must not fail while it sends, and `Act.Careful` says so. It says as well
that less than `2 ^ 32` tickets are pending, since they wrap around.

## Main definitions

* `Syncer.World`, `Syncer.Act` — leader and follower, with the channels between them
* `Syncer.FollowerStep` — what the follower does by itself, when its tasks are woken
* `Syncer.Inv` — the invariant

## Main results

* `syncer_serves` — the follower keeps to the order, and every closure can be run
* `lost_ticket` — a send that fails leaves the follower waiting
-/

namespace Mpz

namespace Syncer

/-- A ticket, which wraps around. -/
abbrev Ticket : Type := BitVec 32

/-- The two kinds of syncers. -/
inductive Kind where
  /-- `Syncer` -/
  | sync
  /-- `AsyncSyncer` -/
  | async
  deriving DecidableEq, Repr

/-- The closure of a call: of which thread, and of which of its calls. -/
structure Closure where
  /-- The channel of the thread. -/
  channel : ℕ
  /-- The number of the call on it. -/
  index : ℕ
  deriving DecidableEq, Repr

/-- The call of the leader that holds the lock. -/
structure Sending where
  /-- The closure. -/
  closure : Closure
  /-- The ticket. -/
  ticket : Ticket
  /-- Whether the ticket is sent. -/
  sent : Bool
  /-- Whether the closure has run. -/
  ran : Bool
  deriving DecidableEq, Repr

/-- A call of the follower that has its ticket. -/
structure Task where
  /-- The ticket. -/
  ticket : Ticket
  /-- Whether it is to be polled. -/
  woken : Bool
  /-- Whether its closure has begun. -/
  started : Bool
  deriving DecidableEq, Repr

/-- Leader and follower. The last field remembers on which channels the tickets were taken. -/
structure World where
  /-- The next ticket of the leader. -/
  tick : Ticket
  /-- Who holds the lock. -/
  holder : Option Sending
  /-- How many calls the leader has begun on each channel. -/
  calls : ℕ → ℕ
  /-- The closures that ran on the leader. -/
  leaderLog : List Closure
  /-- The tickets on each channel. -/
  wire : ℕ → List Ticket
  /-- The current ticket of the follower. -/
  queueTick : Ticket
  /-- Tasks waiting for their ticket to be accepted. -/
  waiting : List (Ticket × ℕ)
  /-- What each thread of the follower does. -/
  tasks : ℕ → Option Task
  /-- How many calls the follower has finished on each channel. -/
  finished : ℕ → ℕ
  /-- The closures that ran on the follower. -/
  followerLog : List Closure
  /-- The channels of all tickets. -/
  issued : List ℕ

/-- What happens. -/
inductive Act where
  /-- A call of the leader gets the lock, and takes a ticket. -/
  | lock (channel : ℕ)
  /-- Its ticket is sent. -/
  | send
  /-- Its closure runs. -/
  | run
  /-- It returns. -/
  | unlock
  /-- It returns an error, or is cancelled. -/
  | fail
  /-- A thread of the follower receives a ticket. -/
  | recv (channel : ℕ)
  /-- A thread of the follower is polled. If it is its turn, its closure comes to an end or not. -/
  | poll (channel : ℕ) (ready : Bool)
  deriving DecidableEq, Repr

/-- `HashMap::insert` -/
def insert (waiting : List (Ticket × ℕ)) (ticket : Ticket) (channel : ℕ) : List (Ticket × ℕ) :=
  (waiting.filter fun e => e.1 ≠ ticket) ++ [(ticket, channel)]

/-- A task is woken. -/
def wake (tasks : ℕ → Option Task) (channel : ℕ) : ℕ → Option Task :=
  Function.update tasks channel ((tasks channel).map fun t => { t with woken := true })

namespace World

/-- At the start. -/
def new : World :=
  ⟨0, none, fun _ => 0, [], fun _ => [], 0, [], fun _ => none, fun _ => 0, [], []⟩

/-- A call of the leader takes a ticket. -/
def lock (channel : ℕ) (w : World) : Option World :=
  match w.holder with
  | some _ => none
  | none => some { w with
    tick := w.tick + 1
    holder := some ⟨⟨channel, w.calls channel⟩, w.tick, false, false⟩
    calls := Function.update w.calls channel (w.calls channel + 1)
    issued := w.issued ++ [channel] }

/-- Its ticket is sent. -/
def send (w : World) : Option World :=
  match w.holder with
  | some h =>
    if h.sent then none
    else some { w with
      holder := some { h with sent := true }
      wire := Function.update w.wire h.closure.channel (w.wire h.closure.channel ++ [h.ticket]) }
  | none => none

/-- Its closure runs: in a `Syncer`, when the ticket is sent. -/
def run (kind : Kind) (w : World) : Option World :=
  match w.holder with
  | some h =>
    if h.ran ∨ kind = .sync ∧ !h.sent then none
    else some { w with
      holder := some { h with ran := true }
      leaderLog := w.leaderLog ++ [h.closure] }
  | none => none

/-- It returns. -/
def unlock (w : World) : Option World :=
  match w.holder with
  | some h => if h.sent ∧ h.ran then some { w with holder := none } else none
  | none => none

/-- It fails. -/
def fail (w : World) : Option World :=
  match w.holder with
  | some _ => some { w with holder := none }
  | none => none

/-- A thread of the follower receives a ticket. -/
def recv (channel : ℕ) (w : World) : Option World :=
  match w.tasks channel, w.wire channel with
  | none, ticket :: wire => some { w with
    tasks := Function.update w.tasks channel (some ⟨ticket, true, false⟩)
    wire := Function.update w.wire channel wire }
  | _, _ => none

/-- `Queue::wake_next` -/
def wakeNext (w : World) : World :=
  match w.waiting.find? fun e => e.1 = w.queueTick with
  | some e => { w with
    waiting := w.waiting.filter fun e => e.1 ≠ w.queueTick
    tasks := wake w.tasks e.2 }
  | none => w

/-- A closure of the follower has run. -/
def finish (channel : ℕ) (w : World) : World :=
  wakeNext { w with
    queueTick := w.queueTick + 1
    tasks := Function.update w.tasks channel none
    finished := Function.update w.finished channel (w.finished channel + 1)
    followerLog := w.followerLog ++ [⟨channel, w.finished channel⟩] }

/-- `Wait::poll` -/
def poll (kind : Kind) (channel : ℕ) (ready : Bool) (w : World) : Option World :=
  match w.tasks channel with
  | some task =>
    if w.queueTick = task.ticket then
      if ready then some (w.finish channel)
      else if kind = .async then some { w with
        tasks := Function.update w.tasks channel (some ⟨task.ticket, false, true⟩) }
      else none
    else some { w with
      waiting := insert w.waiting task.ticket channel
      tasks := Function.update w.tasks channel (some { task with woken := false }) }
  | none => none

/-- What is behind an act. -/
def next (kind : Kind) (w : World) : Act → Option World
  | .lock channel => w.lock channel
  | .send => w.send
  | .run => w.run kind
  | .unlock => w.unlock
  | .fail => w.fail
  | .recv channel => w.recv channel
  | .poll channel ready => w.poll kind channel ready

end World

/-- A step. -/
def Step (kind : Kind) (w : World) (a : Act) (w' : World) : Prop := w.next kind a = some w'

/-- No call of the leader fails while it holds the lock, and less than `2 ^ 32` tickets are pending
when another one is taken. -/
def Act.Careful (w : World) : Act → Prop
  | .lock _ => w.issued.length < w.followerLog.length + 2 ^ 32
  | .fail => False
  | _ => True

instance (w : World) : DecidablePred (Act.Careful w)
  | .lock _ => inferInstanceAs (Decidable (_ < _))
  | .fail => .isFalse not_false
  | .send | .run | .unlock | .recv _ | .poll _ _ => .isTrue trivial

/-- A careful step. -/
def CarefulStep (kind : Kind) (w : World) (a : Act) (w' : World) : Prop :=
  a.Careful w ∧ Step kind w a w'

/-- A thread of the follower is polled when it was woken, or when its closure has begun. -/
def Act.Scheduled (w : World) : Act → Prop
  | .recv _ => True
  | .poll channel ready => ready = true ∧
    ∃ task, w.tasks channel = some task ∧ (task.woken = true ∨ task.started = true)
  | _ => False

/-- A step of the follower by itself. -/
def FollowerStep (kind : Kind) (w : World) (a : Act) (w' : World) : Prop :=
  a.Scheduled w ∧ Step kind w a w'

/-- The call of the leader whose ticket is to be sent. -/
def World.unsent (w : World) : Option Sending := w.holder.filter fun h => !h.sent

/-- What is expected of leader and follower. -/
structure Serves (kind : Kind) (w : World) : Prop where
  /-- The closures run in the same order. The follower may run the last one before the leader does,
  whose call then still has to run it. -/
  order : w.followerLog <+: w.leaderLog ∨
    ∃ h, w.holder = some h ∧ h.sent = true ∧ w.followerLog = w.leaderLog ++ [h.closure]
  /-- Each runs at most once. -/
  once : w.leaderLog.Nodup ∧ w.followerLog.Nodup
  /-- A task whose ticket is next is going to be polled, or its closure has begun. -/
  woken : ∀ channel task, w.tasks channel = some task → task.ticket = w.queueTick →
    task.woken = true ∨ task.started = true
  /-- The follower can run every closure that the leader ran, as soon as its ticket is sent. -/
  live : ∃ acts w', Run (FollowerStep kind) w acts w' ∧ ∀ x ∈ w.leaderLog,
    x ∈ w'.followerLog ∨ ∃ h, w.unsent = some h ∧ h.closure = x

/-! ### The order of the tickets -/

/-- The ticket with this number. -/
def ticketOf (n : ℕ) : Ticket := BitVec.ofNat 32 n

theorem ticketOf_succ (n : ℕ) : ticketOf (n + 1) = ticketOf n + 1 := BitVec.ofNat_add n 1

/-- Tickets differ that are pending together. -/
theorem ticketOf_inj {k m n : ℕ} (hm : k ≤ m) (hm' : m < k + 2 ^ 32) (hn : k ≤ n)
    (hn' : n < k + 2 ^ 32) (h : ticketOf m = ticketOf n) : m = n := by
  have hmod := congrArg BitVec.toNat h
  rw [ticketOf, ticketOf, BitVec.toNat_ofNat, BitVec.toNat_ofNat] at hmod
  omega

/-- The closures of the tickets. -/
def closures (issued : List ℕ) : List Closure :=
  issued.zipIdx.map fun e => ⟨e.1, (issued.take e.2).count e.1⟩

theorem length_closures (issued : List ℕ) : (closures issued).length = issued.length := by
  rw [closures, List.length_map, List.length_zipIdx]

theorem getElem?_closures (issued : List ℕ) (n : ℕ) :
    (closures issued)[n]? = issued[n]?.map fun c => ⟨c, (issued.take n).count c⟩ := by
  rw [closures, List.getElem?_map, List.getElem?_zipIdx, Option.map_map]
  simp only [Function.comp_def, Nat.zero_add]

theorem closures_snoc (issued : List ℕ) (c : ℕ) :
    closures (issued ++ [c]) = closures issued ++ [⟨c, issued.count c⟩] := by
  refine List.ext_getElem? fun n => ?_
  rw [getElem?_closures]
  rcases Nat.lt_trichotomy n issued.length with hn | rfl | hn
  · rw [List.getElem?_append_left hn, List.getElem?_append_left (by rwa [length_closures]),
      getElem?_closures, List.take_append_of_le_length hn.le]
  · rw [List.getElem?_concat_length, List.take_left, ← length_closures issued,
      List.getElem?_concat_length]
    rfl
  · rw [List.getElem?_eq_none, List.getElem?_eq_none]
    · rfl
    · rw [List.length_append, length_closures]
      exact hn
    · rw [List.length_append]
      exact hn

/-- No two tickets have the same closure. -/
theorem nodup_closures (issued : List ℕ) : (closures issued).Nodup := by
  induction issued using List.reverseRecOn with
  | nil => exact List.nodup_nil
  | append_singleton issued c ih =>
    rw [closures_snoc]
    refine List.Nodup.append ih (List.nodup_singleton _) ?_
    rw [List.disjoint_singleton]
    intro hmem
    obtain ⟨n, hn⟩ := List.mem_iff_getElem?.mp hmem
    rw [getElem?_closures, Option.map_eq_some_iff] at hn
    obtain ⟨d, hd, heq⟩ := hn
    obtain ⟨rfl, hcount⟩ := Closure.mk.inj heq
    -- the call before is counted, and so there are more calls by now
    have hlt := (List.getElem?_eq_some_iff.mp hd).1
    have hsplit : issued.count d = (issued.take n).count d + (issued.drop n).count d := by
      rw [← List.count_append, List.take_append_drop]
    have hpos : 0 < (issued.drop n).count d := by
      rw [List.count_pos_iff, List.mem_iff_getElem?]
      exact ⟨0, by rw [List.getElem?_drop, Nat.add_zero, hd]⟩
    omega

/-- The tickets of a channel that are sent and not used. -/
def pending (issued : List ℕ) (k s c : ℕ) : List ℕ :=
  (List.range' k (s - k)).filter fun n => issued[n]? = some c

theorem mem_pending {issued : List ℕ} {k s c n : ℕ} :
    n ∈ pending issued k s c ↔ k ≤ n ∧ n < s ∧ issued[n]? = some c := by
  rw [pending, List.mem_filter, List.mem_range'_1, decide_eq_true_iff]
  constructor
  · rintro ⟨⟨hk, hs⟩, hc⟩
    exact ⟨hk, by omega, hc⟩
  · rintro ⟨hk, hs, hc⟩
    exact ⟨⟨hk, by omega⟩, hc⟩

theorem pending_snoc {issued : List ℕ} {k s : ℕ} (hs : s ≤ issued.length) (c d : ℕ) :
    pending (issued ++ [d]) k s c = pending issued k s c := by
  rw [pending, pending]
  refine List.filter_congr fun n hn => ?_
  rw [List.mem_range'_1] at hn
  rw [List.getElem?_append_left (by omega)]

theorem pending_send {issued : List ℕ} {k s : ℕ} (hk : k ≤ s) (c : ℕ) :
    pending issued k (s + 1) c =
      pending issued k s c ++ if issued[s]? = some c then [s] else [] := by
  rw [pending, pending, Nat.succ_sub hk, List.range'_1_concat, List.filter_append,
    Nat.add_sub_cancel' hk]
  refine congrArg (List.filter _ _ ++ ·) ?_
  split <;> simp [*]

theorem pending_finish {issued : List ℕ} {k s : ℕ} (hk : k < s) (c : ℕ) :
    pending issued k s c =
      (if issued[k]? = some c then [k] else []) ++ pending issued (k + 1) s c := by
  have hsub : s - k = s - (k + 1) + 1 := by omega
  rw [pending, pending, hsub, List.range'_succ, List.filter_cons]
  split <;> simp_all

/-! ### The invariant -/

/-- The tickets that a thread of the follower has received and not used, and those it will
receive. -/
def World.queued (w : World) (c : ℕ) : List Ticket :=
  ((w.tasks c).map Task.ticket).toList ++ w.wire c

/-- The invariant, up to how the tasks are woken. So many tickets are sent. -/
structure Core (w : World) (s : ℕ) : Prop where
  tick : w.tick = ticketOf w.issued.length
  queueTick : w.queueTick = ticketOf w.followerLog.length
  calls : ∀ c, w.calls c = w.issued.count c
  finished : ∀ c, w.finished c = (w.issued.take w.followerLog.length).count c
  holder : ∀ h, w.holder = some h → ∃ l, w.issued = l ++ [h.closure.channel] ∧
    h.closure.index = l.count h.closure.channel ∧ h.ticket = ticketOf l.length
  sent : s + (if w.unsent.isSome then 1 else 0) = w.issued.length
  ran : w.leaderLog.length + (if (w.holder.filter fun h => !h.ran).isSome then 1 else 0) =
    w.issued.length
  leader : w.leaderLog <+: closures w.issued
  follower : w.followerLog <+: closures w.issued
  le : w.followerLog.length ≤ s
  bound : w.issued.length ≤ w.followerLog.length + 2 ^ 32
  queued : ∀ c, w.queued c = (pending w.issued w.followerLog.length s c).map ticketOf

/-- The invariant. -/
structure Inv (w : World) (s : ℕ) : Prop extends Core w s where
  waiting : ∀ e ∈ w.waiting, e.1 ≠ w.queueTick ∧ (w.tasks e.2).map Task.ticket = some e.1
  idle : ∀ c task, w.tasks c = some task → task.woken = false → task.started = false →
    (task.ticket, c) ∈ w.waiting

theorem Inv.new : Inv World.new 0 where
  tick := rfl
  queueTick := rfl
  calls _ := rfl
  finished _ := rfl
  holder := nofun
  sent := rfl
  ran := rfl
  leader := List.prefix_refl []
  follower := List.prefix_refl []
  le := le_rfl
  bound := Nat.zero_le _
  queued _ := rfl
  waiting := nofun
  idle := nofun

variable {kind : Kind} {w w' : World} {s c : ℕ}

/-- A thread of the follower has the ticket of a call of its channel. -/
theorem Core.task (h : Core w s) {t : Ticket} (ht : (w.tasks c).map Task.ticket = some t) :
    ∃ n, w.followerLog.length ≤ n ∧ n < s ∧ w.issued[n]? = some c ∧ ticketOf n = t := by
  have hq := h.queued c
  rw [World.queued, ht] at hq
  have hmem : t ∈ (pending w.issued w.followerLog.length s c).map ticketOf :=
    hq ▸ List.mem_append_left _ (List.mem_singleton_self t)
  obtain ⟨n, hn, rfl⟩ := List.mem_map.mp hmem
  obtain ⟨hk, hs, hc⟩ := mem_pending.mp hn
  exact ⟨n, hk, hs, hc, rfl⟩

theorem Core.sent_le (h : Core w s) : s ≤ w.followerLog.length + 2 ^ 32 :=
  ((Nat.le_add_right _ _).trans_eq h.sent).trans h.bound

/-- Two threads have different tickets. -/
theorem Core.task_inj (h : Core w s) {d : ℕ} {t : Ticket}
    (hc : (w.tasks c).map Task.ticket = some t) (hd : (w.tasks d).map Task.ticket = some t) :
    c = d := by
  obtain ⟨m, hm, hm', hmc, rfl⟩ := h.task hc
  obtain ⟨n, hn, hn', hnd, heq⟩ := h.task hd
  obtain rfl := ticketOf_inj hm (hm'.trans_le h.sent_le) hn (hn'.trans_le h.sent_le) heq.symm
  exact Option.some.inj (hmc.symm.trans hnd)

/-- Whose turn it is. -/
theorem Core.turn (h : Core w s) (ht : (w.tasks c).map Task.ticket = some w.queueTick) :
    w.followerLog.length < s ∧ w.issued[w.followerLog.length]? = some c := by
  obtain ⟨n, hn, hn', hc, heq⟩ := h.task ht
  rw [h.queueTick] at heq
  have hs := h.sent_le
  obtain rfl := ticketOf_inj hn (hn'.trans_le hs) le_rfl (by omega) heq
  exact ⟨hn', hc⟩

/-! ### The leader -/

theorem Inv.lock (h : Inv w s) (hcareful : (Act.lock c).Careful w) (hstep : w.lock c = some w') :
    Inv w' s ∧ w'.followerLog = w.followerLog := by
  cases hholder : w.holder with
  | some k =>
    rw [World.lock, hholder] at hstep
    cases hstep
  | none =>
    have hlt : w.issued.length < w.followerLog.length + 2 ^ 32 := hcareful
    have hsent := h.sent
    have hran := h.ran
    rw [World.unsent, hholder] at hsent
    rw [hholder] at hran
    have hs : s = w.issued.length := hsent
    have hl : w.leaderLog.length = w.issued.length := hran
    rw [World.lock, hholder] at hstep
    obtain rfl := Option.some.inj hstep
    have hgrow : closures w.issued <+: closures (w.issued ++ [c]) := by
      rw [closures_snoc]
      exact List.prefix_append _ _
    refine ⟨⟨⟨?_, h.queueTick, fun d => ?_, fun d => ?_, fun k hk => ?_, ?_, ?_,
      h.leader.trans hgrow, h.follower.trans hgrow, h.le, ?_, fun d => ?_⟩, h.waiting, h.idle⟩, rfl⟩
    · show w.tick + 1 = ticketOf (w.issued ++ [c]).length
      rw [List.length_append, List.length_singleton, ticketOf_succ, h.tick]
    · show Function.update w.calls c (w.calls c + 1) d = _
      rw [List.count_append, List.count_singleton, Function.update_apply, h.calls, h.calls]
      by_cases hd : d = c
      · subst hd
        simp
      · simp [hd, Ne.symm hd]
    · rw [List.take_append_of_le_length (hs ▸ h.le)]
      exact h.finished d
    · obtain rfl := Option.some.inj hk
      exact ⟨w.issued, rfl, h.calls c, h.tick⟩
    · show s + 1 = (w.issued ++ [c]).length
      rw [List.length_append, hs]
      rfl
    · show w.leaderLog.length + 1 = (w.issued ++ [c]).length
      rw [List.length_append, hl]
      rfl
    · show (w.issued ++ [c]).length ≤ _
      rw [List.length_append]
      exact hlt
    · exact (h.queued d).trans (congrArg _ (pending_snoc hs.le d c).symm)

theorem Inv.send (h : Inv w s) (hstep : w.send = some w') :
    Inv w' (s + 1) ∧ w'.followerLog = w.followerLog := by
  cases hholder : w.holder with
  | none =>
    rw [World.send, hholder] at hstep
    cases hstep
  | some k =>
    rw [World.send, hholder] at hstep
    dsimp only at hstep
    cases hk : k.sent with
    | true =>
      rw [if_pos hk] at hstep
      cases hstep
    | false =>
      rw [if_neg (Bool.eq_false_iff.mp hk)] at hstep
      obtain rfl := Option.some.inj hstep
      obtain ⟨l, hl, hindex, hticket⟩ := h.holder k hholder
      have hsent := h.sent
      rw [World.unsent, hholder, Option.filter_some, hk] at hsent
      have hs : s + 1 = w.issued.length := hsent
      have hran := h.ran
      rw [hholder] at hran
      have hlen : s = l.length := by
        rw [hl, List.length_append] at hs
        exact Nat.succ.inj hs
      refine ⟨⟨⟨h.tick, h.queueTick, h.calls, h.finished, fun k' hk' => ?_, hs, ?_, h.leader,
        h.follower, h.le.trans (Nat.le_succ s), h.bound, fun d => ?_⟩, h.waiting, h.idle⟩, rfl⟩
      · obtain rfl := Option.some.inj hk'
        exact ⟨l, hl, hindex, hticket⟩
      · obtain ⟨_, _, _, ran⟩ := k
        cases ran <;> exact hran
      · have hlast : w.issued[s]? = some k.closure.channel := by
          rw [hl, hlen, List.getElem?_concat_length]
        have hqueued := h.queued d
        show ((w.tasks d).map Task.ticket).toList ++
          Function.update w.wire k.closure.channel (w.wire k.closure.channel ++ [k.ticket]) d = _
        rw [pending_send h.le, List.map_append, ← hqueued, hlast, Function.update_apply]
        by_cases hd : d = k.closure.channel
        · subst hd
          rw [if_pos rfl, if_pos rfl, ← List.append_assoc, hticket, ← hlen]
          rfl
        · rw [if_neg hd, if_neg fun heq => hd (Option.some.inj heq).symm, List.map_nil,
            List.append_nil]
          rfl

theorem Inv.run (h : Inv w s) (hstep : w.run kind = some w') :
    Inv w' s ∧ w'.followerLog = w.followerLog := by
  cases hholder : w.holder with
  | none =>
    rw [World.run, hholder] at hstep
    cases hstep
  | some k =>
    rw [World.run, hholder] at hstep
    dsimp only at hstep
    by_cases hguard : k.ran = true ∨ kind = .sync ∧ (!k.sent) = true
    · rw [if_pos hguard] at hstep
      cases hstep
    · rw [if_neg hguard] at hstep
      obtain rfl := Option.some.inj hstep
      have hk : k.ran = false := Bool.eq_false_iff.mpr fun hk => hguard (.inl hk)
      obtain ⟨l, hl, hindex, hticket⟩ := h.holder k hholder
      have hran := h.ran
      rw [hholder, Option.filter_some, hk] at hran
      have hr : w.leaderLog.length + 1 = w.issued.length := hran
      have hsent := h.sent
      rw [World.unsent, hholder] at hsent
      have hlog : w.leaderLog = closures l := by
        have hle := h.leader
        rw [hl, closures_snoc] at hle
        refine List.IsPrefix.eq_of_length (List.prefix_of_prefix_length_le hle
          (List.prefix_append _ _) ?_) ?_
        all_goals
          rw [length_closures]
          rw [hl, List.length_append, List.length_singleton] at hr
          omega
      refine ⟨⟨⟨h.tick, h.queueTick, h.calls, h.finished, fun k' hk' => ?_, ?_, ?_, ?_, h.follower,
        h.le, h.bound, h.queued⟩, h.waiting, h.idle⟩, rfl⟩
      · obtain rfl := Option.some.inj hk'
        exact ⟨l, hl, hindex, hticket⟩
      · obtain ⟨_, _, sent, _⟩ := k
        cases sent <;> exact hsent
      · show (w.leaderLog ++ [k.closure]).length + 0 = _
        rw [List.length_append]
        exact hr
      · have heq : w.leaderLog ++ [k.closure] = closures w.issued := by
          rw [hlog, hl, closures_snoc, ← hindex]
        exact heq ▸ List.prefix_refl _

theorem Inv.unlock (h : Inv w s) (hstep : w.unlock = some w') :
    Inv w' s ∧ w'.followerLog = w.followerLog := by
  cases hholder : w.holder with
  | none =>
    rw [World.unlock, hholder] at hstep
    cases hstep
  | some k =>
    rw [World.unlock, hholder] at hstep
    dsimp only at hstep
    by_cases hguard : k.sent = true ∧ k.ran = true
    · rw [if_pos hguard] at hstep
      obtain rfl := Option.some.inj hstep
      have hsent := h.sent
      rw [World.unsent, hholder, Option.filter_some, hguard.1] at hsent
      have hran := h.ran
      rw [hholder, Option.filter_some, hguard.2] at hran
      exact ⟨⟨⟨h.tick, h.queueTick, h.calls, h.finished, nofun, hsent, hran, h.leader, h.follower,
        h.le, h.bound, h.queued⟩, h.waiting, h.idle⟩, rfl⟩
    · rw [if_neg hguard] at hstep
      cases hstep

/-! ### The follower -/

theorem Inv.recv (h : Inv w s) (hstep : w.recv c = some w') :
    Inv w' s ∧ w'.followerLog = w.followerLog := by
  rw [World.recv] at hstep
  split at hstep
  case h_2 => cases hstep
  case h_1 ticket wire htask hwire =>
    obtain rfl := Option.some.inj hstep
    refine ⟨⟨⟨h.tick, h.queueTick, h.calls, h.finished, h.holder, h.sent, h.ran, h.leader,
      h.follower, h.le, h.bound, fun d => ?_⟩, fun e he => ?_, fun d task hd hwoken => ?_⟩, rfl⟩
    · rw [← h.queued d, World.queued, World.queued]
      show ((Function.update w.tasks c _ d).map Task.ticket).toList ++
        Function.update w.wire c wire d = _
      rw [Function.update_apply, Function.update_apply]
      by_cases hd : d = c
      · subst hd
        rw [if_pos rfl, if_pos rfl, htask, hwire]
        rfl
      · rw [if_neg hd, if_neg hd]
    · obtain ⟨hne, ht⟩ := h.waiting e he
      refine ⟨hne, ?_⟩
      show (Function.update w.tasks c _ e.2).map Task.ticket = _
      have hec : e.2 ≠ c := fun heq => by
        rw [heq, htask] at ht
        cases ht
      rw [Function.update_of_ne hec, ht]
    · have hd : Function.update w.tasks c (some ⟨ticket, true, false⟩) d = some task := hd
      rw [Function.update_apply] at hd
      split at hd
      next =>
        obtain rfl := Option.some.inj hd
        cases hwoken
      next => exact h.idle d task hd hwoken

/-- What waking the next task does. -/
theorem wakeNext_spec (w : World) : ∃ waiting tasks,
    w.wakeNext = { w with waiting := waiting, tasks := tasks } ∧
      (∀ e, e ∈ waiting ↔ e ∈ w.waiting ∧ e.1 ≠ w.queueTick) ∧
      (∀ c, (tasks c).map Task.ticket = (w.tasks c).map Task.ticket) ∧
      (∀ c task, tasks c = some task → task.woken = false → w.tasks c = some task) ∧
      ∀ e ∈ w.waiting, e.1 = w.queueTick → ∃ d, (w.queueTick, d) ∈ w.waiting ∧
        ∀ task, tasks d = some task → task.woken = true := by
  rw [World.wakeNext]
  cases hfind : w.waiting.find? fun e => decide (e.1 = w.queueTick) with
  | none =>
    have hnone : ∀ e ∈ w.waiting, e.1 ≠ w.queueTick := fun e he heq =>
      (List.find?_eq_none.mp hfind) e he (decide_eq_true heq)
    exact ⟨w.waiting, w.tasks, rfl, fun e => ⟨fun he => ⟨he, hnone e he⟩, And.left⟩, fun _ => rfl,
      fun _ _ ht _ => ht, fun e he heq => absurd heq (hnone e he)⟩
  | some e =>
    have hmem := List.mem_of_find?_eq_some hfind
    have hkey : e.1 = w.queueTick := by
      have := List.find?_some hfind
      exact of_decide_eq_true this
    refine ⟨_, _, rfl, fun e' => ?_, fun d => ?_, fun d task hd hwoken => ?_, fun _ _ _ =>
      ⟨e.2, hkey ▸ hmem, fun task hd => ?_⟩⟩
    · rw [List.mem_filter, decide_eq_true_iff]
    · rw [wake, Function.update_apply]
      split
      next heq =>
        rw [heq]
        cases w.tasks e.2 <;> rfl
      next => rfl
    · rw [wake, Function.update_apply] at hd
      split at hd
      next =>
        obtain ⟨task', -, rfl⟩ := Option.map_eq_some_iff.mp hd
        cases hwoken
      next => exact hd
    · rw [wake, Function.update_self] at hd
      obtain ⟨task', -, rfl⟩ := Option.map_eq_some_iff.mp hd
      rfl

/-- A closure of the follower runs whose turn it is. -/
theorem Inv.finish (h : Inv w s) {task : Task} (htask : w.tasks c = some task)
    (hturn : w.queueTick = task.ticket) : Inv (w.finish c) s ∧
      (w.finish c).followerLog.length = w.followerLog.length + 1 := by
  have hticket : (w.tasks c).map Task.ticket = some w.queueTick := by
    rw [htask, hturn]
    rfl
  obtain ⟨hlt, hissued⟩ := h.toCore.turn hticket
  let u : World := { w with
    queueTick := w.queueTick + 1
    tasks := Function.update w.tasks c none
    finished := Function.update w.finished c (w.finished c + 1)
    followerLog := w.followerLog ++ [⟨c, w.finished c⟩] }
  obtain ⟨waiting, tasks, hwake, hmem, htickets, hidle, hwoken⟩ := wakeNext_spec u
  have hfinish : w.finish c = { u with waiting := waiting, tasks := tasks } := hwake
  have hlen : (w.followerLog ++ [(⟨c, w.finished c⟩ : Closure)]).length =
      w.followerLog.length + 1 := by
    rw [List.length_append]
    rfl
  have hold (d : ℕ) : (u.tasks d).map Task.ticket =
      if d = c then none else (w.tasks d).map Task.ticket := by
    show (Function.update w.tasks c none d).map Task.ticket = _
    rw [Function.update_apply]
    split <;> rfl
  -- the thread that has run its closure waits for no ticket
  have hother {e : Ticket × ℕ} (he : e ∈ w.waiting) : e.2 ≠ c := by
    intro heq
    obtain ⟨hne, ht⟩ := h.waiting e he
    rw [heq, hticket, Option.some.injEq] at ht
    exact hne ht.symm
  have hlog : w.followerLog ++ [(⟨c, w.finished c⟩ : Closure)] <+: closures w.issued := by
    refine List.prefix_iff_getElem?.mpr fun i hi => ?_
    rw [hlen] at hi
    rcases Nat.lt_succ_iff_lt_or_eq.mp hi with hi | rfl
    · rw [List.getElem_append_left hi]
      exact List.prefix_iff_getElem?.mp h.follower i hi
    · rw [getElem?_closures, hissued, List.getElem_concat_length rfl, h.finished]
      rfl
  rw [hfinish]
  refine ⟨⟨⟨h.tick, ?_, h.calls, fun d => ?_, h.holder, h.sent, h.ran, h.leader, hlog, ?_, ?_,
    fun d => ?_⟩, fun e he => ?_, fun d task' hd hw hs => ?_⟩, hlen⟩
  · show w.queueTick + 1 = ticketOf (w.followerLog ++ [_]).length
    rw [hlen, ticketOf_succ, h.queueTick]
  · show Function.update w.finished c (w.finished c + 1) d =
      (w.issued.take (w.followerLog ++ [_]).length).count d
    rw [hlen, List.take_add_one, hissued, Function.update_apply, List.count_append, h.finished,
      h.finished]
    by_cases hd : d = c
    · subst hd
      simp
    · simp [hd, Ne.symm hd]
  · show (w.followerLog ++ [_]).length ≤ s
    rw [hlen]
    exact hlt
  · show w.issued.length ≤ (w.followerLog ++ [_]).length + 2 ^ 32
    have := h.bound
    rw [hlen]
    omega
  · show ((tasks d).map Task.ticket).toList ++ w.wire d =
      (pending w.issued (w.followerLog ++ [_]).length s d).map ticketOf
    have hqueued := h.queued d
    rw [pending_finish hlt, hissued, List.map_append, World.queued] at hqueued
    rw [hlen, htickets, hold]
    by_cases hd : d = c
    · subst hd
      rw [hticket, h.queueTick, if_pos rfl] at hqueued
      rw [if_pos rfl]
      exact List.append_cancel_left hqueued
    · rw [if_neg fun heq => hd (Option.some.inj heq).symm] at hqueued
      rw [if_neg hd]
      exact hqueued
  · obtain ⟨he, hne⟩ := (hmem e).mp he
    refine ⟨hne, ?_⟩
    show (tasks e.2).map Task.ticket = _
    rw [htickets, hold, if_neg (hother he)]
    exact (h.waiting e he).2
  · have hu := hidle d task' hd hw
    have hdc : d ≠ c := fun heq => by
      have hnone : Function.update w.tasks c none d = some task' := hu
      rw [heq, Function.update_self] at hnone
      cases hnone
    have hwd : w.tasks d = some task' := by
      rw [← Function.update_of_ne hdc (none : Option Task) w.tasks]
      exact hu
    have he := h.idle d task' hwd hw hs
    refine (hmem _).mpr ⟨he, fun heq => ?_⟩
    -- it would have been woken
    obtain ⟨d', hd', hall⟩ := hwoken _ he heq
    have hdd : d' = d := by
      refine h.toCore.task_inj (h.waiting _ hd').2 ?_
      rw [hwd]
      exact congrArg some heq
    rw [hall task' (hdd ▸ hd)] at hw
    cases hw

theorem Inv.poll (h : Inv w s) {ready : Bool} (hstep : w.poll kind c ready = some w') :
    Inv w' s ∧ w.followerLog.length ≤ w'.followerLog.length := by
  cases htask : w.tasks c with
  | none =>
    rw [World.poll, htask] at hstep
    cases hstep
  | some task =>
    rw [World.poll, htask] at hstep
    dsimp only at hstep
    have hsame (task' : Task) (ht : task'.ticket = task.ticket) (d : ℕ) :
        (Function.update w.tasks c (some task') d).map Task.ticket =
          (w.tasks d).map Task.ticket := by
      rw [Function.update_apply]
      split
      next heq =>
        rw [heq, htask]
        exact congrArg some ht
      next => rfl
    by_cases hturn : w.queueTick = task.ticket
    · rw [if_pos hturn] at hstep
      cases ready with
      | true =>
        obtain rfl := Option.some.inj hstep
        obtain ⟨hinv, hlen⟩ := h.finish htask hturn
        exact ⟨hinv, hlen ▸ Nat.le_succ _⟩
      | false =>
        rw [if_neg Bool.false_ne_true] at hstep
        split at hstep
        case isFalse => cases hstep
        case isTrue =>
          obtain rfl := Option.some.inj hstep
          refine ⟨⟨⟨h.tick, h.queueTick, h.calls, h.finished, h.holder, h.sent, h.ran, h.leader,
            h.follower, h.le, h.bound, fun d => ?_⟩, fun e he => ?_, fun d task' hd hw hs => ?_⟩,
            le_rfl⟩
          · rw [← h.queued d, World.queued, World.queued]
            exact congrArg (Option.toList · ++ w.wire d) (hsame ⟨task.ticket, false, true⟩ rfl d)
          · exact ⟨(h.waiting e he).1, (hsame ⟨task.ticket, false, true⟩ rfl e.2).trans
              (h.waiting e he).2⟩
          · have hd : Function.update w.tasks c (some ⟨task.ticket, false, true⟩) d =
                some task' := hd
            rw [Function.update_apply] at hd
            split at hd
            next =>
              obtain rfl := Option.some.inj hd
              cases hs
            next => exact h.idle d task' hd hw hs
    · rw [if_neg hturn] at hstep
      obtain rfl := Option.some.inj hstep
      have hticket : (w.tasks c).map Task.ticket = some task.ticket := by
        rw [htask]
        rfl
      have hin {e : Ticket × ℕ} : e ∈ insert w.waiting task.ticket c ↔
          (e ∈ w.waiting ∧ e.1 ≠ task.ticket) ∨ e = (task.ticket, c) := by
        rw [insert, List.mem_append, List.mem_filter, List.mem_singleton, decide_eq_true_iff]
      refine ⟨⟨⟨h.tick, h.queueTick, h.calls, h.finished, h.holder, h.sent, h.ran, h.leader,
        h.follower, h.le, h.bound, fun d => ?_⟩, fun e he => ?_, fun d task' hd hw hs => ?_⟩,
        le_rfl⟩
      · rw [← h.queued d, World.queued, World.queued]
        exact congrArg (Option.toList · ++ w.wire d) (hsame { task with woken := false } rfl d)
      · refine ⟨?_, (hsame { task with woken := false } rfl e.2).trans ?_⟩
        · rcases hin.mp he with ⟨he, -⟩ | rfl
          · exact (h.waiting e he).1
          · exact Ne.symm hturn
        · rcases hin.mp he with ⟨he, -⟩ | rfl
          · exact (h.waiting e he).2
          · exact hticket
      · have hd : Function.update w.tasks c (some { task with woken := false }) d = some task' := hd
        rw [Function.update_apply] at hd
        refine hin.mpr ?_
        split at hd
        next heq =>
          obtain rfl := Option.some.inj hd
          exact .inr (by rw [heq])
        next hne =>
          have he := h.idle d task' hd hw hs
          refine .inl ⟨he, fun heq => hne ?_⟩
          refine h.toCore.task_inj ?_ hticket
          rw [hd]
          exact congrArg some heq

/-- A step keeps the invariant. -/
theorem Inv.step {a : Act} (h : Inv w s) (hstep : CarefulStep kind w a w') : ∃ s', Inv w' s' := by
  obtain ⟨hcareful, hstep⟩ := hstep
  cases a with
  | lock channel => exact ⟨s, (h.lock hcareful hstep).1⟩
  | send => exact ⟨s + 1, (h.send hstep).1⟩
  | run => exact ⟨s, (h.run hstep).1⟩
  | unlock => exact ⟨s, (h.unlock hstep).1⟩
  | fail => exact hcareful.elim
  | recv channel => exact ⟨s, (h.recv hstep).1⟩
  | poll channel ready => exact ⟨s, (h.poll hstep).1⟩

/-! ### The follower gets through -/

/-- A task whose turn it is has been woken, or its closure has begun. -/
theorem Inv.woken (h : Inv w s) {task : Task} (htask : w.tasks c = some task)
    (hturn : task.ticket = w.queueTick) : task.woken = true ∨ task.started = true := by
  by_contra hnot
  rw [not_or, Bool.not_eq_true, Bool.not_eq_true] at hnot
  exact (h.waiting _ (h.idle c task htask hnot.1 hnot.2)).1 hturn

/-- The closure of a thread runs whose turn it is. -/
theorem Inv.runTurn (h : Inv w s) (kind : Kind) {task : Task} (htask : w.tasks c = some task)
    (hturn : task.ticket = w.queueTick) : ∃ w', FollowerStep kind w (.poll c true) w' ∧ Inv w' s ∧
      w'.followerLog.length = w.followerLog.length + 1 ∧ w'.issued = w.issued := by
  obtain ⟨hinv, hlen⟩ := h.finish htask hturn.symm
  refine ⟨w.finish c, ⟨⟨rfl, task, htask, h.woken htask hturn⟩, ?_⟩, hinv, hlen, ?_⟩
  · show w.poll kind c true = some (w.finish c)
    rw [World.poll, htask]
    exact (if_pos hturn.symm).trans (if_pos rfl)
  · obtain ⟨_, _, hwake, -⟩ := wakeNext_spec { w with
      queueTick := w.queueTick + 1
      tasks := Function.update w.tasks c none
      finished := Function.update w.finished c (w.finished c + 1)
      followerLog := w.followerLog ++ [⟨c, w.finished c⟩] }
    rw [World.finish, hwake]

/-- While a ticket is sent and not used, the follower can run the next closure. -/
theorem Inv.progress (h : Inv w s) (kind : Kind) (hlt : w.followerLog.length < s) : ∃ acts w',
    Run (FollowerStep kind) w acts w' ∧ Inv w' s ∧
      w'.followerLog.length = w.followerLog.length + 1 ∧ w'.issued = w.issued := by
  have hs : s ≤ w.issued.length := (Nat.le_add_right _ _).trans_eq h.sent
  obtain ⟨c, hc⟩ : ∃ c, w.issued[w.followerLog.length]? = some c :=
    ⟨_, List.getElem?_eq_getElem (hlt.trans_le hs)⟩
  have hqueued := h.queued c
  rw [pending_finish hlt, hc, if_pos rfl, World.queued, List.map_append] at hqueued
  cases htask : w.tasks c with
  | some task =>
    rw [htask] at hqueued
    have hturn : task.ticket = w.queueTick := (List.cons.inj hqueued).1.trans h.queueTick.symm
    obtain ⟨w', hstep, hinv, hlen, hissued⟩ := h.runTurn kind htask hturn
    exact ⟨_, w', .single hstep, hinv, hlen, hissued⟩
  | none =>
    rw [htask] at hqueued
    obtain ⟨wire, hwire⟩ : ∃ wire, w.wire c = ticketOf w.followerLog.length :: wire := ⟨_, hqueued⟩
    have hrecv : w.recv c = some { w with
        tasks := Function.update w.tasks c (some ⟨ticketOf w.followerLog.length, true, false⟩)
        wire := Function.update w.wire c wire } := by
      rw [World.recv, htask, hwire]
    obtain ⟨hinv, -⟩ := h.recv hrecv
    obtain ⟨w', hstep, hinv', hlen, hissued⟩ := hinv.runTurn kind
      (Function.update_self c (some ⟨ticketOf w.followerLog.length, true, false⟩) w.tasks)
      h.queueTick.symm
    have hfirst : FollowerStep kind w (.recv c) _ := ⟨trivial, hrecv⟩
    exact ⟨_, w', (Run.single hfirst).snoc hstep, hinv', hlen, hissued⟩

/-- The follower can run all closures whose tickets are sent. -/
theorem Inv.all (h : Inv w s) (kind : Kind) {n : ℕ} (hn : s = w.followerLog.length + n) :
    ∃ acts w', Run (FollowerStep kind) w acts w' ∧ Inv w' s ∧ w'.followerLog.length = s ∧
      w'.issued = w.issued := by
  induction n generalizing w with
  | zero => exact ⟨[], w, .nil, h, hn.symm, rfl⟩
  | succ n ih =>
    obtain ⟨acts, u, hrun, hinv, hlen, hissued⟩ := h.progress kind (by omega)
    obtain ⟨acts', w', hrun', hinv', hlen', hissued'⟩ := ih hinv (by omega)
    exact ⟨_, w', hrun.trans hrun', hinv', hlen', hissued'.trans hissued⟩

/-- The closure of the call that has not sent its ticket is the last one. -/
theorem Core.unsent (h : Core w s) {n : ℕ} {x : Closure} (hx : (closures w.issued)[n]? = some x)
    (hn : s ≤ n) : ∃ k, w.unsent = some k ∧ k.closure = x := by
  have hlt := (List.getElem?_eq_some_iff.mp hx).1
  rw [length_closures] at hlt
  have hsent := h.sent
  cases hunsent : w.unsent with
  | none =>
    rw [hunsent] at hsent
    exact absurd (hsent.symm.trans_le (Nat.add_le_add_right hn _)) (not_le.mpr hlt)
  | some k =>
    rw [hunsent] at hsent
    have hsent : s + 1 = w.issued.length := hsent
    obtain ⟨l, hl, hindex, -⟩ := h.holder k (Option.eq_some_of_filter_eq_some hunsent)
    have hnl : n = (closures l).length := by
      rw [hl, List.length_append, List.length_singleton] at hsent hlt
      rw [length_closures]
      omega
    rw [hl, closures_snoc, hnl, List.getElem?_concat_length, ← hindex] at hx
    exact ⟨k, rfl, Option.some.inj hx⟩

theorem Inv.serves (h : Inv w s) (kind : Kind) : Serves kind w where
  order := by
    rcases Nat.lt_or_ge w.leaderLog.length w.followerLog.length with hlt | hle
    · right
      have hran := h.ran
      have hs : s ≤ w.issued.length := (Nat.le_add_right _ _).trans_eq h.sent
      have hle := h.le
      -- the last closure has run on the follower only, so its call has sent its ticket
      cases hholder : w.holder.filter fun k => !k.ran with
      | none =>
        rw [hholder] at hran
        have hran : w.leaderLog.length = w.issued.length := hran
        omega
      | some k =>
        rw [hholder] at hran
        have hran : w.leaderLog.length + 1 = w.issued.length := hran
        have hk := Option.eq_some_of_filter_eq_some hholder
        obtain ⟨l, hl, hindex, -⟩ := h.holder k hk
        refine ⟨k, hk, ?_, ?_⟩
        · by_contra hsent
          rw [Bool.not_eq_true] at hsent
          have := h.sent
          rw [World.unsent, hk, Option.filter_some, hsent] at this
          have : s + 1 = w.issued.length := this
          omega
        · have hall : w.followerLog = closures w.issued := by
            refine h.follower.eq_of_length ?_
            rw [length_closures]
            omega
          have hlog : w.leaderLog = closures l := by
            have hpre := h.leader
            rw [hl, closures_snoc] at hpre
            rw [hl, List.length_append, List.length_singleton] at hran
            refine List.IsPrefix.eq_of_length (List.prefix_of_prefix_length_le hpre
              (List.prefix_append _ _) ?_) ?_
            all_goals
              rw [length_closures]
              omega
          rw [hall, hlog, hl, closures_snoc, ← hindex]
    · exact .inl (List.prefix_of_prefix_length_le h.follower h.leader hle)
  once := ⟨(nodup_closures w.issued).sublist h.leader.sublist,
    (nodup_closures w.issued).sublist h.follower.sublist⟩
  woken channel task htask hturn := h.woken htask hturn
  live := by
    obtain ⟨acts, w', hrun, hinv, hlen, hissued⟩ :=
      h.all kind (Nat.add_sub_cancel' h.le).symm
    refine ⟨acts, w', hrun, fun x hx => ?_⟩
    obtain ⟨n, hn⟩ := List.mem_iff_getElem?.mp (h.leader.subset hx)
    rcases Nat.lt_or_ge n s with hlt | hge
    · left
      have hn' := List.prefix_iff_getElem?.mp hinv.follower n (hlen ▸ hlt)
      rw [hissued, hn] at hn'
      rw [Option.some.inj hn']
      exact List.getElem_mem _
    · exact .inr (h.toCore.unsent hn hge)

end Syncer

open Syncer in
/-- **The follower keeps to the order of the leader**, in every run of careful steps. -/
theorem syncer_serves {kind : Kind} {acts : List Act} {w : World}
    (h : Run (CarefulStep kind) World.new acts w) : Serves kind w := by
  obtain ⟨s, hinv⟩ := h.invariant (P := fun w => ∃ s, Inv w s) ⟨0, Inv.new⟩
    fun _ _ _ ⟨_, hinv⟩ hstep => hinv.step hstep
  exact hinv.serves kind

namespace Syncer

/-- A careful step, where it is one. -/
def carefulNext (kind : Kind) (w : World) (a : Act) : Option World :=
  if a.Careful w then w.next kind a else none

theorem carefulStep_of_next (kind : Kind) (w : World) (a : Act) (w' : World)
    (h : carefulNext kind w a = some w') : CarefulStep kind w a w' := by
  rw [carefulNext] at h
  split at h
  case isTrue ha => exact ⟨ha, h⟩
  case isFalse => cases h

/-- Two threads, of which the second one is polled first. -/
def sampleActs : List Act := [.lock 0, .send, .run, .unlock, .lock 1, .send, .recv 1,
  .poll 1 true, .run, .unlock, .recv 0, .poll 0 true]

theorem run_sampleActs : ∃ w, Run (CarefulStep .sync) World.new sampleActs w ∧
    w.leaderLog = [⟨0, 0⟩, ⟨1, 0⟩] ∧ w.followerLog = [⟨0, 0⟩] ∧
      w.tasks 1 = some ⟨1, true, false⟩ :=
  ⟨_, Run.of_isSome _ (carefulStep_of_next .sync) (by decide +kernel), by decide +kernel,
    by decide +kernel, by decide +kernel⟩

end Syncer

open Syncer in
theorem syncer_serves_two : ∃ w, Run (CarefulStep .sync) World.new sampleActs w ∧
    w.leaderLog = [⟨0, 0⟩, ⟨1, 0⟩] ∧ w.followerLog = [⟨0, 0⟩] ∧ Serves .sync w := by
  obtain ⟨w, hrun, hleader, hfollower, -⟩ := run_sampleActs
  exact ⟨w, hrun, hleader, hfollower, syncer_serves hrun⟩

namespace Syncer

/-- The follower can take no step where its channels are empty and no thread is to be polled. -/
theorem stuck {kind : Kind} {w w' : World} {acts : List Act} (hwire : ∀ c, w.wire c = [])
    (htasks : ∀ c task, w.tasks c = some task → task.woken = false ∧ task.started = false)
    (h : Run (FollowerStep kind) w acts w') : w' = w := by
  refine h.invariant (P := fun u => u = w) rfl ?_
  rintro u a v rfl ⟨hscheduled, hstep⟩
  cases a with
  | recv c =>
    have hrecv : u.recv c = some v := hstep
    rw [World.recv, hwire c] at hrecv
    split at hrecv
    case h_1 heq => cases heq
    case h_2 => cases hrecv
  | poll c ready =>
    obtain ⟨-, task, htask, hw | hs⟩ := hscheduled
    · exact absurd hw (Bool.eq_false_iff.mp (htasks c task htask).1)
    · exact absurd hs (Bool.eq_false_iff.mp (htasks c task htask).2)
  | lock _ | send | run | unlock | fail => exact hscheduled.elim

/-- The world behind a call that fails while it sends, and one of another thread that does not. -/
def failedWorld : World where
  tick := 2
  holder := none
  calls := Function.update (Function.update (fun _ => 0) 0 1) 1 1
  leaderLog := [⟨1, 0⟩]
  wire := Function.update (Function.update (fun _ => []) 1 [1]) 1 []
  queueTick := 0
  waiting := [(1, 1)]
  tasks := Function.update (Function.update (fun _ => none) 1 (some ⟨1, true, false⟩)) 1
    (some ⟨1, false, false⟩)
  finished := fun _ => 0
  followerLog := []
  issued := [0, 1]

end Syncer

open Syncer in
/-- Both syncers get there, and there the follower waits for the first ticket. -/
theorem not_serves_failedWorld (kind : Kind) : Run (Step kind) World.new
    [.lock 0, .fail, .lock 1, .send, .run, .unlock, .recv 1, .poll 1 true] failedWorld ∧
    ¬ Serves kind failedWorld := by
  refine ⟨Run.of_exec (fun _ _ _ h => h) ?_, fun h => ?_⟩
  · cases kind <;> rfl
  · obtain ⟨acts, w', hrun, hlive⟩ := h.live
    have hsame : w' = failedWorld := by
      refine stuck (fun c => ?_) (fun c task hc => ?_) hrun
      · show Function.update (Function.update (fun _ => []) 1 [1]) 1 [] c = []
        simp [Function.update_apply]
      · have hc : Function.update (Function.update (fun _ => none) 1 _) 1 _ c = some task := hc
        rw [Function.update_idem, Function.update_apply] at hc
        split at hc
        next =>
          obtain rfl := Option.some.inj hc
          exact ⟨rfl, rfl⟩
        next => cases hc
    rcases hlive ⟨1, 0⟩ (List.mem_singleton_self _) with hmem | ⟨k, hk, -⟩
    · rw [hsame] at hmem
      cases hmem
    · cases hk

open Syncer in
/-- **A lost ticket**: a call of the leader fails while it sends, and that of another thread
succeeds. The follower waits for the first ticket, and never runs the closure of the second one. -/
theorem lost_ticket :
    (Run (Step .sync) World.new
      [.lock 0, .fail, .lock 1, .send, .run, .unlock, .recv 1, .poll 1 true] failedWorld ∧
      ¬ Serves .sync failedWorld) ∧
    Run (Step .async) World.new
      [.lock 0, .fail, .lock 1, .send, .run, .unlock, .recv 1, .poll 1 true] failedWorld ∧
      ¬ Serves .async failedWorld :=
  ⟨not_serves_failedWorld .sync, not_serves_failedWorld .async⟩

end Mpz
