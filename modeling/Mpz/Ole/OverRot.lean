import Mathlib.Algebra.Field.ZMod
import Mathlib.Data.List.Perm.Basic
import Mathlib.Tactic.Ring
import Mpz.Lib.Run
import Mpz.Ole.Ideal

/-!
# Random OLE over random OT

One OLE is made from as many random OTs as a field element has bits. The sender masks its input with
the two keys of every OT, and the receiver adds up what it can unmask, weighted by powers of two.
Its multiplicative share is the weighted sum of the choice bits, whether or not these are the bits
of a reduced field element.

A round makes the OLEs that were allocated since the last one. It serves the requests that wait out
of the new ones only, and keeps what is left for tries. So a request that is queued while nothing is
allocated waits, even if there are enough left over. `Act.Careful` excludes this.

Between two rounds the two sides do not interact. A call that both make is one step here.

## Main definitions

* `OverRot.newOleSender`, `OverRot.newOleReceiver` — the two shares of an OLE
* `OverRot.Party` — the bookkeeping of one side, over any type of shares
* `OverRot.Sender`, `OverRot.Receiver` — the two sides
* `OverRot.World`, `OverRot.Act` — both of them, and the calls they make
* `OverRot.Serves` — what is expected of them

## Main results

* `OverRot.newOle_correlated` — the two shares belong together, whatever the choice bits
* `role_over_rot_serves` — every run of careful calls serves the two sides alike
* `queued_beside_leftovers` — a request that waits for ever beside the share it asks for
-/

namespace Mpz

namespace OverRot

open IdealROLE (Waiting Answer)

/-! ### One OLE -/

section Shares

variable {F : Type} [CommRing F] (twoPow : ℕ → F)

/-- Creates a new OLE share for the sender, and the masked correlation. -/
def newOleSender (input : F) (masks : List (F × F)) : OLEShare F × List F :=
  let add := masks.zipIdx.foldl (fun acc m => acc + twoPow m.2 * m.1.1) 0
  -- Sender negates their additive share.
  (⟨-add, input⟩, masks.map fun m => m.1 - m.2 + input)

/-- Creates a new OLE share for the receiver, from the choice bits of the OTs themselves. -/
def newOleReceiver (choices : List Bool) (masks corr : List F) : OLEShare F :=
  let sums := ((choices.zip corr).zip masks).zipIdx.foldl (fun sums e =>
    let delta := if e.1.1.1 then 1 else 0
    (sums.1 + twoPow e.2 * (delta * e.1.1.2 + e.1.2), sums.2 + twoPow e.2 * delta)) (0, 0)
  ⟨sums.1, sums.2⟩

/-- A random OT: the two keys of the sender, and the bit of the receiver. -/
structure Rot (F : Type) where
  /-- The key of bit zero. -/
  zero : F
  /-- The key of bit one. -/
  one : F
  /-- The choice bit. -/
  choice : Bool

/-- The keys of the sender. -/
def Rot.keys {F : Type} (ot : Rot F) : F × F := (ot.zero, ot.one)

/-- The message of the receiver. -/
def Rot.msg {F : Type} (ot : Rot F) : F := if ot.choice then ot.one else ot.zero

/-- What both sides add up, from some index on. -/
theorem exists_fold (input : F) (ots : List (Rot F)) (k : ℕ) : ∃ z b : F, ∀ acc x y : F,
    ((ots.map Rot.keys).zipIdx k).foldl (fun acc m => acc + twoPow m.2 * m.1.1) acc = acc + z ∧
    ((((ots.map Rot.choice).zip ((ots.map Rot.keys).map fun m => m.1 - m.2 + input)).zip
        (ots.map Rot.msg)).zipIdx k).foldl (fun sums e =>
      let delta := if e.1.1.1 then 1 else 0
      (sums.1 + twoPow e.2 * (delta * e.1.1.2 + e.1.2), sums.2 + twoPow e.2 * delta)) (x, y) =
      (x + (z + input * b), y + b) := by
  induction ots generalizing k with
  | nil => exact ⟨0, 0, fun acc x y => ⟨by simp, by simp⟩⟩
  | cons ot ots ih =>
    obtain ⟨z, b, h⟩ := ih (k + 1)
    refine ⟨twoPow k * ot.zero + z, twoPow k * (if ot.choice then 1 else 0) + b,
      fun acc x y => ⟨?_, ?_⟩⟩
    · rw [List.map_cons, List.zipIdx_cons, List.foldl_cons, (h _ x y).1]
      simp only [Rot.keys]
      ring
    · simp only [List.map_cons, List.zip_cons_cons, List.zipIdx_cons, List.foldl_cons]
      rw [(h acc _ _).2]
      cases hc : ot.choice with
      | false =>
        simp only [Rot.msg, hc, Bool.false_eq_true, if_false, Prod.mk.injEq]
        exact ⟨by ring, by ring⟩
      | true =>
        simp only [Rot.msg, Rot.keys, hc, if_true, Prod.mk.injEq]
        exact ⟨by ring, by ring⟩

/-- **The two shares of an OLE belong together**, for any keys and any choice bits. -/
theorem newOle_correlated (input : F) (ots : List (Rot F)) :
    (newOleSender twoPow input (ots.map Rot.keys)).1.Correlated
      (newOleReceiver twoPow (ots.map Rot.choice) (ots.map Rot.msg)
        (newOleSender twoPow input (ots.map Rot.keys)).2) := by
  obtain ⟨z, b, h⟩ := exists_fold twoPow input ots 0
  simp only [OLEShare.Correlated, newOleSender, newOleReceiver, (h 0 0 0).1, (h 0 0 0).2]
  ring

end Shares

/-! ### The bookkeeping of one side -/

/-- What can go wrong. -/
inductive Error where
  /-- ot error -/
  | ot
  /-- insufficient OLE, wanted: {count}, available: {available} -/
  | insufficientOle (count available : ℕ)
  /-- sender sent wrong number of OLEs, expected: {expected}, actual: {actual} -/
  | wrongCount (expected actual : ℕ)
  deriving DecidableEq, Repr

/-- One side. The last four fields remember how many shares each call asked for, what was given, all
shares that were made, and how many were asked for by the calls that were not refused. -/
structure Party (A : Type) where
  /-- The next OLE identifier. -/
  id : ℕ
  /-- How many shares are allocated for the next round. -/
  alloc : ℕ
  /-- The total count of ROLEs in the `queue`. -/
  pending : ℕ
  /-- The requests that wait. -/
  queue : List Waiting
  /-- The shares that are available. -/
  role : List A
  /-- All requests. -/
  asks : List ℕ
  /-- The answers. -/
  answers : List (Answer A)
  /-- The shares of all rounds. -/
  made : List A
  /-- How many shares were requested. -/
  requested : ℕ
  deriving DecidableEq, Repr

namespace Party

variable {A B : Type}

/-- At the start. -/
def new : Party A := ⟨0, 0, 0, [], [], [], [], [], 0⟩

/-- `alloc`, behind that of the OTs. -/
def allocate (count : ℕ) (self : Party A) : Party A := { self with alloc := self.alloc + count }

/-- `try_send_role` and `try_recv_role`. -/
def tryRole (count : ℕ) : Method (Party A) Error (Answer A) := do
  let self ← Method.get
  if count > self.role.length then do
    Method.modify fun s => { s with asks := s.asks ++ [count] }
    Method.throw (.insufficientOle count self.role.length)
  else do
    let answer := ⟨self.asks.length, self.id, self.role.take count⟩
    Method.modify fun s => { s with
      id := s.id + 1
      role := s.role.drop count
      asks := s.asks ++ [count]
      answers := s.answers ++ [answer]
      requested := s.requested + count }
    return answer

/-- `queue_send_role` and `queue_recv_role`. -/
def queueRole (count : ℕ) (self : Party A) : Party A :=
  { self with
    pending := self.pending + count
    queue := self.queue ++ [⟨self.asks.length, count⟩]
    asks := self.asks ++ [count]
    requested := self.requested + count }

/-- The loop over the queue: every request is given the next ones of the shares. To slice behind the
end panics. -/
def deliver : List Waiting → List A → Party A → Option (List A × Party A)
  | [], shares, self => some (shares, self)
  | q :: queue, shares, self =>
    if q.count ≤ shares.length then
      deliver queue (shares.drop q.count) { self with
        id := self.id + 1
        answers := self.answers ++ [⟨q.number, self.id, shares.take q.count⟩] }
    else none

/-- The end of a round, in which these shares were made. -/
def store (shares : List A) (self : Party A) : Option (Party A) := do
  let (rest, self) ← deliver self.queue shares { self with queue := [] }
  -- Store the rest of the ROLEs which were not queued.
  some { self with
    role := self.role ++ rest
    alloc := 0
    pending := 0
    made := self.made ++ shares }

end Party

/-! ### The two sides -/

/-- The OTs of one side: those that are allocated, those that are available, and how many were
taken. -/
structure Ots where
  /-- The OTs that a flush will make. -/
  allocated : ℕ
  /-- The OTs that can be taken. -/
  available : ℕ
  /-- The OTs that were taken. -/
  position : ℕ
  deriving DecidableEq, Repr

/-- Takes the next OTs of a stream. -/
def Ots.tryRot {F : Type} (stream : ℕ → Rot F) (count : ℕ) : Method Ots Error (List (Rot F)) := do
  let self ← Method.get
  if count > self.available then Method.throw .ot
  else do
    Method.modify fun s => { s with
      available := s.available - count
      position := s.position + count }
    return (List.range count).map fun i => stream (self.position + i)

/-- `slice.chunks(size)` -/
def chunks {α : Type} (size : ℕ) (l : List α) : List (List α) :=
  (List.range ((l.length + size - 1) / size)).map fun i => (l.drop (size * i)).take size

/-- The field, the OTs and the sender's generator. -/
structure Env (F : Type) where
  /-- The number of bits of a field element. -/
  bitSize : ℕ
  bitSize_pos : 0 < bitSize
  /-- The powers of two. -/
  twoPow : ℕ → F
  /-- The random OTs. -/
  rots : ℕ → Rot F
  /-- The elements that the sender's generator yields. -/
  rng : ℕ → F

/-- ROLE sender wrapping a random OT sender. -/
structure Sender (F : Type) where
  /-- The bookkeeping. -/
  party : Party (OLEShare F)
  /-- The random OT sender. -/
  rot : Ots
  /-- How many elements of the generator are drawn. -/
  drawn : ℕ
  deriving DecidableEq, Repr

/-- ROLE receiver wrapping a random OT receiver. -/
structure Receiver (F : Type) where
  /-- The bookkeeping. -/
  party : Party (OLEShare F)
  /-- The random OT receiver. -/
  rot : Ots
  deriving DecidableEq, Repr

section Sides

variable {F : Type} [CommRing F] (env : Env F)

namespace Sender

/-- Returns `true` if the sender wants to send. -/
def wantsSend (self : Sender F) : Bool := decide (self.party.alloc > 0)

/-- Evaluates the OLEs as the sender. -/
def send : Method (Sender F) Error (List (List F)) := do
  let self ← Method.get
  let count := self.party.alloc
  if self.party.pending > count then
    Method.throw (.insufficientOle self.party.pending count)
  else do
    let ots ← Method.zoom Sender.rot (fun s rot => { s with rot }) id
      (Ots.tryRot env.rots (count * env.bitSize))
    let made := (chunks env.bitSize (ots.map Rot.keys)).mapIdx fun i masks =>
      newOleSender env.twoPow (env.rng (self.drawn + i)) masks
    let party ← Method.call (.ofOption (self.party.store (made.map Prod.fst)))
    Method.modify fun s => { s with party, drawn := s.drawn + count }
    return made.map Prod.snd

/-- `alloc` -/
def alloc (count : ℕ) (self : Sender F) : Sender F :=
  { self with
    rot := { self.rot with allocated := self.rot.allocated + count * env.bitSize }
    party := self.party.allocate count }

end Sender

namespace Receiver

/-- Returns `true` if the receiver wants to receive. -/
def wantsRecv (self : Receiver F) : Bool := decide (self.party.alloc > 0)

/-- Receives the OLEs. -/
def recv (masks : List (List F)) : Method (Receiver F) Error Unit := do
  let self ← Method.get
  let count := self.party.alloc
  if self.party.pending > count then
    Method.throw (.insufficientOle self.party.pending count)
  else if masks.length ≠ count then
    Method.throw (.wrongCount count masks.length)
  else do
    let ots ← Method.zoom Receiver.rot (fun s rot => { s with rot }) id
      (Ots.tryRot env.rots (count * env.bitSize))
    let shares := (((chunks env.bitSize (ots.map Rot.choice)).zip
      (chunks env.bitSize (ots.map Rot.msg))).zip masks).map fun e =>
        newOleReceiver env.twoPow e.1.1 e.1.2 e.2
    let party ← Method.call (.ofOption (self.party.store shares))
    Method.modify fun s => { s with party }

/-- `alloc` -/
def alloc (count : ℕ) (self : Receiver F) : Receiver F :=
  { self with
    rot := { self.rot with allocated := self.rot.allocated + count * env.bitSize }
    party := self.party.allocate count }

end Receiver

/-- The two sides. -/
structure World (F : Type) where
  /-- The sender. -/
  sender : Sender F
  /-- The receiver. -/
  receiver : Receiver F
  deriving DecidableEq, Repr

/-- At the start. -/
def World.new {F : Type} : World F := ⟨⟨.new, ⟨0, 0, 0⟩, 0⟩, ⟨.new, ⟨0, 0, 0⟩⟩⟩

/-- What both sides do. -/
inductive Act where
  /-- Allocate shares. -/
  | alloc (count : ℕ)
  /-- Flush the OTs. -/
  | flushRot
  /-- Ask for shares that are there. -/
  | tryRole (count : ℕ)
  /-- Ask for shares. -/
  | queueRole (count : ℕ)
  /-- Send and receive the OLEs that are allocated. -/
  | round
  deriving DecidableEq, Repr

/-- A flush of the OTs. -/
def Ots.flush (self : Ots) : Ots := ⟨0, self.available + self.allocated, self.position⟩

/-- What an act does. A call that returns an error leaves what it leaves; none may panic. -/
def World.next (w : World F) : Act → Option (World F)
  | .alloc count => some ⟨w.sender.alloc env count, w.receiver.alloc env count⟩
  | .flushRot => some
    ⟨{ w.sender with rot := w.sender.rot.flush }, { w.receiver with rot := w.receiver.rot.flush }⟩
  | .tryRole count => do
    let sender ← (Party.tryRole count).returned w.sender.party
    let receiver ← (Party.tryRole count).returned w.receiver.party
    some ⟨{ w.sender with party := sender }, { w.receiver with party := receiver }⟩
  | .queueRole count => some
    ⟨{ w.sender with party := w.sender.party.queueRole count },
      { w.receiver with party := w.receiver.party.queueRole count }⟩
  | .round =>
    match Sender.send env w.sender with
    | (.ok masks, sender) => do
      let receiver ← (Receiver.recv env masks).returned w.receiver
      some ⟨sender, receiver⟩
    | (.err _, sender) => some ⟨sender, w.receiver⟩
    | (.panic, _) => none

/-- A request is queued only where something is allocated for the next round, or what is left over
does not cover the requests that wait. -/
def Act.Careful (w : World F) : Act → Prop
  | .queueRole count => 0 < w.sender.party.alloc ∨
      w.sender.party.role.length < w.sender.party.pending + count
  | _ => True

instance (w : World F) : DecidablePred (Act.Careful w)
  | .alloc _ | .flushRot | .tryRole _ | .round => inferInstanceAs (Decidable True)
  | .queueRole _ => inferInstanceAs (Decidable (_ ∨ _))

/-- A step. -/
def Step (w : World F) (a : Act) (w' : World F) : Prop := w.next env a = some w'

/-- A careful step. -/
def CarefulStep (w : World F) (a : Act) (w' : World F) : Prop := a.Careful w ∧ Step env w a w'

/-- What one side can expect. -/
structure Party.Served {A : Type} (p : Party A) : Prop where
  /-- The identifiers count the answers. -/
  ids : p.answers.map Answer.id = List.range p.id
  /-- Every answer is of the length that was asked for. -/
  counts : ∀ a ∈ p.answers, p.asks[a.number]? = some a.shares.length
  /-- No request is answered twice, or answered and waiting. -/
  once : (p.answers.map Answer.number ++ p.queue.map Waiting.number).Nodup
  /-- Every share is handed out once, or available. -/
  handed : (p.answers.flatMap Answer.shares ++ p.role).Perm p.made
  /-- Where enough shares were made, and none are to be made, no request waits. -/
  resolved : p.alloc = 0 → p.requested ≤ p.made.length → p.queue = []

/-- What is expected of the two sides. -/
structure Serves (w : World F) : Prop where
  sender : w.sender.party.Served
  receiver : w.receiver.party.Served
  /-- The same requests are answered on both sides. -/
  numbers : w.sender.party.answers.map Answer.number = w.receiver.party.answers.map Answer.number
  /-- What is given for a request on the two sides belongs together. -/
  agree : ∀ a ∈ w.sender.party.answers, ∀ b ∈ w.receiver.party.answers, a.number = b.number →
    a.id = b.id ∧ a.shares.length = b.shares.length ∧ CorrelatedShares a.shares b.shares

end Sides

/-! ### The calls of one side -/

namespace Party

variable {A B : Type}

/-- The party that sees its shares through a function. -/
def map (f : A → B) (p : Party A) : Party B :=
  ⟨p.id, p.alloc, p.pending, p.queue, p.role.map f, p.asks, p.answers.map (Answer.map f),
    p.made.map f, p.requested⟩

/-- What a try leaves. -/
def tried (count : ℕ) (p : Party A) : Party A :=
  if count > p.role.length then { p with asks := p.asks ++ [count] }
  else
    { p with
      id := p.id + 1
      role := p.role.drop count
      asks := p.asks ++ [count]
      answers := p.answers ++ [⟨p.asks.length, p.id, p.role.take count⟩]
      requested := p.requested + count }

theorem tryRole_returned (count : ℕ) (p : Party A) :
    (tryRole count).returned p = some (p.tried count) := by
  rw [Method.returned, tryRole, tried, Method.get_bind]
  by_cases h : count > p.role.length
  · rw [if_pos h, if_pos h]
    rfl
  · rw [if_neg h, if_neg h]
    rfl

theorem tried_map (f : A → B) (count : ℕ) (p : Party A) :
    (p.map f).tried count = (p.tried count).map f := by
  have hlen : (p.map f).role.length = p.role.length := List.length_map _
  rw [tried, tried, hlen]
  split
  · rfl
  · simp only [map, List.map_append, List.map_cons, List.map_nil, Answer.map, List.map_drop,
      List.map_take]

theorem deliver_map (f : A → B) (queue : List Waiting) (shares : List A) (p : Party A) :
    deliver queue (shares.map f) (p.map f) =
      (deliver queue shares p).map fun r => (r.1.map f, r.2.map f) := by
  induction queue generalizing shares p with
  | nil => rfl
  | cons q queue ih =>
    rw [deliver, deliver, List.length_map]
    split
    · rw [← ih, List.map_drop]
      congr 1
      simp only [map, List.map_append, List.map_cons, List.map_nil, Answer.map, List.map_take]
    · rfl

theorem store_map (f : A → B) (shares : List A) (p : Party A) :
    (p.map f).store (shares.map f) = (p.store shares).map (map f) := by
  rw [store, store]
  show (deliver p.queue (shares.map f) ({ p with queue := [] }.map f)).bind _ = _
  rw [deliver_map]
  rcases deliver p.queue shares { p with queue := [] } with _ | ⟨rest, q⟩
  · rfl
  · show some _ = some _
    simp only [map, List.map_append]

/-- What the loop gives, where there are enough shares for the queue. -/
theorem exists_deliver {queue : List Waiting} {shares : List A} (p : Party A)
    (h : (queue.map Waiting.count).sum ≤ shares.length) :
    ∃ rest given, deliver queue shares p =
        some (rest, { p with id := p.id + queue.length, answers := p.answers ++ given }) ∧
      (given.map fun a => (a.number, a.shares.length)) = (queue.map fun q => (q.number, q.count)) ∧
      given.map Answer.id = List.range' p.id queue.length ∧
      given.flatMap Answer.shares ++ rest = shares := by
  induction queue generalizing shares p with
  | nil => exact ⟨shares, [], by simp [deliver], rfl, rfl, rfl⟩
  | cons q queue ih =>
    rw [List.map_cons, List.sum_cons] at h
    have hq : q.count ≤ shares.length := (Nat.le_add_right _ _).trans h
    have hrest : (queue.map Waiting.count).sum ≤ (shares.drop q.count).length := by
      rw [List.length_drop]
      omega
    obtain ⟨rest, given, hdeliver, hasked, hids, hshares⟩ :=
      ih { p with
        id := p.id + 1
        answers := p.answers ++ [⟨q.number, p.id, shares.take q.count⟩] } hrest
    refine ⟨rest, ⟨q.number, p.id, shares.take q.count⟩ :: given, ?_, ?_, ?_, ?_⟩
    · rw [deliver, if_pos hq, hdeliver, List.length_cons, List.append_assoc, List.singleton_append,
        Nat.add_assoc, Nat.add_comm 1]
    · rw [List.map_cons, List.map_cons, hasked, List.length_take_of_le hq]
    · rw [List.map_cons, hids, List.length_cons, List.range'_succ]
    · rw [List.flatMap_cons, List.append_assoc, hshares, List.take_append_drop]

/-! ### The invariant of one side -/

/-- What holds of one side between the calls. -/
structure Inv (p : Party A) : Prop where
  ids : p.answers.map Answer.id = List.range p.id
  counts : ∀ a ∈ p.answers, p.asks[a.number]? = some a.shares.length
  waits : ∀ q ∈ p.queue, p.asks[q.number]? = some q.count
  once : (p.answers.map Answer.number ++ p.queue.map Waiting.number).Nodup
  handed : (p.answers.flatMap Answer.shares ++ p.role).Perm p.made
  pending_eq : p.pending = (p.queue.map Waiting.count).sum
  requested_eq : p.requested = (p.answers.flatMap Answer.shares).length + p.pending
  resolved : p.alloc = 0 → p.pending ≤ p.role.length → p.queue = []

theorem Inv.new : (new : Party A).Inv where
  ids := rfl
  counts := nofun
  waits := nofun
  once := List.nodup_nil
  handed := List.Perm.refl _
  pending_eq := rfl
  requested_eq := rfl
  resolved _ _ := rfl

variable {p : Party A}

theorem Inv.served (h : p.Inv) : p.Served where
  ids := h.ids
  counts := h.counts
  once := h.once
  handed := h.handed
  resolved halloc hle := by
    refine h.resolved halloc ?_
    have hlen := h.handed.length_eq
    rw [List.length_append] at hlen
    have := h.requested_eq
    omega

/-- The next number is new. -/
theorem Inv.not_mem (h : p.Inv) :
    p.asks.length ∉ p.answers.map Answer.number ++ p.queue.map Waiting.number := by
  have hnone : p.asks[p.asks.length]? = none := List.getElem?_eq_none le_rfl
  intro hmem
  rcases List.mem_append.mp hmem with hmem | hmem
  · obtain ⟨a, ha, hnumber⟩ := List.mem_map.mp hmem
    have hsome := h.counts a ha
    rw [hnumber, hnone] at hsome
    cases hsome
  · obtain ⟨q, hq, hnumber⟩ := List.mem_map.mp hmem
    have hsome := h.waits q hq
    rw [hnumber, hnone] at hsome
    cases hsome

theorem getElem?_asks {asks : List ℕ} {n c : ℕ} (h : asks[n]? = some c) (count : ℕ) :
    (asks ++ [count])[n]? = some c := by
  rwa [List.getElem?_append_left (List.getElem?_eq_some_iff.mp h).1]

theorem Inv.allocate (h : p.Inv) (count : ℕ) : (p.allocate count).Inv :=
  { h with resolved := fun halloc => h.resolved (Nat.eq_zero_of_add_eq_zero halloc).1 }

theorem Inv.tried (h : p.Inv) (count : ℕ) : (p.tried count).Inv := by
  rw [Party.tried]
  by_cases hcount : count > p.role.length
  · rw [if_pos hcount]
    exact { h with
      counts := fun a ha => getElem?_asks (h.counts a ha) count
      waits := fun q hq => getElem?_asks (h.waits q hq) count }
  · rw [if_neg hcount]
    have hcount : count ≤ p.role.length := not_lt.mp hcount
    exact
      { ids := by simp [h.ids, List.range_succ]
        counts := by
          intro a ha
          rcases List.mem_append.mp ha with ha | ha
          · exact getElem?_asks (h.counts a ha) count
          · rw [List.mem_singleton.mp ha, List.getElem?_concat_length,
              List.length_take_of_le hcount]
        waits := fun q hq => getElem?_asks (h.waits q hq) count
        once := by
          have hnodup := List.perm_middle.nodup_iff.mpr (List.nodup_cons.mpr ⟨h.not_mem, h.once⟩)
          simpa using hnodup
        handed := by
          refine .trans ?_ h.handed
          rw [List.flatMap_append, List.flatMap_singleton, List.append_assoc,
            List.take_append_drop]
        pending_eq := h.pending_eq
        requested_eq := by
          have := h.requested_eq
          simp only [List.flatMap_append, List.flatMap_singleton, List.length_append,
            List.length_take_of_le hcount]
          omega
        resolved := by
          intro halloc hle
          simp only [List.length_drop] at hle
          exact h.resolved halloc (by omega) }

/-- A request that is queued with care. -/
theorem Inv.queueRole (h : p.Inv) {count : ℕ}
    (hcareful : 0 < p.alloc ∨ p.role.length < p.pending + count) : (p.queueRole count).Inv where
  ids := h.ids
  counts a ha := getElem?_asks (h.counts a ha) count
  waits q hq := by
    rcases List.mem_append.mp hq with hq | hq
    · exact getElem?_asks (h.waits q hq) count
    · rw [List.mem_singleton.mp hq]
      exact List.getElem?_concat_length
  once := by
    have hnodup := (List.perm_append_singleton p.asks.length _).nodup_iff.mpr
      (List.nodup_cons.mpr ⟨h.not_mem, h.once⟩)
    simpa [Party.queueRole] using hnodup
  handed := h.handed
  pending_eq := by simp [Party.queueRole, h.pending_eq]
  requested_eq := by
    have := h.requested_eq
    simp only [Party.queueRole]
    omega
  resolved halloc hle := by
    rcases hcareful with hpos | hlt
    · exact absurd halloc hpos.ne'
    · exact absurd hle (not_le.mpr hlt)

/-- A round that makes enough shares for the requests that wait. -/
theorem Inv.store (h : p.Inv) (shares : List A) (hle : p.pending ≤ shares.length) :
    ∃ p', p.store shares = some p' ∧ p'.Inv ∧ p'.made = p.made ++ shares := by
  rw [h.pending_eq] at hle
  obtain ⟨rest, given, hdeliver, hasked, hids, hshares⟩ :=
    exists_deliver { p with queue := [] } hle
  refine ⟨_, by rw [Party.store, hdeliver]; rfl, ?_, rfl⟩
  have hnumbers : given.map Answer.number = p.queue.map Waiting.number := by
    simpa [Function.comp_def] using congrArg (List.map Prod.fst) hasked
  have hlen : (given.flatMap Answer.shares).length = p.pending := by
    have hcounts : (given.map fun a => a.shares.length) = p.queue.map Waiting.count := by
      simpa [Function.comp_def] using congrArg (List.map Prod.snd) hasked
    rw [h.pending_eq, List.length_flatMap, hcounts]
  exact
    { ids := by
        simp only [List.map_append, h.ids, hids]
        rw [List.range_eq_range', List.range_eq_range', ← List.range'_append_1, Nat.zero_add]
      counts := by
        intro a ha
        rcases List.mem_append.mp ha with ha | ha
        · exact h.counts a ha
        · have hmem : (a.number, a.shares.length) ∈ p.queue.map fun q => (q.number, q.count) :=
            hasked ▸ List.mem_map_of_mem ha
          obtain ⟨q, hq, heq⟩ := List.mem_map.mp hmem
          obtain ⟨hnumber, hcount⟩ := Prod.mk.inj heq
          rw [← hnumber, ← hcount]
          exact h.waits q hq
      waits := nofun
      once := by simpa [hnumbers] using h.once
      handed := by
        have hswap := List.perm_append_comm_assoc (given.flatMap Answer.shares) p.role rest
        have hold := h.handed.append_right (given.flatMap Answer.shares ++ rest)
        rw [← hshares]
        simp only [List.flatMap_append, List.append_assoc] at hold ⊢
        exact (hswap.append_left _).trans hold
      pending_eq := rfl
      requested_eq := by
        have := h.requested_eq
        simp only [List.flatMap_append, List.length_append, hlen]
        omega
      resolved := fun _ _ => rfl }

end Party

/-! ### A round -/

theorem tryRot_eq {F : Type} (stream : ℕ → Rot F) {count : ℕ} {ots : Ots}
    (h : count ≤ ots.available) :
    Ots.tryRot stream count ots =
      (.ok ((List.range count).map fun i => stream (ots.position + i)),
        ⟨ots.allocated, ots.available - count, ots.position + count⟩) := by
  rw [Ots.tryRot, Method.get_bind, if_neg (not_lt.mpr h)]
  rfl

theorem tryRot_of_lt {F : Type} (stream : ℕ → Rot F) {count : ℕ} {ots : Ots}
    (h : ots.available < count) :
    Ots.tryRot stream count ots = (.err .ot, ots) := by
  rw [Ots.tryRot, Method.get_bind, if_pos h]
  rfl

section Rounds

variable {F : Type} [CommRing F] (env : Env F)

theorem chunks_map {α β : Type} (f : α → β) (size : ℕ) (l : List α) :
    chunks size (l.map f) = (chunks size l).map (List.map f) := by
  simp [chunks, List.map_take, List.map_drop, Function.comp_def]

theorem length_chunks {α : Type} {size count : ℕ} (hsize : 0 < size) {l : List α}
    (hl : l.length = count * size) : (chunks size l).length = count := by
  rw [chunks, List.length_map, List.length_range, hl, Nat.add_sub_assoc hsize, Nat.mul_comm,
    Nat.mul_add_div hsize, Nat.div_eq_of_lt (Nat.sub_lt hsize Nat.one_pos), Nat.add_zero]

/-- The OTs of a round that starts behind `position`. -/
def roundOts (position count : ℕ) : List (Rot F) :=
  (List.range (count * env.bitSize)).map fun i => env.rots (position + i)

/-- The sender's shares of a round, and what it sends. -/
def sent (position drawn count : ℕ) : List (OLEShare F × List F) :=
  (chunks env.bitSize ((roundOts env position count).map Rot.keys)).mapIdx fun i masks =>
    newOleSender env.twoPow (env.rng (drawn + i)) masks

/-- The receiver's shares of a round. -/
def received (position count : ℕ) (masks : List (List F)) : List (OLEShare F) :=
  (((chunks env.bitSize ((roundOts env position count).map Rot.choice)).zip
    (chunks env.bitSize ((roundOts env position count).map Rot.msg))).zip masks).map fun e =>
      newOleReceiver env.twoPow e.1.1 e.1.2 e.2

/-- **The shares of a round** are made in pairs that belong together. -/
theorem exists_round (position drawn count : ℕ) : ∃ made : List (OLEShare F × OLEShare F),
    (sent env position drawn count).map Prod.fst = made.map Prod.fst ∧
    received env position count ((sent env position drawn count).map Prod.snd) =
      made.map Prod.snd ∧
    made.length = count ∧ (sent env position drawn count).length = count ∧
    ∀ q ∈ made, q.1.Correlated q.2 := by
  have hlen : (roundOts env position count).length = count * env.bitSize := by simp [roundOts]
  have hchunks := length_chunks env.bitSize_pos hlen
  have hsent : sent env position drawn count =
      (chunks env.bitSize (roundOts env position count)).mapIdx fun i ots =>
        newOleSender env.twoPow (env.rng (drawn + i)) (ots.map Rot.keys) := by
    rw [sent, chunks_map]
    exact List.ext_getElem? fun i => by simp [Function.comp_def]
  refine ⟨(chunks env.bitSize (roundOts env position count)).mapIdx fun i ots =>
    ((newOleSender env.twoPow (env.rng (drawn + i)) (ots.map Rot.keys)).1,
      newOleReceiver env.twoPow (ots.map Rot.choice) (ots.map Rot.msg)
        (newOleSender env.twoPow (env.rng (drawn + i)) (ots.map Rot.keys)).2), ?_, ?_, ?_, ?_, ?_⟩
  · rw [hsent]
    exact List.ext_getElem? fun i => by simp [Function.comp_def]
  · rw [received, hsent, chunks_map, chunks_map]
    refine List.ext_getElem (by simp) fun i hi hi' => ?_
    simp
  · rw [List.length_mapIdx, hchunks]
  · rw [hsent, List.length_mapIdx, hchunks]
  · intro q hq
    obtain ⟨i, hi, rfl⟩ := List.mem_mapIdx.mp hq
    exact newOle_correlated _ _ _

theorem send_of_lt {s : Sender F} (h : s.party.alloc < s.party.pending) :
    Sender.send env s = (.err (.insufficientOle s.party.pending s.party.alloc), s) := by
  rw [Sender.send, Method.get_bind, if_pos h]
  rfl

theorem send_of_short {s : Sender F} (h : s.party.pending ≤ s.party.alloc)
    (hrot : s.rot.available < s.party.alloc * env.bitSize) :
    Sender.send env s = (.err .ot, s) := by
  have hzoom : Method.zoom Sender.rot (fun s rot => { s with rot }) id
      (Ots.tryRot env.rots (s.party.alloc * env.bitSize)) s = (.err .ot, s) := by
    rw [Method.zoom_apply, tryRot_of_lt env.rots hrot]
    rfl
  rw [Sender.send, Method.get_bind, if_neg (not_lt.mpr h), Method.bind_apply, hzoom]

theorem send_eq {s : Sender F} (h : s.party.pending ≤ s.party.alloc)
    (hrot : s.party.alloc * env.bitSize ≤ s.rot.available) {party : Party (OLEShare F)}
    (hstore : s.party.store ((sent env s.rot.position s.drawn s.party.alloc).map Prod.fst) =
      some party) :
    ∃ rot, Sender.send env s =
        (.ok ((sent env s.rot.position s.drawn s.party.alloc).map Prod.snd),
          ⟨party, rot, s.drawn + s.party.alloc⟩) ∧
      rot = ⟨s.rot.allocated, s.rot.available - s.party.alloc * env.bitSize,
        s.rot.position + s.party.alloc * env.bitSize⟩ := by
  refine ⟨_, ?_, rfl⟩
  have hzoom : Method.zoom Sender.rot (fun s rot => { s with rot }) id
      (Ots.tryRot env.rots (s.party.alloc * env.bitSize)) s =
        (.ok (roundOts env s.rot.position s.party.alloc), ⟨s.party, ⟨s.rot.allocated,
          s.rot.available - s.party.alloc * env.bitSize,
          s.rot.position + s.party.alloc * env.bitSize⟩, s.drawn⟩) := by
    rw [Method.zoom_apply, tryRot_eq env.rots hrot]
    rfl
  rw [Sender.send, Method.get_bind, if_neg (not_lt.mpr h), Method.bind_apply_of_ok hzoom]
  change (Method.call (.ofOption (s.party.store
    ((sent env s.rot.position s.drawn s.party.alloc).map Prod.fst))) >>= _) _ = _
  rw [hstore]
  rfl

theorem recv_eq {r : Receiver F} {masks : List (List F)} (h : r.party.pending ≤ r.party.alloc)
    (hlen : masks.length = r.party.alloc)
    (hrot : r.party.alloc * env.bitSize ≤ r.rot.available) {party : Party (OLEShare F)}
    (hstore : r.party.store (received env r.rot.position r.party.alloc masks) = some party) :
    ∃ rot, (Receiver.recv env masks).returned r = some ⟨party, rot⟩ ∧
      rot = ⟨r.rot.allocated, r.rot.available - r.party.alloc * env.bitSize,
        r.rot.position + r.party.alloc * env.bitSize⟩ := by
  refine ⟨_, ?_, rfl⟩
  have hzoom : Method.zoom Receiver.rot (fun s rot => { s with rot }) id
      (Ots.tryRot env.rots (r.party.alloc * env.bitSize)) r =
        (.ok (roundOts env r.rot.position r.party.alloc), ⟨r.party, ⟨r.rot.allocated,
          r.rot.available - r.party.alloc * env.bitSize,
          r.rot.position + r.party.alloc * env.bitSize⟩⟩) := by
    rw [Method.zoom_apply, tryRot_eq env.rots hrot]
    rfl
  have hrecv : Receiver.recv env masks r = (.ok (), ⟨party, ⟨r.rot.allocated,
      r.rot.available - r.party.alloc * env.bitSize,
      r.rot.position + r.party.alloc * env.bitSize⟩⟩) := by
    rw [Receiver.recv, Method.get_bind, if_neg (not_lt.mpr h), if_neg (not_not.mpr hlen),
      Method.bind_apply_of_ok hzoom]
    change (Method.call (.ofOption (r.party.store
      (received env r.rot.position r.party.alloc masks))) >>= _) _ = _
    rw [hstore]
    rfl
  rw [Method.returned, hrecv]

/-! ### The two sides together -/

/-- The two sides are the images of one party that is given pairs which belong together. -/
structure Inv (w : World F) (p : Party (OLEShare F × OLEShare F)) : Prop where
  party : p.Inv
  correlated : ∀ q ∈ p.made, q.1.Correlated q.2
  sender : w.sender.party = p.map Prod.fst
  receiver : w.receiver.party = p.map Prod.snd
  rot : w.receiver.rot = w.sender.rot

variable {env} {w w' : World F} {p : Party (OLEShare F × OLEShare F)}

theorem Inv.new : Inv (World.new : World F) .new where
  party := .new
  correlated := nofun
  sender := rfl
  receiver := rfl
  rot := rfl

/-- **A round.** It returns an error and changes nothing, or both sides are given the shares of the
same OLEs. -/
theorem Inv.round (env : Env F) (h : Inv w p) :
    ∃ w' p', w.next env .round = some w' ∧ Inv w' p' := by
  have halloc : w.sender.party.alloc = p.alloc := congrArg Party.alloc h.sender
  have hpending : w.sender.party.pending = p.pending := congrArg Party.pending h.sender
  have halloc' : w.receiver.party.alloc = p.alloc := congrArg Party.alloc h.receiver
  have hpending' : w.receiver.party.pending = p.pending := congrArg Party.pending h.receiver
  rcases Nat.lt_or_ge w.sender.party.alloc w.sender.party.pending with hlt | hle
  · refine ⟨w, p, ?_, h⟩
    rw [World.next, send_of_lt env hlt]
  rcases Nat.lt_or_ge w.sender.rot.available (w.sender.party.alloc * env.bitSize) with hlt | hrot
  · refine ⟨w, p, ?_, h⟩
    rw [World.next, send_of_short env hle hlt]
  obtain ⟨made, hfst, hsnd, hlen, hlensent, hcorr⟩ :=
    exists_round env w.sender.rot.position w.sender.drawn p.alloc
  obtain ⟨p', hstore, hinv, hmade⟩ := h.party.store made
    (by rw [hlen, ← halloc, ← hpending]; exact hle)
  -- The store of the pairs, as either side sees it.
  have hs : w.sender.party.store ((sent env w.sender.rot.position w.sender.drawn
      w.sender.party.alloc).map Prod.fst) = some (p'.map Prod.fst) := by
    rw [halloc, hfst, h.sender, Party.store_map, hstore]
    rfl
  have hr : w.receiver.party.store (received env w.receiver.rot.position w.receiver.party.alloc
      ((sent env w.sender.rot.position w.sender.drawn w.sender.party.alloc).map Prod.snd)) =
        some (p'.map Prod.snd) := by
    rw [halloc, halloc', h.rot, hsnd, h.receiver, Party.store_map, hstore]
    rfl
  obtain ⟨rot, hsend, hrots⟩ := send_eq env hle hrot hs
  obtain ⟨rot', hrecv, hrotr⟩ :=
    recv_eq env (by rw [halloc', hpending', ← halloc, ← hpending]; exact hle)
    (by rw [List.length_map, halloc, hlensent, halloc'])
    (by rw [halloc', h.rot, ← halloc]; exact hrot) hr
  refine ⟨⟨⟨p'.map Prod.fst, rot, w.sender.drawn + w.sender.party.alloc⟩,
    ⟨p'.map Prod.snd, rot'⟩⟩, p', ?_, hinv, ?_, rfl, rfl, ?_⟩
  · rw [World.next, hsend]
    simp only [hrecv, Option.bind_eq_bind, Option.bind_some]
  · intro q hq
    rw [hmade] at hq
    rcases List.mem_append.mp hq with hq | hq
    · exact h.correlated q hq
    · exact hcorr q hq
  · rw [hrots, hrotr, h.rot, halloc, halloc']

/-- **One step.** -/
theorem Inv.step (h : Inv w p) {a : Act} (hstep : CarefulStep env w a w') :
    ∃ p', Inv w' p' := by
  obtain ⟨hcareful, hnext⟩ := hstep
  have hnext : w.next env a = some w' := hnext
  cases a with
  | alloc count =>
    obtain rfl := Option.some.inj hnext
    exact ⟨p.allocate count, h.party.allocate count, h.correlated,
      congrArg (Party.allocate count) h.sender, congrArg (Party.allocate count) h.receiver,
      congrArg (fun rot : Ots => { rot with allocated := rot.allocated + count * env.bitSize })
        h.rot⟩
  | flushRot =>
    obtain rfl := Option.some.inj hnext
    exact ⟨p, h.party, h.correlated, h.sender, h.receiver, congrArg Ots.flush h.rot⟩
  | tryRole count =>
    rw [World.next, Party.tryRole_returned, Party.tryRole_returned] at hnext
    obtain rfl := Option.some.inj hnext
    refine ⟨p.tried count, h.party.tried count, ?_, ?_, ?_, h.rot⟩
    · have hmade : (p.tried count).made = p.made := by
        rw [Party.tried]
        split <;> rfl
      rw [hmade]
      exact h.correlated
    · rw [← Party.tried_map, ← h.sender]
    · rw [← Party.tried_map, ← h.receiver]
  | queueRole count =>
    obtain rfl := Option.some.inj hnext
    have hcareful : 0 < p.alloc ∨ p.role.length < p.pending + count := by
      have hlen : w.sender.party.role.length = p.role.length := by
        rw [h.sender]
        exact List.length_map _
      have hcareful : 0 < w.sender.party.alloc ∨
        w.sender.party.role.length < w.sender.party.pending + count := hcareful
      rwa [hlen, congrArg Party.alloc h.sender, congrArg Party.pending h.sender] at hcareful
    exact ⟨p.queueRole count, h.party.queueRole hcareful, h.correlated,
      congrArg (Party.queueRole count) h.sender, congrArg (Party.queueRole count) h.receiver, h.rot⟩
  | round =>
    obtain ⟨w'', p', hround, hinv⟩ := h.round env
    obtain rfl := Option.some.inj (hround.symm.trans hnext)
    exact ⟨p', hinv⟩

theorem Party.Inv.map {A B : Type} {p : Party A} (h : p.Inv) (f : A → B) : (p.map f).Inv where
  ids := by simpa [Party.map, Answer.map, Function.comp_def] using h.ids
  counts := by
    intro a ha
    obtain ⟨b, hb, rfl⟩ := List.mem_map.mp ha
    rw [Answer.map, List.length_map]
    exact h.counts b hb
  waits := h.waits
  once := by simpa [Party.map, Answer.map, Function.comp_def] using h.once
  handed := by
    have hperm := h.handed.map f
    simpa [Party.map, Answer.map, List.map_flatMap, List.flatMap_map] using hperm
  pending_eq := h.pending_eq
  requested_eq := by
    have := h.requested_eq
    simpa [Party.map, Answer.map, List.flatMap_map, List.length_flatMap] using this
  resolved halloc hle := h.resolved halloc (by simpa [Party.map] using hle)

theorem Inv.serves (h : Inv w p) : Serves w where
  sender := h.sender ▸ (h.party.map Prod.fst).served
  receiver := h.receiver ▸ (h.party.map Prod.snd).served
  numbers := by
    rw [h.sender, h.receiver]
    simp [Party.map, Answer.map, Function.comp_def]
  agree a ha b hb hab := by
    rw [h.sender] at ha
    rw [h.receiver] at hb
    obtain ⟨x, hx, rfl⟩ := List.mem_map.mp ha
    obtain ⟨y, hy, rfl⟩ := List.mem_map.mp hb
    -- Answers to one request of the pairs are one answer.
    obtain rfl : x = y := List.inj_on_of_nodup_map (List.Nodup.of_append_left h.party.once)
      hx hy hab
    refine ⟨rfl, (List.length_map _).trans (List.length_map _).symm, fun i s r hs hr => ?_⟩
    simp only [Answer.map] at hs hr
    rw [List.getElem?_map, Option.map_eq_some_iff] at hs hr
    obtain ⟨z, hz, rfl⟩ := hs
    obtain ⟨z', hz', rfl⟩ := hr
    obtain rfl := Option.some.inj (hz.symm.trans hz')
    refine h.correlated z (h.party.handed.subset (List.mem_append_left _ ?_))
    exact List.mem_flatMap.mpr ⟨x, hx, List.mem_of_getElem? hz⟩

end Rounds

end OverRot

open OverRot

/-- Two OTs for an element of `ZMod 3`: the choice bits of the first OLE are those of three. -/
def OverRot.smallEnv : Env (ZMod 3) where
  bitSize := 2
  bitSize_pos := Nat.two_pos
  twoPow k := 2 ^ k
  rots k := ⟨k, k + 1, decide (k < 2)⟩
  rng k := k + 1

/-- A careful step, where it is one. -/
def OverRot.carefulNext (w : World (ZMod 3)) (a : Act) : Option (World (ZMod 3)) :=
  if a.Careful w then w.next smallEnv a else none

theorem OverRot.carefulStep_of_next (w : World (ZMod 3)) (a : Act) (w' : World (ZMod 3))
    (h : carefulNext w a = some w') : CarefulStep smallEnv w a w' := by
  rw [carefulNext] at h
  split at h
  case isTrue ha => exact ⟨ha, h⟩
  case isFalse => cases h

/-- A request that a round serves, and a try behind it. -/
theorem OverRot.run_requests : ∃ w : World (ZMod 3), Run (CarefulStep smallEnv) World.new
    [.alloc 3, .queueRole 2, .flushRot, .round, .tryRole 1] w ∧
    w.sender.party.answers.length = 2 ∧ w.receiver.party.answers.length = 2 :=
  ⟨_, Run.of_isSome _ carefulStep_of_next (by decide +kernel), by decide +kernel,
    by decide +kernel⟩

end Mpz
