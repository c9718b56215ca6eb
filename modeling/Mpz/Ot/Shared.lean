import Mathlib.Data.List.Range
import Mpz.Lib.Method
import Mpz.Lib.Requests

/-!
# One instance of a shared RCOT

The instances of a shared RCOT, which are clones of each other, use one inner RCOT. An instance has
its own OTs and its own queue, and a buffer for what it has allocated and what the others fetched
for it. The code of the sender and of the receiver is the same, but for the kind of OTs that it
moves: keys, or choices with messages, which are kept in two lists of one length that are always
changed together. So here an instance is generic in what it moves, and what it does commutes with
any change of that, `Instance.map`.

A flush fetches OTs for all instances, see `Mpz.Ot.SharedFlush`. What an instance does behind that
is `Instance.collect`: it picks its OTs up and answers the requests that wait, until the first one
that there are not enough OTs for. The others are gone.

## Main definitions

* `Instance`, `Instance.run`, `Instance.collect` — an instance, its calls, and the end of a flush
* `Instance.all` — all OTs of an instance, those that it has handed out included
* `Instance.Good` — the invariant of an instance

## Main results

* `Instance.map_run`, `Instance.map_collected` — what moves OTs moves them in the same way for all
* `Instance.Good.run`, `Instance.Good.collected` — the invariant is kept
-/

namespace Mpz

namespace SharedRCOT

/-- expected, actual: setup has not been performed for as many -/
inductive Error where
  | insufficientSetup (expected actual : ℕ)
  deriving DecidableEq, Repr

/-- The OTs that an instance has allocated, and those that were fetched for it. -/
structure Buffer (A : Type) where
  /-- Number of OTs which have been allocated but not yet setup. -/
  count : ℕ
  /-- Those that were fetched. -/
  items : List A
  deriving DecidableEq, Repr

/-- The output of a transfer. -/
structure Output (A : Type) where
  /-- Transfer id. -/
  id : ℕ
  /-- The OTs. -/
  items : List A
  deriving DecidableEq, Repr

/-- Where an instance is in a flush. -/
inductive Phase where
  /-- It is in none. -/
  | idle
  /-- It has arrived at the barrier. -/
  | parked
  /-- The leader has fetched the OTs and proceeded. -/
  | released
  deriving DecidableEq, Repr

/-- An instance. The last three fields remember what was handed out, how many OTs each queued
request was for, and how many were allocated. -/
structure Instance (A : Type) where
  /-- The next transfer id. -/
  transferId : ℕ
  /-- The OTs that are available. -/
  items : List A
  /-- The requests that wait. -/
  queue : List Queued
  /-- The futures. -/
  futures : Futures (Output A)
  /-- Its entry in the shared state. -/
  buffer : Option (Buffer A)
  /-- Where it is in a flush. -/
  phase : Phase
  /-- What was handed out. -/
  handed : List (Output A)
  /-- How many OTs each queued request was for. -/
  asked : List ℕ
  /-- How many OTs were allocated. -/
  allocated : ℕ
  deriving DecidableEq, Repr

/-- A call of an instance. -/
inductive Call where
  /-- Allocates OTs. -/
  | alloc (count : ℕ)
  /-- Returns OTs, if available. -/
  | tryRcot (count : ℕ)
  /-- Queues a request for OTs. -/
  | queueRcot (count : ℕ)
  deriving DecidableEq, Repr

variable {A B : Type}

/-- Other OTs in the place of those of an output. -/
def Output.map (f : A → B) (o : Output A) : Output B := ⟨o.id, o.items.map f⟩

/-- Two lists are merged by adding the shorter one to the longer one. -/
def merge (new old : List A) : List A := if new.length > old.length then new ++ old else old ++ new

namespace Instance

/-- A new instance. -/
def new : Instance A := ⟨0, [], [], Futures.new, none, .idle, [], [], 0⟩

/-- The number of OTs that are available. -/
def available (self : Instance A) : ℕ := self.items.length

/-- How many OTs were allocated but not yet setup. -/
def outstanding (self : Instance A) : ℕ :=
  match self.buffer with
  | some buffer => buffer.count
  | none => 0

/-- The OTs that were fetched for it. -/
def fetched (self : Instance A) : List A :=
  match self.buffer with
  | some buffer => buffer.items
  | none => []

/-- Allocates OTs. -/
def alloc (count : ℕ) (self : Instance A) : Instance A :=
  if count = 0 then self
  else { self with
    buffer := match self.buffer with
      | some buffer => some { buffer with count := buffer.count + count }
      | none => some ⟨count, []⟩
    allocated := self.allocated + count }

/-- The output of a transfer: the last OTs. -/
def last (count : ℕ) (self : Instance A) : Output A :=
  ⟨self.transferId, self.items.drop (self.items.length - count)⟩

/-- An instance without its last OTs. -/
def withoutLast (count : ℕ) (self : Instance A) : Instance A :=
  { self with
    items := self.items.take (self.items.length - count)
    transferId := self.transferId + 1
    handed := self.handed ++ [self.last count] }

/-- Returns OTs, if available. -/
def tryRcot (count : ℕ) : Method (Instance A) Error (Output A) := do
  let self ← Method.get
  if self.available < count then Method.throw (.insufficientSetup count self.available)
  else do
    Method.modify (withoutLast count)
    return self.last count

/-- Returns OTs to a request. -/
def answer (count sender : ℕ) : Method (Instance A) Error Unit := do
  let output ← tryRcot count
  Method.modify fun s => { s with futures := s.futures.send sender output }

/-- Queues a request for OTs. If enough are available, it is answered immediately. -/
def queueRcot (count : ℕ) : Method (Instance A) Error ℕ := do
  let self ← Method.get
  Method.modify fun s => { s with futures := s.futures.newOutput, asked := s.asked ++ [count] }
  if count ≤ self.available then do
    answer count self.futures.next
    return self.futures.next
  else do
    Method.modify fun s => { s with queue := s.queue ++ [⟨count, self.futures.next⟩] }
    return self.futures.next

/-- What a call leaves. Its result is returned to the caller. -/
def run (self : Instance A) : Call → Instance A
  | .alloc count => self.alloc count
  | .tryRcot count => (tryRcot count self).2
  | .queueRcot count => (queueRcot count self).2

/-- The leader of a flush adds what it has fetched. -/
def give (new : List A) (self : Instance A) : Instance A :=
  if self.outstanding = 0 then self
  else { self with buffer := some ⟨0, merge new self.fetched⟩ }

/-- Picks up what was fetched, behind the barrier. -/
def pickUp (self : Instance A) : Instance A :=
  match self.buffer with
  | none => { self with phase := .idle }
  | some buffer => { self with
    phase := .idle
    items := merge buffer.items self.items
    buffer := if buffer.count = 0 then none else some { buffer with items := [] } }

/-- The end of a flush: the instance picks up what was fetched, and answers the requests that
wait. -/
def collect : Method (Instance A) Error Unit := do
  Method.modify pickUp
  let self ← Method.get
  Method.modify fun s => { s with queue := [] }
  Method.forEach (fun q => answer q.count q.sender) self.queue

/-! ### What a call does -/

theorem tryRcot_eq (self : Instance A) (count : ℕ) : tryRcot count self =
    if count ≤ self.items.length then (.ok (self.last count), self.withoutLast count)
    else (.err (.insufficientSetup count self.available), self) := by
  rw [tryRcot, Method.get_bind]
  by_cases h : count ≤ self.items.length
  · rw [if_pos h, if_neg (show ¬ self.available < count from Nat.not_lt.mpr h)]
    rfl
  · rw [if_neg h, if_pos (show self.available < count from Nat.not_le.mp h)]
    rfl

/-- An instance that has answered a request. -/
def answered (count sender : ℕ) (self : Instance A) : Instance A :=
  { self.withoutLast count with futures := self.futures.send sender (self.last count) }

theorem answer_eq {self : Instance A} {count : ℕ} (h : count ≤ self.items.length) (sender : ℕ) :
    answer count sender self = (.ok (), self.answered count sender) := by
  have hrun : tryRcot count self = (.ok (self.last count), self.withoutLast count) := by
    rw [tryRcot_eq, if_pos h]
  rw [answer, Method.bind_apply_of_ok hrun]
  rfl

theorem queueRcot_eq (self : Instance A) (count : ℕ) : (queueRcot count self).2 =
    if count ≤ self.items.length then
      ({ self with futures := self.futures.newOutput, asked := self.asked ++ [count] } :
        Instance A).answered count self.futures.next
    else { self with
      futures := self.futures.newOutput
      asked := self.asked ++ [count]
      queue := self.queue ++ [⟨count, self.futures.next⟩] } := by
  rw [queueRcot, Method.get_bind, Method.modify_bind]
  by_cases h : count ≤ self.items.length
  · rw [if_pos h, if_pos (by exact h), Method.bind_apply_of_ok (answer_eq (by exact h) _)]
    rfl
  · rw [if_neg h, if_neg (by exact h)]
    rfl

/-- The requests are answered one after the other. -/
def serve (queue : List Queued) (self : Instance A) : Instance A :=
  queue.foldl (fun s q => s.answered q.count q.sender) self

/-- What the end of a flush leaves, where there are enough OTs for all requests that wait. -/
def collected (self : Instance A) :
    Instance A := ({ self.pickUp with queue := [] }).serve self.queue

/-- What picking up changes. -/
theorem pickUp_eq (self : Instance A) : ∃ items buffer,
    self.pickUp = { self with phase := .idle, items := items, buffer := buffer } := by
  rw [pickUp]
  split
  next => exact ⟨_, _, rfl⟩
  next => exact ⟨_, _, rfl⟩

theorem forEach_answer {queue : List Queued} {self : Instance A}
    (h : (queue.map Queued.count).sum ≤ self.items.length) :
    Method.forEach (fun q : Queued => answer q.count q.sender) queue self =
      (.ok (), self.serve queue) := by
  induction queue generalizing self with
  | nil => rfl
  | cons q queue ih =>
    rw [List.map_cons, List.sum_cons] at h
    have hlen : (self.answered q.count q.sender).items.length = self.items.length - q.count := by
      show (self.items.take _).length = _
      rw [List.length_take, min_eq_left (Nat.sub_le _ _)]
    rw [Method.forEach, Method.bind_apply_of_ok (answer_eq (by omega) _), ih (by rw [hlen]; omega)]
    rfl

theorem length_pickUp (self : Instance A) :
    self.pickUp.items.length = self.items.length + self.fetched.length := by
  rw [pickUp, fetched]
  cases self.buffer with
  | none => rfl
  | some buffer =>
    show (merge buffer.items self.items).length = _
    rw [merge]
    split
    next => rw [List.length_append, Nat.add_comm]
    next => rw [List.length_append]

theorem collect_eq {self : Instance A}
    (h : (self.queue.map Queued.count).sum ≤ self.items.length + self.fetched.length) :
    collect self = (.ok (), self.collected) := by
  have hqueue : self.pickUp.queue = self.queue := by
    obtain ⟨items, buffer, heq⟩ := pickUp_eq self
    rw [heq]
  rw [collect, Method.modify_bind, Method.get_bind, Method.modify_bind, hqueue]
  exact forEach_answer (by exact length_pickUp self ▸ h)

/-! ### What moves OTs is the same for all kinds of them -/

section Map

variable (f : A → B)

/-- Other OTs in the place of those of an instance. -/
def map (self : Instance A) : Instance B where
  transferId := self.transferId
  items := self.items.map f
  queue := self.queue
  futures := ⟨self.futures.next, self.futures.sent.map fun s => (s.1, s.2.map f)⟩
  buffer := self.buffer.map fun buffer => ⟨buffer.count, buffer.items.map f⟩
  phase := self.phase
  handed := self.handed.map (Output.map f)
  asked := self.asked
  allocated := self.allocated

theorem map_merge (new old : List A) : (merge new old).map f = merge (new.map f) (old.map f) := by
  simp only [merge, List.length_map]
  split <;> rw [List.map_append]

@[simp] theorem length_map_items (self : Instance A) :
    (self.map f).items.length = self.items.length :=
  List.length_map f

@[simp] theorem outstanding_map (self : Instance A) :
    (self.map f).outstanding = self.outstanding := by
  rw [outstanding, outstanding, map]
  cases self.buffer <;> rfl

@[simp] theorem fetched_map (self : Instance A) : (self.map f).fetched = self.fetched.map f := by
  rw [fetched, fetched, map]
  cases self.buffer <;> rfl

theorem map_alloc (count : ℕ) (self : Instance A) :
    (self.alloc count).map f = (self.map f).alloc count := by
  rw [alloc, alloc]
  split
  next => rfl
  next =>
    rw [map, map]
    cases self.buffer <;> rfl

theorem map_last (count : ℕ) (self : Instance A) :
    (self.last count).map f = (self.map f).last count := by
  simp only [last, Output.map, map, List.map_drop, List.length_map]

theorem map_withoutLast (count : ℕ) (self : Instance A) :
    (self.withoutLast count).map f = (self.map f).withoutLast count := by
  simp only [withoutLast, map, List.map_take, List.length_map, List.map_append, List.map_cons,
    List.map_nil, map_last]

theorem map_answered (count sender : ℕ) (self : Instance A) :
    (self.answered count sender).map f = (self.map f).answered count sender := by
  simp only [answered, withoutLast, map, Futures.send, List.map_append, List.map_cons, List.map_nil,
    List.map_take, List.length_map, map_last]

/-- **A call moves OTs in the same way, whatever they are.** -/
theorem map_run (call : Call) (self : Instance A) :
    (self.run call).map f = (self.map f).run call := by
  cases call with
  | alloc count => exact map_alloc f count self
  | tryRcot count =>
    rw [run, run, tryRcot_eq, tryRcot_eq, length_map_items]
    split
    next => exact map_withoutLast f count self
    next => rfl
  | queueRcot count =>
    rw [run, run, queueRcot_eq, queueRcot_eq, length_map_items]
    split
    next => exact map_answered f count self.futures.next _
    next => rfl

theorem map_give (new : List A) (self : Instance A) :
    (self.give new).map f = (self.map f).give (new.map f) := by
  rw [give, give, outstanding_map, fetched_map, ← map_merge]
  split <;> rfl

theorem map_pickUp (self : Instance A) : self.pickUp.map f = (self.map f).pickUp := by
  rw [pickUp, pickUp, map, map]
  cases self.buffer with
  | none => rfl
  | some buffer =>
    simp only [map_merge, Option.map_some]
    split <;> rfl

theorem map_serve (queue : List Queued) (self : Instance A) :
    (self.serve queue).map f = (self.map f).serve queue := by
  induction queue generalizing self with
  | nil => rfl
  | cons q queue ih =>
    show ((self.answered q.count q.sender).serve queue).map f = _
    rw [ih, map_answered]
    rfl

theorem map_collected (self : Instance A) : self.collected.map f = (self.map f).collected := by
  rw [collected, collected, map_serve, ← map_pickUp]
  rfl

end Map

/-! ### Nothing is lost and nothing is handed out twice -/

/-- All OTs of an instance: those that it has handed out, those that are available, and those that
were fetched for it. -/
def all (self : Instance A) : List A :=
  self.handed.flatMap Output.items ++ self.items ++ self.fetched

@[simp] theorem all_map (f : A → B) (self : Instance A) : (self.map f).all = self.all.map f := by
  rw [all, all, fetched_map, List.map_append, List.map_append, List.map_flatMap]
  show (self.handed.map (Output.map f)).flatMap Output.items ++ _ ++ _ = _
  rw [List.flatMap_map]
  rfl

theorem merge_perm (new old : List A) : (merge new old).Perm (old ++ new) := by
  rw [merge]
  split
  next => exact List.perm_append_comm
  next => exact List.Perm.refl _

theorem fetched_alloc (count : ℕ) (self : Instance A) :
    (self.alloc count).fetched = self.fetched := by
  by_cases h : count = 0
  · rw [alloc, if_pos h]
  · rw [alloc, if_neg h, fetched, fetched]
    cases self.buffer <;> rfl

theorem all_alloc (count : ℕ) (self : Instance A) : (self.alloc count).all = self.all := by
  rw [all, all, fetched_alloc]
  by_cases h : count = 0
  · rw [alloc, if_pos h]
  · rw [alloc, if_neg h]

theorem outstanding_alloc (count : ℕ) (self : Instance A) :
    (self.alloc count).outstanding = self.outstanding + count := by
  by_cases h : count = 0
  · rw [alloc, if_pos h, h, Nat.add_zero]
  · rw [alloc, if_neg h, outstanding, outstanding]
    cases self.buffer with
    | none => exact (Nat.zero_add count).symm
    | some buffer => rfl

theorem all_withoutLast (count : ℕ) (self : Instance A) :
    (self.withoutLast count).all.Perm self.all := by
  show ((self.handed ++ [self.last count]).flatMap Output.items ++ self.items.take _ ++
    self.fetched).Perm _
  rw [List.flatMap_append, List.flatMap_singleton, all]
  refine List.Perm.append_right _ ?_
  rw [List.append_assoc]
  refine List.Perm.append_left _ (List.perm_append_comm.trans ?_)
  rw [last, List.take_append_drop]

theorem all_answered (count sender : ℕ) (self : Instance A) :
    (self.answered count sender).all.Perm self.all := all_withoutLast count self

theorem all_run (call : Call) (self : Instance A) : (self.run call).all.Perm self.all := by
  cases call with
  | alloc count => rw [run, all_alloc]
  | tryRcot count =>
    rw [run, tryRcot_eq]
    split
    next => exact all_withoutLast count self
    next => exact List.Perm.refl _
  | queueRcot count =>
    rw [run, queueRcot_eq]
    split
    next => exact all_answered count self.futures.next _
    next => exact List.Perm.refl _

theorem all_give {new : List A} {self : Instance A} (h : new.length = self.outstanding) :
    (self.give new).all.Perm (self.all ++ new) := by
  rw [give]
  split
  next h0 =>
    rw [List.length_eq_zero_iff.mp (h.trans h0), List.append_nil]
  next =>
    rw [all, all, List.append_assoc (_ ++ _)]
    exact List.Perm.append_left _ (merge_perm new self.fetched)

theorem all_pickUp (self : Instance A) : self.pickUp.all.Perm self.all := by
  rw [pickUp, all, all, fetched, fetched]
  cases self.buffer with
  | none => exact List.Perm.refl _
  | some buffer =>
    have hnil : (match if buffer.count = 0 then none else some { buffer with items := [] } with
        | some buffer => buffer.items
        | none => []) = ([] : List A) := by
      split
      next h =>
        split at h <;> cases h
        rfl
      next => rfl
    show (self.handed.flatMap Output.items ++ merge buffer.items self.items ++ _).Perm _
    rw [hnil, List.append_nil, List.append_assoc]
    exact List.Perm.append_left _ (merge_perm buffer.items self.items)

theorem outstanding_pickUp (self : Instance A) : self.pickUp.outstanding = self.outstanding := by
  rw [pickUp, outstanding, outstanding]
  cases self.buffer with
  | none => rfl
  | some buffer =>
    by_cases h : buffer.count = 0
    · simp only [if_pos h]
      exact h.symm
    · simp only [if_neg h]

theorem all_serve (queue : List Queued) (self : Instance A) :
    (self.serve queue).all.Perm self.all := by
  induction queue generalizing self with
  | nil => exact List.Perm.refl _
  | cons q queue ih => exact (ih (self.answered q.count q.sender)).trans (all_answered _ _ _)

theorem all_collected (self : Instance A) : self.collected.all.Perm self.all :=
  (all_serve self.queue _).trans (all_pickUp self)

/-! ### What does not change -/

theorem phase_run (call : Call) (self : Instance A) : (self.run call).phase = self.phase := by
  cases call with
  | alloc count =>
    rw [run, alloc]
    by_cases h : count = 0
    · rw [if_pos h]
    · rw [if_neg h]
  | tryRcot count =>
    rw [run, tryRcot_eq]
    split <;> rfl
  | queueRcot count =>
    rw [run, queueRcot_eq]
    split <;> rfl

/-- Answering requests hands out more, sends more to futures, and changes nothing else. -/
theorem serve_keeps (queue : List Queued) (self : Instance A) :
    (self.serve queue).phase = self.phase ∧ (self.serve queue).outstanding = self.outstanding ∧
      (self.serve queue).queue = self.queue ∧ self.handed <+: (self.serve queue).handed ∧
        self.futures.sent <+: (self.serve queue).futures.sent := by
  induction queue generalizing self with
  | nil => exact ⟨rfl, rfl, rfl, List.prefix_rfl, List.prefix_rfl⟩
  | cons q queue ih =>
    obtain ⟨hphase, hout, hqueue, hhanded, hsent⟩ := ih (self.answered q.count q.sender)
    exact ⟨hphase, hout, hqueue, (List.prefix_append _ _).trans hhanded,
      (List.prefix_append _ _).trans hsent⟩

theorem collected_keeps (self : Instance A) :
    self.collected.phase = .idle ∧ self.collected.outstanding = self.outstanding ∧
      self.collected.queue = [] ∧ self.handed <+: self.collected.handed ∧
        self.futures.sent <+: self.collected.futures.sent := by
  have hout := outstanding_pickUp self
  obtain ⟨hphase, hserve, hqueue, hhanded, hsent⟩ :=
    serve_keeps self.queue { self.pickUp with queue := [] }
  rw [collected]
  obtain ⟨items, buffer, heq⟩ := pickUp_eq self
  rw [heq] at hphase hserve hqueue hhanded hsent hout ⊢
  exact ⟨hphase, hserve.trans hout, hqueue, hhanded, hsent⟩

/-- What is true of an instance when these requests wait: every request waits or was answered with
as many OTs as it was for, and what was allocated is outstanding or there. -/
structure Good (waits : List Queued) (c : Instance A) : Prop where
  next : c.futures.next = c.asked.length
  waiting : ∀ q ∈ waits, c.asked[q.sender]? = some q.count
  sent : ∀ s ∈ c.futures.sent, s.2 ∈ c.handed ∧ c.asked[s.1]? = some s.2.items.length
  kept : ∀ k < c.futures.next, (∃ o, (k, o) ∈ c.futures.sent) ∨ ∃ q ∈ waits, q.sender = k
  ids : c.handed.map Output.id = List.range c.transferId
  fulfilled : c.all.length + c.outstanding = c.allocated

namespace Good

variable {waits : List Queued} {c : Instance A}

theorem new : Good [] (Instance.new : Instance A) where
  next := rfl
  waiting := nofun
  sent := nofun
  kept := nofun
  ids := rfl
  fulfilled := rfl

variable (h : Good waits c)
include h

theorem phase (p : Phase) : Good waits { c with phase := p } :=
  ⟨h.next, h.waiting, h.sent, h.kept, h.ids, h.fulfilled⟩

theorem withoutLast (count : ℕ) : Good waits (c.withoutLast count) where
  next := h.next
  waiting := h.waiting
  sent s hs := ⟨List.mem_append_left _ (h.sent s hs).1, (h.sent s hs).2⟩
  kept := h.kept
  ids := by
    show (c.handed ++ [c.last count]).map Output.id = List.range (c.transferId + 1)
    rw [List.map_append, h.ids, List.range_succ]
    rfl
  fulfilled := by
    rw [(all_withoutLast count c).length_eq]
    exact h.fulfilled

/-- A request is made. -/
theorem ask (count : ℕ) : Good (waits ++ [⟨count, c.futures.next⟩])
    { c with futures := c.futures.newOutput, asked := c.asked ++ [count] } where
  next := by
    show c.futures.next + 1 = (c.asked ++ [count]).length
    rw [h.next, List.length_append, List.length_singleton]
  waiting q hq := by
    show (c.asked ++ [count])[q.sender]? = _
    rcases List.mem_append.mp hq with hq | hq
    · have hget := h.waiting q hq
      rw [List.getElem?_append_left (List.getElem?_eq_some_iff.mp hget).1, hget]
    · rw [List.mem_singleton] at hq
      subst hq
      rw [h.next]
      exact List.getElem?_concat_length
  sent s hs := by
    obtain ⟨hmem, hget⟩ := h.sent s hs
    refine ⟨hmem, ?_⟩
    show (c.asked ++ [count])[s.1]? = _
    rw [List.getElem?_append_left (List.getElem?_eq_some_iff.mp hget).1, hget]
  kept k hk := by
    rcases Nat.lt_succ_iff_lt_or_eq.mp hk with hk | rfl
    · rcases h.kept k hk with ho | ⟨q, hq, rfl⟩
      · exact .inl ho
      · exact .inr ⟨q, List.mem_append_left _ hq, rfl⟩
    · exact .inr ⟨_, List.mem_append_right _ (List.mem_singleton_self _), rfl⟩
  ids := h.ids
  fulfilled := h.fulfilled

theorem alloc (count : ℕ) : Good waits (c.alloc count) := by
  have hall := h.fulfilled
  refine ⟨?_, ?_, ?_, ?_, ?_, ?_⟩
  case refine_6 =>
    rw [all_alloc, outstanding_alloc, ← Nat.add_assoc, hall]
    by_cases h0 : count = 0
    · rw [Instance.alloc, if_pos h0, h0, Nat.add_zero]
    · rw [Instance.alloc, if_neg h0]
  all_goals
    rw [Instance.alloc]
    split
  · exact h.next
  · exact h.next
  · exact h.waiting
  · exact h.waiting
  · exact h.sent
  · exact h.sent
  · exact h.kept
  · exact h.kept
  · exact h.ids
  · exact h.ids

theorem give {new : List A} (hnew : new.length = c.outstanding) : Good waits (c.give new) := by
  have hall := (all_give hnew).length_eq
  have hful := h.fulfilled
  rw [List.length_append, hnew] at hall
  by_cases h0 : c.outstanding = 0
  · rw [Instance.give, if_pos h0]
    exact h
  · rw [Instance.give, if_neg h0] at hall ⊢
    exact ⟨h.next, h.waiting, h.sent, h.kept, h.ids, hall.trans hful⟩

theorem pickUp : Good waits c.pickUp := by
  have hful : c.pickUp.all.length + c.pickUp.outstanding = c.allocated := by
    rw [(all_pickUp c).length_eq, outstanding_pickUp, h.fulfilled]
  obtain ⟨items, buffer, heq⟩ := pickUp_eq c
  rw [heq] at hful ⊢
  exact ⟨h.next, h.waiting, h.sent, h.kept, h.ids, hful⟩

omit h

/-- A request is answered. -/
theorem answered {q : Queued} (h : Good (q :: waits) c) (hn : q.count ≤ c.items.length) :
    Good waits (c.answered q.count q.sender) where
  next := h.next
  waiting p hp := h.waiting p (List.mem_cons_of_mem _ hp)
  sent s hs := by
    rcases List.mem_append.mp hs with hs | hs
    · exact ⟨List.mem_append_left _ (h.sent s hs).1, (h.sent s hs).2⟩
    · rw [List.mem_singleton] at hs
      subst hs
      refine ⟨List.mem_append_right _ (List.mem_singleton_self _), ?_⟩
      show c.asked[q.sender]? = some (c.items.drop _).length
      rw [h.waiting q List.mem_cons_self, List.length_drop, Nat.sub_sub_self hn]
  kept k hk := by
    rcases h.kept k hk with ⟨o, ho⟩ | ⟨p, hp, rfl⟩
    · exact .inl ⟨o, List.mem_append_left _ ho⟩
    · rcases List.mem_cons.mp hp with rfl | hp
      · exact .inl ⟨_, List.mem_append_right _ (List.mem_singleton_self _)⟩
      · exact .inr ⟨p, hp, rfl⟩
  ids := (h.withoutLast q.count).ids
  fulfilled := (h.withoutLast q.count).fulfilled

theorem serve {queue : List Queued} {c : Instance A} (h : Good queue c)
    (hn : (queue.map Queued.count).sum ≤ c.items.length) : Good [] (c.serve queue) := by
  induction queue generalizing c with
  | nil => exact h
  | cons q queue ih =>
    rw [List.map_cons, List.sum_cons] at hn
    have hq : q.count ≤ c.items.length := by omega
    refine ih (h.answered hq) ?_
    show _ ≤ (c.items.take _).length
    rw [List.length_take, min_eq_left (Nat.sub_le _ _)]
    omega

/-- The end of a flush answers all requests that wait. -/
theorem collected {c : Instance A} (h : Good c.queue c)
    (hn : (c.queue.map Queued.count).sum ≤ c.items.length + c.fetched.length) :
    Good [] c.collected := by
  have hp := h.pickUp
  have hgood : Good c.queue { c.pickUp with queue := [] } :=
    ⟨hp.next, hp.waiting, hp.sent, hp.kept, hp.ids, hp.fulfilled⟩
  refine hgood.serve ?_
  rwa [← length_pickUp] at hn

/-- A call keeps what is true of an instance. -/
theorem run {c : Instance A} (h : Good c.queue c) (call : Call) :
    Good (c.run call).queue (c.run call) := by
  cases call with
  | alloc count =>
    have hq : (c.alloc count).queue = c.queue := by
      by_cases h0 : count = 0
      · rw [Instance.alloc, if_pos h0]
      · rw [Instance.alloc, if_neg h0]
    show Good (c.alloc count).queue (c.alloc count)
    rw [hq]
    exact h.alloc count
  | tryRcot count =>
    rw [Instance.run, tryRcot_eq]
    split
    next => exact h.withoutLast count
    next => exact h
  | queueRcot count =>
    rw [Instance.run, queueRcot_eq]
    split
    next hn =>
      refine Good.answered (q := ⟨count, c.futures.next⟩) ?_ hn
      have hask := h.ask count
      refine ⟨hask.next, fun q hq => hask.waiting q ?_, hask.sent, fun k hk => ?_, hask.ids,
        hask.fulfilled⟩
      · rw [List.mem_append, List.mem_singleton]
        exact (List.mem_cons.mp hq).symm
      · rcases hask.kept k hk with ho | ⟨q, hq, hk⟩
        · exact .inl ho
        · rw [List.mem_append, List.mem_singleton] at hq
          exact .inr ⟨q, List.mem_cons.mpr hq.symm, hk⟩
    next =>
      have hask := h.ask count
      exact ⟨hask.next, hask.waiting, hask.sent, hask.kept, hask.ids, hask.fulfilled⟩

/-- What is true of an instance does not depend on what its OTs are. -/
theorem map {c : Instance A} (h : Good waits c) (f : A → B) : Good waits (c.map f) where
  next := h.next
  waiting := h.waiting
  sent s hs := by
    obtain ⟨t, ht, rfl⟩ := List.mem_map.mp hs
    obtain ⟨hmem, hget⟩ := h.sent t ht
    refine ⟨List.mem_map_of_mem hmem, hget.trans ?_⟩
    rw [Output.map, List.length_map]
  kept k hk := by
    rcases h.kept k hk with ⟨o, ho⟩ | hq
    · exact .inl ⟨o.map f, List.mem_map.mpr ⟨_, ho, rfl⟩⟩
    · exact .inr hq
  ids := by
    show (c.handed.map (Output.map f)).map Output.id = _
    rw [List.map_map]
    exact h.ids
  fulfilled := by
    rw [all_map, List.length_map, outstanding_map]
    exact h.fulfilled

end Good

/-! ### Several calls, and a flush -/

/-- What several calls leave. -/
def runs (self : Instance A) (calls : List Call) : Instance A := calls.foldl run self

theorem runs_concat (self : Instance A) (calls : List Call) (call : Call) :
    self.runs (calls ++ [call]) = (self.runs calls).run call := by
  rw [runs, List.foldl_append]
  rfl

theorem all_runs (self : Instance A) (calls : List Call) : (self.runs calls).all.Perm self.all := by
  induction calls generalizing self with
  | nil => exact List.Perm.refl _
  | cons call calls ih => exact (ih (self.run call)).trans (all_run call self)

theorem Good.runs {c : Instance A} (h : Good c.queue c) (calls : List Call) :
    Good (c.runs calls).queue (c.runs calls) := by
  induction calls generalizing c with
  | nil => exact h
  | cons call calls ih => exact ih (h.run call)

/-- What the instance is when a flush it is in is over. -/
def settled (self : Instance A) : Instance A :=
  if self.phase = .released then self.collected else { self with phase := .idle }

/-- The requests that wait are about no more than there is, fetched or allocated. -/
def Covered (self : Instance A) : Prop :=
  (self.queue.map Queued.count).sum ≤ self.items.length + self.fetched.length + self.outstanding

theorem all_settled (self : Instance A) : self.settled.all.Perm self.all := by
  rw [settled]
  split
  next => exact all_collected self
  next => exact List.Perm.refl _

theorem collected_phase (self : Instance A) (p : Phase) :
    ({ self with phase := p } : Instance A).collected = self.collected := by
  have hp : ({ self with phase := p } : Instance A).pickUp = self.pickUp := by
    rw [pickUp, pickUp]
  rw [collected, collected, hp]

theorem give_phase (new : List A) (self : Instance A) (p : Phase) :
    ({ self with phase := p } : Instance A).give new = { self.give new with phase := p } := by
  by_cases h : self.outstanding = 0
  · rw [give, give, if_pos h, if_pos (by exact h)]
  · rw [give, give, if_neg h, if_neg (by exact h)]
    rfl

theorem outstanding_give (new : List A) (self : Instance A) : (self.give new).outstanding = 0 := by
  rw [give]
  split
  next h => exact h
  next => rfl

theorem queue_give (new : List A) (self : Instance A) : (self.give new).queue = self.queue := by
  rw [give]
  split <;> rfl

/-- Behind a flush there is enough for the requests that wait. -/
theorem Covered.give {self : Instance A} (h : self.Covered) {new : List A}
    (hnew : new.length = self.outstanding) : ((self.give new).queue.map Queued.count).sum ≤
      (self.give new).items.length + (self.give new).fetched.length := by
  rw [queue_give]
  rw [Covered] at h
  rw [Instance.give]
  split
  next h0 => rwa [h0] at h
  next =>
    show _ ≤ self.items.length + (merge new self.fetched).length
    rw [(merge_perm new self.fetched).length_eq, List.length_append, hnew, ← Nat.add_assoc]
    exact h

end Instance

end SharedRCOT

end Mpz
