import Mathlib.Algebra.GroupWithZero.Nat
import Mathlib.Data.List.SplitLengths
import Mathlib.Data.List.Zip

/-!
# Requests that are served in order

A request is about some number of items, and is answered through a future. The items of all requests
lie one after the other in a buffer, and the requests wait in a queue that remembers only how many
items each one is about. Futures are numbered, and so are the requests, so what was answered to the
`k`-th request is what was sent to future `k`.

`Requests asks queue futures outs` ties the buffer, the queue and the futures together: of the
requests `asks` the first ones were answered by `outs`, and the others wait.

## Main definitions

* `Queued`, `Futures` — a request that waits, and what was sent to futures
* `List.zipUpdate` — a loop that changes the items of a buffer
* `Requests` — the requests that were made, those that wait, and the answers
* `Mirrored` — the requests of two sides
* `Answered` — requests that are answered item by item

## Main results

* `Requests.push`, `Requests.pop`, `Requests.serve` — a request is made, one is answered, all are
* `List.splitLengths_flatten`, `List.splitLengths_zipWith` — a buffer cut into requests
-/

namespace List

variable {α β γ : Type}

theorem splitLengths_flatten (l : List (List α)) : (l.map length).splitLengths l.flatten = l := by
  induction l with
  | nil => rfl
  | cons a l ih => rw [map_cons, flatten_cons, splitLengths_cons, take_left', drop_left', ih] <;>
      rfl

theorem splitLengths_zipWith (f : α → β → γ) (counts : List ℕ) (l : List α) (r : List β) :
    counts.splitLengths (zipWith f l r) =
      zipWith (zipWith f) (counts.splitLengths l) (counts.splitLengths r) := by
  induction counts generalizing l r with
  | nil => rfl
  | cons n counts ih => simp only [splitLengths_cons, take_zipWith, drop_zipWith, ih,
      zipWith_cons_cons]

theorem splitLengths_map (f : α → β) (counts : List ℕ) (l : List α) :
    counts.splitLengths (l.map f) = (counts.splitLengths l).map (map f) := by
  induction counts generalizing l with
  | nil => rfl
  | cons n counts ih => simp only [splitLengths_cons, map_cons, ← map_take, ← map_drop, ih]

theorem splitLengths_append {counts : List ℕ} (counts' : List ℕ) {l : List α} (r : List α)
    (h : l.length = counts.sum) : (counts ++ counts').splitLengths (l ++ r) =
      counts.splitLengths l ++ counts'.splitLengths r := by
  induction counts generalizing l with
  | nil =>
    obtain rfl := length_eq_zero_iff.mp h
    rfl
  | cons n counts ih =>
    rw [sum_cons] at h
    have hn : n ≤ l.length := h ▸ Nat.le_add_right _ _
    rw [cons_append, splitLengths_cons, splitLengths_cons, take_append_of_le_length hn,
      drop_append_of_le_length hn, ih (by rw [length_drop, h, Nat.add_sub_cancel_left]),
      cons_append]

/-- The items of the first requests, and those of the others. -/
theorem take_flatten_take (l : List (List α)) (k : ℕ) :
    l.flatten.take (l.take k).flatten.length = (l.take k).flatten := by
  conv_lhs => rw [← take_append_drop k l, flatten_append]
  rw [take_append_drop, take_left]

theorem drop_flatten_take (l : List (List α)) (k : ℕ) :
    l.flatten.drop (l.take k).flatten.length = (l.drop k).flatten := by
  conv_lhs => rw [← take_append_drop k l, flatten_append]
  rw [take_append_drop, drop_left]

theorem length_flatten_take_add (l : List (List α)) (k : ℕ) :
    (l.take k).flatten.length + (l.drop k).flatten.length = l.flatten.length := by
  rw [← length_append, ← flatten_append, take_append_drop]

theorem length_flatten_take_le (l : List (List α)) (k : ℕ) :
    (l.take k).flatten.length ≤ l.flatten.length := by
  rw [← length_flatten_take_add l k]
  exact Nat.le_add_right _ _

/-- Item by item, and request by request. -/
theorem flatten_zipWith_zipWith (f : α → β → γ) {l : List (List α)} {r : List (List β)}
    (h : l.map length = r.map length) :
    (zipWith (zipWith f) l r).flatten = zipWith f l.flatten r.flatten := by
  induction l generalizing r with
  | nil => rfl
  | cons a l ih =>
    cases r with
    | nil => cases h
    | cons b r =>
      rw [map_cons, map_cons, cons.injEq] at h
      rw [zipWith_cons_cons, flatten_cons, flatten_cons, flatten_cons, ih h.2, zipWith_append h.1]

/-- `for (a, b) in l.iter_mut().zip(r) { *a = f(a, b) }`: items without a partner stay. -/
def zipUpdate (f : α → β → α) : List α → List β → List α
  | a :: l, b :: r => f a b :: zipUpdate f l r
  | l, _ => l

theorem zipUpdate_eq (f : α → β → α) {l : List α} {r : List β} (h : l.length ≤ r.length) :
    zipUpdate f l r = zipWith f l r := by
  induction l generalizing r with
  | nil => cases r <;> rfl
  | cons a l ih =>
    cases r with
    | nil => cases h
    | cons b r => rw [zipUpdate, zipWith_cons_cons, ih (Nat.le_of_succ_le_succ h)]

/-- A loop over a buffer that has more behind it. -/
theorem zipUpdate_append (f : α → β → α) {l : List α} {r : List β} (h : l.length = r.length)
    (r' : List β) : zipUpdate f l (r ++ r') = zipWith f l r := by
  rw [zipUpdate_eq f (by rw [length_append, h]; exact Nat.le_add_right _ _)]
  have : zipWith f (l ++ []) (r ++ r') = zipWith f l r ++ zipWith f [] r' := zipWith_append h
  rwa [append_nil, zipWith_nil_left, append_nil] at this

/-- To look an item up by its number. -/
theorem find?_zipIdx (l : List α) (n k : ℕ) :
    ((l.zipIdx n).find? fun s => s.2 == n + k).map Prod.fst = l[k]? := by
  induction l generalizing n k with
  | nil => rfl
  | cons a l ih =>
    rw [zipIdx_cons, find?_cons]
    cases k with
    | zero => simp
    | succ k =>
      have hne : (n == n + (k + 1)) = false := by simp
      rw [hne, getElem?_cons_succ, ← ih (n + 1) k, Nat.add_right_comm n 1 k, Nat.add_assoc]

theorem range_append_range' (m n : ℕ) : range m ++ range' m n = range (m + n) := by
  rw [range_eq_range', range_eq_range', ← range'_append_1, Nat.zero_add]

theorem getElem?_of_take {l : List α} {n i : ℕ} {a : α} (h : (l.take n)[i]? = some a) :
    l[i]? = some a := by
  rw [getElem?_take] at h
  split at h
  next => exact h
  next => cases h

/-- The items that have a partner. -/
theorem map_fst_zip_take (l : List α) (r : List β) : (l.zip r).map Prod.fst = l.take r.length := by
  induction l generalizing r with
  | nil => rw [zip_nil_left, map_nil, take_nil]
  | cons a l ih =>
    cases r with
    | nil => rfl
    | cons b r => rw [zip_cons_cons, map_cons, ih, length_cons, take_succ_cons]

theorem map_snd_zip_take (l : List α) (r : List β) : (l.zip r).map Prod.snd = r.take l.length := by
  rw [← map_fst_zip_take, ← zip_swap, map_map]
  rfl

theorem length_flatten_congr {l : List (List α)} {r : List (List β)}
    (h : l.map length = r.map length) : l.flatten.length = r.flatten.length := by
  rw [length_flatten, length_flatten, h]

end List

namespace Mpz

/-- A request that waits. -/
structure Queued where
  /-- How many items it is about. -/
  count : ℕ
  /-- The future that is to be sent the answer. -/
  sender : ℕ
  deriving DecidableEq, Repr

/-- The futures of a queue. -/
structure Futures (O : Type) where
  /-- The number of the next future. -/
  next : ℕ
  /-- What was sent, by future. -/
  sent : List (ℕ × O)
  deriving DecidableEq, Repr

namespace Futures

variable {O : Type} (futures : Futures O)

/-- No future. -/
def new : Futures O := ⟨0, []⟩

/-- `new_output`: a new future. -/
def newOutput : Futures O := { futures with next := futures.next + 1 }

/-- Sends an output value. -/
def send (n : ℕ) (o : O) : Futures O := { futures with sent := futures.sent ++ [(n, o)] }

/-- Sends the answers of some requests. -/
def answer (queue : List Queued) (os : List O) : Futures O :=
  { futures with sent := futures.sent ++ queue.zipWith (fun q o => (q.sender, o)) os }

@[simp] theorem answer_nil (os : List O) : futures.answer [] os = futures := by
  rw [answer, List.zipWith_nil_left, List.append_nil]

theorem answer_cons (q : Queued) (queue : List Queued) (o : O) (os : List O) :
    futures.answer (q :: queue) (o :: os) = (futures.send q.sender o).answer queue os := by
  rw [answer, answer, send, List.append_assoc]
  rfl

/-- The loop over the requests that wait: each one is sent as many of the outputs as it can take. -/
def share {O : Type} : List Queued → List O → Futures (List O) → Futures (List O)
  | [], _, futures => futures
  | q :: queue, outputs, futures =>
    share queue (outputs.drop q.count) (futures.send q.sender (outputs.take q.count))

theorem share_eq {O : Type} (queue : List Queued) (outputs : List O) (futures : Futures (List O)) :
    share queue outputs futures =
      futures.answer queue ((queue.map Queued.count).splitLengths outputs) := by
  induction queue generalizing outputs futures with
  | nil => rw [answer_nil, share]
  | cons q queue ih => rw [share, ih, List.map_cons, List.splitLengths_cons, answer_cons]

/-- What was sent to a future. -/
def tryRecv (n : ℕ) : Option O := (futures.sent.find? fun s => s.1 == n).map Prod.snd

end Futures

/-- Of the requests that were made, the first ones were answered, and the others wait. -/
structure Requests {A O : Type} (size : A → ℕ) (asks : List A) (queue : List Queued)
    (futures : Futures O) (outs : List O) : Prop where
  next : futures.next = asks.length
  queue : queue = ((asks.drop outs.length).zipIdx outs.length).map fun a => ⟨size a.1, a.2⟩
  sent : futures.sent = outs.zipIdx.map Prod.swap
  le : outs.length ≤ asks.length

namespace Requests

variable {A O : Type} {size : A → ℕ} {asks : List A} {queue : List Queued} {futures : Futures O}
  {outs : List O}

theorem new (size : A → ℕ) : Requests size [] [] (Futures.new : Futures O) [] :=
  ⟨rfl, rfl, rfl, le_rfl⟩

section

variable (h : Requests size asks queue futures outs)
include h

/-- A request is made. -/
theorem push (a : A) : Requests size (asks ++ [a]) (queue ++ [⟨size a, futures.next⟩])
    futures.newOutput outs := by
  refine ⟨?_, ?_, h.sent, ?_⟩
  · rw [Futures.newOutput, h.next, List.length_append, List.length_singleton]
  · rw [List.drop_append_of_le_length h.le, List.zipIdx_append, List.map_append, ← h.queue, h.next,
      List.length_drop, Nat.add_sub_cancel' h.le]
    rfl
  · rw [List.length_append]
    exact h.le.trans (Nat.le_add_right _ _)

theorem length_queue : outs.length + queue.length = asks.length := by
  rw [h.queue, List.length_map, List.length_zipIdx, List.length_drop, Nat.add_sub_cancel' h.le]

theorem map_count : queue.map Queued.count = (asks.drop outs.length).map size := by
  rw [h.queue, List.map_map]
  show (List.zipIdx _ _).map (size ∘ Prod.fst) = _
  rw [← List.map_map, List.zipIdx_map_fst]

/-- The answer of a request. -/
theorem tryRecv (k : ℕ) : futures.tryRecv k = outs[k]? := by
  rw [Futures.tryRecv, h.sent, List.find?_map, Option.map_map]
  have := List.find?_zipIdx outs 0 k
  rwa [Nat.zero_add] at this

end

/-- The first request that waits is answered. -/
theorem pop {q : Queued} (h : Requests size asks (q :: queue) futures outs) (o : O) :
    Requests size asks queue (futures.send q.sender o) (outs ++ [o]) := by
  have hlt : outs.length < asks.length := by
    rw [← h.length_queue]
    exact Nat.lt_add_of_pos_right (Nat.succ_pos _)
  have hq := h.queue
  rw [List.drop_eq_getElem_cons hlt, List.zipIdx_cons, List.map_cons, List.cons.injEq] at hq
  refine ⟨h.next, ?_, ?_, ?_⟩
  · rw [List.length_append, List.length_singleton]
    exact hq.2
  · rw [Futures.send, h.sent, List.zipIdx_append, List.map_append, hq.1, Nat.zero_add]
    rfl
  · rwa [List.length_append, List.length_singleton, Nat.add_one_le_iff]

/-- All requests that wait are answered. -/
theorem serve (h : Requests size asks queue futures outs) (os : List O)
    (hos : os.length = queue.length) :
    Requests size asks [] (futures.answer queue os) (outs ++ os) := by
  induction queue generalizing futures outs os with
  | nil =>
    obtain rfl := List.length_eq_zero_iff.mp hos
    rwa [Futures.answer_nil, List.append_nil]
  | cons q queue ih =>
    cases os with
    | nil => cases hos
    | cons o os =>
      rw [Futures.answer_cons, List.append_cons]
      exact ih (h.pop o) os (Nat.succ.inj hos)

end Requests

/-! ### The requests of two sides -/

/-- The requests of two sides are about as many items, as far as both sides have made them. -/
def Mirrored {A B : Type} (l : List (List A)) (r : List (List B)) : Prop :=
  ∀ (k : ℕ) (a : List A) (b : List B), l[k]? = some a → r[k]? = some b → a.length = b.length

namespace Mirrored

variable {A B : Type} {l : List (List A)} {r : List (List B)}

theorem symm (h : Mirrored l r) : Mirrored r l := fun k b a hb ha => (h k a b ha hb).symm

theorem push (h : Mirrored l r) {a : List A} (ha : ∀ b ∈ r[l.length]?, a.length = b.length) :
    Mirrored (l ++ [a]) r := by
  intro k a' b hl hr
  rw [List.getElem?_append] at hl
  split at hl
  next => exact h k a' b hl hr
  next hk =>
    rw [List.getElem?_singleton] at hl
    split at hl
    next hk' =>
      obtain rfl : k = l.length := by omega
      cases hl
      exact ha b hr
    next => cases hl

theorem take (h : Mirrored l r) (n : ℕ) : Mirrored l (r.take n) := by
  intro k a b hl hr
  rw [List.getElem?_take] at hr
  split at hr
  next => exact h k a b hl hr
  next => cases hr

/-- The items of the requests of one number begin at the same place. -/
theorem length_take_flatten (h : Mirrored l r) {k : ℕ} (hl : k ≤ l.length) (hr : k ≤ r.length) :
    (l.take k).flatten.length = (r.take k).flatten.length := by
  refine List.length_flatten_congr (List.ext_getElem? fun i => ?_)
  rw [List.getElem?_map, List.getElem?_map, List.getElem?_take, List.getElem?_take]
  split
  next hi =>
    have hli := List.getElem?_eq_getElem (hi.trans_le hl)
    have hri := List.getElem?_eq_getElem (hi.trans_le hr)
    rw [hli, hri, Option.map_some, Option.map_some, h i _ _ hli hri]
  next => rfl

end Mirrored

/-! ### Requests that are answered item by item -/

/-- The requests that were answered got these outputs, one for each item. -/
def Answered {A O : Type} (asks : List (List A)) (queue : List Queued) (futures : Futures (List O))
    (items : List O) : Prop :=
  ∃ outs, Requests List.length asks queue futures outs ∧
    outs.map List.length = (asks.take outs.length).map List.length ∧ outs.flatten = items

namespace Answered

variable {A O : Type} {asks : List (List A)} {queue : List Queued} {futures : Futures (List O)}
  {items : List O}

theorem new : Answered ([] : List (List A)) [] (Futures.new : Futures (List O)) [] :=
  ⟨[], .new _, rfl, rfl⟩

variable (h : Answered asks queue futures items)
include h

/-- A request is made. -/
theorem push (a : List A) : Answered (asks ++ [a]) (queue ++ [⟨a.length, futures.next⟩])
    futures.newOutput items := by
  obtain ⟨outs, hreq, hlens, rfl⟩ := h
  refine ⟨outs, hreq.push a, ?_, rfl⟩
  rwa [List.take_append_of_le_length hreq.le]

/-- All requests that wait are answered. -/
theorem share {outputs : List O} (hlen : outputs.length = (queue.map Queued.count).sum) :
    Answered asks [] (futures.share queue outputs) (items ++ outputs) := by
  obtain ⟨outs, hreq, hlens, rfl⟩ := h
  have hserved := hreq.serve ((queue.map Queued.count).splitLengths outputs) (by
    rw [List.length_splitLengths, List.length_map])
  have hall := hserved.length_queue
  rw [List.length_nil, Nat.add_zero] at hall
  refine ⟨_, Futures.share_eq queue outputs futures ▸ hserved, ?_, ?_⟩
  · rw [hall, List.take_length, List.map_append, hlens,
      List.map_splitLengths_length _ _ hlen.ge, hreq.map_count, ← List.map_append,
      List.take_append_drop]
  · rw [List.flatten_append, List.flatten_splitLengths _ _ hlen.le]

/-- The answer of a request has an output for each item. -/
theorem get {k : ℕ} {o : List O} (hk : futures.tryRecv k = some o) :
    ∃ a, asks[k]? = some a ∧ o.length = a.length ∧
      o = (items.drop (asks.take k).flatten.length).take a.length := by
  obtain ⟨outs, hreq, hlens, rfl⟩ := h
  rw [hreq.tryRecv] at hk
  have hlt := (List.getElem?_eq_some_iff.mp hk).1
  have hlen := congrArg (·[k]?) hlens
  simp only [List.getElem?_map, hk, List.getElem?_take_of_lt hlt, Option.map_some] at hlen
  obtain ⟨a, ha, halen⟩ := Option.map_eq_some_iff.mp hlen.symm
  refine ⟨a, ha, halen.symm, ?_⟩
  have htake := congrArg (List.take k) hlens
  rw [← List.map_take, ← List.map_take, List.take_take, min_eq_left hlt.le] at htake
  rw [← List.length_flatten_congr htake, List.drop_flatten_take,
    List.drop_eq_getElem_cons hlt, List.flatten_cons, halen]
  have hget := (List.getElem?_eq_some_iff.mp hk).2
  rw [hget, List.take_left]

/-- The requests are answered in order. -/
theorem isSome_iff : ∃ n ≤ asks.length, (∀ k, (futures.tryRecv k).isSome ↔ k < n) ∧
    items.length = (asks.take n).flatten.length ∧
      queue.map Queued.count = (asks.drop n).map List.length := by
  obtain ⟨outs, hreq, hlens, rfl⟩ := h
  refine ⟨outs.length, hreq.le, fun k => ?_, List.length_flatten_congr hlens, hreq.map_count⟩
  rw [hreq.tryRecv, isSome_getElem?]

end Answered

end Mpz
