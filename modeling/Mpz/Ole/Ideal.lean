import Mathlib.Data.List.Nodup
import Mathlib.Data.ZMod.Basic
import Mpz.Lib.Run
import Mpz.Ole.Role

/-!
# The ideal functionality of random OLE

One object plays both sides. Each side allocates shares, and asks for them: a try is answered at
once or refused, and a request that is queued is answered at once or waits for a flush. A flush
makes the shares that both sides have allocated, and answers all requests that wait.

The two sides do alike, up to which of the two shares of a pair they take. So they are the images of
one party that takes pairs, and what they are given for the same request is correlated.

There are two slips. A try on the receiver's side takes its id from the sender's counter. And a
flush takes the shares of a request that waits out of those that there are, without asking whether
there are so many. `Act.Careful` excludes both.

## Main definitions

* `IdealROLE.Party` — one side, over any type of shares
* `IdealROLE.Inner` — the functionality
* `IdealROLE.World`, `IdealROLE.Act` — the functionality, and the calls on its two sides
* `IdealROLE.Serves` — what is expected of it

## Main results

* `ideal_role_serves` — every run serves the two sides alike
* `ideal_role_slips` — a pair of tries with different ids, and a flush that panics
-/

namespace Mpz

/-! ### Random OLEs -/

/-- OLE evaluation. -/
structure OLE (F : Type) where
  /-- The multiplicative share of the sender. -/
  a : F
  /-- The multiplicative share of the receiver. -/
  b : F
  /-- The additive share of the sender. -/
  x : F
  /-- The additive share of the receiver. -/
  y : F

section

variable {F : Type} [CommRing F]

/-- Returns a random OLE, from the next three elements of the generator. -/
def role (rng : ℕ → F) (drawn : ℕ) : OLE F where
  a := rng drawn
  b := rng (drawn + 1)
  x := rng (drawn + 2)
  y := rng drawn * rng (drawn + 1) - rng (drawn + 2)

/-- Returns random OLE shares. -/
def roleShares (rng : ℕ → F) (drawn : ℕ) : OLEShare F × OLEShare F :=
  let role := role rng drawn
  (⟨role.x, role.a⟩, ⟨role.y, role.b⟩)

theorem roleShares_correlated (rng : ℕ → F) (drawn : ℕ) :
    (roleShares rng drawn).1.Correlated (roleShares rng drawn).2 :=
  (add_sub_cancel (rng (drawn + 2)) (rng drawn * rng (drawn + 1))).symm

end

namespace IdealROLE

/-- What can go wrong. -/
inductive Error where
  /-- sender and receiver alloc out of sync -/
  | outOfSync (sender receiver : ℕ)
  /-- not enough sender ROLEs available -/
  | notEnoughSender (available count : ℕ)
  /-- not enough receiver ROLEs available -/
  | notEnoughReceiver (available count : ℕ)
  deriving DecidableEq, Repr

/-! ### One side -/

/-- A request that waits. -/
structure Waiting where
  /-- The number of the request. -/
  number : ℕ
  /-- How many shares it asks for. -/
  count : ℕ
  deriving DecidableEq, Repr

/-- What was given for a request. -/
structure Answer (A : Type) where
  /-- The number of the request. -/
  number : ℕ
  /-- OLE identifier. -/
  id : ℕ
  /-- Shares of the ROLE. -/
  shares : List A
  deriving DecidableEq, Repr

/-- One side. The last three fields remember how many shares each request asked for, what was given,
and which tries were refused. -/
structure Party (A : Type) where
  /-- How many shares are allocated. -/
  alloc : ℕ
  /-- The next OLE identifier. -/
  oleId : ℕ
  /-- The requests that wait. -/
  queue : List Waiting
  /-- The shares that are available. -/
  shares : List A
  /-- All requests. -/
  asks : List ℕ
  /-- The answers. -/
  answers : List (Answer A)
  /-- The tries that were refused. -/
  refused : List ℕ
  deriving DecidableEq, Repr

/-- The calls on one side. -/
inductive Call where
  /-- Allocates shares. -/
  | alloc (count : ℕ)
  /-- Asks for shares that are there. -/
  | tryRole (count : ℕ)
  /-- Asks for shares. -/
  | queueRole (count : ℕ)
  deriving DecidableEq, Repr

namespace Party

variable {A B : Type}

/-- At the start. -/
def new : Party A := ⟨0, 0, [], [], [], [], []⟩

/-- Answers a new request, under this identifier. -/
def give (id count : ℕ) (self : Party A) : Party A :=
  { self with
    shares := self.shares.drop count
    asks := self.asks ++ [count]
    answers := self.answers ++ [⟨self.asks.length, id, self.shares.take count⟩] }

/-- Refuses a new request. -/
def refuse (count : ℕ) (self : Party A) : Party A :=
  { self with
    asks := self.asks ++ [count]
    refused := self.refused ++ [self.asks.length] }

/-- The next OLE identifier is used. -/
def bump (self : Party A) : Party A := { self with oleId := self.oleId + 1 }

/-- `alloc` -/
def allocate (count : ℕ) (self : Party A) : Party A := { self with alloc := self.alloc + count }

/-- `queue_send_role` and `queue_recv_role`: a request is answered if it can be, and else waits. -/
def queueRole (count : ℕ) (self : Party A) : Party A :=
  if self.shares.length ≥ count then (self.give self.oleId count).bump
  else
    { self with
      queue := self.queue ++ [⟨self.asks.length, count⟩]
      asks := self.asks ++ [count] }

/-- The shares of a flush are put behind those that there are. -/
def extend (shares : List A) (self : Party A) : Party A :=
  { self with
    alloc := 0
    shares := self.shares ++ shares }

/-- The loop of a flush, which has given `i` shares. To slice behind the end panics. -/
def serveQueue : List Waiting → ℕ → Party A → Option (ℕ × Party A)
  | [], i, self => some (i, self)
  | q :: queue, i, self =>
    if i + q.count ≤ self.shares.length then
      serveQueue queue (i + q.count) { self with
        oleId := self.oleId + 1
        answers := self.answers ++ [⟨q.number, self.oleId, (self.shares.drop i).take q.count⟩] }
    else none

/-- Answers the requests that wait. -/
def serve (self : Party A) : Option (Party A) := do
  let (i, self) ← serveQueue self.queue 0 { self with queue := [] }
  some { self with shares := self.shares.drop i }

/-- How many shares the requests that wait ask for. -/
def demand (self : Party A) : ℕ := (self.queue.map Waiting.count).sum

end Party

/-! ### The functionality -/

/-- The functionality. -/
structure Inner (F : Type) where
  /-- How many elements of the generator are drawn. -/
  drawn : ℕ
  /-- The state of the sender, and its shares. -/
  sender : Party (OLEShare F)
  /-- The state of the receiver, and its shares. -/
  receiver : Party (OLEShare F)
  deriving DecidableEq, Repr

namespace Inner

variable {F : Type}

/-- Creates a new ideal ROLE functionality. -/
def new : Inner F := ⟨0, .new, .new⟩

/-- Changes the sender. -/
def onSender (f : Party (OLEShare F) → Party (OLEShare F)) : Method (Inner F) Error Unit :=
  Method.modify fun this => { this with sender := f this.sender }

/-- Changes the receiver. -/
def onReceiver (f : Party (OLEShare F) → Party (OLEShare F)) : Method (Inner F) Error Unit :=
  Method.modify fun this => { this with receiver := f this.receiver }

/-- `ROLESender::alloc` -/
def allocSender (count : ℕ) : Method (Inner F) Error Unit := onSender (Party.allocate count)

/-- `ROLEReceiver::alloc` -/
def allocReceiver (count : ℕ) : Method (Inner F) Error Unit := onReceiver (Party.allocate count)

/-- `ROLESender::try_send_role` -/
def trySendRole (count : ℕ) : Method (Inner F) Error (ROLEOutput F) := do
  let this ← Method.get
  if count > this.sender.shares.length then do
    onSender (Party.refuse count)
    Method.throw (.notEnoughSender this.sender.shares.length count)
  else do
    onSender fun sender => (sender.give this.sender.oleId count).bump
    return ⟨this.sender.oleId, this.sender.shares.take count⟩

/-- `ROLEReceiver::try_recv_role` -/
def tryRecvRole (count : ℕ) : Method (Inner F) Error (ROLEOutput F) := do
  let this ← Method.get
  if count > this.receiver.shares.length then do
    onReceiver (Party.refuse count)
    Method.throw (.notEnoughReceiver this.receiver.shares.length count)
  else do
    -- the identifier is the sender's
    onSender Party.bump
    onReceiver (Party.give this.sender.oleId count)
    return ⟨this.sender.oleId, this.receiver.shares.take count⟩

/-- `ROLESender::queue_send_role` -/
def queueSendRole (count : ℕ) : Method (Inner F) Error Unit := onSender (Party.queueRole count)

/-- `ROLEReceiver::queue_recv_role` -/
def queueRecvRole (count : ℕ) : Method (Inner F) Error Unit := onReceiver (Party.queueRole count)

/-- Returns `true` if the functionality wants to be flushed. -/
def wantsFlush (this : Inner F) : Bool :=
  decide (this.sender.alloc > 0) || decide (this.receiver.alloc > 0)

/-- Flushes the functionality. -/
def flush [CommRing F] (rng : ℕ → F) : Method (Inner F) Error Unit := do
  let this ← Method.get
  if this.sender.alloc ≠ this.receiver.alloc then
    Method.throw (.outOfSync this.sender.alloc this.receiver.alloc)
  else do
    let shares := (List.range this.sender.alloc).map fun i => roleShares rng (this.drawn + 3 * i)
    let sender ← Method.call (.ofOption (this.sender.extend (shares.map Prod.fst)).serve)
    let receiver ← Method.call (.ofOption (this.receiver.extend (shares.map Prod.snd)).serve)
    Method.modify fun _ => ⟨this.drawn + 3 * this.sender.alloc, sender, receiver⟩

/-- A call of the sender's interface. -/
def callSender : Call → Method (Inner F) Error Unit
  | .alloc count => allocSender count
  | .tryRole count => do
    let _ ← trySendRole count
    return ()
  | .queueRole count => queueSendRole count

/-- A call of the receiver's interface. -/
def callReceiver : Call → Method (Inner F) Error Unit
  | .alloc count => allocReceiver count
  | .tryRole count => do
    let _ ← tryRecvRole count
    return ()
  | .queueRole count => queueRecvRole count

end Inner

/-! ### Mirrored runs -/

/-- The functionality, and the calls that were made on its two sides. -/
structure World (F : Type) where
  /-- The functionality. -/
  inner : Inner F
  /-- The calls on the sender's side. -/
  sent : List Call
  /-- The calls on the receiver's side. -/
  received : List Call
  deriving DecidableEq, Repr

/-- The calls on the functionality. -/
inductive Act where
  /-- A call on the sender's side. -/
  | sender (c : Call)
  /-- A call on the receiver's side. -/
  | receiver (c : Call)
  /-- A flush. -/
  | flush
  deriving DecidableEq, Repr

variable {F : Type}

/-- What an act calls. -/
def Act.call [CommRing F] (rng : ℕ → F) : Act → Method (Inner F) Error Unit
  | .sender c => Inner.callSender c
  | .receiver c => Inner.callReceiver c
  | .flush => Inner.flush rng

/-- One side makes the calls of the other one. Before a flush both have made the same. -/
def Act.Mirrored (w : World F) : Act → Prop
  | .sender c => w.sent ++ [c] <+: w.received ∨ w.received <+: w.sent ++ [c]
  | .receiver c => w.received ++ [c] <+: w.sent ∨ w.sent <+: w.received ++ [c]
  | .flush => w.sent = w.received

instance (w : World F) : DecidablePred (Act.Mirrored w)
  | .sender _ => inferInstanceAs (Decidable (_ ∨ _))
  | .receiver _ => inferInstanceAs (Decidable (_ ∨ _))
  | .flush => inferInstanceAs (Decidable (_ = _))

/-- No try on the receiver's side finds its shares, and a flush makes enough shares for all requests
that wait. -/
def Act.Careful (w : World F) : Act → Prop
  | .receiver (.tryRole count) => w.inner.receiver.shares.length < count
  | .flush => w.inner.sender.demand ≤ w.inner.sender.shares.length + w.inner.sender.alloc
  | _ => True

instance (w : World F) : DecidablePred (Act.Careful w)
  | .receiver (.tryRole _) => inferInstanceAs (Decidable (_ < _))
  | .flush => inferInstanceAs (Decidable (_ ≤ _))
  | .sender _ | .receiver (.alloc _) | .receiver (.queueRole _) => .isTrue trivial

namespace World

/-- At the start. -/
def new : World F := ⟨.new, [], []⟩

/-- What is behind a call that does not panic. -/
def next [CommRing F] (rng : ℕ → F) (w : World F) (a : Act) : Option (World F) := do
  let inner ← (a.call rng).returned w.inner
  match a with
  | .sender c => some ⟨inner, w.sent ++ [c], w.received⟩
  | .receiver c => some ⟨inner, w.sent, w.received ++ [c]⟩
  | .flush => some ⟨inner, w.sent, w.received⟩

end World

/-- A step of a mirrored run. -/
def Step [CommRing F] (rng : ℕ → F) (w : World F) (a : Act) (w' : World F) : Prop :=
  a.Mirrored w ∧ w.next rng a = some w'

/-- A careful step of a mirrored run. -/
def CarefulStep [CommRing F] (rng : ℕ → F) (w : World F) (a : Act) (w' : World F) : Prop :=
  a.Careful w ∧ Step rng w a w'

/-- What one side can expect. -/
structure Party.Served {A : Type} (p : Party A) : Prop where
  /-- The identifiers count the answers. -/
  ids : p.answers.map Answer.id = List.range p.oleId
  /-- Every answer is of the length that was asked for. -/
  counts : ∀ a ∈ p.answers, p.asks[a.number]? = some a.shares.length
  /-- A request waits only while there are not enough shares for it. -/
  waiting : ∀ q ∈ p.queue, p.asks[q.number]? = some q.count ∧ p.shares.length < q.count
  /-- Every request has one answer, or waits, or was refused. -/
  once : (p.answers.map Answer.number ++ p.queue.map Waiting.number ++ p.refused).Perm
    (List.range p.asks.length)

/-- What is expected of the functionality. -/
structure Serves [CommRing F] (rng : ℕ → F) (w : World F) : Prop where
  /-- No call panics. -/
  returns : ∀ a : Act, a.Mirrored w → a.Careful w → (a.call rng w.inner).1 ≠ .panic
  /-- A flush answers all requests. -/
  flushed : w.sent = w.received → Act.flush.Careful w → ∃ inner,
    Inner.flush rng w.inner = (.ok (), inner) ∧ inner.sender.queue = [] ∧ inner.receiver.queue = []
  sender : w.inner.sender.Served
  receiver : w.inner.receiver.Served
  /-- The shares that were made are given in their order, each to one request, or are there. -/
  made : ∃ made : List (OLEShare F × OLEShare F), (∀ p ∈ made, p.1.Correlated p.2) ∧
    w.inner.sender.answers.flatMap Answer.shares ++ w.inner.sender.shares = made.map Prod.fst ∧
    w.inner.receiver.answers.flatMap Answer.shares ++ w.inner.receiver.shares = made.map Prod.snd
  /-- What is given for the same request on the two sides belongs together. -/
  agree : ∀ a ∈ w.inner.sender.answers, ∀ b ∈ w.inner.receiver.answers, a.number = b.number →
    a.id = b.id ∧ a.shares.length = b.shares.length ∧ CorrelatedShares a.shares b.shares

/-! ### A party that takes pairs -/

/-- What is given, with a function applied to the shares. -/
def Answer.map {A B : Type} (f : A → B) (a : Answer A) : Answer B :=
  ⟨a.number, a.id, a.shares.map f⟩

namespace Party

variable {A B : Type}

/-- The party that sees its shares through a function. -/
def map (f : A → B) (p : Party A) : Party B :=
  ⟨p.alloc, p.oleId, p.queue, p.shares.map f, p.asks, p.answers.map (Answer.map f), p.refused⟩

/-- A call on one side, as it is meant. -/
def apply (p : Party A) : Call → Party A
  | .alloc count => p.allocate count
  | .tryRole count =>
    if count > p.shares.length then p.refuse count else (p.give p.oleId count).bump
  | .queueRole count => p.queueRole count

variable {p : Party A} {made : List A}

theorem give_map (f : A → B) (id count : ℕ) (p : Party A) :
    (p.give id count).map f = (p.map f).give id count := by
  rw [give, give, map, map]
  simp only [List.map_drop, List.map_append, List.map_cons, List.map_nil, Answer.map, List.map_take]

theorem apply_map (f : A → B) (p : Party A) (c : Call) : (p.apply c).map f = (p.map f).apply c := by
  have hlen : (p.map f).shares.length = p.shares.length := List.length_map _
  have hgive (count : ℕ) : ((p.give p.oleId count).bump).map f =
      ((p.map f).give (p.map f).oleId count).bump := congrArg bump (give_map f p.oleId count p)
  cases c with
  | alloc count => rfl
  | tryRole count =>
    rw [apply, apply, hlen]
    split
    · rfl
    · exact hgive count
  | queueRole count =>
    rw [apply, apply, queueRole, queueRole, hlen]
    split
    · exact hgive count
    · rfl

theorem extend_map (f : A → B) (p : Party A) (shares : List A) :
    (p.extend shares).map f = (p.map f).extend (shares.map f) := by
  rw [extend, extend, map, map]
  simp only [List.map_append]

theorem serveQueue_map (f : A → B) (queue : List Waiting) (i : ℕ) (p : Party A) :
    serveQueue queue i (p.map f) = (serveQueue queue i p).map fun r => (r.1, r.2.map f) := by
  induction queue generalizing i p with
  | nil => rfl
  | cons q queue ih =>
    have hlen : (p.map f).shares.length = p.shares.length := List.length_map _
    rw [serveQueue, serveQueue, hlen]
    split
    · rw [← ih]
      congr 1
      rw [map, map]
      simp only [List.map_append, List.map_cons, List.map_nil, Answer.map, List.map_take,
        List.map_drop]
    · rfl

theorem serve_map (f : A → B) (p : Party A) : (p.map f).serve = p.serve.map (map f) := by
  rw [serve, serve]
  show (serveQueue p.queue 0 ({ p with queue := [] }.map f)).bind _ = _
  rw [serveQueue_map]
  rcases serveQueue p.queue 0 { p with queue := [] } with _ | ⟨i, q⟩
  · rfl
  · show some _ = some _
    rw [map, map]
    simp only [List.map_drop]

/-- What a party has given, and what it has left, where `i` shares of the ones it has are given. -/
structure Loop (p : Party A) (queue : List Waiting) (i : ℕ) (made : List A) : Prop where
  made : p.answers.flatMap Answer.shares ++ p.shares.drop i = made
  ids : p.answers.map Answer.id = List.range p.oleId
  counts : ∀ a ∈ p.answers, p.asks[a.number]? = some a.shares.length
  asked : ∀ q ∈ queue, p.asks[q.number]? = some q.count
  once : (p.answers.map Answer.number ++ queue.map Waiting.number ++ p.refused).Perm
    (List.range p.asks.length)

/-- The invariant of a party. -/
structure Inv (p : Party A) (made : List A) : Prop extends Loop p p.queue 0 made where
  waiting : ∀ q ∈ p.queue, p.shares.length < q.count

theorem Inv.new : (new : Party A).Inv [] where
  made := rfl
  ids := rfl
  counts := nofun
  asked := nofun
  once := .refl _
  waiting := nofun

theorem Inv.served (h : p.Inv made) : p.Served where
  ids := h.ids
  counts := h.counts
  waiting q hq := ⟨h.asked q hq, h.waiting q hq⟩
  once := h.once

/-- What was asked before stays. -/
theorem getElem?_snoc {l : List ℕ} {i n : ℕ} (h : l[i]? = some n) (m : ℕ) :
    (l ++ [m])[i]? = some n := by
  rw [List.getElem?_append_left (List.getElem?_eq_some_iff.mp h).1, h]

theorem flatMap_snoc (answers : List (Answer A)) (a : Answer A) :
    (answers ++ [a]).flatMap Answer.shares = answers.flatMap Answer.shares ++ a.shares := by
  rw [List.flatMap_append, List.flatMap_singleton]

/-- A new request is answered. -/
theorem Inv.give (h : p.Inv made) {count : ℕ} (hle : count ≤ p.shares.length) :
    ((p.give p.oleId count).bump).Inv made where
  made := by
    rw [← h.made]
    show (p.answers ++ [_]).flatMap Answer.shares ++ (p.shares.drop count).drop 0 = _
    rw [flatMap_snoc, List.drop_zero, List.drop_zero, List.append_assoc]
    exact congrArg _ (List.take_append_drop count p.shares)
  ids := by
    show (p.answers ++ [_]).map Answer.id = List.range (p.oleId + 1)
    rw [List.map_append, h.ids, List.range_succ]
    rfl
  counts a ha := by
    rcases List.mem_append.mp ha with ha | ha
    · exact getElem?_snoc (h.counts a ha) count
    · rw [List.mem_singleton] at ha
      subst ha
      show (p.asks ++ [count])[p.asks.length]? = some (p.shares.take count).length
      rw [List.getElem?_concat_length, List.length_take, min_eq_left hle]
  asked q hq := getElem?_snoc (h.asked q hq) count
  once := by
    show ((p.answers ++ [_]).map Answer.number ++ _ ++ _).Perm
      (List.range (p.asks ++ [count]).length)
    rw [List.length_append, List.length_singleton, List.range_succ, List.map_append,
      List.append_assoc, List.append_assoc]
    refine (List.perm_append_comm.append_left _).trans ?_
    rw [← List.append_assoc, ← List.append_assoc]
    exact h.once.append_right _
  waiting q hq := by
    show (p.shares.drop count).length < q.count
    rw [List.length_drop]
    exact (Nat.sub_le _ _).trans_lt (h.waiting q hq)

/-- A call keeps the invariant. -/
theorem Inv.apply (h : p.Inv made) (c : Call) : (p.apply c).Inv made := by
  cases c with
  | alloc count => exact ⟨⟨h.made, h.ids, h.counts, h.asked, h.once⟩, h.waiting⟩
  | tryRole count =>
    rw [Party.apply]
    split
    next =>
      refine ⟨⟨h.made, h.ids, fun a ha => getElem?_snoc (h.counts a ha) count,
        fun q hq => getElem?_snoc (h.asked q hq) count, ?_⟩, h.waiting⟩
      show (_ ++ (p.refused ++ [p.asks.length])).Perm (List.range (p.asks ++ [count]).length)
      rw [List.length_append, List.length_singleton, List.range_succ, ← List.append_assoc]
      exact h.once.append_right _
    next hle => exact h.give (Nat.not_lt.mp hle)
  | queueRole count =>
    rw [Party.apply, queueRole]
    split
    next hle => exact h.give hle
    next hlt =>
      refine ⟨⟨h.made, h.ids, fun a ha => getElem?_snoc (h.counts a ha) count, fun q hq => ?_, ?_⟩,
        fun q hq => ?_⟩
      · rcases List.mem_append.mp hq with hq | hq
        · exact getElem?_snoc (h.asked q hq) count
        · rw [List.mem_singleton] at hq
          subst hq
          exact List.getElem?_concat_length
      · show (_ ++ (p.queue ++ [_]).map Waiting.number ++ p.refused).Perm
          (List.range (p.asks ++ [count]).length)
        rw [List.length_append, List.length_singleton, List.range_succ, List.map_append,
          ← List.append_assoc, List.append_assoc]
        refine (List.perm_append_comm.append_left _).trans ?_
        rw [← List.append_assoc]
        exact h.once.append_right _
      · rcases List.mem_append.mp hq with hq | hq
        · exact h.waiting q hq
        · rw [List.mem_singleton] at hq
          subst hq
          exact Nat.not_le.mp hlt

theorem Inv.foldl (h : p.Inv made) (cs : List Call) : (cs.foldl Party.apply p).Inv made := by
  induction cs generalizing p with
  | nil => exact h
  | cons c cs ih => exact ih (h.apply c)

/-- The shares of a flush are there. -/
theorem Inv.extend (h : p.Inv made) (shares : List A) :
    (p.extend shares).Loop p.queue 0 (made ++ shares) where
  made := by
    rw [← h.made, List.append_assoc]
    rfl
  ids := h.ids
  counts := h.counts
  asked := h.asked
  once := h.once

/-- The loop of a flush comes through where there are enough shares. -/
theorem Loop.serveQueue {queue : List Waiting} {i : ℕ} (h : p.Loop queue i made)
    (hle : i + (queue.map Waiting.count).sum ≤ p.shares.length) : ∃ j p',
    Party.serveQueue queue i p = some (j, p') ∧ p'.Loop [] j made ∧ p'.queue = p.queue := by
  induction queue generalizing i p with
  | nil => exact ⟨i, p, rfl, h, rfl⟩
  | cons q queue ih =>
    rw [List.map_cons, List.sum_cons, ← Nat.add_assoc] at hle
    have hq : i + q.count ≤ p.shares.length := (Nat.le_add_right _ _).trans hle
    have hlen : ((p.shares.drop i).take q.count).length = q.count := by
      rw [List.length_take, List.length_drop]
      omega
    rw [Party.serveQueue, if_pos hq]
    refine ih ⟨?_, ?_, fun a ha => ?_, fun r hr => h.asked r (List.mem_cons_of_mem q hr), ?_⟩ hle
    · rw [← h.made]
      show (p.answers ++ [_]).flatMap Answer.shares ++ p.shares.drop (i + q.count) = _
      rw [flatMap_snoc, List.append_assoc, ← List.drop_drop, List.take_append_drop]
    · show (p.answers ++ [_]).map Answer.id = List.range (p.oleId + 1)
      rw [List.map_append, h.ids, List.range_succ]
      rfl
    · rcases List.mem_append.mp ha with ha | ha
      · exact h.counts a ha
      · rw [List.mem_singleton] at ha
        subst ha
        exact (h.asked q List.mem_cons_self).trans (congrArg some hlen.symm)
    · have honce := h.once
      rw [List.map_cons, List.append_cons] at honce
      rwa [List.map_append]

theorem Inv.serve (h : p.Inv made) {shares : List A}
    (hle : p.demand ≤ p.shares.length + shares.length) : ∃ p',
    (p.extend shares).serve = some p' ∧ p'.Inv (made ++ shares) ∧ p'.queue = [] := by
  have hloop := h.extend shares
  obtain ⟨j, p', hserve, hinv, hqueue⟩ :=
    Loop.serveQueue (p := { p.extend shares with queue := [] })
    ⟨hloop.made, hloop.ids, hloop.counts, hloop.asked, hloop.once⟩ (by
      rw [Nat.zero_add]
      exact hle.trans_eq List.length_append.symm)
  refine ⟨{ p' with shares := p'.shares.drop j }, ?_, ?_, hqueue⟩
  · rw [Party.serve]
    show (Party.serveQueue p.queue 0 _).bind _ = _
    rw [hserve]
    rfl
  · have hq : ({ p' with shares := p'.shares.drop j } : Party A).queue = [] := hqueue
    refine ⟨⟨hinv.made, hinv.ids, hinv.counts, ?_, ?_⟩, ?_⟩
    · rw [hq]
      exact hinv.asked
    · rw [hq]
      exact hinv.once
    · rw [hq]
      nofun

theorem Inv.map (h : p.Inv made) (f : A → B) : (p.map f).Inv (made.map f) where
  made := by
    rw [← h.made, List.map_append, List.drop_zero, List.drop_zero]
    refine congrArg (· ++ _) ?_
    show (p.answers.map _).flatMap _ = _
    rw [List.flatMap_map, List.map_flatMap]
    rfl
  ids := by
    show (p.answers.map _).map Answer.id = _
    rw [List.map_map]
    exact h.ids
  counts a ha := by
    obtain ⟨b, hb, rfl⟩ := List.mem_map.mp ha
    exact (h.counts b hb).trans (congrArg some (List.length_map f).symm)
  asked := h.asked
  once := by
    show ((p.answers.map _).map Answer.number ++ _ ++ _).Perm _
    rw [List.map_map]
    exact h.once
  waiting q hq := (List.length_map f).trans_lt (h.waiting q hq)

/-- Answers are only added. -/
theorem answers_subset (p : Party A) (cs : List Call) :
    p.answers <+: (cs.foldl apply p).answers := by
  induction cs generalizing p with
  | nil => exact List.prefix_refl _
  | cons c cs ih =>
    refine List.IsPrefix.trans ?_ (ih (p.apply c))
    have hgive (count : ℕ) : p.answers <+: ((p.give p.oleId count).bump).answers :=
      List.prefix_append _ _
    cases c with
    | alloc count => exact List.prefix_refl _
    | tryRole count =>
      rw [apply]
      split
      · exact List.prefix_refl _
      · exact hgive count
    | queueRole count =>
      rw [apply, queueRole]
      split
      · exact hgive count
      · exact List.prefix_refl _

/-- A request has one answer. -/
theorem Inv.eq_of_number (h : p.Inv made) {a b : Answer A} (ha : a ∈ p.answers) (hb : b ∈ p.answers)
    (hab : a.number = b.number) : a = b := by
  have hnodup := (h.once.nodup_iff.mpr List.nodup_range)
  rw [List.append_assoc] at hnodup
  exact List.inj_on_of_nodup_map (List.nodup_append.mp hnodup).1 ha hb hab

end Party

/-! ### The two sides -/

/-- The two sides are the images of a party that takes pairs. One of them may have made some calls
that the other one has not made yet. -/
structure Inv [CommRing F] (w : World F) (p : Party (OLEShare F × OLEShare F)) (cs : List Call)
    (made : List (OLEShare F × OLEShare F)) : Prop where
  party : p.Inv made
  correlated : ∀ q ∈ made, q.1.Correlated q.2
  ahead : (w.sent = w.received ++ cs ∧ w.inner.sender = (cs.foldl Party.apply p).map Prod.fst ∧
      w.inner.receiver = p.map Prod.snd) ∨
    (w.received = w.sent ++ cs ∧ w.inner.sender = p.map Prod.fst ∧
      w.inner.receiver = (cs.foldl Party.apply p).map Prod.snd)

/-- What the sender's interface does. -/
theorem callSender_eq (c : Call) (this : Inner F) : ∃ o, o ≠ .panic ∧
    Inner.callSender c this = (o, { this with sender := this.sender.apply c }) := by
  cases c with
  | alloc count => exact ⟨.ok (), nofun, rfl⟩
  | tryRole count =>
    rw [Inner.callSender, Inner.trySendRole, Party.apply]
    by_cases hlt : count > this.sender.shares.length
    · rw [if_pos hlt]
      refine ⟨.err (.notEnoughSender this.sender.shares.length count), nofun, ?_⟩
      rw [Method.bind_apply, Method.get_bind, if_pos hlt]
      rfl
    · rw [if_neg hlt]
      refine ⟨.ok (), nofun, ?_⟩
      rw [Method.bind_apply, Method.get_bind, if_neg hlt]
      rfl
  | queueRole count => exact ⟨.ok (), nofun, rfl⟩

/-- What the receiver's interface does, where a try does not find its shares. -/
theorem callReceiver_eq {w : World F} {c : Call} (hc : (Act.receiver c).Careful w) :
    ∃ o, o ≠ .panic ∧
    Inner.callReceiver c w.inner =
      (o, { w.inner with receiver := w.inner.receiver.apply c }) := by
  cases c with
  | alloc count => exact ⟨.ok (), nofun, rfl⟩
  | tryRole count =>
    have hlt : count > w.inner.receiver.shares.length := hc
    refine ⟨.err (.notEnoughReceiver w.inner.receiver.shares.length count), nofun, ?_⟩
    rw [Inner.callReceiver, Inner.tryRecvRole, Party.apply, if_pos hlt, Method.bind_apply,
      Method.get_bind, if_pos hlt]
    rfl
  | queueRole count => exact ⟨.ok (), nofun, rfl⟩

/-- What the calls so far leave open for the next one. -/
theorem prefix_cases {cs l : List Call} {c : Call}
    (h : l ++ [c] <+: l ++ cs ∨ l ++ cs <+: l ++ [c]) :
    cs = [] ∨ ∃ cs', cs = c :: cs' := by
  rw [List.prefix_append_right_inj, List.prefix_append_right_inj] at h
  cases cs with
  | nil => exact .inl rfl
  | cons d cs =>
    refine .inr ⟨cs, ?_⟩
    rcases h with h | h
    · rw [(List.cons_prefix_cons.mp h).1]
    · rw [(List.cons_prefix_cons.mp h).1]

variable [CommRing F] {rng : ℕ → F} {w w' : World F} {p : Party (OLEShare F × OLEShare F)}
  {cs : List Call} {made : List (OLEShare F × OLEShare F)}

theorem Inv.sender (h : Inv w p cs made) {c : Call} (hc : (Act.sender c).Mirrored w) :
    ∃ p' cs', Inv ⟨{ w.inner with sender := w.inner.sender.apply c }, w.sent ++ [c], w.received⟩
      p' cs' made := by
  rcases h.ahead with ⟨hsent, hs, hr⟩ | ⟨hrecv, hs, hr⟩
  · refine ⟨p, cs ++ [c], h.party, h.correlated, .inl ⟨?_, ?_, hr⟩⟩
    · show w.sent ++ [c] = _
      rw [hsent, List.append_assoc]
    · show w.inner.sender.apply c = _
      rw [hs, ← Party.apply_map, List.foldl_append]
      rfl
  · have hcs : w.sent ++ [c] <+: w.sent ++ cs ∨ w.sent ++ cs <+: w.sent ++ [c] := hrecv ▸ hc
    rcases prefix_cases hcs with rfl | ⟨cs', rfl⟩
    · refine ⟨p, [c], h.party, h.correlated, .inl ⟨?_, ?_, hr⟩⟩
      · show w.sent ++ [c] = w.received ++ [c]
        rw [hrecv, List.append_nil]
      · show w.inner.sender.apply c = _
        rw [hs, ← Party.apply_map]
        rfl
    · refine ⟨p.apply c, cs', h.party.apply c, h.correlated, .inr ⟨?_, ?_, hr⟩⟩
      · show w.received = w.sent ++ [c] ++ cs'
        rw [hrecv, List.append_cons]
      · show w.inner.sender.apply c = _
        rw [hs, ← Party.apply_map]

theorem Inv.receiver (h : Inv w p cs made) {c : Call} (hc : (Act.receiver c).Mirrored w) :
    ∃ p' cs', Inv ⟨{ w.inner with receiver := w.inner.receiver.apply c }, w.sent, w.received ++ [c]⟩
      p' cs' made := by
  rcases h.ahead with ⟨hsent, hs, hr⟩ | ⟨hrecv, hs, hr⟩
  · have hcs : w.received ++ [c] <+: w.received ++ cs ∨ w.received ++ cs <+: w.received ++ [c] :=
      hsent ▸ hc
    rcases prefix_cases hcs with rfl | ⟨cs', rfl⟩
    · refine ⟨p, [c], h.party, h.correlated, .inr ⟨?_, hs, ?_⟩⟩
      · show w.received ++ [c] = w.sent ++ [c]
        rw [hsent, List.append_nil]
      · show w.inner.receiver.apply c = _
        rw [hr, ← Party.apply_map]
        rfl
    · refine ⟨p.apply c, cs', h.party.apply c, h.correlated, .inl ⟨?_, hs, ?_⟩⟩
      · show w.sent = w.received ++ [c] ++ cs'
        rw [hsent, List.append_cons]
      · show w.inner.receiver.apply c = _
        rw [hr, ← Party.apply_map]
  · refine ⟨p, cs ++ [c], h.party, h.correlated, .inr ⟨?_, hs, ?_⟩⟩
    · show w.received ++ [c] = _
      rw [hrecv, List.append_assoc]
    · show w.inner.receiver.apply c = _
      rw [hr, ← Party.apply_map, List.foldl_append]
      rfl

/-- Where both sides have made the same calls, no call is open. -/
theorem Inv.even (h : Inv w p cs made) (heq : w.sent = w.received) :
    w.inner.sender = p.map Prod.fst ∧ w.inner.receiver = p.map Prod.snd := by
  rcases h.ahead with ⟨hsent, hs, hr⟩ | ⟨hrecv, hs, hr⟩
  · have hcs : cs = [] := List.append_right_eq_self.mp (hsent.symm.trans heq)
    subst hcs
    exact ⟨hs, hr⟩
  · have hcs : cs = [] := List.append_right_eq_self.mp (hrecv.symm.trans heq.symm)
    subst hcs
    exact ⟨hs, hr⟩

/-- **A flush answers all requests that wait.** -/
theorem Inv.flush (h : Inv w p cs made) (rng : ℕ → F) (heq : w.sent = w.received)
    (hc : Act.flush.Careful w) :
    ∃ inner p' made', Inner.flush rng w.inner = (.ok (), inner) ∧ p'.queue = [] ∧
      inner.sender = p'.map Prod.fst ∧ inner.receiver = p'.map Prod.snd ∧
        Inv ⟨inner, w.sent, w.received⟩ p' [] made' := by
  obtain ⟨hs, hr⟩ := h.even heq
  let shares := (List.range p.alloc).map fun i => roleShares rng (w.inner.drawn + 3 * i)
  have hle : p.demand ≤ p.shares.length + shares.length := by
    have hle : w.inner.sender.demand ≤ w.inner.sender.shares.length + w.inner.sender.alloc := hc
    rw [hs] at hle
    rw [List.length_map, List.length_range]
    exact hle.trans_eq (congrArg (· + p.alloc) (List.length_map _))
  obtain ⟨p', hserve, hinv, hqueue⟩ := h.party.serve hle
  have hsender : (w.inner.sender.extend (shares.map Prod.fst)).serve = some (p'.map Prod.fst) := by
    rw [hs, ← Party.extend_map, Party.serve_map, hserve]
    rfl
  have hreceiver : (w.inner.receiver.extend (shares.map Prod.snd)).serve =
      some (p'.map Prod.snd) := by
    rw [hr, ← Party.extend_map, Party.serve_map, hserve]
    rfl
  have hs' : w.inner.sender.alloc = p.alloc := congrArg Party.alloc hs
  have hr' : w.inner.receiver.alloc = p.alloc := congrArg Party.alloc hr
  refine ⟨⟨w.inner.drawn + 3 * p.alloc, p'.map Prod.fst, p'.map Prod.snd⟩, p', made ++ shares, ?_,
    hqueue, rfl, rfl, hinv, ?_, .inl ⟨?_, rfl, rfl⟩⟩
  · rw [Inner.flush, Method.get_bind, if_neg (not_not.mpr (hs'.trans hr'.symm)), hs', hsender]
    show (Method.call (.ofOption _) >>= _) _ = _
    rw [hreceiver]
    rfl
  · intro q hq
    rcases List.mem_append.mp hq with hq | hq
    · exact h.correlated q hq
    · obtain ⟨i, -, rfl⟩ := List.mem_map.mp hq
      exact roleShares_correlated rng _
  · show w.sent = w.received ++ []
    rw [heq, List.append_nil]

/-- A step keeps the invariant. -/
theorem Inv.step {a : Act} (h : Inv w p cs made) (hstep : CarefulStep rng w a w') :
    ∃ p' cs' made', Inv w' p' cs' made' := by
  obtain ⟨hcareful, hmirrored, hnext⟩ := hstep
  obtain ⟨inner, hret, hnext⟩ := Option.bind_eq_some_iff.mp hnext
  have hret := (Method.Returns.of_returned hret).eq
  cases a with
  | sender c =>
    obtain ⟨o, -, hcall⟩ := callSender_eq c w.inner
    obtain rfl := Option.some.inj hnext
    obtain ⟨p', cs', hinv⟩ := h.sender hmirrored
    rw [Act.call, hcall] at hret
    exact ⟨p', cs', made, hret ▸ hinv⟩
  | receiver c =>
    obtain ⟨o, -, hcall⟩ := callReceiver_eq hcareful
    obtain rfl := Option.some.inj hnext
    obtain ⟨p', cs', hinv⟩ := h.receiver hmirrored
    rw [Act.call, hcall] at hret
    exact ⟨p', cs', made, hret ▸ hinv⟩
  | flush =>
    obtain ⟨inner', p', made', hflush, -, -, -, hinv⟩ := h.flush rng hmirrored hcareful
    obtain rfl := Option.some.inj hnext
    rw [Act.call, hflush] at hret
    exact ⟨p', [], made', hret ▸ hinv⟩

/-- What both sides were given for a request is one answer of pairs. -/
theorem agree_of_answers {p q : Party (OLEShare F × OLEShare F)} (hinv : q.Inv made)
    (hmade : ∀ q ∈ made, q.1.Correlated q.2) (hsub : ∀ x ∈ p.answers, x ∈ q.answers)
    {x y : Answer (OLEShare F × OLEShare F)} (hx : x ∈ p.answers) (hy : y ∈ q.answers)
    (hxy : x.number = y.number) : x = y ∧ CorrelatedShares (x.shares.map Prod.fst)
      (x.shares.map Prod.snd) := by
  refine ⟨hinv.eq_of_number (hsub x hx) hy hxy, fun i s r hs hr => ?_⟩
  rw [List.getElem?_map, Option.map_eq_some_iff] at hs hr
  obtain ⟨z, hz, rfl⟩ := hs
  obtain ⟨z', hz', rfl⟩ := hr
  obtain rfl := Option.some.inj (hz.symm.trans hz')
  refine hmade z ?_
  rw [← hinv.made]
  exact List.mem_append_left _
    (List.mem_flatMap.mpr ⟨x, hsub x hx, List.mem_of_getElem? hz⟩)

theorem Inv.serves (h : Inv w p cs made) : Serves rng w where
  returns a hmirrored hcareful := by
    cases a with
    | sender c =>
      obtain ⟨o, ho, hcall⟩ := callSender_eq c w.inner
      rw [Act.call, hcall]
      exact ho
    | receiver c =>
      obtain ⟨o, ho, hcall⟩ := callReceiver_eq hcareful
      rw [Act.call, hcall]
      exact ho
    | flush =>
      obtain ⟨inner, p', made', hflush, -⟩ := h.flush rng hmirrored hcareful
      rw [Act.call, hflush]
      nofun
  flushed heq hcareful := by
    obtain ⟨inner, p', made', hflush, hqueue, hs, hr, -⟩ := h.flush rng heq hcareful
    exact ⟨inner, hflush, hs ▸ hqueue, hr ▸ hqueue⟩
  sender := by
    rcases h.ahead with ⟨-, hs, -⟩ | ⟨-, hs, -⟩ <;> rw [hs]
    · exact ((h.party.foldl cs).map Prod.fst).served
    · exact (h.party.map Prod.fst).served
  receiver := by
    rcases h.ahead with ⟨-, -, hr⟩ | ⟨-, -, hr⟩ <;> rw [hr]
    · exact (h.party.map Prod.snd).served
    · exact ((h.party.foldl cs).map Prod.snd).served
  made := by
    refine ⟨made, h.correlated, ?_⟩
    rcases h.ahead with ⟨-, hs, hr⟩ | ⟨-, hs, hr⟩ <;> rw [hs, hr]
    · exact ⟨((h.party.foldl cs).map Prod.fst).made, (h.party.map Prod.snd).made⟩
    · exact ⟨(h.party.map Prod.fst).made, ((h.party.foldl cs).map Prod.snd).made⟩
  agree a ha b hb hab := by
    have hsub := (Party.answers_subset p cs).subset
    rcases h.ahead with ⟨-, hs, hr⟩ | ⟨-, hs, hr⟩ <;> rw [hs] at ha <;> rw [hr] at hb <;>
      obtain ⟨x, hx, rfl⟩ := List.mem_map.mp ha <;> obtain ⟨y, hy, rfl⟩ := List.mem_map.mp hb
    · obtain ⟨rfl, hcorr⟩ := agree_of_answers (h.party.foldl cs) h.correlated hsub hy hx hab.symm
      exact ⟨rfl, (List.length_map _).trans (List.length_map _).symm, hcorr⟩
    · obtain ⟨rfl, hcorr⟩ := agree_of_answers (h.party.foldl cs) h.correlated hsub hx hy hab
      exact ⟨rfl, (List.length_map _).trans (List.length_map _).symm, hcorr⟩

theorem Inv.new : Inv (World.new : World F) .new [] [] where
  party := .new
  correlated := nofun
  ahead := .inl ⟨rfl, rfl, rfl⟩

end IdealROLE

section

open IdealROLE

/-- **The ideal functionality serves its two sides alike**, in every mirrored run of careful
calls. -/
theorem ideal_role_serves {F : Type} [CommRing F] {rng : ℕ → F} {acts : List Act} {w : World F}
    (h : Run (CarefulStep rng) World.new acts w) : Serves rng w := by
  obtain ⟨p, cs, made, hinv⟩ := h.invariant (P := fun w => ∃ p cs made, Inv w p cs made)
    ⟨_, _, _, Inv.new⟩ fun _ _ _ ⟨_, _, _, hinv⟩ hstep => hinv.step hstep
  exact hinv.serves

/-- A careful step of a mirrored run, where it is one. -/
def IdealROLE.carefulNext {F : Type} [CommRing F] (rng : ℕ → F) (w : World F) (a : Act) :
    Option (World F) :=
  if a.Careful w ∧ a.Mirrored w then w.next rng a else none

theorem IdealROLE.carefulStep_of_next {F : Type} [CommRing F] (rng : ℕ → F) (w : World F) (a : Act)
    (w' : World F) (h : carefulNext rng w a = some w') : CarefulStep rng w a w' := by
  rw [carefulNext] at h
  split at h
  case isTrue ha => exact ⟨ha.1, ha.2, h⟩
  case isFalse => cases h

/-- A step of a mirrored run, where it is one. -/
def IdealROLE.mirroredNext {F : Type} [CommRing F] (rng : ℕ → F) (w : World F) (a : Act) :
    Option (World F) :=
  if a.Mirrored w then w.next rng a else none

theorem IdealROLE.step_of_next {F : Type} [CommRing F] (rng : ℕ → F) (w : World F) (a : Act)
    (w' : World F) (h : mirroredNext rng w a = some w') : Step rng w a w' := by
  rw [mirroredNext] at h
  split at h
  case isTrue ha => exact ⟨ha, h⟩
  case isFalse => cases h

/-- Two requests on both sides. The first one waits for a flush, and the second one does not. -/
theorem IdealROLE.run_requests :
    ∃ w : World (ZMod 7), Run (CarefulStep fun i => (i : ZMod 7)) World.new
    [.sender (.alloc 3), .sender (.queueRole 2), .receiver (.alloc 3), .receiver (.queueRole 2),
      .flush, .receiver (.queueRole 1), .sender (.queueRole 1)] w ∧
    w.inner.sender.answers = [⟨0, 0, [⟨2, 0⟩, ⟨5, 3⟩]⟩, ⟨1, 1, [⟨1, 6⟩]⟩] ∧
    w.inner.receiver.answers = [⟨0, 0, [⟨5, 1⟩, ⟨0, 4⟩]⟩, ⟨1, 1, [⟨6, 0⟩]⟩] :=
  ⟨_, Run.of_isSome _ (carefulStep_of_next _) (by decide +kernel), by decide +kernel,
    by decide +kernel⟩

theorem ideal_role_serves_two : ∃ w : World (ZMod 7),
    Run (CarefulStep fun i => (i : ZMod 7)) World.new
      [.sender (.alloc 3), .sender (.queueRole 2), .receiver (.alloc 3), .receiver (.queueRole 2),
        .flush, .receiver (.queueRole 1), .sender (.queueRole 1)] w ∧
      Serves (fun i => (i : ZMod 7)) w := by
  obtain ⟨w, hrun, -⟩ := run_requests
  exact ⟨w, hrun, ideal_role_serves hrun⟩

/-- **Two slips.** The first try on each side is given another id than on the other one. And a flush
panics that finds a request for more shares than there are. -/
theorem ideal_role_slips :
    (∃ w : World (ZMod 7), Run (Step fun i => (i : ZMod 7)) World.new
      [.sender (.alloc 1), .receiver (.alloc 1), .flush, .sender (.tryRole 1),
        .receiver (.tryRole 1)] w ∧
      w.inner.sender.answers.map Answer.id = [0] ∧ w.inner.receiver.answers.map Answer.id = [1]) ∧
    ∃ w : World (ZMod 7), Run (Step fun i => (i : ZMod 7)) World.new
      [.sender (.alloc 1), .sender (.queueRole 2), .receiver (.alloc 1),
        .receiver (.queueRole 2)] w ∧
      Act.flush.Mirrored w ∧ (Inner.flush (fun i => (i : ZMod 7)) w.inner).1 = .panic :=
  ⟨⟨_, Run.of_isSome _ (step_of_next _) (by decide +kernel), by decide +kernel, by decide +kernel⟩,
    ⟨_, Run.of_isSome _ (step_of_next _) (by decide +kernel), by decide +kernel, by decide +kernel⟩⟩

end

end Mpz
