import Mpz.Lib.Run
import Mpz.ShareConversion.Convert

/-!
# Rounds of share conversion

The two sides take turns. In A2M the receiver sends an offset for each input, the sender answers
with a masked share for each, and the receiver finishes. In M2A both send an offset for each input,
and both finish. Messages are delivered in order, and a side may begin its next round before the
other side has finished the last one.

A step takes all that waits, not what the round is about. `Act.Careful` says where that is the same:
both sides are in a round with the same requests, and they take shares for the two kinds of
conversion in the same order.

## Main definitions

* `ShareConversion.World`, `ShareConversion.Act` — the two sides and the messages between them
* `M2ASide`, `A2MRound`, `Aligned`, `Inv` — the invariant

## Main results

* `share_conversion_serves` — every request is answered with shares of its own inputs
* `missing_shares` — a request that is queued while a round is going on is answered with no shares
-/

namespace Mpz

namespace ShareConversion

/-- What was requested of the conversions of one kind, and the messages that are on their way. -/
structure Link (F : Type) where
  /-- The inputs of the requests of the sender. -/
  sends : List (List F)
  /-- The inputs of the requests of the receiver. -/
  recvs : List (List F)
  /-- The messages to the sender. -/
  toSender : List (List F)
  /-- The messages to the receiver. -/
  toReceiver : List (List F)
  deriving DecidableEq, Repr

/-- The two sides, and what is between them. -/
structure World (S R F : Type) where
  /-- The sender. -/
  sender : Sender S F
  /-- The receiver. -/
  receiver : Receiver R F
  /-- The A2M conversions. -/
  a2m : Link F
  /-- The M2A conversions. -/
  m2a : Link F

/-- What can happen. The steps are named after the side and the call. -/
inductive Act (S R F : Type) where
  /-- The sender queues an A2M conversion. -/
  | senderQueueA2m (inputs : List F)
  /-- The receiver queues an A2M conversion. -/
  | receiverQueueA2m (inputs : List F)
  /-- The sender queues an M2A conversion. -/
  | senderQueueM2a (inputs : List F)
  /-- The receiver queues an M2A conversion. -/
  | receiverQueueM2a (inputs : List F)
  /-- There are more ROLEs. -/
  | refill (s : S) (r : R)
  /-- The receiver sends A2M offsets. -/
  | receiverSendA2m
  /-- The sender is given them. -/
  | senderRecvA2m
  /-- The sender sends masked shares. -/
  | senderSendA2m
  /-- The receiver is given them. -/
  | receiverRecvA2m
  /-- The sender sends M2A offsets. -/
  | senderSendM2a
  /-- The receiver sends M2A offsets. -/
  | receiverSendM2a
  /-- The sender is given those of the receiver. -/
  | senderRecvM2a
  /-- The receiver is given those of the sender. -/
  | receiverRecvM2a
  deriving DecidableEq, Repr

section

variable {S R F E E' : Type} [Field F] [ROLESender S F E] [ROLEReceiver R F E']

/-- The requests of the two sides are the same ones. A side begins with M2A, and with a round when
its last one is over. There are enough ROLEs, and the sender's inputs of those for A2M are not
zero. -/
def Act.Enabled (Refill : S × R → S × R → Prop) (w : World S R F) : Act S R F → Prop
  | senderQueueA2m inputs => ∀ ys ∈ w.a2m.recvs[w.a2m.sends.length]?, inputs.length = ys.length
  | receiverQueueA2m inputs => ∀ xs ∈ w.a2m.sends[w.a2m.recvs.length]?, xs.length = inputs.length
  | senderQueueM2a inputs => ∀ ys ∈ w.m2a.recvs[w.m2a.sends.length]?, inputs.length = ys.length
  | receiverQueueM2a inputs => ∀ xs ∈ w.m2a.sends[w.m2a.recvs.length]?, xs.length = inputs.length
  | refill s r => Refill (w.sender.role, w.receiver.role) (s, r)
  | receiverSendA2m => w.receiver.a2m.adjust = [] ∧
      w.receiver.a2m.inputs.length ≤ ROLEReceiver.available w.receiver.role
  | senderRecvA2m => w.a2m.toSender ≠ [] ∧ w.sender.m2a.adjust = [] ∧
      w.sender.a2m.inputs.length ≤ ROLESender.available w.sender.role
  | senderSendA2m => ∀ a ∈ w.sender.a2m.adjust, a.mul ≠ 0
  | receiverRecvA2m => w.a2m.toReceiver ≠ []
  | senderSendM2a => w.sender.m2a.adjust = [] ∧
      w.sender.m2a.inputs.length ≤ ROLESender.available w.sender.role
  | receiverSendM2a => w.receiver.m2a.adjust = [] ∧ w.receiver.a2m.adjust = [] ∧
      w.receiver.m2a.inputs.length ≤ ROLEReceiver.available w.receiver.role
  | senderRecvM2a => w.m2a.toSender ≠ []
  | receiverRecvM2a => w.m2a.toReceiver ≠ []

omit [Field F] [ROLESender S F E] [ROLEReceiver R F E'] in
/-- A message is about the inputs or the conversions of the side that is given it, and requests are
answered when they are about the conversions that are finished. A side does not take shares for one
kind of conversion where the other side has taken them for the other kind; a round of no conversions
takes none. -/
def Act.Careful (w : World S R F) : Act S R F → Prop
  | receiverSendA2m => w.receiver.a2m.inputs = [] ∨
      w.m2a.toReceiver.flatten.length ≤ w.receiver.m2a.adjust.length
  | senderRecvA2m => (w.sender.a2m.inputs = [] ∨ w.m2a.toSender.flatten = []) ∧
      ∀ offsets ∈ w.a2m.toSender.head?, w.sender.a2m.inputs.length = offsets.length
  | senderSendA2m => w.sender.a2m.adjust.length = (w.sender.a2m.queue.map Queued.count).sum
  | receiverRecvA2m => ∀ masked ∈ w.a2m.toReceiver.head?,
      masked.length = w.receiver.a2m.adjust.length ∧
        masked.length = (w.receiver.a2m.queue.map Queued.count).sum
  | senderSendM2a => w.a2m.toSender.flatten = [] ∨
      w.sender.m2a.inputs.length ≤ w.m2a.toSender.flatten.length
  | senderRecvM2a => ∀ offsets ∈ w.m2a.toSender.head?,
      offsets.length = w.sender.m2a.adjust.length ∧
        offsets.length = (w.sender.m2a.queue.map Queued.count).sum
  | receiverRecvM2a => ∀ offsets ∈ w.m2a.toReceiver.head?,
      offsets.length = w.receiver.m2a.adjust.length ∧
        offsets.length = (w.receiver.m2a.queue.map Queued.count).sum
  | _ => True

/-- A call of the sender. -/
def onSender {α : Type} (m : Method (Sender S F) (Error E) α) :
    Method (World S R F) (Error E ⊕ Error E') α :=
  Method.zoom World.sender (fun w sender => { w with sender }) .inl m

/-- A call of the receiver. -/
def onReceiver {α : Type} (m : Method (Receiver R F) (Error E') α) :
    Method (World S R F) (Error E ⊕ Error E') α :=
  Method.zoom World.receiver (fun w receiver => { w with receiver }) .inr m

variable [DecidableEq F]

/-- What it does. A message that is refused is gone. -/
def Act.run : Act S R F → Method (World S R F) (Error E ⊕ Error E') Unit
  | senderQueueA2m inputs => do
    let _ ← onSender (Sender.queueToMultiplicative inputs)
    Method.modify fun w => { w with a2m := { w.a2m with sends := w.a2m.sends ++ [inputs] } }
  | receiverQueueA2m inputs => do
    let _ ← onReceiver (Receiver.queueToMultiplicative inputs)
    Method.modify fun w => { w with a2m := { w.a2m with recvs := w.a2m.recvs ++ [inputs] } }
  | senderQueueM2a inputs => do
    let _ ← onSender (Sender.queueToAdditive inputs)
    Method.modify fun w => { w with m2a := { w.m2a with sends := w.m2a.sends ++ [inputs] } }
  | receiverQueueM2a inputs => do
    let _ ← onReceiver (Receiver.queueToAdditive inputs)
    Method.modify fun w => { w with m2a := { w.m2a with recvs := w.m2a.recvs ++ [inputs] } }
  | refill s r => Method.modify fun w => { w with
      sender := { w.sender with role := s }
      receiver := { w.receiver with role := r } }
  | receiverSendA2m => do
    let offsets ← onReceiver Receiver.sendA2m
    Method.modify fun w => { w with a2m := { w.a2m with toSender := w.a2m.toSender ++ [offsets] } }
  | senderRecvA2m => do
    let w ← Method.get
    Method.modify fun w => { w with a2m := { w.a2m with toSender := w.a2m.toSender.tail } }
    match w.a2m.toSender with
    | offsets :: _ => onSender (Sender.recvA2m offsets)
    | [] => return
  | senderSendA2m => do
    let maskedShares ← onSender Sender.sendA2m
    Method.modify fun w => { w with
      a2m := { w.a2m with toReceiver := w.a2m.toReceiver ++ [maskedShares] } }
  | receiverRecvA2m => do
    let w ← Method.get
    Method.modify fun w => { w with a2m := { w.a2m with toReceiver := w.a2m.toReceiver.tail } }
    match w.a2m.toReceiver with
    | maskedShares :: _ => onReceiver (Receiver.recvA2m maskedShares)
    | [] => return
  | senderSendM2a => do
    let offsets ← onSender Sender.sendM2a
    Method.modify fun w => { w with
      m2a := { w.m2a with toReceiver := w.m2a.toReceiver ++ [offsets] } }
  | receiverSendM2a => do
    let offsets ← onReceiver Receiver.sendM2a
    Method.modify fun w => { w with m2a := { w.m2a with toSender := w.m2a.toSender ++ [offsets] } }
  | senderRecvM2a => do
    let w ← Method.get
    Method.modify fun w => { w with m2a := { w.m2a with toSender := w.m2a.toSender.tail } }
    match w.m2a.toSender with
    | offsets :: _ => onSender (Sender.recvM2a offsets)
    | [] => return
  | receiverRecvM2a => do
    let w ← Method.get
    Method.modify fun w => { w with m2a := { w.m2a with toReceiver := w.m2a.toReceiver.tail } }
    match w.m2a.toReceiver with
    | offsets :: _ => onReceiver (Receiver.recvM2a offsets)
    | [] => return

/-- A step. -/
def Step (Refill : S × R → S × R → Prop) (w : World S R F) (a : Act S R F) (w' : World S R F) :
    Prop :=
  a.Enabled Refill w ∧ (a.run : Method (World S R F) (Error E ⊕ Error E') Unit).Returns w w'

/-- A careful step. -/
def CarefulStep (Refill : S × R → S × R → Prop) (w : World S R F) (a : Act S R F)
    (w' : World S R F) : Prop := a.Careful w ∧ Step Refill w a w'

end

section

variable {S R F E E' : Type} [Field F] [DecidableEq F] [ROLESender S F E] [ROLEReceiver R F E']

/-- Whether it can happen, where it is a step of the two sides. -/
def Act.isEnabled (w : World S R F) : Act S R F → Bool
  | senderQueueA2m inputs => w.a2m.recvs[w.a2m.sends.length]?.all fun ys =>
      inputs.length == ys.length
  | receiverQueueA2m inputs => w.a2m.sends[w.a2m.recvs.length]?.all fun xs =>
      xs.length == inputs.length
  | senderQueueM2a inputs => w.m2a.recvs[w.m2a.sends.length]?.all fun ys =>
      inputs.length == ys.length
  | receiverQueueM2a inputs => w.m2a.sends[w.m2a.recvs.length]?.all fun xs =>
      xs.length == inputs.length
  | refill _ _ => false
  | receiverSendA2m => w.receiver.a2m.adjust.isEmpty &&
      decide (w.receiver.a2m.inputs.length ≤ ROLEReceiver.available w.receiver.role)
  | senderRecvA2m => !w.a2m.toSender.isEmpty && w.sender.m2a.adjust.isEmpty &&
      decide (w.sender.a2m.inputs.length ≤ ROLESender.available w.sender.role)
  | senderSendA2m => w.sender.a2m.adjust.all fun a => a.mul != 0
  | receiverRecvA2m => !w.a2m.toReceiver.isEmpty
  | senderSendM2a => w.sender.m2a.adjust.isEmpty &&
      decide (w.sender.m2a.inputs.length ≤ ROLESender.available w.sender.role)
  | receiverSendM2a => w.receiver.m2a.adjust.isEmpty && w.receiver.a2m.adjust.isEmpty &&
      decide (w.receiver.m2a.inputs.length ≤ ROLEReceiver.available w.receiver.role)
  | senderRecvM2a => !w.m2a.toSender.isEmpty
  | receiverRecvM2a => !w.m2a.toReceiver.isEmpty

/-- Whether it is careful. -/
def Act.isCareful (w : World S R F) : Act S R F → Bool
  | receiverSendA2m => w.receiver.a2m.inputs.isEmpty ||
      decide (w.m2a.toReceiver.flatten.length ≤ w.receiver.m2a.adjust.length)
  | senderRecvA2m => (w.sender.a2m.inputs.isEmpty || w.m2a.toSender.flatten.isEmpty) &&
      w.a2m.toSender.head?.all fun offsets => w.sender.a2m.inputs.length == offsets.length
  | senderSendA2m => w.sender.a2m.adjust.length == (w.sender.a2m.queue.map Queued.count).sum
  | receiverRecvA2m => w.a2m.toReceiver.head?.all fun masked =>
      masked.length == w.receiver.a2m.adjust.length &&
        masked.length == (w.receiver.a2m.queue.map Queued.count).sum
  | senderSendM2a => w.a2m.toSender.flatten.isEmpty ||
      decide (w.sender.m2a.inputs.length ≤ w.m2a.toSender.flatten.length)
  | senderRecvM2a => w.m2a.toSender.head?.all fun offsets =>
      offsets.length == w.sender.m2a.adjust.length &&
        offsets.length == (w.sender.m2a.queue.map Queued.count).sum
  | receiverRecvM2a => w.m2a.toReceiver.head?.all fun offsets =>
      offsets.length == w.receiver.m2a.adjust.length &&
        offsets.length == (w.receiver.m2a.queue.map Queued.count).sum
  | _ => true

theorem Act.enabled_of_isEnabled {Refill : S × R → S × R → Prop} {w : World S R F} {a : Act S R F}
    (h : a.isEnabled w) : a.Enabled Refill w := by
  cases a with
  | refill s r => cases h
  | _ => simpa [isEnabled, Enabled, Option.all_eq_true, and_assoc] using h

omit [Field F] [DecidableEq F] [ROLESender S F E] [ROLEReceiver R F E'] in
theorem Act.careful_of_isCareful {w : World S R F} {a : Act S R F} (h : a.isCareful w) :
    a.Careful w := by
  cases a with
  | senderQueueA2m | receiverQueueA2m | senderQueueM2a | receiverQueueM2a | refill
  | receiverSendM2a => trivial
  | _ => simpa [isCareful, Careful, Option.all_eq_true] using h

/-- The state behind a step. -/
def next (w : World S R F) (a : Act S R F) : Option (World S R F) :=
  if a.isEnabled w then (a.run : Method (World S R F) (Error E ⊕ Error E') Unit).returned
    w else none

/-- The state behind a careful step. -/
def carefulNext (w : World S R F) (a : Act S R F) : Option (World S R F) :=
  if a.isCareful w then next w a else none

theorem step_of_next {Refill : S × R → S × R → Prop} (w : World S R F) (a : Act S R F)
    (w' : World S R F) (h : next w a = some w') : Step Refill w a w' := by
  rw [next] at h
  split at h
  next hen => exact ⟨Act.enabled_of_isEnabled hen, .of_returned h⟩
  next => cases h

theorem carefulStep_of_next {Refill : S × R → S × R → Prop} (w : World S R F) (a : Act S R F)
    (w' : World S R F) (h : carefulNext w a = some w') : CarefulStep Refill w a w' := by
  rw [carefulNext] at h
  split at h
  next hcare => exact ⟨Act.careful_of_isCareful hcare, step_of_next w a w' h⟩
  next => cases h

end

/-! ### One side of M2A -/

section M2ASide

variable {F : Type} [Field F]

/-- What is true of one side of M2A. Both sides have taken shares for `both`, and this side has
finished the first `f` of these. It is ahead by `ahead`, or the other side is by `other`. -/
structure M2ASide (finish : Adjust F → F → OLEShare F) (s : Conversions F (Adjust F))
    (asks inbox : List (List F)) (both : List (Adjust F × Adjust F)) (f : ℕ)
    (ahead other : List (Adjust F)) : Prop where
  inputs : both.map (fun p => p.1.target) ++ ahead.map Adjust.target ++ s.inputs = asks.flatten
  adjust : s.adjust = (both.drop f).map Prod.fst ++ ahead
  inbox : inbox.flatten = (both.drop f).map (fun p => p.2.offset) ++ other.map Adjust.offset
  answered : Answered asks s.queue s.futures
    ((both.take f).map fun p => (finish p.1 p.2.offset).add)
  le : f ≤ both.length

namespace M2ASide

variable {finish : Adjust F → F → OLEShare F} {s : Conversions F (Adjust F)}
  {asks inbox : List (List F)} {both : List (Adjust F × Adjust F)} {f : ℕ}
  {ahead other : List (Adjust F)}

theorem new : M2ASide finish .new [] [] [] 0 [] [] where
  inputs := rfl
  adjust := rfl
  inbox := rfl
  answered := .new
  le := le_rfl

variable (h : M2ASide finish s asks inbox both f ahead other)
include h

theorem push (inputs : List F) :
    M2ASide finish (s.push inputs) (asks ++ [inputs]) inbox both f ahead
    other where
  inputs := by
    rw [List.flatten_append, ← h.inputs, List.flatten_singleton]
    exact (List.append_assoc _ _ _).symm
  adjust := h.adjust
  inbox := h.inbox
  answered := h.answered.push inputs
  le := h.le

/-- A side whose last round is over is not ahead, and has finished what both sides have begun. -/
theorem of_adjust (hadj : s.adjust = []) : ahead = [] ∧ f = both.length := by
  have := h.adjust
  rw [hadj] at this
  obtain ⟨hdrop, rfl⟩ := List.append_eq_nil_iff.mp this.symm
  exact ⟨rfl, le_antisymm h.le (List.drop_eq_nil_iff.mp (List.map_eq_nil_iff.mp hdrop))⟩

/-- This side takes shares. -/
theorem send (hadj : s.adjust = []) {l : List (Adjust F)} (hl : l.map Adjust.target = s.inputs) :
    M2ASide finish { s with inputs := [], adjust := s.adjust ++ l } asks inbox
      (both ++ l.zip other) f
      (l.drop other.length) (other.drop l.length) := by
  obtain ⟨rfl, rfl⟩ := h.of_adjust hadj
  refine ⟨?_, ?_, ?_, ?_, ?_⟩
  · have hzip : (l.zip other).map (fun p => p.1.target) ++ (l.drop other.length).map Adjust.target =
        l.map Adjust.target := by
      show (l.zip other).map (Adjust.target ∘ Prod.fst) ++ _ = _
      rw [← List.map_map, List.map_fst_zip_take, ← List.map_append, List.take_append_drop]
    rw [← h.inputs, List.map_append, List.append_assoc (both.map _), hzip, hl, List.map_nil,
      List.append_nil, List.append_nil]
  · rw [hadj, List.drop_left, List.map_fst_zip_take]
    exact (List.take_append_drop _ _).symm
  · have hin := h.inbox
    rw [List.drop_length] at hin
    rw [hin, List.drop_left]
    show _ = (l.zip other).map (Adjust.offset ∘ Prod.snd) ++ _
    rw [← List.map_map, List.map_snd_zip_take, ← List.map_append, List.take_append_drop]
    rfl
  · have hans := h.answered
    rw [List.take_length] at hans
    rwa [List.take_left]
  · rw [List.length_append]
    exact Nat.le_add_right _ _

/-- The other side takes shares. -/
theorem otherSend (hother : other = []) (l : List (Adjust F)) :
    M2ASide finish s asks (inbox ++ [l.map Adjust.offset]) (both ++ ahead.zip l) f
      (ahead.drop l.length) (l.drop ahead.length) := by
  subst hother
  refine ⟨?_, ?_, ?_, ?_, ?_⟩
  · have hzip : (ahead.zip l).map (fun p => p.1.target) ++ (ahead.drop l.length).map Adjust.target =
        ahead.map Adjust.target := by
      show (ahead.zip l).map (Adjust.target ∘ Prod.fst) ++ _ = _
      rw [← List.map_map, List.map_fst_zip_take, ← List.map_append, List.take_append_drop]
    rw [← h.inputs, List.map_append, List.append_assoc (both.map _), hzip]
  · rw [h.adjust, List.drop_append_of_le_length h.le, List.map_append, List.map_fst_zip_take,
      List.append_assoc, List.take_append_drop]
  · have hzip : (ahead.zip l).map (fun p => p.2.offset) ++ (l.drop ahead.length).map Adjust.offset =
        l.map Adjust.offset := by
      show (ahead.zip l).map (Adjust.offset ∘ Prod.snd) ++ _ = _
      rw [← List.map_map, List.map_snd_zip_take, ← List.map_append, List.take_append_drop]
    rw [List.flatten_append, h.inbox, List.flatten_singleton, List.drop_append_of_le_length h.le,
      List.map_append, List.append_assoc, List.append_assoc, hzip, List.map_nil, List.nil_append]
  · rw [List.take_append_of_le_length h.le]
    exact h.answered
  · rw [List.length_append]
    exact h.le.trans (Nat.le_add_right _ _)

/-- A message that is as long as what is going on is about all that both sides have begun, and this
side is not ahead. -/
theorem of_inbox (hahead : ahead = [] ∨ other = []) {offsets : List F} {rest : List (List F)}
    (hin : inbox = offsets :: rest) (hlen : offsets.length = s.adjust.length) :
    ahead = [] ∧ offsets = (both.drop f).map (fun p => p.2.offset) ∧
      rest.flatten = other.map Adjust.offset := by
  have hflat := h.inbox
  rw [hin, List.flatten_cons] at hflat
  rw [h.adjust, List.length_append, List.length_map] at hlen
  have hnil : ahead = [] := by
    rcases hahead with hnil | rfl
    · exact hnil
    · have := congrArg List.length hflat
      rw [List.length_append, List.length_append, List.length_map, List.map_nil, List.length_nil]
        at this
      exact List.length_eq_zero_iff.mp (by omega)
  subst hnil
  have := List.append_inj hflat (by rw [hlen, List.length_map, List.length_nil, Nat.add_zero])
  exact ⟨rfl, this⟩

/-- This side is given a message. -/
theorem recv (hahead : ahead = [] ∨ other = []) {offsets : List F} {rest : List (List F)}
    (hin : inbox = offsets :: rest) (hlen : offsets.length = s.adjust.length)
    (hsum : offsets.length = (s.queue.map Queued.count).sum) :
    M2ASide finish { s with
      queue := []
      adjust := []
      futures := serveM2a finish s.queue offsets s.adjust s.futures } asks rest both
        both.length ahead
      other := by
  obtain ⟨rfl, hoff, hrest⟩ := h.of_inbox hahead hin hlen
  have hadj := h.adjust
  rw [List.append_nil] at hadj
  have houts : offsets.zipWith (fun offset a => (finish a offset).add) s.adjust =
      (both.drop f).map fun p => (finish p.1 p.2.offset).add := by
    rw [hoff, hadj, List.zipWith_map, List.zipWith_self]
  refine ⟨h.inputs, ?_, ?_, ?_, le_rfl⟩
  · rw [List.drop_length]
    rfl
  · rw [hrest, List.drop_length]
    rfl
  · have hcount : ((both.drop f).map fun p => (finish p.1 p.2.offset).add).length =
        (s.queue.map Queued.count).sum := by
      rw [List.length_map, ← hsum, hoff, List.length_map]
    have hshare := h.answered.share hcount
    rw [← List.map_append, List.take_append_drop, ← houts] at hshare
    rwa [List.take_length, serveM2a_eq finish s.queue hlen]

end M2ASide

end M2ASide

/-! ### A2M -/

section A2MRound

variable {F : Type} [Field F]

/-- What the receiver makes of an input and a ROLE. -/
def derand (p : Adjust F) : A2MReceiverAdjust F × F :=
  (A2MReceiverDerand.new p.target p.share).offset

/-- What the sender makes of an input, a ROLE, and what the receiver has sent. -/
def derandSender (p : Adjust F × Adjust F) : A2MSenderAdjust F :=
  (A2MSenderDerand.new p.1.target p.1.share).offset (derand p.2).2

/-- The masked share. -/
def masked (p : Adjust F × Adjust F) : F :=
  p.1.target * p.1.share.mul + (derandSender p).add

/-- What the receiver ends up with. -/
def product (p : Adjust F × Adjust F) : F := (derand p.2).1.receive (masked p)

/-- What is true of A2M. The conversions `done` are finished, for `sent` the masked shares were
sent, for `taken` the sender has taken the offsets, and for `pend` these are on their way. -/
structure A2MRound (s : Conversions F (A2MSenderAdjust F)) (r : Conversions F (A2MReceiverAdjust F))
    (l : Link F) (done sent taken : List (Adjust F × Adjust F)) (pend : List (Adjust F)) :
    Prop where
  sends : (done ++ sent ++ taken).map (fun p => p.1.target) ++ s.inputs = l.sends.flatten
  recvs : (done ++ sent ++ taken).map (fun p => p.2.target) ++ pend.map Adjust.target ++ r.inputs =
    l.recvs.flatten
  toSender : l.toSender.flatten = pend.map fun p => (derand p).2
  toReceiver : l.toReceiver.flatten = sent.map masked
  senderAdjust : s.adjust = taken.map derandSender
  receiverAdjust : r.adjust =
    (sent ++ taken).map (fun p => (derand p.2).1) ++ pend.map fun p => (derand p).1
  senderAnswered : Answered l.sends s.queue s.futures ((done ++ sent).map fun p => p.1.share.mul⁻¹)
  receiverAnswered : Answered l.recvs r.queue r.futures (done.map product)
  nonzero : ∀ p ∈ done ++ sent, p.1.share.mul ≠ 0

namespace A2MRound

variable {s : Conversions F (A2MSenderAdjust F)} {r : Conversions F (A2MReceiverAdjust F)}
  {l : Link F} {done sent taken : List (Adjust F × Adjust F)} {pend : List (Adjust F)}

theorem new : A2MRound (.new : Conversions F _) .new ⟨[], [], [], []⟩ [] [] [] [] where
  sends := rfl
  recvs := rfl
  toSender := rfl
  toReceiver := rfl
  senderAdjust := rfl
  receiverAdjust := rfl
  senderAnswered := .new
  receiverAnswered := .new
  nonzero := nofun

variable (h : A2MRound s r l done sent taken pend)
include h

theorem senderPush (inputs : List F) :
    A2MRound (s.push inputs) r { l with sends := l.sends ++ [inputs] } done sent taken pend where
  sends := by
    rw [List.flatten_append, ← h.sends, List.flatten_singleton]
    exact (List.append_assoc _ _ _).symm
  recvs := h.recvs
  toSender := h.toSender
  toReceiver := h.toReceiver
  senderAdjust := h.senderAdjust
  receiverAdjust := h.receiverAdjust
  senderAnswered := h.senderAnswered.push inputs
  receiverAnswered := h.receiverAnswered
  nonzero := h.nonzero

theorem receiverPush (inputs : List F) :
    A2MRound s (r.push inputs) { l with recvs := l.recvs ++ [inputs] } done sent taken pend where
  sends := h.sends
  recvs := by
    rw [List.flatten_append, ← h.recvs, List.flatten_singleton]
    exact (List.append_assoc _ _ _).symm
  toSender := h.toSender
  toReceiver := h.toReceiver
  senderAdjust := h.senderAdjust
  receiverAdjust := h.receiverAdjust
  senderAnswered := h.senderAnswered
  receiverAnswered := h.receiverAnswered.push inputs
  nonzero := h.nonzero

/-- A receiver whose last round is over waits for nothing. -/
theorem of_adjust (hadj : r.adjust = []) : sent = [] ∧ taken = [] ∧ pend = [] := by
  have := h.receiverAdjust
  rw [hadj] at this
  obtain ⟨hmap, hpend⟩ := List.append_eq_nil_iff.mp this.symm
  obtain ⟨hsent, htaken⟩ := List.append_eq_nil_iff.mp (List.map_eq_nil_iff.mp hmap)
  exact ⟨hsent, htaken, List.map_eq_nil_iff.mp hpend⟩

/-- The receiver takes shares and sends offsets. -/
theorem receiverSend {q : List (Adjust F)} (hq : q.map Adjust.target = r.inputs) :
    A2MRound s { r with inputs := [], adjust := r.adjust ++ q.map fun p => (derand p).1 }
      { l with toSender := l.toSender ++ [q.map fun p => (derand p).2] } done sent taken
      (pend ++ q) where
  sends := h.sends
  recvs := by
    rw [← h.recvs, ← hq, List.append_nil, @List.map_append _ _ _ pend, ← List.append_assoc]
  toSender := by
    rw [List.flatten_append, h.toSender, List.flatten_singleton, List.map_append]
  toReceiver := h.toReceiver
  senderAdjust := h.senderAdjust
  receiverAdjust := by
    show r.adjust ++ _ = _
    rw [h.receiverAdjust, List.append_assoc, ← List.map_append]
  senderAnswered := h.senderAnswered
  receiverAnswered := h.receiverAnswered
  nonzero := h.nonzero

/-- The sender takes shares for the offsets that it is given. -/
theorem senderRecv {offsets : List F} {rest : List (List F)} (hto : l.toSender = offsets :: rest)
    {q : List (Adjust F)} (hq : q.map Adjust.target = s.inputs) (hlen : q.length = offsets.length) :
    A2MRound { s with
        inputs := []
        adjust := s.adjust ++
          (q.zip offsets).map fun p => (A2MSenderDerand.new p.1.target p.1.share).offset p.2 } r
      { l with toSender := rest } done sent (taken ++ q.zip pend) (pend.drop q.length) ∧
        q.length ≤ pend.length := by
  have hflat := h.toSender
  rw [hto, List.flatten_cons] at hflat
  have hle : q.length ≤ pend.length := by
    have := congrArg List.length hflat
    rw [List.length_append, List.length_map] at this
    omega
  have hsplit : offsets = (pend.take q.length).map (fun p => (derand p).2) ∧
      rest.flatten = (pend.drop q.length).map fun p => (derand p).2 := by
    refine List.append_inj ?_ ?_
    · rw [hflat, ← List.map_append, List.take_append_drop]
    · rw [List.length_map, List.length_take, min_eq_left hle, hlen]
  obtain ⟨z, hz⟩ : ∃ z, z = q.zip pend := ⟨_, rfl⟩
  have hfst : q = z.map Prod.fst := by
    rw [hz, List.map_fst_zip_take, List.take_of_length_le hle]
  have hsnd : pend = z.map Prod.snd ++ pend.drop q.length := by
    rw [hz, List.map_snd_zip_take, List.take_append_drop]
  have htake : pend.take q.length = z.map Prod.snd := by
    rw [hz, List.map_snd_zip_take]
  have hadj : (q.zip offsets).map (fun p => (A2MSenderDerand.new p.1.target p.1.share).offset p.2) =
      z.map derandSender := by
    rw [hsplit.1, htake, hfst, List.map_map, List.zip_map', List.map_map]
    rfl
  rw [← hz, hadj]
  refine ⟨⟨?_, ?_, hsplit.2, h.toReceiver, ?_, ?_, h.senderAnswered, h.receiverAnswered, h.nonzero⟩,
    hle⟩
  · rw [← h.sends, ← List.append_assoc, List.map_append, List.append_assoc, List.append_nil, ← hq,
      hfst, List.map_map]
    rfl
  · rw [← h.recvs]
    conv_rhs => rw [hsnd]
    rw [← List.append_assoc, List.map_append, @List.map_append _ _ _ (z.map Prod.snd), List.map_map,
      ← List.append_assoc (List.map _ (done ++ sent ++ taken))]
    rfl
  · show s.adjust ++ _ = _
    rw [h.senderAdjust, List.map_append]
  · rw [h.receiverAdjust]
    conv_lhs => rw [hsnd]
    rw [← List.append_assoc sent, @List.map_append _ _ _ (sent ++ taken),
      @List.map_append _ _ _ (z.map Prod.snd), List.map_map,
      ← List.append_assoc (List.map _ (sent ++ taken))]
    rfl

/-- The sender sends masked shares, and has its own. -/
theorem senderSend [DecidableEq F] (hne : ∀ a ∈ s.adjust, a.mul ≠ 0)
    (hsum : s.adjust.length = (s.queue.map Queued.count).sum) :
    s.adjust.mapM A2MSenderAdjust.send =
        some (taken.map fun p : Adjust F × Adjust F => (p.1.share.mul⁻¹, masked p)) ∧
      A2MRound ({ s with adjust := [] }.answer
          (taken.map fun p : Adjust F × Adjust F => p.1.share.mul⁻¹)) r
        { l with toReceiver := l.toReceiver ++ [taken.map masked] } done
        (sent ++ taken) [] pend := by
  have hne' : ∀ p ∈ taken, p.1.share.mul ≠ 0 := by
    intro p hp
    refine hne (derandSender p) ?_
    rw [h.senderAdjust]
    exact List.mem_map_of_mem hp
  refine ⟨?_, ?_, ?_, h.toSender, ?_, rfl, ?_, ?_, h.receiverAnswered, ?_⟩
  · rw [h.senderAdjust]
    clear h hne hsum
    induction taken with
    | nil => rfl
    | cons p taken ih =>
      have hp : (derandSender p).send = some (p.1.share.mul⁻¹, masked p) :=
        if_neg (hne' p List.mem_cons_self)
      rw [List.map_cons, List.mapM_cons, hp, ih fun p hp => hne' p (List.mem_cons_of_mem _ hp)]
      rfl
  · rw [← h.sends, List.append_nil, List.append_assoc done]
    rfl
  · rw [← h.recvs, List.append_nil, List.append_assoc done]
  · rw [List.flatten_append, h.toReceiver, List.flatten_singleton, List.map_append]
  · rw [h.receiverAdjust, List.append_nil]
  · have hlen : (taken.map fun p => p.1.share.mul⁻¹).length = (s.queue.map Queued.count).sum := by
      rw [List.length_map, ← hsum, h.senderAdjust, List.length_map]
    have hshare := h.senderAnswered.share hlen
    rw [← List.map_append, List.append_assoc] at hshare
    exact hshare
  · rw [← List.append_assoc]
    intro p hp
    rcases List.mem_append.mp hp with hp | hp
    · exact h.nonzero p hp
    · exact hne' p hp

/-- Masked shares for all that is going on are for all that was sent. -/
theorem of_toReceiver {maskedShares : List F} {rest : List (List F)}
    (hto : l.toReceiver = maskedShares :: rest) (hlen : maskedShares.length = r.adjust.length) :
    taken = [] ∧ pend = [] ∧ maskedShares = sent.map masked ∧ rest.flatten = [] := by
  have hflat := h.toReceiver
  rw [hto, List.flatten_cons] at hflat
  have hcount := congrArg List.length hflat
  rw [h.receiverAdjust, List.length_append, List.length_map, List.length_append, List.length_map]
    at hlen
  rw [List.length_append, List.length_map] at hcount
  have hrest : rest.flatten = [] := List.length_eq_zero_iff.mp (by omega)
  rw [hrest, List.append_nil] at hflat
  exact ⟨List.length_eq_zero_iff.mp (by omega), List.length_eq_zero_iff.mp (by omega), hflat, hrest⟩

/-- The receiver is given masked shares, and has its own. -/
theorem receiverRecv {maskedShares : List F} {rest : List (List F)}
    (hto : l.toReceiver = maskedShares :: rest) (hlen : maskedShares.length = r.adjust.length)
    (hsum : maskedShares.length = (r.queue.map Queued.count).sum) :
    A2MRound s ({ r with adjust := [] }.answer
        (r.adjust.zipWith A2MReceiverAdjust.receive maskedShares))
      { l with toReceiver := rest } (done ++ sent) [] [] [] := by
  obtain ⟨rfl, rfl, hmasked, hrest⟩ := h.of_toReceiver hto hlen
  have hadj := h.receiverAdjust
  rw [List.append_nil, List.map_nil, List.append_nil] at hadj
  have houts : r.adjust.zipWith A2MReceiverAdjust.receive maskedShares = sent.map product := by
    rw [hadj, hmasked, List.zipWith_map, List.zipWith_self]
    rfl
  refine ⟨?_, ?_, h.toSender, hrest, h.senderAdjust, rfl, ?_, ?_, ?_⟩
  · rw [← h.sends, List.append_nil]
  · rw [← h.recvs, List.append_nil]
    rfl
  · rw [List.append_nil]
    exact h.senderAnswered
  · have hcount : (sent.map product).length = (r.queue.map Queued.count).sum := by
      rw [List.length_map, ← hsum, hmasked, List.length_map]
    have hshare := h.receiverAnswered.share hcount
    rw [← List.map_append, ← houts] at hshare
    exact hshare
  · rw [List.append_nil]
    exact h.nonzero

end A2MRound

end A2MRound

/-! ### The ROLEs -/

section Aligned

variable {S R F E E' : Type} [Field F] [ROLESender S F E] [ROLEReceiver R F E']
  {Refill : S × R → S × R → Prop}

/-- The sender has taken shares for the M2A conversions `sAhead` that the receiver has not, or the
receiver has for the M2A conversions `rAhead` and then the A2M conversions `pend`. -/
def Aligned (c : CorrectROLE S R Refill) (s : S) (r : R) (sAhead rAhead pend : List (Adjust F)) :
    Prop :=
  ∃ ss rs, c.Rel ss rs s r ∧ ss.drop rs.length = sAhead.map Adjust.share ∧
    rs.drop ss.length = rAhead.map Adjust.share ++ pend.map Adjust.share

omit [Field F] in
/-- A side that is not ahead takes from what the other side is ahead by. -/
theorem drop_catch_up {ss rs o : List (OLEShare F)} (h : ss.drop rs.length = []) :
    (ss ++ o).drop rs.length = o.drop (rs.drop ss.length).length ∧
      rs.drop (ss ++ o).length = (rs.drop ss.length).drop o.length := by
  refine ⟨?_, ?_⟩
  · rw [List.drop_append, h, List.nil_append, List.length_drop]
  · rw [List.drop_drop, List.length_append]

theorem correlated_zip {l m : List (Adjust F)} {t : List (OLEShare F)}
    (h : CorrelatedShares (l.map Adjust.share) (m.map Adjust.share ++ t)) {p : Adjust F × Adjust F}
    (hp : p ∈ l.zip m) : p.1.share.Correlated p.2.share := by
  obtain ⟨i, hi⟩ := List.mem_iff_getElem?.mp hp
  obtain ⟨hl, hm⟩ := List.getElem?_zip_eq_some.mp hi
  refine h i _ _ ?_ ?_
  · rw [List.getElem?_map, hl]
    rfl
  · have hlt := (List.getElem?_eq_some_iff.mp hm).1
    rw [List.getElem?_append_left (by rwa [List.length_map]), List.getElem?_map, hm]
    rfl

namespace Aligned

variable {c : CorrectROLE S R Refill} {s : S} {r : R} {sAhead rAhead pend : List (Adjust F)}

variable (h : Aligned c s r sAhead rAhead pend)
include h

theorem ahead : sAhead = [] ∨ rAhead = [] ∧ pend = [] := by
  obtain ⟨ss, rs, -, hs, hr⟩ := h
  rcases le_total ss.length rs.length with hle | hle
  · rw [List.drop_eq_nil_of_le hle] at hs
    exact .inl (List.map_eq_nil_iff.mp hs.symm)
  · rw [List.drop_eq_nil_of_le hle] at hr
    obtain ⟨hr, hp⟩ := List.append_eq_nil_iff.mp hr.symm
    exact .inr ⟨List.map_eq_nil_iff.mp hr, List.map_eq_nil_iff.mp hp⟩

theorem ahead' : sAhead = [] ∨ rAhead = [] := h.ahead.imp_right And.left

/-- The sender takes shares for M2A. -/
theorem senderM2a (hs : sAhead = []) {n : ℕ} (hn : n ≤ ROLESender.available s)
    (hcare : pend = [] ∨ n ≤ rAhead.length) :
    ∃ o s', ROLESender.trySendRole n s = (.ok o, s') ∧ o.shares.length = n ∧
      ∀ l : List (Adjust F), l.map Adjust.share = o.shares →
        Aligned c s' r (l.drop rAhead.length) (rAhead.drop l.length) pend ∧
          ∀ p ∈ l.zip rAhead, p.1.share.Correlated p.2.share := by
  obtain ⟨ss, rs, hrel, hss, hrs⟩ := h
  subst hs
  obtain ⟨o, s', hrun, hlen, hrel'⟩ := c.send hrel hn
  refine ⟨o, s', hrun, hlen, fun l hl => ⟨⟨ss ++ o.shares, rs, hrel', ?_, ?_⟩, fun p hp => ?_⟩⟩
  · rw [(drop_catch_up hss).1, hrs, ← hl, ← List.map_drop, ← List.map_append, List.length_map,
      List.length_append]
    rcases hcare with rfl | hle
    · rfl
    · have : l.length = n := by rw [← hlen, ← hl, List.length_map]
      rw [List.drop_eq_nil_of_le (by omega), List.drop_eq_nil_of_le (by omega)]
  · rw [(drop_catch_up hss).2, hrs, ← hl, List.length_map, List.drop_append, ← List.map_drop]
    rcases hcare with rfl | hle
    · rw [List.map_nil, List.drop_nil]
    · have : l.length = n := by rw [← hlen, ← hl, List.length_map]
      rw [List.length_map, Nat.sub_eq_zero_of_le (by omega), List.drop_zero]
  · have hcorr := (c.correlated hrel').right
    rw [hrs, ← hl] at hcorr
    exact correlated_zip hcorr hp

/-- The receiver takes shares for M2A. -/
theorem receiverM2a (hr : rAhead = []) (hp : pend = []) {n : ℕ}
    (hn : n ≤ ROLEReceiver.available r) :
    ∃ o r', ROLEReceiver.tryRecvRole n r = (.ok o, r') ∧ o.shares.length = n ∧
      ∀ l : List (Adjust F), l.map Adjust.share = o.shares →
        Aligned c s r' (sAhead.drop l.length) (l.drop sAhead.length) [] ∧
          ∀ p ∈ sAhead.zip l, p.1.share.Correlated p.2.share := by
  obtain ⟨ss, rs, hrel, hss, hrs⟩ := h
  subst hr hp
  obtain ⟨o, r', hrun, hlen, hrel'⟩ := c.recv hrel hn
  refine ⟨o, r', hrun, hlen, fun l hl => ⟨⟨ss, rs ++ o.shares, hrel', ?_, ?_⟩, fun p hp => ?_⟩⟩
  · rw [(drop_catch_up hrs).2, hss, ← hl, List.length_map, List.map_drop]
  · rw [(drop_catch_up hrs).1, hss, ← hl, List.length_map, List.map_drop, List.map_nil,
      List.append_nil]
  · have hcorr := (c.correlated hrel').left
    rw [hss, ← hl, ← List.append_nil (l.map _)] at hcorr
    exact correlated_zip hcorr hp

/-- The receiver takes shares for A2M, or none. -/
theorem receiverA2m {n : ℕ} (hs : n = 0 ∨ sAhead = []) (hn : n ≤ ROLEReceiver.available r) :
    ∃ o r', ROLEReceiver.tryRecvRole n r = (.ok o, r') ∧ o.shares.length = n ∧
      ∀ l : List (Adjust F), l.map Adjust.share = o.shares →
        Aligned c s r' sAhead rAhead (pend ++ l) := by
  obtain ⟨ss, rs, hrel, hss, hrs⟩ := h
  obtain ⟨o, r', hrun, hlen, hrel'⟩ := c.recv hrel hn
  refine ⟨o, r', hrun, hlen, fun l hl => ⟨ss, rs ++ o.shares, hrel', ?_, ?_⟩⟩
  all_goals rcases hs with rfl | rfl
  · rw [List.length_eq_zero_iff.mp hlen, List.append_nil, hss]
  · have hle : ss.length ≤ rs.length := List.drop_eq_nil_iff.mp hss
    rw [List.length_append, List.drop_eq_nil_of_le (hle.trans (Nat.le_add_right _ _))]
    rfl
  · rw [List.length_eq_zero_iff.mp hlen] at hl ⊢
    rw [List.map_eq_nil_iff.mp hl, List.append_nil, List.append_nil, hrs]
  · have hle : ss.length ≤ rs.length := List.drop_eq_nil_iff.mp hss
    rw [List.drop_append_of_le_length hle, hrs, ← hl, List.map_append, List.append_assoc]

/-- The sender takes shares for A2M, or none. -/
theorem senderA2m (hs : sAhead = []) {n : ℕ} (hr : n = 0 ∨ rAhead = [])
    (hn : n ≤ ROLESender.available s) :
    ∃ o s', ROLESender.trySendRole n s = (.ok o, s') ∧ o.shares.length = n ∧
      ∀ l : List (Adjust F), l.map Adjust.share = o.shares → l.length ≤ pend.length →
        Aligned c s' r [] rAhead (pend.drop l.length) ∧
          ∀ p ∈ l.zip pend, p.1.share.Correlated p.2.share := by
  obtain ⟨ss, rs, hrel, hss, hrs⟩ := h
  subst hs
  obtain ⟨o, s', hrun, hlen, hrel'⟩ := c.send hrel hn
  rcases hr with rfl | rfl
  · rw [List.length_eq_zero_iff.mp hlen, List.append_nil] at hrel'
    refine ⟨o, s', hrun, hlen, fun l hl _ => ?_⟩
    rw [List.length_eq_zero_iff.mp hlen, List.map_eq_nil_iff] at hl
    rw [hl]
    exact ⟨⟨ss, rs, hrel', hss, hrs⟩, nofun⟩
  refine ⟨o, s', hrun, hlen, fun l hl hle =>
    ⟨⟨ss ++ o.shares, rs, hrel', ?_, ?_⟩, fun p hp => ?_⟩⟩
  · rw [(drop_catch_up hss).1, hrs, ← hl, List.map_nil, List.nil_append, List.length_map,
      ← List.map_drop, List.drop_eq_nil_of_le hle]
    rfl
  · rw [(drop_catch_up hss).2, hrs, ← hl, List.length_map, List.map_nil, List.nil_append,
      List.map_drop]
    rfl
  · have hcorr := (c.correlated hrel').right
    rw [hrs, ← hl, List.map_nil, List.nil_append, ← List.append_nil (pend.map _)] at hcorr
    exact correlated_zip hcorr hp

end Aligned

end Aligned

/-! ### The steps -/

/-- Inputs with shares for them. -/
def adjusts {F : Type} [CommRing F] (inputs : List F) (shares : List (OLEShare F)) :
    List (Adjust F) := (inputs.zip shares).map fun p => p.2.adjust p.1

section

variable {F : Type} [CommRing F] {inputs : List F} {shares : List (OLEShare F)}

theorem map_target_adjusts (h : shares.length = inputs.length) :
    (adjusts inputs shares).map Adjust.target = inputs := by
  rw [adjusts, List.map_map]
  exact List.map_fst_zip h.ge

theorem map_share_adjusts (h : shares.length = inputs.length) :
    (adjusts inputs shares).map Adjust.share = shares := by
  rw [adjusts, List.map_map]
  exact List.map_snd_zip h.le

theorem length_adjusts (h : shares.length = inputs.length) :
    (adjusts inputs shares).length = inputs.length := by
  rw [← List.length_map Adjust.target, map_target_adjusts h]

end

section

variable {S R F E E' : Type} [Field F] [ROLESender S F E] [ROLEReceiver R F E']

omit [ROLESender S F E] in
theorem Receiver.sendA2m_eq (r : Receiver R F) {o : ROLEOutput F} {role : R}
    (h : ROLEReceiver.tryRecvRole r.a2m.inputs.length r.role = (.ok o, role)) :
    Receiver.sendA2m r = (.ok ((adjusts r.a2m.inputs o.shares).map fun p => (derand p).2), { r with
      role := role
      a2m := { r.a2m with
        inputs := []
        adjust := r.a2m.adjust ++
          (adjusts r.a2m.inputs o.shares).map fun p => (derand p).1 } }) := by
  have hrun : Receiver.tryRecvRole r.a2m.inputs.length r = (.ok o, { r with role := role }) :=
    Method.zoom_eq_ok.mpr ⟨role, h, rfl⟩
  rw [Receiver.sendA2m, Method.get_bind, Method.bind_apply_of_ok hrun]
  simp only [adjusts, List.map_map]
  rfl

omit [ROLESender S F E] in
theorem Receiver.sendM2a_eq (r : Receiver R F) {o : ROLEOutput F} {role : R}
    (h : ROLEReceiver.tryRecvRole r.m2a.inputs.length r.role = (.ok o, role)) :
    Receiver.sendM2a r = (.ok ((adjusts r.m2a.inputs o.shares).map Adjust.offset), { r with
      role := role
      m2a := { r.m2a with
        inputs := []
        adjust := r.m2a.adjust ++ adjusts r.m2a.inputs o.shares } }) := by
  have hrun : Receiver.tryRecvRole r.m2a.inputs.length r = (.ok o, { r with role := role }) :=
    Method.zoom_eq_ok.mpr ⟨role, h, rfl⟩
  rw [Receiver.sendM2a, Method.get_bind, Method.bind_apply_of_ok hrun]
  rfl

omit [ROLEReceiver R F E'] in
theorem Sender.sendM2a_eq (s : Sender S F) {o : ROLEOutput F} {role : S}
    (h : ROLESender.trySendRole s.m2a.inputs.length s.role = (.ok o, role)) :
    Sender.sendM2a s = (.ok ((adjusts s.m2a.inputs o.shares).map Adjust.offset), { s with
      role := role
      m2a := { s.m2a with
        inputs := []
        adjust := s.m2a.adjust ++ adjusts s.m2a.inputs o.shares } }) := by
  have hrun : Sender.trySendRole s.m2a.inputs.length s = (.ok o, { s with role := role }) :=
    Method.zoom_eq_ok.mpr ⟨role, h, rfl⟩
  rw [Sender.sendM2a, Method.get_bind, Method.bind_apply_of_ok hrun]
  rfl

omit [ROLEReceiver R F E'] in
theorem Sender.recvA2m_eq (s : Sender S F) {o : ROLEOutput F} {role : S} {offsets : List F}
    (hlen : s.a2m.inputs.length = offsets.length)
    (h : ROLESender.trySendRole s.a2m.inputs.length s.role = (.ok o, role)) :
    Sender.recvA2m offsets s = (.ok (), { s with
      role := role
      a2m := { s.a2m with
        inputs := []
        adjust := s.a2m.adjust ++ ((adjusts s.a2m.inputs o.shares).zip offsets).map fun p =>
          (A2MSenderDerand.new p.1.target p.1.share).offset p.2 } }) := by
  have hrun : Sender.trySendRole s.a2m.inputs.length s = (.ok o, { s with role := role }) :=
    Method.zoom_eq_ok.mpr ⟨role, h, rfl⟩
  rw [Sender.recvA2m, Method.get_bind, if_neg (not_not.mpr hlen), Method.bind_apply_of_ok hrun]
  simp only [adjusts, List.zip_map_left, List.map_map]
  rfl

end

section

variable {S R F E E' : Type} [Field F]

theorem Sender.sendA2m_eq [DecidableEq F] (s : Sender S F) {sent : List (F × F)}
    (h : s.a2m.adjust.mapM A2MSenderAdjust.send = some sent) :
    (Sender.sendA2m : Method (Sender S F) (Error E) (List F)) s = (.ok (sent.map Prod.snd),
      { s with a2m := { s.a2m with adjust := [] }.answer (sent.map Prod.fst) }) := by
  rw [Sender.sendA2m, Method.get_bind, Method.modify_bind, h]
  rfl

theorem Sender.recvM2a_eq (s : Sender S F) {offsets : List F}
    (hlen : offsets.length = s.m2a.adjust.length) :
    (Sender.recvM2a offsets : Method (Sender S F) (Error E) Unit) s = (.ok (), { s with
      m2a := { s.m2a with
        queue := []
        adjust := []
        futures :=
          serveM2a Adjust.senderFinish s.m2a.queue offsets s.m2a.adjust s.m2a.futures } }) := by
  rw [Sender.recvM2a, Method.get_bind, if_neg (not_not.mpr hlen)]
  rfl

theorem Receiver.recvM2a_eq (r : Receiver R F) {offsets : List F}
    (hlen : offsets.length = r.m2a.adjust.length) :
    (Receiver.recvM2a offsets : Method (Receiver R F) (Error E') Unit) r = (.ok (), { r with
      m2a := { r.m2a with
        queue := []
        adjust := []
        futures :=
          serveM2a Adjust.receiverFinish r.m2a.queue offsets r.m2a.adjust r.m2a.futures } }) := by
  rw [Receiver.recvM2a, Method.get_bind, if_neg (not_not.mpr hlen)]
  rfl

theorem Receiver.recvA2m_eq (r : Receiver R F) {maskedShares : List F}
    (hlen : maskedShares.length = r.a2m.adjust.length) :
    (Receiver.recvA2m maskedShares : Method (Receiver R F) (Error E') Unit) r = (.ok (), { r with
      a2m := { r.a2m with adjust := [] }.answer
        (r.a2m.adjust.zipWith A2MReceiverAdjust.receive maskedShares) }) := by
  rw [Receiver.recvA2m, Method.get_bind, if_neg (not_not.mpr hlen)]
  rfl

end

/-! ### The invariant -/

section Inv

variable {S R F E E' : Type} [Field F] [ROLESender S F E] [ROLEReceiver R F E']
  {Refill : S × R → S × R → Prop}

/-- How far the conversions have come: those of A2M that are finished, whose masked shares were
sent, whose offsets the sender has taken, and whose offsets are on their way, and those of M2A that
both sides have begun, that one side has begun, and how many a side has finished. -/
structure Stage (F : Type) where
  done : List (Adjust F × Adjust F)
  sent : List (Adjust F × Adjust F)
  taken : List (Adjust F × Adjust F)
  pend : List (Adjust F)
  both : List (Adjust F × Adjust F)
  sAhead : List (Adjust F)
  rAhead : List (Adjust F)
  fs : ℕ
  fr : ℕ

/-- Every conversion works on correlated shares, and every request gets those of its own inputs. -/
structure Inv (c : CorrectROLE S R Refill) (w : World S R F) (g : Stage F) : Prop where
  a2m : A2MRound w.sender.a2m w.receiver.a2m w.a2m g.done g.sent g.taken g.pend
  sender : M2ASide Adjust.senderFinish w.sender.m2a w.m2a.sends w.m2a.toSender g.both g.fs g.sAhead
    g.rAhead
  receiver : M2ASide Adjust.receiverFinish w.receiver.m2a w.m2a.recvs w.m2a.toReceiver
    (g.both.map Prod.swap) g.fr g.rAhead g.sAhead
  role : Aligned c w.sender.role w.receiver.role g.sAhead g.rAhead g.pend
  correlated : ∀ p ∈ g.done ++ g.sent ++ g.taken ++ g.both, p.1.share.Correlated p.2.share
  a2mMirrored : Mirrored w.a2m.sends w.a2m.recvs
  m2aMirrored : Mirrored w.m2a.sends w.m2a.recvs

variable [DecidableEq F]

/-- What a step leads to. -/
def Leads (c : CorrectROLE S R Refill) (w : World S R F) (a : Act S R F) : Prop :=
  ∃ w', (a.run : Method (World S R F) (Error E ⊕ Error E') Unit) w = (.ok (), w') ∧ ∃ g, Inv c w' g

omit [Field F] [ROLESender S F E] [ROLEReceiver R F E'] [DecidableEq F] in
theorem onSender_ok {α : Type} {m : Method (Sender S F) (Error E) α} {w : World S R F} {x : α}
    {s : Sender S F} (h : m w.sender = (.ok x, s)) :
    (onSender m : Method (World S R F) (Error E ⊕ Error E') α) w =
      (.ok x, { w with sender := s }) := Method.zoom_eq_ok.mpr ⟨s, h, rfl⟩

omit [Field F] [ROLESender S F E] [ROLEReceiver R F E'] [DecidableEq F] in
theorem onReceiver_ok {α : Type} {m : Method (Receiver R F) (Error E') α} {w : World S R F} {x : α}
    {r : Receiver R F} (h : m w.receiver = (.ok x, r)) :
    (onReceiver m : Method (World S R F) (Error E ⊕ Error E') α) w =
      (.ok x, { w with receiver := r }) := Method.zoom_eq_ok.mpr ⟨r, h, rfl⟩

namespace Inv

variable {c : CorrectROLE S R Refill} {w : World S R F} {g : Stage F}

omit [DecidableEq F] in
theorem new {s : S} {r : R} (h : c.Rel [] [] s r) :
    Inv c ⟨.new s, .new r, ⟨[], [], [], []⟩, ⟨[], [], [], []⟩⟩ ⟨[], [], [], [], [], [], [], 0,
      0⟩ where
  a2m := .new
  sender := .new
  receiver := .new
  role := ⟨[], [], h, rfl, rfl⟩
  correlated := nofun
  a2mMirrored := nofun
  m2aMirrored := nofun

variable (h : Inv c w g)
include h

theorem senderQueueA2m {inputs : List F} (hen : (Act.senderQueueA2m inputs).Enabled Refill w) :
    Leads c w (.senderQueueA2m inputs) :=
  ⟨_, rfl, g, h.a2m.senderPush inputs, h.sender, h.receiver, h.role, h.correlated,
    h.a2mMirrored.push hen, h.m2aMirrored⟩

theorem receiverQueueA2m {inputs : List F} (hen : (Act.receiverQueueA2m inputs).Enabled Refill w) :
    Leads c w (.receiverQueueA2m inputs) :=
  ⟨_, rfl, g, h.a2m.receiverPush inputs, h.sender, h.receiver, h.role, h.correlated,
    (h.a2mMirrored.symm.push fun b hb => (hen b hb).symm).symm, h.m2aMirrored⟩

theorem senderQueueM2a {inputs : List F} (hen : (Act.senderQueueM2a inputs).Enabled Refill w) :
    Leads c w (.senderQueueM2a inputs) :=
  ⟨_, rfl, g, h.a2m, h.sender.push inputs, h.receiver, h.role, h.correlated, h.a2mMirrored,
    h.m2aMirrored.push hen⟩

theorem receiverQueueM2a {inputs : List F} (hen : (Act.receiverQueueM2a inputs).Enabled Refill w) :
    Leads c w (.receiverQueueM2a inputs) :=
  ⟨_, rfl, g, h.a2m, h.sender, h.receiver.push inputs, h.role, h.correlated, h.a2mMirrored,
    (h.m2aMirrored.symm.push fun b hb => (hen b hb).symm).symm⟩

theorem refill {s : S} {r : R} (hen : (Act.refill s r).Enabled Refill w) :
    Leads c w (.refill s r) := by
  obtain ⟨ss, rs, hrel, hs, hr⟩ := h.role
  exact ⟨_, rfl, g, h.a2m, h.sender, h.receiver, ⟨ss, rs, c.refill hrel hen, hs, hr⟩, h.correlated,
    h.a2mMirrored, h.m2aMirrored⟩

theorem receiverSendA2m (hen : Act.receiverSendA2m.Enabled Refill w)
    (hcare : Act.receiverSendA2m.Careful w) : ∃ (o : ROLEOutput F) (r' : R) (w' : World S R F),
      o.shares.length = w.receiver.a2m.inputs.length ∧
      w' = { w with
        receiver := { w.receiver with
          role := r'
          a2m := { w.receiver.a2m with
            inputs := []
            adjust := w.receiver.a2m.adjust ++
              (adjusts w.receiver.a2m.inputs o.shares).map fun p => (derand p).1 } }
        a2m := { w.a2m with toSender := w.a2m.toSender ++
          [(adjusts w.receiver.a2m.inputs o.shares).map fun p => (derand p).2] } } ∧
      (Act.receiverSendA2m.run : Method (World S R F) (Error E ⊕ Error E') Unit) w = (.ok (), w') ∧
      Inv c w' { g with pend := g.pend ++ adjusts w.receiver.a2m.inputs o.shares } := by
  obtain ⟨hadj, hav⟩ := hen
  -- the sender has not taken shares for M2A that the receiver has yet to take
  have hs : w.receiver.a2m.inputs.length = 0 ∨ g.sAhead = [] := by
    rcases (show _ ∨ _ from hcare) with hempty | hcare
    · exact .inl (List.length_eq_zero_iff.mpr hempty)
    · rcases h.role.ahead' with hs | hr
      · exact .inr hs
      · rw [h.receiver.inbox, h.receiver.adjust, hr, List.append_nil, List.length_append,
          List.length_map, List.length_map, List.length_map] at hcare
        exact .inr (List.length_eq_zero_iff.mp (by omega))
  obtain ⟨o, r', hrun, hlen, hrole⟩ := h.role.receiverA2m hs hav
  refine ⟨o, r', _, hlen, rfl, ?_, ?_⟩
  · rw [Act.run, Method.bind_apply_of_ok (onReceiver_ok (w.receiver.sendA2m_eq hrun))]
    rfl
  · refine ⟨h.a2m.receiverSend (map_target_adjusts hlen), h.sender, h.receiver, ?_, h.correlated,
      h.a2mMirrored, h.m2aMirrored⟩
    exact hrole _ (map_share_adjusts hlen)

theorem senderRecvA2m (hen : Act.senderRecvA2m.Enabled Refill w)
    (hcare : Act.senderRecvA2m.Careful w) : ∃ (o : ROLEOutput F) (s' : S) (w' : World S R F)
      (offsets : List F), o.shares.length = w.sender.a2m.inputs.length ∧
      w' = { w with
        sender := { w.sender with
          role := s'
          a2m := { w.sender.a2m with
            inputs := []
            adjust := w.sender.a2m.adjust ++
              ((adjusts w.sender.a2m.inputs o.shares).zip offsets).map fun p =>
                (A2MSenderDerand.new p.1.target p.1.share).offset p.2 } }
        a2m := { w.a2m with toSender := w.a2m.toSender.tail } } ∧
      (Act.senderRecvA2m.run : Method (World S R F) (Error E ⊕ Error E') Unit) w = (.ok (), w') ∧
      Inv c w' { g with
        taken := g.taken ++ (adjusts w.sender.a2m.inputs o.shares).zip g.pend
        pend := g.pend.drop w.sender.a2m.inputs.length } := by
  obtain ⟨hne, hadj, hav⟩ := hen
  obtain ⟨hm2a, hlens⟩ := hcare
  obtain ⟨offsets, rest, hto⟩ := List.exists_cons_of_ne_nil hne
  have hoff : w.sender.a2m.inputs.length = offsets.length := hlens offsets (by rw [hto]; rfl)
  obtain ⟨hs, -⟩ := h.sender.of_adjust hadj
  -- nor has the receiver taken shares for M2A that the sender has yet to take
  have hr : w.sender.a2m.inputs.length = 0 ∨ g.rAhead = [] := by
    refine hm2a.imp List.length_eq_zero_iff.mpr fun hempty => ?_
    have hin := h.sender.inbox
    rw [hempty] at hin
    exact List.map_eq_nil_iff.mp (List.append_eq_nil_iff.mp hin.symm).2
  obtain ⟨o, s', hrun, hlen, hrole⟩ := h.role.senderA2m hs hr hav
  have hcount := length_adjusts hlen
  obtain ⟨ha2m, hle⟩ := h.a2m.senderRecv hto (map_target_adjusts hlen) (hcount.trans hoff)
  obtain ⟨halign, hcorr⟩ := hrole _ (map_share_adjusts hlen) hle
  rw [hcount] at ha2m halign
  refine ⟨o, s', _, offsets, hlen, rfl, ?_, ?_⟩
  · rw [Act.run, Method.get_bind, Method.modify_bind]
    rw [hto]
    exact onSender_ok (w := { w with a2m := { w.a2m with toSender := rest } })
      (w.sender.recvA2m_eq hoff hrun)
  · refine ⟨?_, h.sender, h.receiver, ?_, ?_, h.a2mMirrored, h.m2aMirrored⟩
    · rw [hto]
      exact ha2m
    · show Aligned c s' w.receiver.role g.sAhead g.rAhead _
      rw [hs]
      exact halign
    · intro p hp
      simp only [List.mem_append] at hp
      have hold := h.correlated p
      simp only [List.mem_append] at hold
      rcases hp with (hp | hp | hp) | hp
      · exact hold (.inl (.inl hp))
      · exact hold (.inl (.inr hp))
      · exact hcorr p hp
      · exact hold (.inr hp)

theorem senderSendA2m (hen : Act.senderSendA2m.Enabled Refill w)
    (hcare : Act.senderSendA2m.Careful w) : ∃ w' : World S R F,
      w' = { w with
        sender := { w.sender with
          a2m := { w.sender.a2m with adjust := [] }.answer
            (g.taken.map fun p : Adjust F × Adjust F => p.1.share.mul⁻¹) }
        a2m := { w.a2m with toReceiver := w.a2m.toReceiver ++ [g.taken.map masked] } } ∧
      (Act.senderSendA2m.run : Method (World S R F) (Error E ⊕ Error E') Unit) w = (.ok (), w') ∧
      Inv c w' { g with sent := g.sent ++ g.taken, taken := [] } := by
  obtain ⟨hsent, ha2m⟩ := h.a2m.senderSend hen hcare
  have hrun := w.sender.sendA2m_eq (E := E) hsent
  rw [List.map_map, List.map_map] at hrun
  refine ⟨_, rfl, ?_, ha2m, h.sender, h.receiver, h.role, ?_, h.a2mMirrored, h.m2aMirrored⟩
  · rw [Act.run, Method.bind_apply_of_ok (onSender_ok hrun)]
    rfl
  · show ∀ p ∈ g.done ++ (g.sent ++ g.taken) ++ [] ++ g.both, _
    rw [List.append_nil, ← List.append_assoc]
    exact h.correlated

theorem receiverRecvA2m (hen : Act.receiverRecvA2m.Enabled Refill w)
    (hcare : Act.receiverRecvA2m.Careful w) : ∃ (w' : World S R F) (maskedShares : List F),
      w' = { w with
        receiver := { w.receiver with
          a2m := { w.receiver.a2m with adjust := [] }.answer
            (w.receiver.a2m.adjust.zipWith A2MReceiverAdjust.receive maskedShares) }
        a2m := { w.a2m with toReceiver := w.a2m.toReceiver.tail } } ∧
      (Act.receiverRecvA2m.run : Method (World S R F) (Error E ⊕ Error E') Unit) w = (.ok (), w') ∧
      Inv c w' { g with done := g.done ++ g.sent, sent := [], taken := [], pend := [] } := by
  obtain ⟨maskedShares, rest, hto⟩ := List.exists_cons_of_ne_nil hen
  obtain ⟨hlen, hsum⟩ := hcare maskedShares (by rw [hto]; rfl)
  obtain ⟨htaken, hpend, -, -⟩ := h.a2m.of_toReceiver hto hlen
  have ha2m := h.a2m.receiverRecv hto hlen hsum
  refine ⟨_, maskedShares, rfl, ?_, ?_, h.sender, h.receiver, ?_, ?_, h.a2mMirrored, h.m2aMirrored⟩
  · rw [Act.run, Method.get_bind, Method.modify_bind]
    rw [hto]
    exact onReceiver_ok (w := { w with a2m := { w.a2m with toReceiver := rest } })
      (w.receiver.recvA2m_eq hlen)
  · rw [hto]
    exact ha2m
  · have hrole := h.role
    rw [hpend] at hrole
    exact hrole
  · have hcorr := h.correlated
    rw [htaken] at hcorr
    show ∀ p ∈ g.done ++ g.sent ++ [] ++ [] ++ g.both, _
    rwa [List.append_nil]

theorem senderSendM2a (hen : Act.senderSendM2a.Enabled Refill w)
    (hcare : Act.senderSendM2a.Careful w) : ∃ (o : ROLEOutput F) (s' : S) (w' : World S R F),
      o.shares.length = w.sender.m2a.inputs.length ∧
      w' = { w with
        sender := { w.sender with
          role := s'
          m2a := { w.sender.m2a with
            inputs := []
            adjust := w.sender.m2a.adjust ++ adjusts w.sender.m2a.inputs o.shares } }
        m2a := { w.m2a with toReceiver := w.m2a.toReceiver ++
          [(adjusts w.sender.m2a.inputs o.shares).map Adjust.offset] } } ∧
      (Act.senderSendM2a.run : Method (World S R F) (Error E ⊕ Error E') Unit) w = (.ok (), w') ∧
      Inv c w' { g with
        both := g.both ++ (adjusts w.sender.m2a.inputs o.shares).zip g.rAhead
        sAhead := (adjusts w.sender.m2a.inputs o.shares).drop g.rAhead.length
        rAhead := g.rAhead.drop (adjusts w.sender.m2a.inputs o.shares).length } := by
  obtain ⟨hadj, hav⟩ := hen
  obtain ⟨hs, hfs⟩ := h.sender.of_adjust hadj
  -- either the receiver has taken no shares for A2M, or the sender takes those before them
  have hcare' : g.pend = [] ∨ w.sender.m2a.inputs.length ≤ g.rAhead.length := by
    refine Or.imp ?_ ?_ (show _ ∨ _ from hcare)
    · intro hto
      rw [h.a2m.toSender] at hto
      exact List.map_eq_nil_iff.mp hto
    · intro hle
      rwa [h.sender.inbox, hfs, List.drop_length, List.map_nil, List.nil_append, List.length_map]
        at hle
  obtain ⟨o, s', hrun, hlen, hrole⟩ := h.role.senderM2a hs hav hcare'
  obtain ⟨halign, hcorr⟩ := hrole _ (map_share_adjusts hlen)
  refine ⟨o, s', _, hlen, rfl, ?_, h.a2m, h.sender.send hadj (map_target_adjusts hlen), ?_, halign,
    ?_, h.a2mMirrored, h.m2aMirrored⟩
  · rw [Act.run, Method.bind_apply_of_ok (onSender_ok (w.sender.sendM2a_eq hrun))]
    rfl
  · rw [List.map_append, List.zip_swap]
    exact h.receiver.otherSend hs _
  · intro p hp
    rw [← List.append_assoc] at hp
    rcases List.mem_append.mp hp with hp | hp
    · exact h.correlated p hp
    · exact hcorr p hp

theorem receiverSendM2a (hen : Act.receiverSendM2a.Enabled Refill w) :
    ∃ (o : ROLEOutput F) (r' : R) (w' : World S R F),
      o.shares.length = w.receiver.m2a.inputs.length ∧
      w' = { w with
        receiver := { w.receiver with
          role := r'
          m2a := { w.receiver.m2a with
            inputs := []
            adjust := w.receiver.m2a.adjust ++ adjusts w.receiver.m2a.inputs o.shares } }
        m2a := { w.m2a with toSender := w.m2a.toSender ++
          [(adjusts w.receiver.m2a.inputs o.shares).map Adjust.offset] } } ∧
      (Act.receiverSendM2a.run : Method (World S R F) (Error E ⊕ Error E') Unit) w = (.ok (), w') ∧
      Inv c w' { g with
        both := g.both ++ g.sAhead.zip (adjusts w.receiver.m2a.inputs o.shares)
        sAhead := g.sAhead.drop (adjusts w.receiver.m2a.inputs o.shares).length
        rAhead := (adjusts w.receiver.m2a.inputs o.shares).drop g.sAhead.length } := by
  obtain ⟨hadj, hadj', hav⟩ := hen
  obtain ⟨hr, -⟩ := h.receiver.of_adjust hadj
  obtain ⟨-, -, hp⟩ := h.a2m.of_adjust hadj'
  obtain ⟨o, r', hrun, hlen, hrole⟩ := h.role.receiverM2a hr hp hav
  obtain ⟨halign, hcorr⟩ := hrole _ (map_share_adjusts hlen)
  refine ⟨o, r', _, hlen, rfl, ?_, h.a2m, h.sender.otherSend hr _, ?_, ?_, ?_, h.a2mMirrored,
    h.m2aMirrored⟩
  · rw [Act.run, Method.bind_apply_of_ok (onReceiver_ok (w.receiver.sendM2a_eq hrun))]
    rfl
  · rw [List.map_append, List.zip_swap]
    exact h.receiver.send hadj (map_target_adjusts hlen)
  · rw [hp]
    exact halign
  · intro p hp
    rw [← List.append_assoc] at hp
    rcases List.mem_append.mp hp with hp | hp
    · exact h.correlated p hp
    · exact hcorr p hp

theorem senderRecvM2a (hen : Act.senderRecvM2a.Enabled Refill w)
    (hcare : Act.senderRecvM2a.Careful w) : ∃ (w' : World S R F) (offsets : List F),
      w' = { w with
        sender := { w.sender with
          m2a := { w.sender.m2a with
            queue := []
            adjust := []
            futures := serveM2a Adjust.senderFinish w.sender.m2a.queue offsets w.sender.m2a.adjust
              w.sender.m2a.futures } }
        m2a := { w.m2a with toSender := w.m2a.toSender.tail } } ∧
      (Act.senderRecvM2a.run : Method (World S R F) (Error E ⊕ Error E') Unit) w = (.ok (), w') ∧
      Inv c w' { g with fs := g.both.length } := by
  obtain ⟨offsets, rest, hto⟩ := List.exists_cons_of_ne_nil hen
  obtain ⟨hlen, hsum⟩ := hcare offsets (by rw [hto]; rfl)
  refine ⟨_, offsets, rfl, ?_, h.a2m, ?_, h.receiver, h.role, h.correlated, h.a2mMirrored,
    h.m2aMirrored⟩
  · rw [Act.run, Method.get_bind, Method.modify_bind]
    rw [hto]
    exact onSender_ok (w := { w with m2a := { w.m2a with toSender := rest } })
      (w.sender.recvM2a_eq hlen)
  · rw [hto]
    exact h.sender.recv h.role.ahead' hto hlen hsum

theorem receiverRecvM2a (hen : Act.receiverRecvM2a.Enabled Refill w)
    (hcare : Act.receiverRecvM2a.Careful w) : ∃ (w' : World S R F) (offsets : List F),
      w' = { w with
        receiver := { w.receiver with
          m2a := { w.receiver.m2a with
            queue := []
            adjust := []
            futures := serveM2a Adjust.receiverFinish w.receiver.m2a.queue offsets
              w.receiver.m2a.adjust w.receiver.m2a.futures } }
        m2a := { w.m2a with toReceiver := w.m2a.toReceiver.tail } } ∧
      (Act.receiverRecvM2a.run : Method (World S R F) (Error E ⊕ Error E') Unit) w = (.ok (), w') ∧
      Inv c w' { g with fr := g.both.length } := by
  obtain ⟨offsets, rest, hto⟩ := List.exists_cons_of_ne_nil hen
  obtain ⟨hlen, hsum⟩ := hcare offsets (by rw [hto]; rfl)
  refine ⟨_, offsets, rfl, ?_, h.a2m, h.sender, ?_, h.role, h.correlated, h.a2mMirrored,
    h.m2aMirrored⟩
  · rw [Act.run, Method.get_bind, Method.modify_bind]
    rw [hto]
    exact onReceiver_ok (w := { w with m2a := { w.m2a with toReceiver := rest } })
      (w.receiver.recvM2a_eq hlen)
  · have hrecv := h.receiver.recv h.role.ahead'.symm hto hlen hsum
    rw [List.length_map] at hrecv
    rw [hto]
    exact hrecv

/-- **A careful step can be taken, and keeps the invariant.** -/
theorem leads {a : Act S R F} (hcare : a.Careful w) (hen : a.Enabled Refill w) : Leads c w a := by
  cases a with
  | senderQueueA2m inputs => exact h.senderQueueA2m hen
  | receiverQueueA2m inputs => exact h.receiverQueueA2m hen
  | senderQueueM2a inputs => exact h.senderQueueM2a hen
  | receiverQueueM2a inputs => exact h.receiverQueueM2a hen
  | refill s r => exact h.refill hen
  | receiverSendA2m =>
    obtain ⟨_, _, w', -, -, hrun, hinv⟩ := h.receiverSendA2m hen hcare
    exact ⟨w', hrun, _, hinv⟩
  | senderRecvA2m =>
    obtain ⟨_, _, w', _, -, -, hrun, hinv⟩ := h.senderRecvA2m hen hcare
    exact ⟨w', hrun, _, hinv⟩
  | senderSendA2m =>
    obtain ⟨w', -, hrun, hinv⟩ := h.senderSendA2m hen hcare
    exact ⟨w', hrun, _, hinv⟩
  | receiverRecvA2m =>
    obtain ⟨w', _, -, hrun, hinv⟩ := h.receiverRecvA2m hen hcare
    exact ⟨w', hrun, _, hinv⟩
  | senderSendM2a =>
    obtain ⟨_, _, w', -, -, hrun, hinv⟩ := h.senderSendM2a hen hcare
    exact ⟨w', hrun, _, hinv⟩
  | receiverSendM2a =>
    obtain ⟨_, _, w', -, -, hrun, hinv⟩ := h.receiverSendM2a hen
    exact ⟨w', hrun, _, hinv⟩
  | senderRecvM2a =>
    obtain ⟨w', _, -, hrun, hinv⟩ := h.senderRecvM2a hen hcare
    exact ⟨w', hrun, _, hinv⟩
  | receiverRecvM2a =>
    obtain ⟨w', _, -, hrun, hinv⟩ := h.receiverRecvM2a hen hcare
    exact ⟨w', hrun, _, hinv⟩

end Inv

end Inv

/-! ### What the invariant gives -/

section Serves

variable {F A : Type}

/-- The shares of every request that both sides were answered are related to its inputs. -/
def Agrees (rel : F → F → F → F → Prop) (l : Link F) (sf rf : Futures (List F)) : Prop :=
  ∀ (k : ℕ) (a b : List F), sf.tryRecv k = some a → rf.tryRecv k = some b → ∃ xs ys : List F,
    l.sends[k]? = some xs ∧ l.recvs[k]? = some ys ∧ xs.length = ys.length ∧
      ∀ (i : ℕ) (x y : F), xs[i]? = some x → ys[i]? = some y →
        ∃ s r, a[i]? = some s ∧ b[i]? = some r ∧ rel x y s r

/-- What is promised of the requests of one kind, on one side. -/
structure Kept (asks : List (List F)) (s : Conversions F A) : Prop where
  /-- An answer has a share for each input. -/
  full : ∀ k o, s.futures.tryRecv k = some o → ∃ inputs, asks[k]? = some inputs ∧
    o.length = inputs.length
  /-- The others wait, and between rounds so do their inputs. -/
  waits : ∃ n ≤ asks.length, (∀ k, (s.futures.tryRecv k).isSome ↔ k < n) ∧
    s.queue.map Queued.count = (asks.drop n).map List.length ∧ s.inputs <:+ asks.flatten ∧
      (s.adjust = [] → s.inputs = (asks.drop n).flatten)

/-- Every request that is about something was answered. -/
def Resolved (asks : List (List F)) (s : Conversions F A) : Prop :=
  ∀ (k : ℕ) (inputs : List F), asks[k]? = some inputs → inputs ≠ [] → (s.futures.tryRecv k).isSome

/-- Every request was answered. -/
def ResolvedAll (asks : List (List F)) (s : Conversions F A) : Prop :=
  ∀ k < asks.length, (s.futures.tryRecv k).isSome

theorem kept_of {asks : List (List F)} {s : Conversions F A} {items pre : List F}
    (h : Answered asks s.queue s.futures items) (hin : pre ++ s.inputs = asks.flatten)
    (hadj : s.adjust = [] → pre.length = items.length) : Kept asks s where
  full k o hk := by
    obtain ⟨inputs, hinputs, hlen, -⟩ := h.get hk
    exact ⟨inputs, hinputs, hlen⟩
  waits := by
    obtain ⟨n, hn, hsome, hitems, hqueue⟩ := h.isSome_iff
    refine ⟨n, hn, hsome, hqueue, ⟨pre, hin⟩, fun hnil => ?_⟩
    rw [← List.drop_flatten_take, ← hitems, ← hadj hnil, ← hin, List.drop_left]

/-- Between rounds where nothing wants to be converted, every request was answered. -/
theorem Kept.resolved {asks : List (List F)} {s : Conversions F A} (h : Kept asks s)
    (hadj : s.adjust = []) (hin : s.inputs = []) : Resolved asks s := by
  obtain ⟨n, -, hsome, -, -, hwait⟩ := h.waits
  intro k inputs hk hne
  rw [hsome]
  by_contra hn
  have hmem : inputs ∈ asks.drop n := by
    rw [List.mem_iff_getElem?]
    refine ⟨k - n, ?_⟩
    rwa [List.getElem?_drop, Nat.add_sub_cancel' (Nat.not_lt.mp hn)]
  exact hne (List.flatten_eq_nil_iff.mp ((hwait hadj).symm.trans hin) inputs hmem)

/-- Between rounds the requests that wait are about the inputs that wait. -/
theorem Kept.sum_count {asks : List (List F)} {s : Conversions F A} (h : Kept asks s)
    (hadj : s.adjust = []) : (s.queue.map Queued.count).sum = s.inputs.length := by
  obtain ⟨n, -, -, hqueue, -, hwait⟩ := h.waits
  rw [hqueue, hwait hadj, List.length_flatten]

theorem Kept.resolvedAll {asks : List (List F)} {s : Conversions F A} (h : Kept asks s)
    (hq : s.queue = []) : ResolvedAll asks s := by
  obtain ⟨n, -, hsome, hqueue, -⟩ := h.waits
  rw [hq] at hqueue
  have hle := List.drop_eq_nil_iff.mp (List.map_eq_nil_iff.mp hqueue.symm)
  exact fun k hk => (hsome k).mpr (hk.trans_le hle)

/-- The items of a request. -/
theorem getElem?_flatten {asks : List (List F)} {k : ℕ} {inputs : List F}
    (hk : asks[k]? = some inputs) {i : ℕ} {x : F} (hi : inputs[i]? = some x) :
    asks.flatten[(asks.take k).flatten.length + i]? = some x := by
  obtain ⟨hlt, hget⟩ := List.getElem?_eq_some_iff.mp hk
  rw [← List.getElem?_drop, List.drop_flatten_take, List.drop_eq_getElem_cons hlt, hget,
    List.flatten_cons, List.getElem?_append_left (List.getElem?_eq_some_iff.mp hi).1, hi]

/-- The outputs of a request. -/
theorem getElem?_output {asks : List (List F)} {queue : List Queued} {futures : Futures (List F)}
    {items o : List F} (h : Answered asks queue futures items) {k : ℕ}
    (ho : futures.tryRecv k = some o) {inputs : List F} (hk : asks[k]? = some inputs) {i : ℕ}
    (hi : i < inputs.length) :
    ∃ s, o[i]? = some s ∧ items[(asks.take k).flatten.length + i]? = some s := by
  obtain ⟨inputs', hinputs, hlen, heq⟩ := h.get ho
  cases hk.symm.trans hinputs
  have hs := List.getElem?_eq_getElem (hlen.symm ▸ hi)
  refine ⟨_, hs, ?_⟩
  rw [← hs]
  conv_rhs => rw [heq]
  rw [List.getElem?_take_of_lt hi, List.getElem?_drop]

theorem agrees_of {rel : F → F → F → F → Prop} {l : Link F} {sq rq : List Queued}
    {sf rf : Futures (List F)} {souts routs : List F} (hm : Mirrored l.sends l.recvs)
    (hs : Answered l.sends sq sf souts) (hr : Answered l.recvs rq rf routs)
    (hrel : ∀ (i : ℕ) (x y s r : F), l.sends.flatten[i]? = some x → l.recvs.flatten[i]? = some y →
      souts[i]? = some s → routs[i]? = some r → rel x y s r) : Agrees rel l sf rf := by
  intro k a b ha hb
  obtain ⟨xs, hxs, -⟩ := hs.get ha
  obtain ⟨ys, hys, -⟩ := hr.get hb
  have hplace := hm.length_take_flatten (List.getElem?_eq_some_iff.mp hxs).1.le
    (List.getElem?_eq_some_iff.mp hys).1.le
  refine ⟨xs, ys, hxs, hys, hm k xs ys hxs hys, fun i x y hx hy => ?_⟩
  obtain ⟨s, has, hs'⟩ := getElem?_output hs ha hxs (List.getElem?_eq_some_iff.mp hx).1
  obtain ⟨r, hbr, hr'⟩ := getElem?_output hr hb hys (List.getElem?_eq_some_iff.mp hy).1
  refine ⟨s, r, has, hbr, hrel _ x y s r (getElem?_flatten hxs hx) ?_ hs' ?_⟩
  · rw [hplace]
    exact getElem?_flatten hys hy
  · rwa [hplace]

end Serves

section

variable {S R F E E' : Type} [Field F] [DecidableEq F] [ROLESender S F E] [ROLEReceiver R F E']
  {Refill : S × R → S × R → Prop}

/-- Between rounds nothing is going on, and no message is on its way. -/
structure Idle (w : World S R F) : Prop where
  senderA2m : w.sender.a2m.adjust = []
  senderM2a : w.sender.m2a.adjust = []
  receiverA2m : w.receiver.a2m.adjust = []
  receiverM2a : w.receiver.m2a.adjust = []
  a2mToSender : w.a2m.toSender = []
  a2mToReceiver : w.a2m.toReceiver = []
  m2aToSender : w.m2a.toSender = []
  m2aToReceiver : w.m2a.toReceiver = []

variable (Refill) in
/-- What is promised of a state. -/
structure Serves (w : World S R F) : Prop where
  /-- The product of the shares is the sum of the inputs. -/
  a2m : Agrees (fun x y s r => s * r = x + y) w.a2m w.sender.a2m.futures w.receiver.a2m.futures
  /-- The sum of the shares is the product of the inputs. -/
  m2a : Agrees (fun x y s r => s + r = x * y) w.m2a w.sender.m2a.futures w.receiver.m2a.futures
  senderA2m : Kept w.a2m.sends w.sender.a2m
  receiverA2m : Kept w.a2m.recvs w.receiver.a2m
  senderM2a : Kept w.m2a.sends w.sender.m2a
  receiverM2a : Kept w.m2a.recvs w.receiver.m2a
  /-- Between rounds, where neither side wants a flush, every request was answered. -/
  quiet : Idle w → w.sender.wantsFlush = false → w.receiver.wantsFlush = false →
    Resolved w.a2m.sends w.sender.a2m ∧ Resolved w.a2m.recvs w.receiver.a2m ∧
      Resolved w.m2a.sends w.sender.m2a ∧ Resolved w.m2a.recvs w.receiver.m2a
  /-- No careful step fails. -/
  succeeds : ∀ a : Act S R F, a.Careful w → a.Enabled Refill w →
    ∃ w', (a.run : Method (World S R F) (Error E ⊕ Error E') Unit) w = (.ok (), w')
  /-- A round of M2A answers all requests. -/
  servedM2a : Idle w → w.sender.m2a.inputs.length = w.receiver.m2a.inputs.length →
    w.sender.m2a.inputs.length ≤ ROLESender.available w.sender.role →
    w.receiver.m2a.inputs.length ≤ ROLEReceiver.available w.receiver.role →
    ∃ w', Run (CarefulStep Refill) w
        [.senderSendM2a, .receiverSendM2a, .senderRecvM2a, .receiverRecvM2a] w' ∧
      ResolvedAll w.m2a.sends w'.sender.m2a ∧ ResolvedAll w.m2a.recvs w'.receiver.m2a
  /-- A round of A2M answers all requests, where the sender's ROLE inputs for it are not zero. -/
  servedA2m : Idle w → w.sender.a2m.inputs.length = w.receiver.a2m.inputs.length →
    w.sender.a2m.inputs.length ≤ ROLESender.available w.sender.role →
    w.receiver.a2m.inputs.length ≤ ROLEReceiver.available w.receiver.role →
    ∃ w', Run (CarefulStep Refill) w [.receiverSendA2m, .senderRecvA2m] w' ∧
      ((∀ a ∈ w'.sender.a2m.adjust, a.mul ≠ 0) → ∃ w'',
        Run (CarefulStep Refill) w' [.senderSendA2m, .receiverRecvA2m] w'' ∧
          ResolvedAll w.a2m.sends w''.sender.a2m ∧ ResolvedAll w.a2m.recvs w''.receiver.a2m)

theorem CarefulStep.of_ok {w w' : World S R F} {a : Act S R F} (hcare : a.Careful w)
    (hen : a.Enabled Refill w)
    (hrun : (a.run : Method (World S R F) (Error E ⊕ Error E') Unit) w = (.ok (), w')) :
    CarefulStep Refill w a w' := ⟨hcare, hen, .ok (), nofun, hrun⟩

namespace Inv

variable {c : CorrectROLE S R Refill} {w : World S R F} {g : Stage F}

variable (h : Inv c w g)
include h

theorem a2mAgrees :
    Agrees (fun x y s r => s * r = x + y) w.a2m w.sender.a2m.futures w.receiver.a2m.futures := by
  refine agrees_of h.a2mMirrored h.a2m.senderAnswered h.a2m.receiverAnswered ?_
  intro i x y s r hx hy hs hr
  rw [List.getElem?_map, Option.map_eq_some_iff] at hr
  obtain ⟨p, hp, rfl⟩ := hr
  have hlt := (List.getElem?_eq_some_iff.mp hp).1
  have hmem := List.mem_of_getElem? hp
  -- the place is one of a conversion that is finished
  rw [← h.a2m.sends, List.map_append, List.map_append, List.append_assoc, List.append_assoc,
    List.getElem?_append_left (by rwa [List.length_map]), List.getElem?_map, hp] at hx
  rw [← h.a2m.recvs, List.map_append, List.map_append, List.append_assoc, List.append_assoc,
    List.append_assoc, List.getElem?_append_left (by rwa [List.length_map]), List.getElem?_map, hp]
    at hy
  rw [List.map_append, List.getElem?_append_left (by rwa [List.length_map]), List.getElem?_map, hp]
    at hs
  cases hx
  cases hy
  cases hs
  have hne := h.a2m.nonzero p (List.mem_append_left _ hmem)
  have hcorr := h.correlated p (by simp only [List.mem_append]; exact .inl (.inl (.inl hmem)))
  obtain ⟨m, hm, hprod⟩ := a2m_correct (x := p.1.target) (y := p.2.target) hcorr hne
  have hmask : masked p = m := by
    have hsend : (derandSender p).send = some (p.1.share.mul⁻¹, masked p) := if_neg hne
    cases hsend.symm.trans hm
    rfl
  show p.1.share.mul⁻¹ * product p = p.1.target + p.2.target
  rw [product, hmask]
  exact hprod

omit [DecidableEq F] in
theorem m2aAgrees :
    Agrees (fun x y s r => s + r = x * y) w.m2a w.sender.m2a.futures w.receiver.m2a.futures := by
  refine agrees_of h.m2aMirrored h.sender.answered h.receiver.answered ?_
  intro i x y s r hx hy hs hr
  rw [List.getElem?_map, Option.map_eq_some_iff] at hs hr
  obtain ⟨p, hp, rfl⟩ := hs
  obtain ⟨q, hq, rfl⟩ := hr
  have hp := List.getElem?_of_take hp
  have hq := List.getElem?_of_take hq
  rw [List.getElem?_map, hp] at hq
  cases hq
  have hlt := (List.getElem?_eq_some_iff.mp hp).1
  rw [← h.sender.inputs, List.append_assoc, List.getElem?_append_left (by rwa [List.length_map]),
    List.getElem?_map, hp] at hx
  rw [← h.receiver.inputs, List.append_assoc, List.getElem?_append_left
    (by rwa [List.length_map, List.length_map]), List.getElem?_map, List.getElem?_map, hp] at hy
  cases hx
  cases hy
  have hcorr := h.correlated p (List.mem_append_right _ (List.mem_of_getElem? hp))
  exact m2a_correct (x := p.1.target) (y := p.2.target) hcorr

omit [DecidableEq F] in
theorem senderA2mKept : Kept w.a2m.sends w.sender.a2m := by
  refine kept_of h.a2m.senderAnswered h.a2m.sends fun hadj => ?_
  have := h.a2m.senderAdjust
  rw [hadj] at this
  rw [List.map_eq_nil_iff.mp this.symm, List.append_nil, List.length_map, List.length_map]

omit [DecidableEq F] in
theorem receiverA2mKept : Kept w.a2m.recvs w.receiver.a2m := by
  refine kept_of h.a2m.receiverAnswered h.a2m.recvs fun hadj => ?_
  obtain ⟨hs, ht, hp⟩ := h.a2m.of_adjust hadj
  rw [hs, ht, hp, List.map_nil, List.append_nil, List.append_nil, List.append_nil, List.length_map,
    List.length_map]

omit [DecidableEq F] in
theorem senderM2aKept : Kept w.m2a.sends w.sender.m2a := by
  refine kept_of h.sender.answered h.sender.inputs fun hadj => ?_
  obtain ⟨hs, hf⟩ := h.sender.of_adjust hadj
  rw [hs, hf, List.take_length, List.map_nil, List.append_nil, List.length_map, List.length_map]

omit [DecidableEq F] in
theorem receiverM2aKept : Kept w.m2a.recvs w.receiver.m2a := by
  refine kept_of h.receiver.answered h.receiver.inputs fun hadj => ?_
  obtain ⟨hr, hf⟩ := h.receiver.of_adjust hadj
  rw [hr, hf, List.take_length, List.map_nil, List.append_nil]
  simp only [List.length_map]

omit [DecidableEq F] in
theorem quiet (hidle : Idle w) (hs : w.sender.wantsFlush = false)
    (hr : w.receiver.wantsFlush = false) :
    Resolved w.a2m.sends w.sender.a2m ∧ Resolved w.a2m.recvs w.receiver.a2m ∧
      Resolved w.m2a.sends w.sender.m2a ∧ Resolved w.m2a.recvs w.receiver.m2a := by
  have hnil : ∀ l : List F, (!l.isEmpty) = false → l = [] := by
    intro l hl
    rwa [Bool.not_eq_false', List.isEmpty_iff] at hl
  obtain ⟨hsa, hsm⟩ := Bool.or_eq_false_iff.mp hs
  obtain ⟨hra, hrm⟩ := Bool.or_eq_false_iff.mp hr
  exact ⟨h.senderA2mKept.resolved hidle.senderA2m (hnil _ hsa),
    h.receiverA2mKept.resolved hidle.receiverA2m (hnil _ hra),
    h.senderM2aKept.resolved hidle.senderM2a (hnil _ hsm),
    h.receiverM2aKept.resolved hidle.receiverM2a (hnil _ hrm)⟩

theorem servedM2a (hidle : Idle w)
    (hlen : w.sender.m2a.inputs.length = w.receiver.m2a.inputs.length)
    (hsav : w.sender.m2a.inputs.length ≤ ROLESender.available w.sender.role)
    (hrav : w.receiver.m2a.inputs.length ≤ ROLEReceiver.available w.receiver.role) :
    ∃ w', Run (CarefulStep Refill) w
        [.senderSendM2a, .receiverSendM2a, .senderRecvM2a, .receiverRecvM2a] w' ∧
      ResolvedAll w.m2a.sends w'.sender.m2a ∧ ResolvedAll w.m2a.recvs w'.receiver.m2a := by
  have hscount := h.senderM2aKept.sum_count hidle.senderM2a
  have hrcount := h.receiverM2aKept.sum_count hidle.receiverM2a
  -- both sides take shares and send offsets
  have hen₁ : Act.senderSendM2a.Enabled Refill w := ⟨hidle.senderM2a, hsav⟩
  have hcare₁ : (Act.senderSendM2a : Act S R F).Careful w := .inl (by rw [hidle.a2mToSender]; rfl)
  obtain ⟨o₁, s', w₁, ho₁, hw₁, hrun₁, h₁⟩ := h.senderSendM2a hen₁ hcare₁
  have hrecv₁ : w₁.receiver = w.receiver := by rw [hw₁]
  have hen₂ : Act.receiverSendM2a.Enabled Refill w₁ := by
    show w₁.receiver.m2a.adjust = [] ∧ w₁.receiver.a2m.adjust = [] ∧ _
    rw [hrecv₁]
    exact ⟨hidle.receiverM2a, hidle.receiverA2m, hrav⟩
  obtain ⟨o₂, r', w₂, ho₂, hw₂, hrun₂, h₂⟩ := h₁.receiverSendM2a hen₂
  rw [hrecv₁] at ho₂ hw₂
  have hadj₁ := length_adjusts ho₁
  have hadj₂ := length_adjusts ho₂
  have hsadj : w₂.sender.m2a.adjust = adjusts w.sender.m2a.inputs o₁.shares := by
    rw [hw₂, hw₁]
    exact (congrArg (· ++ _) hidle.senderM2a).trans (List.nil_append _)
  have hradj : w₂.receiver.m2a.adjust = adjusts w.receiver.m2a.inputs o₂.shares := by
    rw [hw₂]
    exact (congrArg (· ++ _) hidle.receiverM2a).trans (List.nil_append _)
  have htoS : w₂.m2a.toSender = [(adjusts w.receiver.m2a.inputs o₂.shares).map Adjust.offset] := by
    rw [hw₂, hw₁]
    exact (congrArg (· ++ _) hidle.m2aToSender).trans (List.nil_append _)
  have htoR : w₂.m2a.toReceiver = [(adjusts w.sender.m2a.inputs o₁.shares).map Adjust.offset] := by
    rw [hw₂, hw₁]
    exact (congrArg (· ++ _) hidle.m2aToReceiver).trans (List.nil_append _)
  have hsq : w₂.sender.m2a.queue = w.sender.m2a.queue := by rw [hw₂, hw₁]
  have hrq : w₂.receiver.m2a.queue = w.receiver.m2a.queue := by rw [hw₂]
  have hlinks : w₂.m2a.sends = w.m2a.sends ∧ w₂.m2a.recvs = w.m2a.recvs := by
    rw [hw₂, hw₁]
    exact ⟨rfl, rfl⟩
  -- both sides finish
  have hen₃ : (Act.senderRecvM2a : Act S R F).Enabled Refill w₂ := by
    show w₂.m2a.toSender ≠ []
    rw [htoS]
    exact List.cons_ne_nil _ _
  have hcare₃ : (Act.senderRecvM2a : Act S R F).Careful w₂ := by
    intro offsets hoff
    rw [htoS] at hoff
    cases hoff
    rw [hsadj, hsq, hscount, List.length_map, hadj₁, hadj₂]
    exact ⟨hlen.symm, hlen.symm⟩
  obtain ⟨w₃, offsets, hw₃, hrun₃, h₃⟩ := h₂.senderRecvM2a hen₃ hcare₃
  have htoR₃ : w₃.m2a.toReceiver = w₂.m2a.toReceiver := by rw [hw₃]
  have hrecv₃ : w₃.receiver = w₂.receiver := by rw [hw₃]
  have hen₄ : (Act.receiverRecvM2a : Act S R F).Enabled Refill w₃ := by
    show w₃.m2a.toReceiver ≠ []
    rw [htoR₃, htoR]
    exact List.cons_ne_nil _ _
  have hcare₄ : (Act.receiverRecvM2a : Act S R F).Careful w₃ := by
    intro offsets hoff
    rw [htoR₃, htoR] at hoff
    cases hoff
    rw [hrecv₃, hradj, hrq, hrcount, List.length_map, hadj₁, hadj₂]
    exact ⟨hlen, hlen⟩
  obtain ⟨w₄, offsets', hw₄, hrun₄, h₄⟩ := h₃.receiverRecvM2a hen₄ hcare₄
  refine ⟨w₄, (((Run.single (CarefulStep.of_ok hcare₁ hen₁ hrun₁)).snoc
    (CarefulStep.of_ok (a := .receiverSendM2a) trivial hen₂ hrun₂)).snoc
      (CarefulStep.of_ok hcare₃ hen₃ hrun₃)).snoc
        (CarefulStep.of_ok hcare₄ hen₄ hrun₄), ?_, ?_⟩
  · have hkept := h₄.senderM2aKept
    have hsends : w₄.m2a.sends = w.m2a.sends := by
      rw [hw₄, hw₃]
      exact hlinks.1
    rw [hsends] at hkept
    refine hkept.resolvedAll ?_
    rw [hw₄, hw₃]
  · have hkept := h₄.receiverM2aKept
    have hrecvs : w₄.m2a.recvs = w.m2a.recvs := by
      rw [hw₄, hw₃]
      exact hlinks.2
    rw [hrecvs] at hkept
    refine hkept.resolvedAll ?_
    rw [hw₄]

theorem servedA2m (hidle : Idle w)
    (hlen : w.sender.a2m.inputs.length = w.receiver.a2m.inputs.length)
    (hsav : w.sender.a2m.inputs.length ≤ ROLESender.available w.sender.role)
    (hrav : w.receiver.a2m.inputs.length ≤ ROLEReceiver.available w.receiver.role) :
    ∃ w', Run (CarefulStep Refill) w [.receiverSendA2m, .senderRecvA2m] w' ∧
      ((∀ a ∈ w'.sender.a2m.adjust, a.mul ≠ 0) → ∃ w'',
        Run (CarefulStep Refill) w' [.senderSendA2m, .receiverRecvA2m] w'' ∧
          ResolvedAll w.a2m.sends w''.sender.a2m ∧ ResolvedAll w.a2m.recvs w''.receiver.a2m) := by
  have hscount := h.senderA2mKept.sum_count hidle.senderA2m
  have hrcount := h.receiverA2mKept.sum_count hidle.receiverA2m
  -- the receiver sends offsets, which the sender is given
  have hen₁ : Act.receiverSendA2m.Enabled Refill w := ⟨hidle.receiverA2m, hrav⟩
  have hcare₁ : (Act.receiverSendA2m : Act S R F).Careful w := by
    refine .inr ?_
    rw [hidle.m2aToReceiver]
    exact Nat.zero_le _
  obtain ⟨o₁, r', w₁, ho₁, hw₁, hrun₁, h₁⟩ := h.receiverSendA2m hen₁ hcare₁
  have hadj₁ := length_adjusts ho₁
  have hsend₁ : w₁.sender = w.sender := by rw [hw₁]
  have hto₁ : w₁.a2m.toSender =
      [(adjusts w.receiver.a2m.inputs o₁.shares).map fun p => (derand p).2] := by
    rw [hw₁]
    exact (congrArg (· ++ _) hidle.a2mToSender).trans (List.nil_append _)
  have hen₂ : Act.senderRecvA2m.Enabled Refill w₁ := by
    show w₁.a2m.toSender ≠ [] ∧ w₁.sender.m2a.adjust = [] ∧ _
    rw [hto₁, hsend₁]
    exact ⟨List.cons_ne_nil _ _, hidle.senderM2a, hsav⟩
  have hcare₂ : (Act.senderRecvA2m : Act S R F).Careful w₁ := by
    refine ⟨?_, fun offsets hoff => ?_⟩
    · rw [hw₁]
      refine .inr ?_
      show w.m2a.toSender.flatten = []
      rw [hidle.m2aToSender]
      rfl
    · rw [hto₁] at hoff
      cases hoff
      rw [hsend₁, List.length_map, hadj₁, hlen]
  obtain ⟨o₂, s', w₂, offsets, ho₂, hw₂, hrun₂, h₂⟩ := h₁.senderRecvA2m hen₂ hcare₂
  rw [hsend₁] at ho₂ h₂
  have hrecv₂ : w₂.receiver.a2m.adjust.length = w.sender.a2m.inputs.length ∧
      w₂.receiver.a2m.queue = w.receiver.a2m.queue := by
    rw [hw₂, hw₁]
    refine ⟨?_, rfl⟩
    show (w.receiver.a2m.adjust ++ _).length = _
    rw [hidle.receiverA2m, List.nil_append, List.length_map, hadj₁, hlen]
  have hsq : w₂.sender.a2m.queue = w.sender.a2m.queue := by rw [hw₂, hw₁]
  have htoR : w₂.a2m.toReceiver = [] := by
    rw [hw₂, hw₁]
    exact hidle.a2mToReceiver
  have hlinks : w₂.a2m.sends = w.a2m.sends ∧ w₂.a2m.recvs = w.a2m.recvs := by
    rw [hw₂, hw₁]
    exact ⟨rfl, rfl⟩
  -- all conversions that were begun are those for which the sender has taken the offsets
  have htaken : w₂.sender.a2m.adjust.length = w.sender.a2m.inputs.length := by
    have hinputs : w₂.sender.a2m.inputs = [] := by rw [hw₂]
    have hs := congrArg List.length h₂.a2m.sends
    have hbefore := congrArg List.length h.a2m.sends
    have hnil := h.a2m.senderAdjust
    rw [hidle.senderA2m] at hnil
    have hnil := List.map_eq_nil_iff.mp hnil.symm
    rw [hinputs, hlinks.1, ← hbefore, hnil] at hs
    rw [h₂.a2m.senderAdjust, List.length_map]
    rw [hnil]
    simp only [List.length_append, List.length_map, List.length_nil] at hs ⊢
    omega
  refine ⟨w₂, (Run.single (CarefulStep.of_ok hcare₁ hen₁ hrun₁)).snoc
    (CarefulStep.of_ok hcare₂ hen₂ hrun₂), fun hne => ?_⟩
  -- the sender sends masked shares, which the receiver is given
  have hcare₃ : (Act.senderSendA2m : Act S R F).Careful w₂ := by
    show w₂.sender.a2m.adjust.length = (w₂.sender.a2m.queue.map Queued.count).sum
    rw [htaken, hsq, hscount]
  obtain ⟨w₃, hw₃, hrun₃, h₃⟩ := h₂.senderSendA2m hne hcare₃
  have hto₃ : ∃ maskedShares, w₃.a2m.toReceiver = [maskedShares] ∧
      maskedShares.length = w.sender.a2m.inputs.length := by
    rw [hw₃]
    refine ⟨_, (congrArg (· ++ _) htoR).trans (List.nil_append _), ?_⟩
    rw [List.length_map, ← htaken, h₂.a2m.senderAdjust, List.length_map]
  obtain ⟨maskedShares, hto₃, hmasked⟩ := hto₃
  have hrecv₃ : w₃.receiver = w₂.receiver := by rw [hw₃]
  have hen₄ : (Act.receiverRecvA2m : Act S R F).Enabled Refill w₃ := by
    show w₃.a2m.toReceiver ≠ []
    rw [hto₃]
    exact List.cons_ne_nil _ _
  have hcare₄ : (Act.receiverRecvA2m : Act S R F).Careful w₃ := by
    intro m hm
    rw [hto₃] at hm
    cases hm
    rw [hrecv₃, hrecv₂.1, hrecv₂.2, hrcount, hmasked]
    exact ⟨rfl, hlen⟩
  obtain ⟨w₄, _, hw₄, hrun₄, h₄⟩ := h₃.receiverRecvA2m hen₄ hcare₄
  refine ⟨w₄, (Run.single (CarefulStep.of_ok hcare₃ hne hrun₃)).snoc
    (CarefulStep.of_ok hcare₄ hen₄ hrun₄), ?_, ?_⟩
  · have hkept := h₄.senderA2mKept
    have hsends : w₄.a2m.sends = w.a2m.sends := by
      rw [hw₄, hw₃]
      exact hlinks.1
    rw [hsends] at hkept
    refine hkept.resolvedAll ?_
    rw [hw₄, hw₃]
    rfl
  · have hkept := h₄.receiverA2mKept
    have hrecvs : w₄.a2m.recvs = w.a2m.recvs := by
      rw [hw₄, hw₃]
      exact hlinks.2
    rw [hrecvs] at hkept
    refine hkept.resolvedAll ?_
    rw [hw₄]
    rfl

theorem serves : Serves Refill w where
  a2m := h.a2mAgrees
  m2a := h.m2aAgrees
  senderA2m := h.senderA2mKept
  receiverA2m := h.receiverA2mKept
  senderM2a := h.senderM2aKept
  receiverM2a := h.receiverM2aKept
  quiet := h.quiet
  succeeds _ hcare hen := by
    obtain ⟨w', hrun, -⟩ := h.leads hcare hen
    exact ⟨w', hrun⟩
  servedM2a := h.servedM2a
  servedA2m := h.servedA2m

end Inv

end

end ShareConversion

open ShareConversion

/-- At the start. -/
def ShareConversion.World.new {S R F : Type} (s : S) (r : R) : World S R F :=
  ⟨.new s, .new r, ⟨[], [], [], []⟩, ⟨[], [], [], []⟩⟩

/-- **Every request is answered with shares of its own inputs**, in every run of careful steps. -/
theorem share_conversion_serves {S R F E E' : Type} [Field F] [DecidableEq F] [ROLESender S F E]
    [ROLEReceiver R F E'] {Refill : S × R → S × R → Prop} (c : CorrectROLE S R Refill)
    {s : S} {r : R} (hstart : c.Rel [] [] s r) {acts : List (Act S R F)} {w : World S R F}
    (h : Run (CarefulStep Refill) (.new s r) acts w) : Serves Refill w := by
  have hinv := h.invariant (P := fun w => ∃ g, Inv c w g) ⟨_, Inv.new hstart⟩ ?_
  · obtain ⟨g, hinv⟩ := hinv
    exact hinv.serves
  · rintro t a u ⟨g, hinv⟩ ⟨hcare, hen, hret⟩
    obtain ⟨w', hrun, hinv'⟩ := hinv.leads hcare hen
    rw [← hret.eq, hrun]
    exact hinv'

/-- One side, with two ROLEs. -/
def sampleRole (a b : OLEShare ℚ) : IdealROLE ℚ := ⟨0, [a, b]⟩

theorem correlated_sample :
    CorrelatedShares (sampleRole ⟨1, 2⟩ ⟨2, 5⟩).shares (sampleRole ⟨5, 3⟩ ⟨8, 2⟩).shares := by
  intro i s r hs hr
  match i with
  | 0 =>
    cases hs
    cases hr
    decide +kernel
  | 1 =>
    cases hs
    cases hr
    decide +kernel
  | i + 2 => cases hs

/-- A run with a request of each kind. -/
theorem run_both_kinds : ∃ w : World (IdealROLE ℚ) (IdealROLE ℚ) ℚ,
    Run (CarefulStep IdealROLE.Refill)
      (.new (sampleRole ⟨1, 2⟩ ⟨2, 5⟩) (sampleRole ⟨5, 3⟩ ⟨8, 2⟩))
      [.senderQueueA2m [3], .receiverQueueA2m [4], .receiverQueueM2a [7], .senderQueueM2a [6],
        .receiverSendM2a, .receiverSendA2m, .senderSendM2a, .senderRecvM2a, .senderRecvA2m,
        .senderSendA2m, .receiverRecvM2a, .receiverRecvA2m] w ∧
      w.sender.a2m.futures.tryRecv 0 = some [1 / 5] ∧
      w.receiver.a2m.futures.tryRecv 0 = some [35] ∧
      w.sender.m2a.futures.tryRecv 0 = some [-19] ∧
      w.receiver.m2a.futures.tryRecv 0 = some [61] :=
  ⟨_, Run.of_isSome carefulNext carefulStep_of_next (by decide +kernel), by decide +kernel,
    by decide +kernel, by decide +kernel, by decide +kernel⟩

/-- The requests of the run are answered. -/
theorem share_conversion_serves_two : ∃ w : World (IdealROLE ℚ) (IdealROLE ℚ) ℚ,
    Serves IdealROLE.Refill w ∧ w.receiver.a2m.futures.tryRecv 0 = some [35] := by
  obtain ⟨w, hrun, -, ha2m, -⟩ := run_both_kinds
  have hstart : IdealROLE.correct.Rel [] [] (sampleRole ⟨1, 2⟩ ⟨2, 5⟩) (sampleRole ⟨5, 3⟩ ⟨8, 2⟩) :=
    ⟨rfl, correlated_sample⟩
  exact ⟨w, share_conversion_serves IdealROLE.correct hstart hrun, ha2m⟩

/-- A request for one conversion that is queued while a round is going on is answered with no
shares. -/
theorem missing_shares : ∃ w : World (IdealROLE ℚ) (IdealROLE ℚ) ℚ,
    Run (Step IdealROLE.Refill)
      (.new (sampleRole ⟨1, 2⟩ ⟨2, 5⟩) (sampleRole ⟨5, 3⟩ ⟨8, 2⟩))
      [.senderQueueA2m [3], .receiverQueueA2m [4], .receiverSendA2m, .senderRecvA2m,
        .senderQueueA2m [8], .senderSendA2m] w ∧
      w.a2m.sends[1]? = some [8] ∧ w.sender.a2m.futures.tryRecv 1 = some [] :=
  ⟨_, Run.of_isSome next step_of_next (by decide +kernel), by decide +kernel, by decide +kernel⟩

end Mpz
