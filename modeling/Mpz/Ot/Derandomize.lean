import Mpz.Lib.Run
import Mpz.Ot.Rcot

/-!
# Derandomized correlated oblivious transfer

The keys of the sender and the choices of the receiver are given, and are met by random correlated
oblivious transfers: the receiver masks its choices by random ones and sends them, and the sender
adjusts its keys.

A round is made of three steps. The receiver takes random OTs for the requests that wait, masks the
choices and sends them. The sender takes as many and sends the adjustment. The receiver applies it
and answers its requests.

## What a round covers

The receiver sends all choices that wait, and masks those of the requests that it could take OTs
for. So a round is a good one exactly where the OTs suffice for all that waits, and where the two
sides wait for the same requests. `Derand.Act.Careful` says so.

## Main definitions

* `DerandCOTSender`, `DerandCOTReceiver` — the two sides
* `Derand.World`, `Derand.Act` — the two sides and the round between them
* `Derand.Inv` — the invariant

## Main results

* `derand_serves` — every request is answered, and every choice is masked
* `choice_revealed` — where a request cannot be served, its choices are sent as they are
-/

namespace Mpz

/-- Output the sender receives from the COT functionality. -/
structure COTSenderOutput where
  /-- Transfer id. -/
  id : ℕ
  deriving DecidableEq, Repr

/-- Output the receiver receives from the COT functionality. -/
structure COTReceiverOutput where
  /-- Transfer id. -/
  id : ℕ
  /-- Chosen messages. -/
  msgs : List Block
  deriving DecidableEq, Repr

/-- Error of the derandomized COT sender and receiver. -/
inductive DerandCOTError (E : Type) where
  /-- the message is wrong length -/
  | wrongLength (actual expected : ℕ)
  /-- An error of the RCOT. -/
  | rcot (e : E)
  deriving DecidableEq, Repr

/-- Derandomized COT sender. -/
structure DerandCOTSender (S : Type) where
  /-- The RCOT sender. -/
  rcot : S
  /-- Keys corresponding to the value 0 of the choice bits which need to be derandomized. -/
  adjust : List Block
  /-- The requests that wait. -/
  queue : List Queued
  /-- The futures. -/
  futures : Futures COTSenderOutput
  deriving DecidableEq, Repr

namespace DerandCOTSender

variable {S E : Type} [RCOTSender S E]

/-- Creates a new sender. -/
def new (rcot : S) : DerandCOTSender S := ⟨rcot, [], [], Futures.new⟩

/-- Queues sending of COTs. -/
def queueSendCot (keys : List Block) : Method (DerandCOTSender S) (DerandCOTError E) ℕ := do
  let self ← Method.get
  Method.modify fun s => { s with
    futures := s.futures.newOutput
    adjust := s.adjust ++ keys
    queue := s.queue ++ [⟨keys.length, s.futures.next⟩] }
  return self.futures.next

/-- Adjusts the key of one choice. -/
def adjustKey (delta adjust : Block) (p : Bool × Block) : Block :=
  adjust ^^^ p.2 ^^^ (if p.1 then delta else Block.zero)

/-- The loop over the requests that wait, and over what is left of the keys and of the choices. -/
def adjustFrom (delta : Block) : List Queued → List Block → List Bool →
    Method (DerandCOTSender S) (DerandCOTError E) (List Block)
  | [], adjust, _ => return adjust
  | q :: queue, adjust, flip => do
    let output ← Method.zoom rcot (fun s rcot => { s with rcot }) .rcot
      (RCOTSender.trySendRcot q.count)
    if adjust.length < q.count ∨ flip.length < q.count then Method.panic
    else do
      let served := List.zipUpdate (adjustKey delta) (adjust.take q.count)
        ((flip.take q.count).zip output.keys)
      Method.modify fun s => { s with futures := s.futures.send q.sender ⟨output.id⟩ }
      let rest ← adjustFrom delta queue (adjust.drop q.count) (flip.drop q.count)
      return served ++ rest

/-- Returns the adjustment message. -/
def adjustMsg (flip : List Bool) : Method (DerandCOTSender S) (DerandCOTError E) (List Block) := do
  let self ← Method.get
  if flip.length ≠ self.adjust.length then
    Method.throw (.wrongLength flip.length self.adjust.length)
  else do
    Method.modify fun s => { s with adjust := [], queue := [] }
    adjustFrom (RCOTSender.delta self.rcot) self.queue self.adjust flip

end DerandCOTSender

/-- Receiver returned by `DerandCOTReceiver::adjust`. -/
structure ReceiveAdjust where
  /-- How many COTs are adjusted. -/
  count : ℕ
  /-- The COTs. -/
  cots : List COTReceiverOutput
  deriving DecidableEq, Repr

/-- Derandomized COT receiver. -/
structure DerandCOTReceiver (R : Type) where
  /-- The RCOT receiver. -/
  rcot : R
  /-- Choice bits from RCOT which need to be derandomized. -/
  derandomize : List Bool
  /-- The requests that wait. -/
  queue : List Queued
  /-- The futures. -/
  futures : Futures COTReceiverOutput
  deriving DecidableEq, Repr

namespace DerandCOTReceiver

variable {R E : Type} [RCOTReceiver R E]

/-- Creates a new receiver. -/
def new (rcot : R) : DerandCOTReceiver R := ⟨rcot, [], [], Futures.new⟩

/-- Queues receiving of COTs. -/
def queueRecvCot (choices : List Bool) : Method (DerandCOTReceiver R) (DerandCOTError E) ℕ := do
  let self ← Method.get
  Method.modify fun s => { s with
    futures := s.futures.newOutput
    derandomize := s.derandomize ++ choices
    queue := s.queue ++ [⟨choices.length, s.futures.next⟩] }
  return self.futures.next

/-- The loop over the requests that wait, and over what is left of the choices. It ends at the first
request that there are not enough OTs for. -/
def adjustFrom : List Queued → List Bool →
    Method (DerandCOTReceiver R) (DerandCOTError E) (List Bool × ReceiveAdjust)
  | [], flip => return (flip, ⟨0, []⟩)
  | q :: queue, flip => do
    let self ← Method.get
    if RCOTReceiver.available self.rcot < q.count then return (flip, ⟨0, []⟩)
    else do
      let output ← Method.zoom rcot (fun s rcot => { s with rcot }) .rcot
        (RCOTReceiver.tryRecvRcot q.count)
      if flip.length < q.count then Method.panic
      else do
        let masked := List.zipUpdate xor (flip.take q.count) output.choices
        let (rest, recv) ← adjustFrom queue (flip.drop q.count)
        return (masked ++ rest, ⟨q.count + recv.count, ⟨output.id, output.msgs⟩ :: recv.cots⟩)

/-- Adjusts the COTs: the message to the sender, and what is to be adjusted. -/
def adjust : Method (DerandCOTReceiver R) (DerandCOTError E) (List Bool × ReceiveAdjust) := do
  let self ← Method.get
  Method.modify fun s => { s with derandomize := [] }
  adjustFrom self.queue self.derandomize

/-- The adjusted COTs. -/
def finish : List COTReceiverOutput → List Block → List COTReceiverOutput
  | [], _ => []
  | o :: cots, adjust =>
    { o with msgs := List.zipUpdate (· ^^^ ·) o.msgs adjust } ::
      finish cots (adjust.drop o.msgs.length)

/-- Receives the adjusted COTs. -/
def receive (recv : ReceiveAdjust) (adjust : List Block) :
    Method (DerandCOTReceiver R) (DerandCOTError E) Unit := do
  let self ← Method.get
  if adjust.length ≠ recv.count then Method.throw (.wrongLength adjust.length recv.count)
  else if self.queue.length < recv.cots.length then Method.panic
  else do
    Method.modify fun s => { s with queue := s.queue.drop recv.cots.length }
    Method.forEach (fun p => Method.modify fun s => { s with
      futures := s.futures.send p.1.sender p.2 })
      ((self.queue.take recv.cots.length).zip (finish recv.cots adjust))

end DerandCOTReceiver

namespace Derand

/-- How far a round has come. -/
inductive Round where
  /-- There is none. -/
  | idle
  /-- The masked choices were sent. -/
  | flipped (flip : List Bool) (recv : ReceiveAdjust)
  /-- The adjustment was sent. -/
  | adjusted (adjust : List Block) (recv : ReceiveAdjust)

/-- The two sides, the round between them, what was requested, and the masked choices that were
sent. -/
structure World (S R : Type) where
  /-- The sender. -/
  sender : DerandCOTSender S
  /-- The receiver. -/
  receiver : DerandCOTReceiver (Logged R)
  /-- The round. -/
  round : Round
  /-- The keys of the requests of the sender. -/
  sends : List (List Block)
  /-- The choices of the requests of the receiver. -/
  recvs : List (List Bool)
  /-- The messages of the receiver. -/
  flips : List (List Bool)

/-- What can happen. -/
inductive Act (S R : Type) where
  /-- The sender queues a request. -/
  | queueSend (keys : List Block)
  /-- The receiver queues a request. -/
  | queueRecv (choices : List Bool)
  /-- More random OTs become available. -/
  | refill (s : S) (r : R)
  /-- The receiver sends its masked choices. -/
  | beginRound
  /-- The sender adjusts its keys. -/
  | adjustKeys
  /-- The receiver applies the adjustment. -/
  | endRound

section

variable {S R E E' : Type}

/-- At the start. -/
def World.new (s : S) (r : R) : World S R :=
  ⟨.new s, .new ⟨r, []⟩, .idle, [], [], []⟩

/-- The receiver is borrowed while a round is going on. -/
def Act.Enabled (Refill : S × R → S × R → Prop) (w : World S R) : Act S R → Prop
  | queueSend _ => True
  | queueRecv _ => w.round = .idle
  | refill s r => w.round = .idle ∧ Refill (w.sender.rcot, w.receiver.rcot.rcot) (s, r)
  | beginRound => w.round = .idle
  | adjustKeys => ∃ flip recv, w.round = .flipped flip recv
  | endRound => ∃ adjust recv, w.round = .adjusted adjust recv

/-- The OTs suffice for all that waits, and both sides wait for the same. -/
def Act.Careful [RCOTReceiver R E'] (w : World S R) : Act S R → Prop
  | beginRound => w.receiver.derandomize.length ≤ RCOTReceiver.available w.receiver.rcot
  | adjustKeys => w.sender.queue.map Queued.count = w.receiver.queue.map Queued.count
  | _ => True

instance [RCOTReceiver R E'] (w : World S R) : (a : Act S R) → Decidable (a.Careful w)
  | .beginRound => inferInstanceAs (Decidable (_ ≤ _))
  | .adjustKeys => inferInstanceAs (Decidable (_ = _))
  | .queueSend _ | .queueRecv _ | .refill _ _ | .endRound => isTrue trivial

/-- Whether it can happen, where it is a step of the two sides. -/
def Act.isEnabled (w : World S R) (a : Act S R) : Bool :=
  match a, w.round with
  | queueSend _, _ => true
  | queueRecv _, .idle => true
  | beginRound, .idle => true
  | adjustKeys, .flipped _ _ => true
  | endRound, .adjusted _ _ => true
  | _, _ => false

theorem Act.enabled_of_isEnabled {Refill : S × R → S × R → Prop} {w : World S R} {a : Act S R}
    (h : a.isEnabled w) : a.Enabled Refill w := by
  unfold isEnabled at h
  split at h
  next => trivial
  next hround => exact hround
  next hround => exact hround
  next hround => exact ⟨_, _, hround⟩
  next hround => exact ⟨_, _, hround⟩
  next => cases h

variable [RCOTSender S E] [RCOTReceiver R E']

/-- A call of the sender. -/
def onSender {α : Type} (m : Method (DerandCOTSender S) (DerandCOTError E) α) :
    Method (World S R) (DerandCOTError E ⊕ DerandCOTError E') α :=
  Method.zoom World.sender (fun w sender => { w with sender }) .inl m

/-- A call of the receiver. -/
def onReceiver {α : Type} (m : Method (DerandCOTReceiver (Logged R)) (DerandCOTError E') α) :
    Method (World S R) (DerandCOTError E ⊕ DerandCOTError E') α :=
  Method.zoom World.receiver (fun w receiver => { w with receiver }) .inr m

omit [RCOTSender S E] [RCOTReceiver R E'] in
theorem onSender_ok {α : Type} {m : Method (DerandCOTSender S) (DerandCOTError E) α} {w : World S R}
    {a : α} {s : DerandCOTSender S} (h : m w.sender = (.ok a, s)) :
    (onSender m : Method (World S R) (DerandCOTError E ⊕ DerandCOTError E') α) w =
      (.ok a, { w with sender := s }) := Method.zoom_eq_ok.mpr ⟨s, h, rfl⟩

omit [RCOTSender S E] [RCOTReceiver R E'] in
theorem onReceiver_ok {α : Type} {m : Method (DerandCOTReceiver (Logged R)) (DerandCOTError E') α}
    {w : World S R} {a : α} {r : DerandCOTReceiver (Logged R)} (h : m w.receiver = (.ok a, r)) :
    (onReceiver m : Method (World S R) (DerandCOTError E ⊕ DerandCOTError E') α) w =
      (.ok a, { w with receiver := r }) := Method.zoom_eq_ok.mpr ⟨r, h, rfl⟩

/-- What it does. A round whose step fails is over. -/
def Act.run : Act S R → Method (World S R) (DerandCOTError E ⊕ DerandCOTError E') Unit
  | queueSend keys => do
    let _ ← onSender (DerandCOTSender.queueSendCot keys)
    Method.modify fun w => { w with sends := w.sends ++ [keys] }
  | queueRecv choices => do
    let _ ← onReceiver (DerandCOTReceiver.queueRecvCot choices)
    Method.modify fun w => { w with recvs := w.recvs ++ [choices] }
  | refill s r => Method.modify fun w => { w with
      sender := { w.sender with rcot := s }
      receiver := { w.receiver with rcot := { w.receiver.rcot with rcot := r } } }
  | beginRound => do
    let (flip, recv) ← onReceiver DerandCOTReceiver.adjust
    Method.modify fun w => { w with round := .flipped flip recv, flips := w.flips ++ [flip] }
  | adjustKeys => do
    let w ← Method.get
    Method.modify fun w => { w with round := .idle }
    match w.round with
    | .flipped flip recv => do
      let adjust ← onSender (DerandCOTSender.adjustMsg flip)
      Method.modify fun w => { w with round := .adjusted adjust recv }
    | _ => return
  | endRound => do
    let w ← Method.get
    Method.modify fun w => { w with round := .idle }
    match w.round with
    | .adjusted adjust recv => onReceiver (DerandCOTReceiver.receive recv adjust)
    | _ => return

/-- A step. -/
def Step (Refill : S × R → S × R → Prop) (w : World S R) (a : Act S R) (w' : World S R) : Prop :=
  a.Enabled Refill w ∧
    (a.run : Method (World S R) (DerandCOTError E ⊕ DerandCOTError E') Unit).Returns w w'

/-- A careful step. -/
def CarefulStep (Refill : S × R → S × R → Prop) (w : World S R) (a : Act S R) (w' : World S R) :
    Prop := a.Careful w ∧ Step Refill w a w'

/-- The state behind a step of the two sides. -/
def next (w : World S R) (a : Act S R) : Option (World S R) :=
  if a.isEnabled w then
    (a.run : Method (World S R) (DerandCOTError E ⊕ DerandCOTError E') Unit).returned w
  else none

/-- The state behind a careful step of the two sides. -/
def carefulNext (w : World S R) (a : Act S R) : Option (World S R) :=
  if a.Careful w then next w a else none

theorem step_of_next {Refill : S × R → S × R → Prop} (w : World S R) (a : Act S R) (w' : World S R)
    (h : next w a = some w') : Step Refill w a w' := by
  rw [next] at h
  split at h
  next hen => exact ⟨Act.enabled_of_isEnabled hen, .of_returned h⟩
  next => cases h

theorem carefulStep_of_next {Refill : S × R → S × R → Prop} (w : World S R) (a : Act S R)
    (w' : World S R) (h : carefulNext w a = some w') : CarefulStep Refill w a w' := by
  rw [carefulNext] at h
  split at h
  next hcare => exact ⟨hcare, step_of_next w a w' h⟩
  next => cases h

end

/-! ### What is answered -/

/-- The requests, one by one, with the answers of both sides. -/
inductive Answered (delta : Block) : List (List Block) → List (List Bool) → List COTSenderOutput →
    List COTReceiverOutput → Prop where
  | nil : Answered delta [] [] [] []
  | cons {keys sends choices recvs o souts o' routs} : o.id = o'.id →
    Correlated delta keys choices o'.msgs → Answered delta sends recvs souts routs →
    Answered delta (keys :: sends) (choices :: recvs) (o :: souts) (o' :: routs)

namespace Answered

variable {delta : Block} {sends sends' : List (List Block)} {recvs recvs' : List (List Bool)}
  {souts souts' : List COTSenderOutput} {routs routs' : List COTReceiverOutput}

theorem append (h : Answered delta sends recvs souts routs)
    (h' : Answered delta sends' recvs' souts' routs') :
    Answered delta (sends ++ sends') (recvs ++ recvs') (souts ++ souts') (routs ++ routs') := by
  induction h with
  | nil => exact h'
  | cons hid hcorr _ ih => exact cons hid hcorr ih

theorem get (h : Answered delta sends recvs souts routs) {k : ℕ} {o' : COTReceiverOutput}
    (hk : routs[k]? = some o') : ∃ keys choices o, sends[k]? = some keys ∧
      recvs[k]? = some choices ∧ souts[k]? = some o ∧ o.id = o'.id ∧
      Correlated delta keys choices o'.msgs := by
  induction h generalizing k with
  | nil => cases hk
  | cons hid hcorr _ ih =>
    cases k with
    | zero =>
      cases hk
      exact ⟨_, _, _, rfl, rfl, rfl, hid, hcorr⟩
    | succ k => exact ih hk

theorem length_eq (h : Answered delta sends recvs souts routs) : sends.length = routs.length := by
  induction h with
  | nil => rfl
  | cons _ _ _ ih => rw [List.length_cons, List.length_cons, ih]

end Answered

/-- The choices of some requests, masked by those of as many random OTs. -/
def maskChoices (chs : List (List Bool)) (os : List RCOTReceiverOutput) : List Bool :=
  (chs.zipWith (List.zipWith xor) (os.map RCOTReceiverOutput.choices)).flatten

@[simp] theorem maskChoices_cons (ch : List Bool) (chs : List (List Bool)) (o : RCOTReceiverOutput)
    (os : List RCOTReceiverOutput) : maskChoices (ch :: chs) (o :: os) =
      ch.zipWith xor o.choices ++ maskChoices chs os := rfl

theorem length_maskChoices {chs : List (List Bool)} {os : List RCOTReceiverOutput}
    (h : os.map (fun o => o.choices.length) = chs.map List.length) :
    (maskChoices chs os).length = chs.flatten.length := by
  have h' : chs.map List.length = (os.map RCOTReceiverOutput.choices).map List.length := by
    rw [List.map_map]
    exact h.symm
  rw [maskChoices, List.flatten_zipWith_zipWith _ h', List.length_zipWith,
    ← List.length_flatten_congr h', min_self]

/-- The messages are the choices, each masked by one that was drawn for its request. -/
structure Masked (recvs : List (List Bool)) (drawn : List RCOTReceiverOutput)
    (flips : List (List Bool)) : Prop where
  le : drawn.length ≤ recvs.length
  lengths : drawn.map (fun o => o.choices.length) = (recvs.take drawn.length).map List.length
  flips_eq : flips.flatten = maskChoices (recvs.take drawn.length) drawn

namespace Masked

variable {recvs : List (List Bool)} {drawn ahead : List RCOTReceiverOutput}
  {flips : List (List Bool)}

theorem push (h : Masked recvs drawn flips) (choices : List Bool) :
    Masked (recvs ++ [choices]) drawn flips := by
  refine ⟨?_, ?_, ?_⟩
  · rw [List.length_append]
    exact h.le.trans (Nat.le_add_right _ _)
  · rw [List.take_append_of_le_length h.le, h.lengths]
  · rw [List.take_append_of_le_length h.le, h.flips_eq]

/-- One more round, for all that waits. -/
theorem round (h : Masked recvs drawn flips)
    (hlen : ahead.map (fun o => o.choices.length) = (recvs.drop drawn.length).map List.length) :
    Masked recvs (drawn ++ ahead) (flips ++ [maskChoices (recvs.drop drawn.length) ahead]) := by
  have hahead : ahead.length = recvs.length - drawn.length := by
    have := congrArg List.length hlen
    rwa [List.length_map, List.length_map, List.length_drop] at this
  have hall : (drawn ++ ahead).length = recvs.length := by
    rw [List.length_append, hahead, Nat.add_sub_cancel' h.le]
  have htake : (recvs.take drawn.length).length =
      (drawn.map RCOTReceiverOutput.choices).length := by
    rw [List.length_take, List.length_map, min_eq_left h.le]
  refine ⟨hall.le, ?_, ?_⟩
  · rw [List.map_append, h.lengths, hlen, ← List.map_append, List.take_append_drop, hall,
      List.take_length]
  · rw [List.flatten_append, h.flips_eq, List.flatten_singleton, maskChoices, maskChoices,
      maskChoices, ← List.flatten_append, ← List.zipWith_append htake, ← List.map_append,
      List.take_append_drop, hall, List.take_length]

end Masked

/-! ### The steps of a round -/

section Round

variable {S R E E' : Type} [RCOTSender S E] [RCOTReceiver R E'] {delta : Block}
  {Refill : S × R → S × R → Prop} (c : CorrectRCOT S R delta Refill)

/-- What the receiver keeps of an RCOT. -/
def toCot (o : RCOTReceiverOutput) : COTReceiverOutput := ⟨o.id, o.msgs⟩

/-- **The receiver begins.** Where the OTs suffice for all requests, each one has its choices masked
by random ones. -/
theorem receiver_adjustFrom {queue : List Queued} {chs : List (List Bool)}
    (hq : queue.map Queued.count = chs.map List.length) {ahead : List RCOTReceiverOutput} {s : S}
    {t : DerandCOTReceiver (Logged R)} (hrel : c.Rel ahead s t.rcot.rcot)
    (hav : chs.flatten.length ≤ RCOTReceiver.available t.rcot) :
    ∃ os r, (DerandCOTReceiver.adjustFrom queue chs.flatten :
        Method _ (DerandCOTError E') _) t =
        (.ok (maskChoices chs os, ⟨(chs.map List.length).sum, os.map toCot⟩),
          { t with rcot := ⟨r, t.rcot.drawn ++ os⟩ }) ∧
      os.map (fun o => o.choices.length) = chs.map List.length ∧ c.Rel (ahead ++ os) s r := by
  induction queue generalizing chs ahead t with
  | nil =>
    obtain rfl : chs = [] := List.map_eq_nil_iff.mp hq.symm
    refine ⟨[], t.rcot.rcot, ?_, rfl, ?_⟩
    · rw [List.append_nil]
      rfl
    · rwa [List.append_nil]
  | cons q queue ih =>
    cases chs with
    | nil => cases hq
    | cons ch chs =>
      rw [List.map_cons, List.map_cons, List.cons.injEq] at hq
      obtain ⟨hcount, hq⟩ := hq
      rw [List.flatten_cons, List.length_append] at hav
      obtain ⟨o, r', hrun, hchoices, hmsgs, havail, hdrawn, hrel'⟩ :=
        c.recv_logged hrel (n := q.count) (by omega)
      obtain ⟨os, r, hloop, hlens, hrel''⟩ := ih hq (t := { t with rcot := r' }) hrel' (by
        show chs.flatten.length ≤ RCOTReceiver.available r'
        omega)
      refine ⟨o :: os, r, ?_, ?_, ?_⟩
      · rw [DerandCOTReceiver.adjustFrom, Method.get_bind, if_neg (by omega),
          Method.bind_apply_of_ok (Method.zoom_eq_ok.mpr ⟨r', hrun, rfl⟩), if_neg (by
            rw [List.flatten_cons, List.length_append]
            omega)]
        rw [List.flatten_cons, List.take_left' hcount.symm, List.drop_left' hcount.symm,
          Method.bind_apply_of_ok hloop, List.zipUpdate_eq _ (by omega)]
        show (Outcome.ok _, _) = _
        rw [hdrawn, List.append_assoc, hcount]
        rfl
      · rw [List.map_cons, List.map_cons, hlens, hchoices, hcount]
      · rwa [List.append_cons]

/-- The key that is sent takes the random one away and puts the given one in its place. -/
theorem corrMsg_adjustKey (key k : Block) (choice mask : Bool) :
    corrMsg delta k mask ^^^ DerandCOTSender.adjustKey delta key (xor choice mask, k) =
      corrMsg delta key choice := by
  have hxor : ∀ x y z : Block, x ^^^ (y ^^^ x ^^^ z) = y ^^^ z := by
    intro x y z
    rw [BitVec.xor_comm y x, BitVec.xor_assoc, ← BitVec.xor_assoc, BitVec.xor_self, BitVec.zero_xor]
  cases choice <;> cases mask
  · exact (hxor _ _ _).trans BitVec.xor_zero
  · show k ^^^ delta ^^^ (key ^^^ k ^^^ delta) = key
    rw [BitVec.xor_comm k delta, BitVec.xor_assoc, BitVec.xor_comm (key ^^^ k) delta,
      ← BitVec.xor_assoc k, BitVec.xor_comm k delta, BitVec.xor_assoc delta, ← BitVec.xor_assoc,
      BitVec.xor_self, BitVec.zero_xor, BitVec.xor_comm key k, ← BitVec.xor_assoc, BitVec.xor_self,
      BitVec.zero_xor]
  · exact hxor _ _ _
  · show k ^^^ delta ^^^ (key ^^^ k ^^^ Block.zero) = key ^^^ delta
    rw [show Block.zero = 0#128 from rfl, BitVec.xor_zero, BitVec.xor_comm k delta,
      BitVec.xor_assoc, BitVec.xor_comm key k, ← BitVec.xor_assoc k, BitVec.xor_self,
      BitVec.zero_xor, BitVec.xor_comm]

/-- The adjusted messages of a request. -/
theorem correlated_adjusted {k keys : List Block} {choices : List Bool} {o : RCOTReceiverOutput}
    (h : Correlated delta k o.choices o.msgs) (hkeys : keys.length = o.choices.length)
    (hchoices : choices.length = o.choices.length) :
    Correlated delta keys choices (o.msgs.zipWith (· ^^^ ·)
      (keys.zipWith (DerandCOTSender.adjustKey delta)
        ((choices.zipWith xor o.choices).zip k))) := by
  refine ⟨hchoices.trans hkeys.symm, List.ext_getElem ?_ fun i hi hi' => ?_⟩
  · simp only [List.length_zipWith, List.length_zip, h.length_msgs, ← h.length_eq, hkeys, hchoices,
      min_self]
  · simp only [List.getElem_zipWith, List.getElem_zip, h.msgs_eq]
    exact corrMsg_adjustKey _ _ _ _

/-- **The sender adjusts.** It takes the OTs that the receiver is ahead by. -/
theorem sender_adjustFrom {queue : List Queued} {sends : List (List Block)}
    {recvs : List (List Bool)} {ahead : List RCOTReceiverOutput}
    (hq : queue.map Queued.count = ahead.map fun o => o.choices.length)
    (hs : sends.map List.length = ahead.map fun o => o.choices.length)
    (hr : recvs.map List.length = ahead.map fun o => o.choices.length) {r : R}
    {t : DerandCOTSender S} (hrel : c.Rel ahead t.rcot r) :
    ∃ adjust souts s, (DerandCOTSender.adjustFrom delta queue sends.flatten
        (maskChoices recvs ahead) : Method _ (DerandCOTError E) _) t = (.ok adjust, { t with
          rcot := s
          futures := t.futures.answer queue souts }) ∧
      adjust.length = (queue.map Queued.count).sum ∧ souts.length = queue.length ∧ c.Rel [] s r ∧
      Answered delta sends recvs souts (DerandCOTReceiver.finish (ahead.map toCot) adjust) := by
  induction queue generalizing sends recvs ahead t with
  | nil =>
    obtain rfl : ahead = [] := List.map_eq_nil_iff.mp hq.symm
    obtain rfl : sends = [] := List.map_eq_nil_iff.mp hs
    obtain rfl : recvs = [] := List.map_eq_nil_iff.mp hr
    refine ⟨[], [], t.rcot, ?_, rfl, rfl, hrel, .nil⟩
    rw [Futures.answer_nil]
    rfl
  | cons q queue ih =>
    cases ahead with
    | nil => cases hq
    | cons o ahead =>
    cases sends with
    | nil => cases hs
    | cons keys sends =>
    cases recvs with
    | nil => cases hr
    | cons choices recvs =>
      simp only [List.map_cons, List.cons.injEq] at hq hs hr
      obtain ⟨hcount, hq⟩ := hq
      obtain ⟨hkeys, hs⟩ := hs
      obtain ⟨hchoices, hr⟩ := hr
      obtain ⟨k, s', hsend, hid, hcorr, hrel'⟩ := c.send hrel
      obtain ⟨adjust, souts, s, hloop, hlen, hids, hrel'', hans⟩ := ih hq hs hr (t := { t with
        rcot := s', futures := t.futures.send q.sender ⟨k.id⟩ }) hrel'
      have hflip : (choices.zipWith xor o.choices).length = q.count := by
        rw [List.length_zipWith, hchoices, min_self, hcount]
      have hpairs : ((choices.zipWith xor o.choices).zip k.keys).length = keys.length := by
        rw [List.length_zip, hflip, ← hcorr.length_eq, hcount, min_self, hkeys]
      rw [← hcount] at hsend
      refine ⟨keys.zipWith (DerandCOTSender.adjustKey delta)
        ((choices.zipWith xor o.choices).zip k.keys) ++ adjust, ⟨k.id⟩ :: souts, s, ?_, ?_, ?_,
        hrel'', ?_⟩
      · rw [DerandCOTSender.adjustFrom,
          Method.bind_apply_of_ok (Method.zoom_eq_ok.mpr ⟨s', hsend, rfl⟩),
          maskChoices_cons, List.flatten_cons, if_neg, Method.modify_bind,
          List.take_left' (hkeys.trans hcount.symm), List.take_left' hflip,
          List.drop_left' (hkeys.trans hcount.symm), List.drop_left' hflip,
          Method.bind_apply_of_ok hloop, List.zipUpdate_eq _ hpairs.ge]
        · rw [Futures.answer_cons]
          rfl
        · rw [List.length_append, List.length_append, hflip, hkeys, hcount]
          omega
      · rw [List.length_append, List.length_zipWith, hpairs, min_self, hlen, List.map_cons,
          List.sum_cons, hkeys, hcount]
      · rw [List.length_cons, List.length_cons, hids]
      · have hmsgs : o.msgs.length = (keys.zipWith (DerandCOTSender.adjustKey delta)
            ((choices.zipWith xor o.choices).zip k.keys)).length := by
          rw [hcorr.length_msgs, ← hcorr.length_eq, List.length_zipWith, hpairs, min_self, hkeys]
        show Answered delta (keys :: sends) (choices :: recvs) (⟨k.id⟩ :: souts)
          (⟨o.id, List.zipUpdate (· ^^^ ·) o.msgs _⟩ ::
            DerandCOTReceiver.finish (ahead.map toCot) (List.drop o.msgs.length _))
        rw [List.zipUpdate_append _ hmsgs, List.drop_left' hmsgs.symm]
        exact .cons hid (correlated_adjusted hcorr hkeys hchoices) hans

omit [RCOTReceiver R E'] in
theorem length_finish (cots : List COTReceiverOutput) (adjust : List Block) :
    (DerandCOTReceiver.finish cots adjust).length = cots.length := by
  induction cots generalizing adjust with
  | nil => rfl
  | cons o cots ih =>
    rw [DerandCOTReceiver.finish, List.length_cons, List.length_cons, ih]

/-! ### The invariant -/

/-- What a round has done so far. Of the requests, `souts` were answered by the sender and `routs`
by the receiver. -/
def InRound (w : World S R) (souts : List COTSenderOutput) (routs : List COTReceiverOutput) :
    Round → Prop
  | .idle => souts.length = routs.length ∧ w.receiver.rcot.drawn.length = routs.length ∧
      w.receiver.derandomize = (w.recvs.drop routs.length).flatten ∧
      c.Rel [] w.sender.rcot w.receiver.rcot.rcot
  | .flipped flip recv => souts.length = routs.length ∧ w.receiver.derandomize = [] ∧
      w.receiver.rcot.drawn.length = w.recvs.length ∧
      ∃ ahead, c.Rel ahead w.sender.rcot w.receiver.rcot.rcot ∧
        ahead.map (fun o => o.choices.length) = (w.recvs.drop routs.length).map List.length ∧
        flip = maskChoices (w.recvs.drop routs.length) ahead ∧
        recv = ⟨((w.recvs.drop routs.length).map List.length).sum, ahead.map toCot⟩
  | .adjusted adjust recv => souts.length = w.recvs.length ∧ w.receiver.derandomize = [] ∧
      w.receiver.rcot.drawn.length = w.recvs.length ∧
      c.Rel [] w.sender.rcot w.receiver.rcot.rcot ∧ adjust.length = recv.count ∧
      Answered delta ((w.sends.take w.recvs.length).drop routs.length)
        (w.recvs.drop routs.length) (souts.drop routs.length)
        (DerandCOTReceiver.finish recv.cots adjust)

/-- The requests that were answered were answered well, and the others wait with their keys and
choices. -/
structure Inv (w : World S R) (souts : List COTSenderOutput) (routs : List COTReceiverOutput) :
    Prop where
  sends : Requests List.length w.sends w.sender.queue w.sender.futures souts
  recvs : Requests List.length w.recvs w.receiver.queue w.receiver.futures routs
  keys : w.sender.adjust = (w.sends.drop souts.length).flatten
  masked : Masked w.recvs w.receiver.rcot.drawn w.flips
  le : routs.length ≤ souts.length
  answered : Answered delta (w.sends.take routs.length) (w.recvs.take routs.length)
    (souts.take routs.length) routs
  round : InRound c w souts routs w.round

variable {c} {w : World S R} {souts : List COTSenderOutput} {routs : List COTReceiverOutput}

theorem Inv.new {s : S} {r : R} (h : c.Rel [] s r) : Inv c (.new s r) [] [] where
  sends := .new _
  recvs := .new _
  keys := rfl
  masked := ⟨le_rfl, rfl, rfl⟩
  le := le_rfl
  answered := .nil
  round := ⟨rfl, rfl, rfl, h⟩

/-- What a step leads to. -/
def Leads (c : CorrectRCOT S R delta Refill) (w : World S R) (a : Act S R) : Prop :=
  ∃ w', (a.run : Method (World S R) (DerandCOTError E ⊕ DerandCOTError E') Unit) w = (.ok (), w') ∧
    ∃ souts routs, Inv c w' souts routs

namespace Inv

variable (h : Inv c w souts routs)
include h

theorem queueSend (keys : List Block) : Leads c w (.queueSend keys) := by
  have hle : routs.length ≤ w.sends.length := h.le.trans h.sends.le
  refine ⟨_, rfl, souts, routs, h.sends.push keys, h.recvs, ?_, h.masked, h.le, ?_, ?_⟩
  · show w.sender.adjust ++ keys = ((w.sends ++ [keys]).drop souts.length).flatten
    rw [h.keys, List.drop_append_of_le_length h.sends.le, List.flatten_append,
      List.flatten_singleton]
  · show Answered delta ((w.sends ++ [keys]).take routs.length) _ _ _
    rw [List.take_append_of_le_length hle]
    exact h.answered
  · have hround := h.round
    show InRound c _ souts routs w.round
    cases hw : w.round with
    | idle => rwa [hw] at hround
    | flipped flip recv => rwa [hw] at hround
    | adjusted adjust recv =>
      rw [hw] at hround
      obtain ⟨hs, hd, hdrawn, hrel, hlen, hans⟩ := hround
      refine ⟨hs, hd, hdrawn, hrel, hlen, ?_⟩
      show Answered delta (((w.sends ++ [keys]).take w.recvs.length).drop routs.length) _ _ _
      rwa [List.take_append_of_le_length (hs ▸ h.sends.le)]

theorem queueRecv (hidle : w.round = .idle) (choices : List Bool) :
    Leads c w (.queueRecv choices) := by
  have hround := h.round
  rw [hidle] at hround
  obtain ⟨hs, hdrawn, hd, hrel⟩ := hround
  refine ⟨_, rfl, souts, routs, h.sends, h.recvs.push choices, h.keys, h.masked.push choices, h.le,
    ?_, ?_⟩
  · show Answered delta _ ((w.recvs ++ [choices]).take routs.length) _ _
    rw [List.take_append_of_le_length h.recvs.le]
    exact h.answered
  · show InRound c _ souts routs w.round
    rw [hidle]
    refine ⟨hs, hdrawn, ?_, hrel⟩
    show w.receiver.derandomize ++ choices = ((w.recvs ++ [choices]).drop routs.length).flatten
    rw [hd, List.drop_append_of_le_length h.recvs.le, List.flatten_append, List.flatten_singleton]

theorem refill (hidle : w.round = .idle) {s : S} {r : R}
    (hr : Refill (w.sender.rcot, w.receiver.rcot.rcot) (s, r)) : Leads c w (.refill s r) := by
  have hround := h.round
  rw [hidle] at hround
  obtain ⟨hs, hdrawn, hd, hrel⟩ := hround
  refine ⟨_, rfl, souts, routs, h.sends, h.recvs, h.keys, h.masked, h.le, h.answered, ?_⟩
  show InRound c _ souts routs w.round
  rw [hidle]
  exact ⟨hs, hdrawn, hd, c.refill hrel hr⟩

/-- The receiver masks the choices of all requests. -/
theorem beginRound (hidle : w.round = .idle)
    (hcare : w.receiver.derandomize.length ≤ RCOTReceiver.available w.receiver.rcot) :
    ∃ w' flip recv, (Act.beginRound.run :
        Method (World S R) (DerandCOTError E ⊕ DerandCOTError E') Unit) w = (.ok (), w') ∧
      Inv c w' souts routs ∧ w'.round = .flipped flip recv ∧ w'.sender = w.sender ∧
      w'.receiver.queue = w.receiver.queue ∧ w'.recvs = w.recvs := by
  have hround := h.round
  rw [hidle] at hround
  obtain ⟨hs, hdrawn, hd, hrel⟩ := hround
  rw [hd] at hcare
  obtain ⟨os, r, hrun, hlens, hrel'⟩ := receiver_adjustFrom c h.recvs.map_count
    (t := { w.receiver with derandomize := [] }) hrel hcare
  rw [List.nil_append] at hrel'
  have hadjust : (DerandCOTReceiver.adjust : Method _ (DerandCOTError E') _) w.receiver =
      DerandCOTReceiver.adjustFrom w.receiver.queue (w.recvs.drop routs.length).flatten
        { w.receiver with derandomize := [] } := by
    rw [DerandCOTReceiver.adjust, Method.get_bind, Method.modify_bind, hd]
  have hmasked := h.masked.round (show os.map (fun o => o.choices.length) = _ by rw [hdrawn, hlens])
  rw [hdrawn] at hmasked
  refine ⟨{ w with
    receiver := { w.receiver with rcot := ⟨r, w.receiver.rcot.drawn ++ os⟩, derandomize := [] }
    round := .flipped (maskChoices (w.recvs.drop routs.length) os)
      ⟨((w.recvs.drop routs.length).map List.length).sum, os.map toCot⟩
    flips := w.flips ++ [maskChoices (w.recvs.drop routs.length) os] },
    _, _, ?_, ⟨h.sends, h.recvs, h.keys, hmasked, h.le, h.answered, ?_⟩, rfl, rfl, rfl, rfl⟩
  · rw [Act.run, Method.bind_apply_of_ok (onReceiver_ok (hadjust.trans hrun))]
    rfl
  · refine ⟨hs, rfl, ?_, os, hrel', hlens, ?_, rfl⟩
    · show (w.receiver.rcot.drawn ++ os).length = w.recvs.length
      have := congrArg List.length hlens
      rw [List.length_map, List.length_map, List.length_drop] at this
      rw [List.length_append, hdrawn, this, Nat.add_sub_cancel' h.recvs.le]
    · rfl

/-- The sender adjusts the keys of the requests of the round. -/
theorem adjustKeys {flip : List Bool} {recv : ReceiveAdjust} (hround : w.round = .flipped flip recv)
    (hcare : w.sender.queue.map Queued.count = w.receiver.queue.map Queued.count) :
    ∃ w' souts adjust recv, (Act.adjustKeys.run :
        Method (World S R) (DerandCOTError E ⊕ DerandCOTError E') Unit) w = (.ok (), w') ∧
      Inv c w' souts routs ∧ w'.round = .adjusted adjust recv ∧ w'.recvs = w.recvs := by
  have hin := h.round
  rw [hround] at hin
  obtain ⟨hs, hd, hdrawn, ahead, hrel, hlens, rfl, rfl⟩ := hin
  -- both sides wait for the same requests
  have hqs := hcare.trans h.recvs.map_count
  have hsends := hqs.symm.trans h.sends.map_count
  rw [hs] at hsends
  obtain ⟨adjust, sids, s, hrun, hlen, hids, hrel', hans⟩ := sender_adjustFrom c
    (hqs.trans hlens.symm) (hsends.symm.trans hlens.symm) hlens.symm
    (t := { w.sender with adjust := [], queue := [] }) hrel
  have hflip : (maskChoices (w.recvs.drop routs.length) ahead).length =
      w.sender.adjust.length := by
    rw [length_maskChoices hlens, h.keys, hs, List.length_flatten_congr hsends]
  have hmsg : (DerandCOTSender.adjustMsg (maskChoices (w.recvs.drop routs.length) ahead) :
      Method _ (DerandCOTError E) _) w.sender =
      DerandCOTSender.adjustFrom delta w.sender.queue (w.sends.drop routs.length).flatten
        (maskChoices (w.recvs.drop routs.length) ahead)
        { w.sender with adjust := [], queue := [] } := by
    rw [DerandCOTSender.adjustMsg, Method.get_bind, if_neg (not_not.mpr hflip), Method.modify_bind,
      c.delta_eq hrel, h.keys, hs]
  have hserved := h.sends.serve _ hids
  have hlength : (souts ++ sids).length = w.recvs.length := by
    have := congrArg List.length hcare
    rw [List.length_map, List.length_map] at this
    rw [List.length_append, hids, this, hs, h.recvs.length_queue]
  have hall : (souts ++ sids).length = w.sends.length := by
    have := hserved.length_queue
    rwa [List.length_nil, Nat.add_zero] at this
  refine ⟨{ w with
    sender := { w.sender with
      rcot := s
      adjust := []
      queue := []
      futures := w.sender.futures.answer w.sender.queue sids }
    round := .adjusted adjust
      ⟨((w.recvs.drop routs.length).map List.length).sum, ahead.map toCot⟩ },
    souts ++ sids, _, _, ?_, ⟨hserved, h.recvs, ?_, h.masked, ?_, ?_, ?_⟩, rfl, rfl⟩
  · rw [Act.run, Method.get_bind, Method.modify_bind, hround]
    exact Method.bind_apply_of_ok (onSender_ok (w := { w with round := .idle }) (hmsg.trans hrun))
  · show [] = (w.sends.drop (souts ++ sids).length).flatten
    rw [hall, List.drop_length]
    rfl
  · rw [List.length_append]
    exact h.le.trans (Nat.le_add_right _ _)
  · rw [List.take_append_of_le_length h.le]
    exact h.answered
  · refine ⟨hlength, hd, hdrawn, hrel', ?_, ?_⟩
    · rw [hlen, hqs]
    · show Answered delta ((w.sends.take w.recvs.length).drop routs.length) _ _ _
      rw [← hlength, hall, List.take_length, ← hs, List.drop_left]
      rwa [hs]

omit h [RCOTReceiver R E'] in
theorem forEach_send (queue : List Queued) (os : List COTReceiverOutput)
    (r : DerandCOTReceiver (Logged R)) :
    (Method.forEach (fun p => Method.modify fun s => { s with
      futures := s.futures.send p.1.sender p.2 }) (queue.zip os) :
      Method (DerandCOTReceiver (Logged R)) (DerandCOTError E') Unit) r =
      (.ok (), { r with futures := r.futures.answer queue os }) := by
  induction queue generalizing os r with
  | nil => rw [Futures.answer_nil]; rfl
  | cons q queue ih =>
    cases os with
    | nil =>
      rw [Futures.answer, List.zipWith_nil_right, List.append_nil]
      rfl
    | cons o os =>
      rw [List.zip_cons_cons, Method.forEach, Method.modify_bind, ih, Futures.answer_cons]

/-- The receiver answers the requests of the round. -/
theorem endRound {adjust : List Block} {recv : ReceiveAdjust}
    (hround : w.round = .adjusted adjust recv) :
    ∃ w' routs, (Act.endRound.run :
        Method (World S R) (DerandCOTError E ⊕ DerandCOTError E') Unit) w = (.ok (), w') ∧
      Inv c w' souts routs ∧ routs.length = w.recvs.length ∧ w'.recvs = w.recvs := by
  have hin := h.round
  rw [hround] at hin
  obtain ⟨hs, hd, hdrawn, hrel, hlen, hans⟩ := hin
  have hcots : recv.cots.length = w.receiver.queue.length := by
    have := hans.length_eq
    have hq := h.recvs.length_queue
    have hsends := h.sends.le
    rw [length_finish, List.length_drop, List.length_take] at this
    omega
  have hrun : (DerandCOTReceiver.receive recv adjust : Method _ (DerandCOTError E') _) w.receiver =
      (.ok (), { w.receiver with
        queue := []
        futures := w.receiver.futures.answer w.receiver.queue
          (DerandCOTReceiver.finish recv.cots adjust) }) := by
    rw [DerandCOTReceiver.receive, Method.get_bind, if_neg (not_not.mpr hlen),
      if_neg hcots.le.not_gt, Method.modify_bind, hcots, List.take_length, List.drop_length]
    exact forEach_send _ _ _
  have hserved := h.recvs.serve (DerandCOTReceiver.finish recv.cots adjust) (by
    rw [length_finish, hcots])
  have hall : (routs ++ DerandCOTReceiver.finish recv.cots adjust).length = w.recvs.length := by
    have := hserved.length_queue
    rwa [List.length_nil, Nat.add_zero] at this
  refine ⟨{ w with
    receiver := { w.receiver with
      queue := []
      futures := w.receiver.futures.answer w.receiver.queue
        (DerandCOTReceiver.finish recv.cots adjust) }
    round := .idle }, routs ++ DerandCOTReceiver.finish recv.cots adjust, ?_,
    ⟨h.sends, hserved, h.keys, h.masked, ?_, ?_, ?_⟩, hall, rfl⟩
  · rw [Act.run, Method.get_bind, Method.modify_bind, hround]
    exact onReceiver_ok (w := { w with round := .idle }) hrun
  · rw [hall, hs]
  · have hbefore : w.sends.take routs.length = (w.sends.take w.recvs.length).take routs.length := by
      rw [List.take_take, min_eq_left h.recvs.le]
    have := h.answered.append hans
    rw [hbefore, List.take_append_drop, List.take_append_drop, List.take_append_drop] at this
    show Answered delta (w.sends.take _) (w.recvs.take _) (souts.take _) _
    rwa [hall, List.take_length, ← hs, List.take_length, hs]
  · refine ⟨?_, ?_, ?_, hrel⟩
    · rw [hall, hs]
    · rw [hall, hdrawn]
    · show w.receiver.derandomize = (w.recvs.drop _).flatten
      rw [hd, hall, List.drop_length]
      rfl

/-- **A careful step goes through and keeps the invariant.** -/
theorem leads {a : Act S R} (hcare : a.Careful w) (hen : a.Enabled Refill w) : Leads c w a := by
  cases a with
  | queueSend keys => exact h.queueSend keys
  | queueRecv choices => exact h.queueRecv hen choices
  | refill s r => exact h.refill hen.1 hen.2
  | beginRound =>
    obtain ⟨w', _, _, hrun, hinv, -⟩ := h.beginRound hen hcare
    exact ⟨w', hrun, souts, routs, hinv⟩
  | adjustKeys =>
    obtain ⟨flip, recv, hround⟩ := hen
    obtain ⟨w', souts', _, _, hrun, hinv, -⟩ := h.adjustKeys hround hcare
    exact ⟨w', hrun, souts', routs, hinv⟩
  | endRound =>
    obtain ⟨adjust, recv, hround⟩ := hen
    obtain ⟨w', routs', hrun, hinv, -⟩ := h.endRound hround
    exact ⟨w', hrun, souts, routs', hinv⟩

end Inv

end Round

/-! ### What the invariant gives -/

section Serves

variable {S R E E' : Type} [RCOTSender S E] [RCOTReceiver R E'] {delta : Block}
  {Refill : S × R → S × R → Prop} {c : CorrectRCOT S R delta Refill} {w : World S R}
  {souts : List COTSenderOutput} {routs : List COTReceiverOutput}

variable (delta Refill) in
/-- What is promised of a state. -/
structure Serves (w : World S R) : Prop where
  /-- Every bit that was sent is a choice masked by one that was drawn for it. -/
  masked : Masked w.recvs w.receiver.rcot.drawn w.flips
  /-- The message covers the requests that wait, and all of them are being served. -/
  covers : ∀ flip recv, w.round = .flipped flip recv →
    flip.length = (w.receiver.queue.map Queued.count).sum ∧
      recv.cots.length = w.receiver.queue.length
  /-- What was answered is right. -/
  answered : ∀ k o', w.receiver.futures.tryRecv k = some o' → ∃ keys choices o,
    w.sends[k]? = some keys ∧ w.recvs[k]? = some choices ∧
      w.sender.futures.tryRecv k = some o ∧ o.id = o'.id ∧ Correlated delta keys choices o'.msgs
  /-- Between rounds the other requests wait on both sides, with their keys and choices. -/
  waiting : w.round = .idle → ∃ m, (∀ k, (w.receiver.futures.tryRecv k).isSome ↔ k < m) ∧
    (∀ k, (w.sender.futures.tryRecv k).isSome ↔ k < m) ∧
    w.receiver.derandomize = (w.recvs.drop m).flatten ∧
    w.receiver.queue.map Queued.count = (w.recvs.drop m).map List.length ∧
    w.sender.adjust = (w.sends.drop m).flatten ∧
    w.sender.queue.map Queued.count = (w.sends.drop m).map List.length
  /-- No careful step fails. -/
  succeeds : ∀ a : Act S R, a.Careful w → a.Enabled Refill w → ∃ w',
    (a.run : Method (World S R) (DerandCOTError E ⊕ DerandCOTError E') Unit) w = (.ok (), w')
  /-- One round answers all requests, once there are enough OTs for them. -/
  served : w.round = .idle →
    w.receiver.derandomize.length ≤ RCOTReceiver.available w.receiver.rcot →
    w.sender.queue.map Queued.count = w.receiver.queue.map Queued.count →
    ∃ w', Run (CarefulStep Refill) w [.beginRound, .adjustKeys, .endRound] w' ∧
      w'.recvs = w.recvs ∧ ∀ k < w.recvs.length, (w'.receiver.futures.tryRecv k).isSome
  /-- A message of the wrong length is refused, and changes nothing. -/
  refused : ∀ flip : List Bool, flip.length ≠ w.sender.adjust.length →
    (DerandCOTSender.adjustMsg flip : Method _ (DerandCOTError E) _) w.sender =
      (.err (.wrongLength flip.length w.sender.adjust.length), w.sender)

namespace Inv

variable (h : Inv c w souts routs)
include h

theorem covers {flip : List Bool} {recv : ReceiveAdjust} (hround : w.round = .flipped flip recv) :
    flip.length = (w.receiver.queue.map Queued.count).sum ∧
      recv.cots.length = w.receiver.queue.length := by
  have hin := h.round
  rw [hround] at hin
  obtain ⟨-, -, -, ahead, -, hlens, rfl, rfl⟩ := hin
  refine ⟨?_, ?_⟩
  · rw [length_maskChoices hlens, h.recvs.map_count, List.length_flatten]
  · have := congrArg List.length (hlens.trans h.recvs.map_count.symm)
    rw [List.length_map, List.length_map] at this
    rwa [List.length_map]

theorem answered_future {k : ℕ} {o' : COTReceiverOutput}
    (hk : w.receiver.futures.tryRecv k = some o') : ∃ keys choices o,
    w.sends[k]? = some keys ∧ w.recvs[k]? = some choices ∧
      w.sender.futures.tryRecv k = some o ∧ o.id = o'.id ∧
      Correlated delta keys choices o'.msgs := by
  rw [h.recvs.tryRecv] at hk
  have hlt : k < routs.length := (List.getElem?_eq_some_iff.mp hk).1
  obtain ⟨keys, choices, o, hkeys, hchoices, ho, hid, hcorr⟩ := h.answered.get hk
  rw [List.getElem?_take_of_lt hlt] at hkeys hchoices ho
  refine ⟨keys, choices, o, hkeys, hchoices, ?_, hid, hcorr⟩
  rw [h.sends.tryRecv, ho]

theorem waiting (hidle : w.round = .idle) :
    ∃ m, (∀ k, (w.receiver.futures.tryRecv k).isSome ↔ k < m) ∧
      (∀ k, (w.sender.futures.tryRecv k).isSome ↔ k < m) ∧
      w.receiver.derandomize = (w.recvs.drop m).flatten ∧
      w.receiver.queue.map Queued.count = (w.recvs.drop m).map List.length ∧
      w.sender.adjust = (w.sends.drop m).flatten ∧
      w.sender.queue.map Queued.count = (w.sends.drop m).map List.length := by
  have hin := h.round
  rw [hidle] at hin
  obtain ⟨hs, -, hd, -⟩ := hin
  refine ⟨routs.length, fun k => ?_, fun k => ?_, hd, h.recvs.map_count, ?_, ?_⟩
  · rw [h.recvs.tryRecv, isSome_getElem?]
  · rw [h.sends.tryRecv, isSome_getElem?, hs]
  · rw [h.keys, hs]
  · rw [h.sends.map_count, hs]

theorem served (hidle : w.round = .idle)
    (hav : w.receiver.derandomize.length ≤ RCOTReceiver.available w.receiver.rcot)
    (hsame : w.sender.queue.map Queued.count = w.receiver.queue.map Queued.count) :
    ∃ w', Run (CarefulStep Refill) w [.beginRound, .adjustKeys, .endRound] w' ∧
      w'.recvs = w.recvs ∧ ∀ k < w.recvs.length, (w'.receiver.futures.tryRecv k).isSome := by
  obtain ⟨w₁, flip, recv, hrun₁, h₁, hround₁, hsender, hqueue, hrecvs₁⟩ := h.beginRound hidle hav
  have hsame₁ : w₁.sender.queue.map Queued.count = w₁.receiver.queue.map Queued.count := by
    rw [hsender, hqueue, hsame]
  obtain ⟨w₂, souts', adjust, recv', hrun₂, h₂, hround₂, hrecvs₂⟩ := h₁.adjustKeys hround₁ hsame₁
  obtain ⟨w₃, routs', hrun₃, h₃, hlen, hrecvs₃⟩ := h₂.endRound hround₂
  have hstep₁ : CarefulStep Refill w .beginRound w₁ := ⟨hav, hidle, .ok (), nofun, hrun₁⟩
  have hstep₂ : CarefulStep Refill w₁ .adjustKeys w₂ :=
    ⟨hsame₁, ⟨flip, recv, hround₁⟩, .ok (), nofun, hrun₂⟩
  have hstep₃ : CarefulStep Refill w₂ .endRound w₃ :=
    ⟨trivial, ⟨adjust, recv', hround₂⟩, .ok (), nofun, hrun₃⟩
  refine ⟨w₃, ((Run.single hstep₁).snoc hstep₂).snoc hstep₃, ?_, fun k hk => ?_⟩
  · rw [hrecvs₃, hrecvs₂, hrecvs₁]
  · rw [h₃.recvs.tryRecv, isSome_getElem?, hlen, hrecvs₂, hrecvs₁]
    exact hk

theorem serves : Serves delta Refill w where
  masked := h.masked
  covers _ _ := h.covers
  answered _ _ := h.answered_future
  waiting := h.waiting
  succeeds _ hcare hen := by
    obtain ⟨w', hrun, -⟩ := h.leads hcare hen
    exact ⟨w', hrun⟩
  served := h.served
  refused flip hflip := by
    rw [DerandCOTSender.adjustMsg, Method.get_bind, if_pos hflip]
    rfl

end Inv

end Serves

end Derand

open Derand

/-- **Every choice is masked and every request is answered**, in every run of careful steps. -/
theorem derand_serves {S R E E' : Type} [RCOTSender S E] [RCOTReceiver R E'] {delta : Block}
    {Refill : S × R → S × R → Prop} (c : CorrectRCOT S R delta Refill) {s : S} {r : R}
    (hstart : c.Rel [] s r) {acts : List (Act S R)} {w : World S R}
    (h : Run (CarefulStep Refill) (.new s r) acts w) : Serves delta Refill w := by
  have hinv := h.invariant (P := fun w => ∃ souts routs, Inv c w souts routs)
    ⟨[], [], Inv.new hstart⟩ ?_
  · obtain ⟨souts, routs, hinv⟩ := hinv
    exact hinv.serves
  · rintro t a u ⟨souts, routs, hinv⟩ ⟨hcare, hen, hret⟩
    obtain ⟨w', hrun, hinv'⟩ := hinv.leads hcare hen
    rw [← hret.eq, hrun]
    exact hinv'

/-- A run with two requests, on three random OTs. -/
theorem run_two : ∃ w, Run (CarefulStep fun p q => ∃ count, IdealRCOT.Refill count p q)
    (.new { IdealRCOTSender.new 0 1 with keys := [5, 6, 7] }
      { IdealRCOTReceiver.new fun _ => false with
        choices := [true, false, true], msgs := [4, 6, 6] })
    [.queueSend [8, 9], .queueRecv [true, false], .queueSend [10], .queueRecv [true], .beginRound,
      .adjustKeys, .endRound] w ∧ w.receiver.futures.tryRecv 1 = some ⟨1, [11]⟩ :=
  ⟨_, Run.of_isSome carefulNext carefulStep_of_next (by decide +kernel), by decide +kernel⟩

/-- Both requests of the run are answered. -/
theorem derand_serves_two : ∃ w, Serves 1 (fun p q => ∃ count, IdealRCOT.Refill count p q) w ∧
    w.receiver.futures.tryRecv 1 = some ⟨1, [11]⟩ := by
  obtain ⟨w, hrun, hsent⟩ := run_two
  exact ⟨w, derand_serves (IdealRCOT.correct 1) ⟨rfl, rfl, rfl, rfl, rfl, rfl⟩ hrun, hsent⟩

/-- A choice that there is no OT for is sent as it is. -/
theorem choice_revealed : ∃ w, Run (Step fun p q => ∃ count, IdealRCOT.Refill count p q)
    (.new (IdealRCOTSender.new 0 1) (IdealRCOTReceiver.new fun _ => false))
    [.queueRecv [true], .beginRound] w ∧ w.flips = [[true]] ∧ w.receiver.rcot.drawn = [] :=
  ⟨_, Run.of_isSome next step_of_next (by decide +kernel), by decide +kernel, by decide +kernel⟩

end Mpz
