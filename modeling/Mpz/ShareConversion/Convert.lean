import Mpz.Lib.Requests
import Mpz.Ole.Role

/-!
# Share conversion

The two sides hold shares of a value and want shares of the other kind of the same value: from
`x + y` to a product (A2M), or from `x · y` to a sum (M2A). Every item takes one random OLE.

In A2M the receiver's random multiplicative share is replaced with its input, and the sender masks
its own input with its random one, whose inverse is its output. In M2A both sides adjust.

A request adds its inputs to those that wait. A step of a conversion moves all inputs that wait on,
and the last one answers all requests that wait, with what there is.

## Main definitions

* `A2MSenderDerand`, `A2MReceiverDerand` — one A2M conversion
* `ShareConversion.Conversions` — the conversions of one kind, on one side
* `ShareConversion.Sender`, `ShareConversion.Receiver` — the two sides

## Main results

* `a2m_correct`, `m2a_correct` — what one conversion gives
-/

namespace Mpz

/-! ### One A2M conversion -/

/-- Start state for A2M sender. -/
structure A2MSenderDerand (F : Type) where
  /-- An additive share. -/
  input : F
  /-- A ROLE output which will be adjusted. -/
  add : F
  /-- A ROLE input. -/
  mul : F
  deriving DecidableEq, Repr

/-- A2M Sender sends masked share to the receiver. -/
structure A2MSenderAdjust (F : Type) where
  /-- An additive share. -/
  input : F
  /-- An OLEe output. -/
  add : F
  /-- An OLEe input. -/
  mul : F
  deriving DecidableEq, Repr

/-- Start state for A2M receiver. -/
structure A2MReceiverDerand (F : Type) where
  /-- An additive share. -/
  input : F
  /-- A ROLE output. -/
  add : F
  /-- A ROLE input. -/
  mul : F
  deriving DecidableEq, Repr

/-- A2M Receiver receives the masked share. -/
structure A2MReceiverAdjust (F : Type) where
  /-- A ROLE output. -/
  add : F
  deriving DecidableEq, Repr

section

variable {F : Type}

/-- A conversion that starts from a ROLE. -/
def A2MSenderDerand.new (input : F) (role : OLEShare F) : A2MSenderDerand F :=
  ⟨input, role.add, role.mul⟩

/-- A conversion that starts from a ROLE. -/
def A2MReceiverDerand.new (input : F) (role : OLEShare F) : A2MReceiverDerand F :=
  ⟨input, role.add, role.mul⟩

variable [Field F]

/-- Receives the receiver's offset. -/
def A2MSenderDerand.offset (self : A2MSenderDerand F) (offset : F) : A2MSenderAdjust F :=
  ⟨self.input, self.add + self.mul * offset, self.mul⟩

/-- Sends the offset to the sender. -/
def A2MReceiverDerand.offset (self : A2MReceiverDerand F) : A2MReceiverAdjust F × F :=
  (⟨self.add⟩, self.input - self.mul)

/-- Receives the masked share, returning the multiplicative share. -/
def A2MReceiverAdjust.receive (self : A2MReceiverAdjust F) (masked : F) : F := self.add + masked

variable [DecidableEq F]

/-- Sends the masked share to the receiver: the multiplicative share and the masked share. There is
none if the sender's OLE input is zero. -/
def A2MSenderAdjust.send (self : A2MSenderAdjust F) : Option (F × F) :=
  if self.mul = 0 then none else some (self.mul⁻¹, self.input * self.mul + self.add)

end

/-- Both sides of an A2M conversion: the shares that they end up with, and what is sent. -/
theorem a2m_correct {F : Type} [Field F] [DecidableEq F] {x y : F} {s r : OLEShare F}
    (h : s.Correlated r) (hne : s.mul ≠ 0) :
    ∃ masked, ((A2MSenderDerand.new x s).offset (A2MReceiverDerand.new y r).offset.2).send =
      some (s.mul⁻¹, masked) ∧
        s.mul⁻¹ * (A2MReceiverDerand.new y r).offset.1.receive masked = x + y := by
  refine ⟨x * s.mul + (s.add + s.mul * (y - r.mul)), if_neg hne, ?_⟩
  show s.mul⁻¹ * (r.add + (x * s.mul + (s.add + s.mul * (y - r.mul)))) = x + y
  have h : s.mul * r.mul = s.add + r.add := h
  have hsum : r.add + (x * s.mul + (s.add + s.mul * (y - r.mul))) = s.mul * (x + y) := by
    linear_combination -h
  rw [hsum, inv_mul_cancel_left₀ hne]

/-- Both sides of an M2A conversion. -/
theorem m2a_correct {F : Type} [CommRing F] {x y : F} {s r : OLEShare F} (h : s.Correlated r) :
    ((s.adjust x).senderFinish (r.adjust y).offset).add +
      ((r.adjust y).receiverFinish (s.adjust x).offset).add = x * y :=
  (Adjust.finish (s.adjust x) (r.adjust y) h).symm

/-! ### The two sides -/

namespace ShareConversion

/-- What can go wrong at one side. -/
inductive Error (E : Type) where
  /-- OLE error -/
  | ole (e : E)
  /-- A2M error, sender's OLE input is zero -/
  | a2m
  /-- the other side sent wrong A2M count: expected, actual -/
  | wrongA2mCount (expected actual : ℕ)
  /-- the other side sent wrong M2A count: expected, actual -/
  | wrongM2aCount (expected actual : ℕ)
  deriving DecidableEq, Repr

/-- The conversions of one kind, on one side. -/
structure Conversions (F A : Type) where
  /-- The requests that wait. -/
  queue : List Queued
  /-- The inputs that wait. -/
  inputs : List F
  /-- The conversions that are going on. -/
  adjust : List A
  /-- The futures. -/
  futures : Futures (List F)
  deriving DecidableEq, Repr

namespace Conversions

variable {F A : Type}

/-- None. -/
def new : Conversions F A := ⟨[], [], [], Futures.new⟩

/-- Queues a conversion. -/
def push (s : Conversions F A) (inputs : List F) : Conversions F A :=
  { s with
    queue := s.queue ++ [⟨inputs.length, s.futures.next⟩]
    inputs := s.inputs ++ inputs
    futures := s.futures.newOutput }

/-- Answers the requests that wait. -/
def answer (s : Conversions F A) (outputs : List F) : Conversions F A :=
  { s with
    queue := []
    futures := Futures.share s.queue outputs s.futures }

end Conversions

/-- Sender for share conversion. -/
structure Sender (S F : Type) where
  /-- ROLE sender. -/
  role : S
  /-- A2M. -/
  a2m : Conversions F (A2MSenderAdjust F)
  /-- M2A. -/
  m2a : Conversions F (Adjust F)
  deriving DecidableEq, Repr

/-- Receiver for share conversion. -/
structure Receiver (R F : Type) where
  /-- ROLE receiver. -/
  role : R
  /-- A2M. -/
  a2m : Conversions F (A2MReceiverAdjust F)
  /-- M2A. -/
  m2a : Conversions F (Adjust F)
  deriving DecidableEq, Repr

/-- The loop of `recv_m2a` over one request, `offsets.by_ref().take(count).zip(adjust.by_ref())`:
what was paired, and what is left. An offset that has no partner is gone. -/
def zipTake {α β : Type} : ℕ → List α → List β → List (α × β) × List α × List β
  | 0, as, bs => ([], as, bs)
  | _ + 1, [], bs => ([], [], bs)
  | _ + 1, _ :: as, [] => ([], as, [])
  | n + 1, a :: as, b :: bs => ((a, b) :: (zipTake n as bs).1, (zipTake n as bs).2)

/-- The loop of `recv_m2a` over the requests that wait. -/
def serveM2a {F : Type} (finish : Adjust F → F → OLEShare F) :
    List Queued → List F → List (Adjust F) → Futures (List F) → Futures (List F)
  | [], _, _, futures => futures
  | q :: queue, offsets, adjust, futures =>
    let (pairs, offsets, adjust) := zipTake q.count offsets adjust
    serveM2a finish queue offsets adjust
      (futures.send q.sender (pairs.map fun p => (finish p.2 p.1).add))

theorem zipTake_eq {α β : Type} (n : ℕ) {as : List α} {bs : List β} (h : as.length = bs.length) :
    zipTake n as bs = ((as.zip bs).take n, as.drop n, bs.drop n) := by
  induction n generalizing as bs with
  | zero => rfl
  | succ n ih =>
    cases as with
    | nil =>
      obtain rfl := List.length_eq_zero_iff.mp h.symm
      rfl
    | cons a as =>
      cases bs with
      | nil => cases h
      | cons b bs =>
        rw [zipTake, ih (Nat.succ.inj h)]
        rfl

theorem serveM2a_eq {F : Type} (finish : Adjust F → F → OLEShare F) (queue : List Queued)
    {offsets : List F} {adjust : List (Adjust F)} (h : offsets.length = adjust.length)
    (futures : Futures (List F)) : serveM2a finish queue offsets adjust futures =
      futures.share queue (offsets.zipWith (fun offset a => (finish a offset).add) adjust) := by
  induction queue generalizing offsets adjust futures with
  | nil => rw [serveM2a, Futures.share]
  | cons q queue ih =>
    have hdrop : (offsets.drop q.count).length = (adjust.drop q.count).length := by
      rw [List.length_drop, List.length_drop, h]
    rw [serveM2a, zipTake_eq q.count h, Futures.share]
    show serveM2a finish queue (offsets.drop q.count) (adjust.drop q.count) _ = _
    rw [ih hdrop, List.drop_zipWith, List.take_zipWith, List.zip_eq_zipWith, List.take_zipWith,
      List.map_zipWith]

section

variable {S R F E E' : Type} [Field F]

namespace Sender

/-- Creates a new sender. -/
def new (role : S) : Sender S F := ⟨role, .new, .new⟩

/-- Returns `true` if the sender wants A2M. -/
def wantsA2m (self : Sender S F) : Bool := !self.a2m.inputs.isEmpty

/-- Returns `true` if the sender wants M2A. -/
def wantsM2a (self : Sender S F) : Bool := !self.m2a.inputs.isEmpty

/-- Returns `true` if the sender wants to flush. -/
def wantsFlush (self : Sender S F) : Bool := self.wantsA2m || self.wantsM2a

/-- Queues additive to multiplicative conversion. -/
def queueToMultiplicative (inputs : List F) : Method (Sender S F) (Error E) ℕ := do
  let self ← Method.get
  Method.modify fun s => { s with a2m := s.a2m.push inputs }
  return self.a2m.futures.next

/-- Queues multiplicative to additive conversion. -/
def queueToAdditive (inputs : List F) : Method (Sender S F) (Error E) ℕ := do
  let self ← Method.get
  Method.modify fun s => { s with m2a := s.m2a.push inputs }
  return self.m2a.futures.next

/-- Receives M2A message. -/
def recvM2a (offsets : List F) : Method (Sender S F) (Error E) Unit := do
  let self ← Method.get
  if offsets.length ≠ self.m2a.adjust.length then
    Method.throw (.wrongM2aCount self.m2a.adjust.length offsets.length)
  else
    Method.modify fun s => { s with m2a := { s.m2a with
      queue := []
      adjust := []
      futures :=
        serveM2a Adjust.senderFinish self.m2a.queue offsets self.m2a.adjust s.m2a.futures } }

/-- Sends A2M message. -/
def sendA2m [DecidableEq F] : Method (Sender S F) (Error E) (List F) := do
  let self ← Method.get
  Method.modify fun s => { s with a2m := { s.a2m with adjust := [] } }
  match self.a2m.adjust.mapM A2MSenderAdjust.send with
  | none => Method.throw .a2m
  | some sent => do
    Method.modify fun s => { s with a2m := s.a2m.answer (sent.map Prod.fst) }
    return sent.map Prod.snd

variable [ROLESender S F E]

/-- Takes shares. -/
def trySendRole (count : ℕ) : Method (Sender S F) (Error E) (ROLEOutput F) :=
  Method.zoom Sender.role (fun s role => { s with role }) .ole (ROLESender.trySendRole count)

/-- Receives A2M message. -/
def recvA2m (offsets : List F) : Method (Sender S F) (Error E) Unit := do
  let self ← Method.get
  if self.a2m.inputs.length ≠ offsets.length then
    Method.throw (.wrongA2mCount self.a2m.inputs.length offsets.length)
  else do
    let output ← trySendRole self.a2m.inputs.length
    Method.modify fun s => { s with a2m := { s.a2m with
      inputs := []
      adjust := s.a2m.adjust ++ (((self.a2m.inputs.zip output.shares).zip offsets).map fun p =>
        (A2MSenderDerand.new p.1.1 p.1.2).offset p.2) } }

/-- Sends M2A message. -/
def sendM2a : Method (Sender S F) (Error E) (List F) := do
  let self ← Method.get
  let output ← trySendRole self.m2a.inputs.length
  let adjust := (self.m2a.inputs.zip output.shares).map fun p => p.2.adjust p.1
  Method.modify fun s => { s with m2a := { s.m2a with
    inputs := []
    adjust := s.m2a.adjust ++ adjust } }
  return adjust.map Adjust.offset

end Sender

namespace Receiver

/-- Creates a new receiver. -/
def new (role : R) : Receiver R F := ⟨role, .new, .new⟩

/-- Returns `true` if the receiver wants A2M. -/
def wantsA2m (self : Receiver R F) : Bool := !self.a2m.inputs.isEmpty

/-- Returns `true` if the receiver wants M2A. -/
def wantsM2a (self : Receiver R F) : Bool := !self.m2a.inputs.isEmpty

/-- Returns `true` if the receiver wants to flush. -/
def wantsFlush (self : Receiver R F) : Bool := self.wantsA2m || self.wantsM2a

/-- Queues additive to multiplicative conversion. -/
def queueToMultiplicative (inputs : List F) : Method (Receiver R F) (Error E') ℕ := do
  let self ← Method.get
  Method.modify fun s => { s with a2m := s.a2m.push inputs }
  return self.a2m.futures.next

/-- Queues multiplicative to additive conversion. -/
def queueToAdditive (inputs : List F) : Method (Receiver R F) (Error E') ℕ := do
  let self ← Method.get
  Method.modify fun s => { s with m2a := s.m2a.push inputs }
  return self.m2a.futures.next

/-- Receives A2M message. -/
def recvA2m (maskedShares : List F) : Method (Receiver R F) (Error E') Unit := do
  let self ← Method.get
  if maskedShares.length ≠ self.a2m.adjust.length then
    Method.throw (.wrongA2mCount self.a2m.adjust.length maskedShares.length)
  else
    Method.modify fun s => { s with
      a2m := { s.a2m with adjust := [] }.answer
        (self.a2m.adjust.zipWith A2MReceiverAdjust.receive maskedShares) }

/-- Receives M2A message. -/
def recvM2a (offsets : List F) : Method (Receiver R F) (Error E') Unit := do
  let self ← Method.get
  if offsets.length ≠ self.m2a.adjust.length then
    Method.throw (.wrongM2aCount self.m2a.adjust.length offsets.length)
  else
    Method.modify fun s => { s with m2a := { s.m2a with
      queue := []
      adjust := []
      futures :=
        serveM2a Adjust.receiverFinish self.m2a.queue offsets self.m2a.adjust s.m2a.futures } }

variable [ROLEReceiver R F E']

/-- Takes shares. -/
def tryRecvRole (count : ℕ) : Method (Receiver R F) (Error E') (ROLEOutput F) :=
  Method.zoom Receiver.role (fun s role => { s with role }) .ole (ROLEReceiver.tryRecvRole count)

/-- Sends A2M message. -/
def sendA2m : Method (Receiver R F) (Error E') (List F) := do
  let self ← Method.get
  let output ← tryRecvRole self.a2m.inputs.length
  let sent := (self.a2m.inputs.zip output.shares).map fun p =>
    (A2MReceiverDerand.new p.1 p.2).offset
  Method.modify fun s => { s with a2m := { s.a2m with
    inputs := []
    adjust := s.a2m.adjust ++ sent.map Prod.fst } }
  return sent.map Prod.snd

/-- Sends M2A message. -/
def sendM2a : Method (Receiver R F) (Error E') (List F) := do
  let self ← Method.get
  let output ← tryRecvRole self.m2a.inputs.length
  let adjust := (self.m2a.inputs.zip output.shares).map fun p => p.2.adjust p.1
  Method.modify fun s => { s with m2a := { s.m2a with
    inputs := []
    adjust := s.m2a.adjust ++ adjust } }
  return adjust.map Adjust.offset

end Receiver

end

end ShareConversion

end Mpz
