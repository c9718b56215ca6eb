import Mpz.Lib.Run
import Mpz.Ot.Mpcot

/-!
# Ferret

Both parties hold a buffer of correlated OTs. An extension takes what it costs off the end of the
buffer, for the single-point vectors, their check and the code, and appends the vectors that the
code gives. The seed of the code is tossed on the way. What is asked for is given off the end of the
buffer, or queued.

## Main definitions

* `Ferret.CointossSender`, `Ferret.CointossReceiver` — the coin toss
* `Ferret.FerretConfig`, `Ferret.TailLayout` — the parameters of an extension, and what it takes
* `Ferret.Sender`, `Ferret.Receiver` — the parties
* `Ferret.Performs` — an act of both parties

## Main results

* `Ferret.FerretConfig.good_default` — the default selector only selects what is paid for
* `Ferret.Good.extend` — an extension of honest parties
* `Ferret.correlated_of_run` — no act fails, and all that is held or given is correlated
-/

namespace Mpz

namespace Ferret

variable {Digest : Type}

/-! ### The coin toss -/

/-- What opens a commitment. -/
structure Decommitment where
  nonce : BitVec 256
  data : List Block
  deriving DecidableEq, Repr

inductive CointossError where
  | countMismatch (expected actual : ℕ)
  | invalidDecommitment
  deriving DecidableEq, Repr

/-- A coin-toss sender that has committed. -/
structure CointossSender where
  seeds : List Block
  decommitment : Decommitment
  deriving DecidableEq, Repr

/-- A coin-toss receiver that has revealed its seeds. -/
structure CointossReceiver (Digest : Type) where
  seeds : List Block
  commitment : Digest
  deriving DecidableEq, Repr

/-- Sends the commitment, with a nonce that was drawn. -/
def CointossSender.send (commit : Decommitment → Digest) (nonce : BitVec 256) (seeds : List Block) :
    CointossSender × Digest :=
  (⟨seeds, ⟨nonce, seeds⟩⟩, commit ⟨nonce, seeds⟩)

/-- Receives the receiver's seeds: the output, and what is sent to finalize. -/
def CointossSender.receive (self : CointossSender) (payload : List Block) :
    Outcome CointossError (List Block × Decommitment) :=
  if self.seeds.length ≠ payload.length then .err (.countMismatch self.seeds.length payload.length)
  else .ok (List.zipWith (· ^^^ ·) self.seeds payload, self.decommitment)

/-- Reveals the receiver's seeds after receiving the sender's commitment. -/
def CointossReceiver.reveal (seeds : List Block) (commitment : Digest) :
    CointossReceiver Digest × List Block :=
  (⟨seeds, commitment⟩, seeds)

/-- Finalizes the coin-toss, returning the random seeds. -/
def CointossReceiver.finalize [DecidableEq Digest] (commit : Decommitment → Digest)
    (self : CointossReceiver Digest) (decommitment : Decommitment) :
    Outcome CointossError (List Block) :=
  if decommitment.data.length ≠ self.seeds.length then
    .err (.countMismatch decommitment.data.length self.seeds.length)
  else if self.commitment ≠ commit decommitment then .err .invalidDecommitment
  else .ok (List.zipWith (fun d receiverSeed => receiverSeed ^^^ d) decommitment.data self.seeds)

/-! ### The configuration -/

structure LpnParameters where
  /-- Length of the output vector. -/
  n : ℕ
  /-- Length of the secret vector. -/
  k : ℕ
  /-- Hamming weight of the error vector. -/
  t : ℕ
  deriving DecidableEq, Repr

/-- The first of the parameters. -/
def smallestParams : LpnParameters := ⟨870400, 65536, 850⟩

/-- LPN parameters, in ascending order of output size. -/
def regularParams : List LpnParameters :=
  [smallestParams, ⟨2396160, 131072, 1170⟩, ⟨6225920, 262144, 1520⟩, ⟨15564800, 524288, 1900⟩]

def LpnParameters.cost (params : LpnParameters) : ℕ :=
  params.t * (params.n / params.t).log2 + params.k + Spcot.csp

/-- The number of COTs needed to execute an iteration with the given parameters. -/
def iterationCost (params : LpnParameters) : Option ℕ :=
  if params.n % params.t = 0 ∧ isPowerOfTwo (params.n / params.t) then some params.cost else none

/-- The loop of `default_parameter_selector`, where some parameters were valid before. -/
def selectFrom (available additional : ℕ) : List LpnParameters → LpnParameters → LpnParameters
  | [], lastValidParam => lastValidParam
  | param :: params, lastValidParam =>
    -- Only selects params for which we have enough OTs available.
    if available < param.cost then lastValidParam
    else if additional ≤ param.n - param.cost then param
    else selectFrom available additional params param

def defaultParameterSelector (available additional : ℕ) : LpnParameters :=
  selectFrom available additional regularParams smallestParams

structure FerretConfig where
  /-- Whether to reserve bootstrap COTs. -/
  reserveBootstrap : Bool
  paramSelector : ℕ → ℕ → LpnParameters

/-- The cost of a bootstrap iteration. -/
def bootstrapCost : ℕ := smallestParams.cost

/-- Correlations held back as a reserve. -/
def FerretConfig.reserve (config : FerretConfig) :
    ℕ := if config.reserveBootstrap then bootstrapCost else 0

/-- The sizing of one round of extension. -/
structure RoundPlan where
  cost : ℕ
  csp : ℕ
  k : ℕ
  deriving DecidableEq, Repr

def roundPlan (params : LpnParameters) : Option RoundPlan := do
  let cost ← iterationCost params
  return ⟨cost, Spcot.csp, params.k⟩

/-- Placement of one round's groups, counted back from the end of the buffer. -/
structure TailLayout where
  spcot : ℕ
  check : ℕ × ℕ
  lpn : ℕ × ℕ
  deriving DecidableEq, Repr

def RoundPlan.tail (plan : RoundPlan) (spcotCount : ℕ) : TailLayout :=
  ⟨spcotCount, (plan.csp, 0), (plan.k + plan.csp, plan.csp)⟩

/-- `Vec::drain`: what is drained, and what is left. -/
def drain {α : Type} (buffer : List α) (start stop : ℕ) : Option (List α × List α) :=
  if stop < start ∨ buffer.length < stop then none
  else some ((buffer.take stop).drop start, buffer.take start ++ buffer.drop stop)

namespace TailLayout

/-- An underflow is a panic. -/
def range (base : ℕ) (group : ℕ × ℕ) : Option (ℕ × ℕ) :=
  if base < group.1 ∨ base < group.2 then none else some (base - group.1, base - group.2)

/-- Removes the three groups, from back to front: the layout has them in this order. -/
def split {α : Type} (self : TailLayout) (buffer : List α) :
    Option ((List α × List α × List α) × List α) :=
  if buffer.length < self.spcot then none
  else do
    let base := buffer.length - self.spcot
    let checkRange ← range base self.check
    let lpnRange ← range base self.lpn
    let (spcot, buffer) ← drain buffer base buffer.length
    let (check, buffer) ← drain buffer checkRange.1 checkRange.2
    let (lpn, buffer) ← drain buffer lpnRange.1 lpnRange.2
    return ((spcot, check, lpn), buffer)

/-- Removes the check-group bits from a buffer holding the same layout without the SPCOT group. -/
def takeCheckMasks (self : TailLayout) (choices : List Bool) : Option (List Bool × List Bool) := do
  let checkRange ← range choices.length self.check
  drain choices checkRange.1 checkRange.2

end TailLayout

/-- An encoder for a length that is cast to a word. A length that is no power of two is a panic. -/
def newEncoder (k : ℕ) : Option LpnEncoder :=
  if h : isPowerOfTwo (k % 2 ^ 32) = true then
    some ⟨k % 2 ^ 32, exists_of_isPowerOfTwo h, Nat.mod_lt _ (by decide)⟩
  else none

/-- What the parties are set up with: the default build, and the functions that they call. -/
structure Setup (Digest : Type) where
  config : FerretConfig
  build : Spcot.Build Digest
  emp_eq : build.emp = false
  /-- The permutation under a seed. -/
  prp : Block → Block → Block
  /-- The hash commitment. -/
  commit : Decommitment → Digest

/-! ### The sender -/

inductive SenderError where
  | state (message : String)
  | spcot (e : Spcot.SenderError)
  | mpcot (e : MpcotError)
  | cointoss (e : CointossError)
  | insufficientCots (expected actual : ℕ)
  deriving DecidableEq, Repr

inductive SenderState (Digest : Type) where
  | extend
  | extending (params : LpnParameters) (spcotLengths : List ℕ)
  | check (params : LpnParameters) (checkKeys lpnKeys : List Block)
      (cointoss : CointossReceiver Digest)
  | finish (params : LpnParameters) (lpnKeys : List Block) (lpnSeed : Block)

structure Sender (Digest : Type) where
  alloc : ℕ
  queue : List ℕ
  transferId : ℕ
  keys : List Block
  /-- Number of in-progress correlations at the tail of the buffer. -/
  pending : ℕ
  state : SenderState Digest
  spcot : Spcot.Sender
  /-- What was given, to a caller or to a future. -/
  outputs : List (ℕ × List Block)

namespace Sender

def new (delta : Block) : Sender Digest := ⟨0, [], 0, [], 0, .extend, .new delta, []⟩

def available (config : FerretConfig) (s : Sender Digest) :
    ℕ := s.keys.length - s.pending - config.reserve

/-- Gives the last correlations of the buffer. -/
def give (s : Sender Digest) (count : ℕ) : Sender Digest :=
  { s with
    keys := s.keys.take (s.keys.length - count)
    transferId := s.transferId + 1
    outputs := s.outputs ++ [(s.transferId, s.keys.drop (s.keys.length - count))] }

def trySendRcot (config : FerretConfig) (s : Sender Digest) (count : ℕ) :
    Outcome SenderError (Sender Digest) :=
  if s.available config < count then .err (.insufficientCots count (s.available config))
  else .ok (s.give count)

def queueSendRcot (config : FerretConfig) (s : Sender Digest) (count : ℕ) :
    Outcome SenderError (Sender Digest) :=
  if count ≤ s.available config then s.trySendRcot config count
  else .ok { s with queue := s.queue ++ [count] }

/-- Serves a queue from its front. -/
def processQueue (config : FerretConfig) : List ℕ → Sender Digest → Sender Digest
  | [], s => { s with queue := [] }
  | count :: queue, s =>
    if s.available config < count then { s with queue := count :: queue }
    else processQueue config queue (s.give count)

/-- Bootstraps from the inner COT, which gives `boot`, where some are missing. -/
def bootstrap (s : Sender Digest) (boot : List Block) : Sender Digest :=
  if s.keys.length < bootstrapCost then { s with keys := s.keys ++ boot } else s

/-- Starts an extension. -/
def startExtend (config : FerretConfig) (s : Sender Digest) (boot : List Block) :
    Outcome SenderError (Sender Digest) :=
  match s.state with
  | .extend => do
    let s := s.bootstrap boot
    let missing := s.alloc - s.available config
    let params := config.paramSelector s.keys.length missing
    let spcotLengths ← (spcotLengths params.t params.n).mapErr .mpcot
    return { s with state := .extending params spcotLengths }
  | _ => .err (.state "not in extend state")

/-- Performs an extension: the corrections, and the share of the seed. -/
def extend (S : Setup Digest) (s : Sender Digest) (rng : ℕ → Block) (share : Block)
    (flip : List Bool) (commitment : Digest) :
    Outcome SenderError ((List Block × List Block) × Sender Digest) :=
  match s.state with
  | .extending params spcotLengths => do
    let plan ← .ofOption (roundPlan params)
    if s.keys.length < plan.cost then .err (.insufficientCots plan.cost s.keys.length)
    else
      let ((spcotKeys, checkKeys, lpnKeys), keys) ←
        .ofOption ((plan.tail spcotLengths.sum).split s.keys)
      let ((cs, vs), spcot) ← (s.spcot.extend S.build.H S.build.emp rng spcotLengths spcotKeys flip
        (List.replicate params.n 0#128)).mapErr .spcot
      let (cointoss, lpnSeedShare) := CointossReceiver.reveal [share] commitment
      return ((cs, lpnSeedShare), { s with
        keys := keys ++ vs
        pending := params.n
        spcot
        state := .check params checkKeys lpnKeys cointoss })
  | _ => .err (.state "not in extending state")

/-- What the consistency check may return. -/
def Check [DecidableEq Digest] (S : Setup Digest) (s : Sender Digest) (flip : List Bool)
    (chiSeed : Block) (decommitment : Decommitment)
    (out : Outcome SenderError (Digest × Sender Digest)) : Prop :=
  match s.state with
  | .check params checkKeys lpnKeys cointoss =>
    match cointoss.finalize S.commit decommitment with
    | .ok (lpnSeed :: _) =>
      if s.keys.length < params.n then out = .panic
      else ∃ hashed, s.spcot.Check S.build.rayon S.build.aes S.build.hash checkKeys flip
          (s.keys.drop (s.keys.length - params.n)) chiSeed hashed ∧
        out = do
          let (hashedV, spcot) ← hashed.mapErr .spcot
          return (hashedV, { s with spcot, state := .finish params lpnKeys lpnSeed })
    | .ok [] => out = .panic
    | .err e => out = .err (.cointoss e)
    | .panic => out = .panic
  | _ => out = .err (.state "not in check state")

/-- The queue is served where nothing is missing. -/
def complete (config : FerretConfig) (s : Sender Digest) : Sender Digest :=
  if s.alloc - s.available config = 0 then processQueue config s.queue { s with alloc := 0 } else s

/-- Finishes an extension. -/
def finishExtend (S : Setup Digest) (s : Sender Digest) : Outcome SenderError (Sender Digest) :=
  match s.state with
  | .finish params lpnKeys lpnSeed => do
    let encoder ← .ofOption (newEncoder params.k)
    if s.keys.length < params.n then .panic
    else
      let start := s.keys.length - params.n
      let y ← .ofOption (encoder.compute (S.prp lpnSeed) false 10 (s.keys.drop start) lpnKeys)
      let s := complete S.config { s with keys := s.keys.take start ++ y, pending := 0 }
      return { s with state := .extend }
  | _ => .err (.state "not in finish state")

end Sender

/-! ### The receiver -/

inductive ReceiverError where
  | state (message : String)
  | spcot (e : Spcot.ReceiverError)
  | mpcot (e : MpcotError)
  | cointoss (e : CointossError)
  | insufficientCots (expected actual : ℕ)
  deriving DecidableEq, Repr

inductive ReceiverState where
  | extend
  | extending (params : LpnParameters) (err spcotLengths spcotIdxs : List ℕ)
      (cointoss : CointossSender)
  | finish (params : LpnParameters) (err : List ℕ) (lpnMacs : List Block) (lpnSeed : Block)

structure Receiver where
  alloc : ℕ
  queue : List ℕ
  transferId : ℕ
  macs : List Block
  /-- Number of in-progress correlations at the tail of the buffer. -/
  pending : ℕ
  choices : List Bool
  state : ReceiverState
  spcot : Spcot.Receiver
  /-- What was given, to a caller or to a future. -/
  outputs : List (ℕ × List Bool × List Block)

namespace Receiver

def new : Receiver := ⟨0, [], 0, [], 0, [], .extend, .new, []⟩

def available (config : FerretConfig) (r : Receiver) :
    ℕ := r.macs.length - r.pending - config.reserve

/-- Gives the last correlations of the buffer. -/
def give (r : Receiver) (count : ℕ) : Receiver :=
  { r with
    macs := r.macs.take (r.macs.length - count)
    choices := r.choices.take (r.choices.length - count)
    transferId := r.transferId + 1
    outputs := r.outputs ++ [(r.transferId, r.choices.drop (r.choices.length - count),
      r.macs.drop (r.macs.length - count))] }

def tryRecvRcot (config : FerretConfig) (r : Receiver) (count : ℕ) :
    Outcome ReceiverError Receiver :=
  if r.available config < count then .err (.insufficientCots count (r.available config))
  else .ok (r.give count)

def queueRecvRcot (config : FerretConfig) (r : Receiver) (count : ℕ) :
    Outcome ReceiverError Receiver :=
  if count ≤ r.available config then r.tryRecvRcot config count
  else .ok { r with queue := r.queue ++ [count] }

/-- Serves a queue from its front. -/
def processQueue (config : FerretConfig) : List ℕ → Receiver → Receiver
  | [], r => { r with queue := [] }
  | count :: queue, r =>
    if r.available config < count then { r with queue := count :: queue }
    else processQueue config queue (r.give count)

/-- Bootstraps from the inner COT, which gives `boot`, where some are missing. -/
def bootstrap (r : Receiver) (boot : List Bool × List Block) : Receiver :=
  if r.macs.length < bootstrapCost then
    { r with macs := r.macs ++ boot.2, choices := r.choices ++ boot.1 }
  else r

/-- Starts an extension, with the indices and the share that were drawn: the flips, and the
commitment. -/
def startExtend (S : Setup Digest) (r : Receiver) (boot : List Bool × List Block) (err : List ℕ)
    (nonce : BitVec 256) (share : Block) :
    Outcome ReceiverError ((List Bool × Digest) × Receiver) :=
  match r.state with
  | .extend => do
    let r := r.bootstrap boot
    let missing := r.alloc - r.available S.config
    let params := S.config.paramSelector r.macs.length missing
    let lengths ← (spcotLengths params.t params.n).mapErr .mpcot
    if r.choices.length < lengths.sum then .panic
    else
      let start := r.choices.length - lengths.sum
      let (_, spcotIdxs) ← (spcotQueries err params.n).mapErr .mpcot
      let flip ← (Spcot.Receiver.derandomize lengths spcotIdxs (r.choices.drop start)).mapErr .spcot
      -- The COT choices are used up.
      let (cointoss, commitment) := CointossSender.send S.commit nonce [share]
      return ((flip, commitment), { r with
        choices := r.choices.take start
        state := .extending params err lengths spcotIdxs cointoss })
  | _ => .err (.state "not in extend state")

/-- Performs an extension up to the check: the receiver, what the check is started with, and the
decommitment. -/
def expand (S : Setup Digest) (r : Receiver) (cs lpnSeedShare : List Block) :
    Outcome ReceiverError (Receiver × (List Block × List Bool × List Block) × Decommitment) :=
  match r.state with
  | .extending params err lengths spcotIdxs cointoss => do
    let (lpnSeeds, decommitment) ← (cointoss.receive lpnSeedShare).mapErr .cointoss
    let lpnSeed ← .ofOption lpnSeeds.head?
    let plan ← .ofOption (roundPlan params)
    if r.macs.length < plan.cost then .err (.insufficientCots plan.cost r.macs.length)
    else
      let tail := plan.tail lengths.sum
      let ((spcotMacs, checkMacs, lpnMacs), macs) ← .ofOption (tail.split r.macs)
      let (checkMasks, choices) ← .ofOption (tail.takeCheckMasks r.choices)
      let (ws, spcot) ← (r.spcot.extend S.build.H S.build.emp lengths spcotIdxs spcotMacs cs
        (List.replicate params.n 0#128)).mapErr .spcot
      return ({ r with
        macs := macs ++ ws
        choices
        pending := params.n
        spcot
        state := .finish params err lpnMacs lpnSeed }, (checkMacs, checkMasks, ws), decommitment)
  | _ => .err (.state "not in extending state")

/-- What an extension may return, with the seed of the check that was drawn: the flips, the seed,
and the decommitment. -/
def Extend (S : Setup Digest) (r : Receiver) (cs lpnSeedShare : List Block) (chiSeed : Block)
    (out : Outcome ReceiverError ((List Bool × Block × Decommitment) × Receiver)) : Prop :=
  match r.expand S cs lpnSeedShare with
  | .ok (r, (checkMacs, checkMasks, ws), decommitment) =>
    ∃ started, r.spcot.StartCheck S.build.rayon S.build.aes chiSeed checkMacs checkMasks ws
      started ∧
      out = do
        let ((flip, chiSeed), spcot) ← started.mapErr .spcot
        return ((flip, chiSeed, decommitment), { r with spcot })
  | .err e => out = .err e
  | .panic => out = .panic

/-- The queue is served where nothing is missing. -/
def complete (config : FerretConfig) (r : Receiver) : Receiver :=
  if r.alloc - r.available config = 0 then processQueue config r.queue { r with alloc := 0 } else r

/-- Finishes an extension. -/
def finishExtend [DecidableEq Digest] (S : Setup Digest) (r : Receiver) (hashedV : Digest) :
    Outcome ReceiverError Receiver :=
  match r.state with
  | .finish params err lpnMacs lpnSeed => do
    let (checked, spcot) := r.spcot.finish S.build.hash hashedV
    checked.mapErr .spcot
    let encoder ← .ofOption (newEncoder params.k)
    if r.choices.length < params.k ∨ r.macs.length < params.n then .panic
    else
      let used := r.choices.length - params.k
      let u := packChoices params.k (r.choices.drop used)
      let x ← .ofOption (noiseBytes params.n err)
      let start := r.macs.length - params.n
      let (z, x) ← .ofOption (encoder.computeWithBits (S.prp lpnSeed) false 10
          (r.macs.drop start) x lpnMacs u)
      let r := complete S.config
        { r with
          macs := r.macs.take start ++ z
          pending := 0
          choices := r.choices.take used ++ unpackChoices params.n x
          spcot }
      return { r with state := .extend }
  | _ => .err (.state "not in finish state")

end Receiver

/-! ### The acts of both -/

structure World (Digest : Type) where
  sender : Sender Digest
  receiver : Receiver

def World.new (delta : Block) : World Digest := ⟨.new delta, .new⟩

/-- An act of both parties. An extension has the correlated OTs of the bootstrap, which the inner
COT gives with the offset of the sender, and all that is drawn. -/
inductive Act where
  /-- `alloc` -/
  | alloc (count : ℕ)
  /-- `try_send_rcot` and `try_recv_rcot` -/
  | transfer (count : ℕ)
  /-- `queue_send_rcot` and `queue_recv_rcot` -/
  | queue (count : ℕ)
  | extend (bootKeys : List Block) (bootChoices : List Bool) (err : List ℕ) (rng : ℕ → Block)
    (share share' : Block) (nonce : BitVec 256) (chiSeed : Block)

/-- The calls of an act, each on what the other party has sent. A transfer of more than is available
is refused by both parties and changes nothing; there is no world behind any other call that fails.
The sums of allocations may overflow. -/
def Performs [DecidableEq Digest] (S : Setup Digest) (delta : Block) (w : World Digest) :
    Act → Option (World Digest) → Prop
  | .alloc count, o =>
    o = if w.sender.alloc + count < 2 ^ 64 ∧ w.receiver.alloc + count < 2 ^ 64 then
      some ⟨{ w.sender with alloc := w.sender.alloc + count }, { w.receiver with
        alloc := w.receiver.alloc + count }⟩
    else none
  | .transfer count, o => o = match w.sender.trySendRcot S.config count,
      w.receiver.tryRecvRcot S.config count with
    | .ok sender, .ok receiver => some ⟨sender, receiver⟩
    | .err _, .err _ => some w
    | _, _ => none
  | .queue count, o =>
    o = match w.sender.queueSendRcot S.config count, w.receiver.queueRecvRcot S.config count with
    | .ok sender, .ok receiver => some ⟨sender, receiver⟩
    | _, _ => none
  | .extend bootKeys bootChoices err rng share share' nonce chiSeed, o =>
    match w.sender.startExtend S.config bootKeys, w.receiver.startExtend S
      (bootChoices, List.zipWith (corrMsg delta) bootKeys bootChoices) err nonce share' with
    | .ok sender, .ok ((flip, commitment), receiver) =>
        match sender.extend S rng share flip commitment with
      | .ok ((cs, lpnSeedShare), sender) =>
        ∃ extended, receiver.Extend S cs lpnSeedShare chiSeed extended ∧ match extended with
          | .ok ((flip, chiSeed, decommitment), receiver) =>
            ∃ checked, sender.Check S flip chiSeed decommitment checked ∧ match checked with
              | .ok (hashedV, sender) =>
                o = match receiver.finishExtend S hashedV, sender.finishExtend S with
                  | .ok receiver, .ok sender => some ⟨sender, receiver⟩
                  | _, _ => none
              | _ => o = none
          | _ => o = none
      | _ => o = none
    | _, _ => o = none

/-- The parameters that the next extension selects. -/
def World.params (S : Setup Digest) (w : World Digest) : LpnParameters :=
  let held := max w.sender.keys.length bootstrapCost
  S.config.paramSelector held (w.sender.alloc - (held - S.config.reserve))

/-- What an extension is given: as many correlated OTs as are missing for the bootstrap, and an
index for each interval. What is allocated in all fits into 64 bits. -/
def Act.Careful (S : Setup Digest) (w : World Digest) : Act → Prop
  | .alloc count => w.sender.alloc + count < 2 ^ 64
  | .extend bootKeys bootChoices err .. =>
    bootKeys.length = bootstrapCost - w.sender.keys.length ∧ bootChoices.length = bootKeys.length ∧
      err.length = (w.params S).t ∧ Regular ((w.params S).n / (w.params S).t) 0 err
  | _ => True

/-- How many correlations an act makes: those of the bootstrap, and the vector of the code. -/
def Act.gain (S : Setup Digest) (w : World Digest) : Act → ℕ
  | .extend bootKeys .. => bootKeys.length + (w.params S).n
  | _ => 0

/-- How many correlations an act uses up. -/
def Act.cost (S : Setup Digest) (w : World Digest) : Act → ℕ
  | .extend .. => (w.params S).cost
  | _ => 0

/-- An act with what it needs. -/
def Step [DecidableEq Digest] (S : Setup Digest) (delta : Block) (w : World Digest) (a : Act)
    (w' : World Digest) : Prop :=
  a.Careful S w ∧ Performs S delta w a (some w')

/-! ### The parameters -/

/-- Parameters that an extension comes through with. -/
structure LpnParameters.Good (params : LpnParameters) : Prop where
  pos : 0 < params.t
  intervals : ∃ l, 1 ≤ l ∧ l < 64 ∧ params.n = params.t * 2 ^ l
  pow : isPowerOfTwo params.k = true
  le : 10 ≤ params.k
  lt : params.k < 2 ^ 32

/-- A selector that only selects good parameters, and what is paid for. -/
def FerretConfig.Good (config : FerretConfig) : Prop :=
  ∀ available additional, bootstrapCost ≤ available →
    (config.paramSelector available additional).Good ∧
      (config.paramSelector available additional).cost ≤ available

theorem LpnParameters.Good.eight_dvd {params : LpnParameters} (h : params.Good) :
    ∃ m, params.k = 8 * m := by
  obtain ⟨e, he⟩ := exists_of_isPowerOfTwo h.pow
  have hle := h.le
  have h3 : 3 ≤ e := by
    by_contra hlt
    have : 2 ^ e ≤ 2 ^ 2 := Nat.pow_le_pow_right (by decide) (by omega)
    omega
  obtain ⟨d, rfl⟩ := Nat.exists_eq_add_of_le h3
  exact ⟨2 ^ d, he.trans (Nat.pow_add 2 3 d)⟩

theorem LpnParameters.Good.iterationCost_eq {params : LpnParameters} (h : params.Good) :
    iterationCost params = some params.cost := by
  obtain ⟨l, -, -, hn⟩ := h.intervals
  have hdiv : params.n / params.t = 2 ^ l := by rw [hn, Nat.mul_div_cancel_left _ h.pos]
  rw [iterationCost, if_pos ⟨by rw [hn, Nat.mul_mod_right], by rw [hdiv]; exact isPowerOfTwo_pow l⟩]

theorem good_selectFrom {available additional : ℕ} {params : List LpnParameters}
    (h : ∀ param ∈ params, param.Good) {last : LpnParameters} (hlast : last.Good)
    (hle : last.cost ≤ available) :
    (selectFrom available additional params last).Good ∧
      (selectFrom available additional params last).cost ≤ available := by
  induction params generalizing last with
  | nil => exact ⟨hlast, hle⟩
  | cons param params ih =>
    have hparam := h param List.mem_cons_self
    rw [selectFrom]
    split
    · exact ⟨hlast, hle⟩
    · split
      · exact ⟨hparam, by omega⟩
      · exact ih (fun p hp => h p (List.mem_cons_of_mem param hp)) hparam (by omega)

theorem good_smallestParams : smallestParams.Good :=
  ⟨by decide, ⟨10, by decide, by decide, rfl⟩, isPowerOfTwo_pow 16, by decide, by decide⟩

theorem good_regularParams : ∀ params ∈ regularParams, params.Good := by
  intro params hparams
  simp only [regularParams, List.mem_cons, List.not_mem_nil, or_false] at hparams
  rcases hparams with rfl | rfl | rfl | rfl
  · exact good_smallestParams
  · exact ⟨by decide, ⟨11, by decide, by decide, rfl⟩, isPowerOfTwo_pow 17, by decide, by decide⟩
  · exact ⟨by decide, ⟨12, by decide, by decide, rfl⟩, isPowerOfTwo_pow 18, by decide, by decide⟩
  · exact ⟨by decide, ⟨13, by decide, by decide, rfl⟩, isPowerOfTwo_pow 19, by decide, by decide⟩

/-- **The default selector** only selects what is paid for. -/
theorem FerretConfig.good_default (reserveBootstrap : Bool) :
    FerretConfig.Good ⟨reserveBootstrap, defaultParameterSelector⟩ := fun _ _ h =>
  good_selectFrom good_regularParams good_smallestParams h

/-! ### The groups -/

theorem drain_end {α : Type} {l : List α} {start stop : ℕ} (h : start ≤ stop)
    (hstop : stop = l.length) :
    drain l start stop = some (l.drop start, l.take start) := by
  rw [drain, if_neg (by omega), hstop, List.take_length, List.drop_length, List.append_nil]

/-- The groups are one before the other. -/
theorem split_eq {α : Type} {buffer : List α} {c k count : ℕ} (cost : ℕ)
    (h : buffer.length = c + k + Spcot.csp + count) :
    ((⟨cost, Spcot.csp, k⟩ : RoundPlan).tail count).split buffer =
      some ((buffer.drop (c + k + Spcot.csp), (buffer.take (c + k + Spcot.csp)).drop (c + k),
        (buffer.take (c + k)).drop c), buffer.take c) := by
  have hbase : buffer.length - count = c + k + Spcot.csp := by omega
  have hcheck : TailLayout.range (c + k + Spcot.csp) (Spcot.csp, 0) =
      some (c + k, c + k + Spcot.csp) := by
    rw [TailLayout.range, if_neg (by omega), Nat.add_sub_cancel, Nat.sub_zero]
  have hlpn : TailLayout.range (c + k + Spcot.csp) (k + Spcot.csp, Spcot.csp) =
      some (c, c + k) := by
    rw [TailLayout.range, if_neg (by omega), Nat.add_sub_cancel, Nat.add_assoc c k,
      Nat.add_sub_cancel]
  have htake : ∀ n ≤ buffer.length, n = (buffer.take n).length := fun n hn =>
    (List.length_take_of_le hn).symm
  have hend : c + k + Spcot.csp ≤ buffer.length := by omega
  have hfirst := drain_end hend rfl
  have hsecond := drain_end (l := buffer.take (c + k + Spcot.csp))
    (Nat.le_add_right (c + k) Spcot.csp)
    (htake _ (by omega))
  have hthird := drain_end (l := buffer.take (c + k)) (Nat.le_add_right c k) (htake _ (by omega))
  rw [List.take_take, Nat.min_eq_left (by omega)] at hsecond hthird
  rw [TailLayout.split, if_neg (by dsimp only [RoundPlan.tail]; omega)]
  simp only [RoundPlan.tail, hbase, hcheck, hlpn, Option.bind_eq_bind, Option.bind_some, hfirst,
    hsecond, hthird]
  rfl

theorem takeCheckMasks_eq {choices : List Bool} {c k count : ℕ} (cost : ℕ)
    (h : choices.length = c + k + Spcot.csp) :
    ((⟨cost, Spcot.csp, k⟩ : RoundPlan).tail count).takeCheckMasks choices =
      some (choices.drop (c + k), choices.take (c + k)) := by
  have hcheck : TailLayout.range choices.length (Spcot.csp, 0) =
      some (c + k, c + k + Spcot.csp) := by
    rw [TailLayout.range, if_neg (by omega), h, Nat.add_sub_cancel, Nat.sub_zero]
  rw [TailLayout.takeCheckMasks, RoundPlan.tail]
  dsimp only
  rw [hcheck, Option.bind_eq_bind, Option.bind_some]
  exact drain_end (Nat.le_add_right (c + k) Spcot.csp) h.symm

/-! ### What is held and given -/

/-- The correlations that are held, or were given. -/
def Sender.total (s : Sender Digest) : ℕ := s.keys.length + (s.outputs.map fun o => o.2.length).sum

@[simp] theorem Sender.total_give (s : Sender Digest) (count : ℕ) :
    (s.give count).total = s.total := by
  simp only [total, give, List.length_take, List.map_append, List.sum_append, List.map_cons,
    List.map_nil, List.sum_cons, List.sum_nil, List.length_drop]
  omega

@[simp] theorem Sender.total_processQueue (config : FerretConfig) (queue : List ℕ)
    (s : Sender Digest) :
    (s.processQueue config queue).total = s.total := by
  induction queue generalizing s with
  | nil => rfl
  | cons count queue ih =>
    rw [processQueue]
    split
    · rfl
    · rw [ih, total_give]

theorem Sender.total_complete (config : FerretConfig) (s : Sender Digest) :
    (s.complete config).total = s.total := by
  rw [complete]
  split
  · rw [total_processQueue]
    rfl
  · rfl

/-! ### Two parties that are idle -/

/-- An output of the sender, and the receiver's. -/
def Delivered (delta : Block) (o : ℕ × List Block) (o' : ℕ × List Bool × List Block) : Prop :=
  o.1 = o'.1 ∧ Correlated delta o.2 o'.2.1 o'.2.2

/-- The parties hold and have given the same correlations. -/
structure Paired (delta : Block) (s : Sender Digest) (r : Receiver) : Prop where
  held : Correlated delta s.keys r.choices r.macs
  pending : s.pending = 0 ∧ r.pending = 0
  spcot : s.spcot = .new delta ∧ r.spcot = .new
  alloc : r.alloc = s.alloc
  queue : r.queue = s.queue
  transferId : r.transferId = s.transferId
  given : List.Forall₂ (Delivered delta) s.outputs r.outputs

variable {S : Setup Digest} {config : FerretConfig} {delta : Block} {s : Sender Digest}
    {r : Receiver}

theorem Paired.available_eq (h : Paired delta s r) (config : FerretConfig) :
    r.available config = s.available config := by
  rw [Receiver.available, Sender.available, h.held.length_msgs, h.pending.1, h.pending.2]

theorem Paired.give (h : Paired delta s r) (count : ℕ) :
    Paired delta (s.give count) (r.give count) := by
  have hmacs : r.macs.length - count = s.keys.length - count := by rw [h.held.length_msgs]
  have hchoices : r.choices.length - count = s.keys.length - count := by rw [h.held.length_eq]
  refine ⟨?_, h.pending, h.spcot, h.alloc, h.queue, ?_, ?_⟩
  · dsimp only [Sender.give, Receiver.give]
    rw [hmacs, hchoices]
    exact h.held.take _
  · dsimp only [Sender.give, Receiver.give]
    rw [h.transferId]
  · refine List.rel_append h.given (.cons ⟨h.transferId.symm, ?_⟩ .nil)
    dsimp only
    rw [hmacs, hchoices]
    exact h.held.drop _

/-- **The queues are served alike.** -/
theorem Paired.processQueue (h : Paired delta s r) (config : FerretConfig) (queue : List ℕ) :
    Paired delta (s.processQueue config queue) (r.processQueue config queue) := by
  induction queue generalizing s r with
  | nil => exact ⟨h.held, h.pending, h.spcot, h.alloc, rfl, h.transferId, h.given⟩
  | cons count queue ih =>
    rw [Sender.processQueue, Receiver.processQueue, h.available_eq]
    split
    · exact ⟨h.held, h.pending, h.spcot, h.alloc, rfl, h.transferId, h.given⟩
    · exact ih (h.give count)

theorem Paired.complete (h : Paired delta s r) (config : FerretConfig) :
    Paired delta (s.complete config) (r.complete config) := by
  have hcleared : Paired delta { s with alloc := 0 } { r with alloc := 0 } :=
    ⟨h.held, h.pending, h.spcot, rfl, h.queue, h.transferId, h.given⟩
  have hserved : ∀ queue, queue = s.queue →
      Paired delta (Sender.processQueue config s.queue { s with alloc := 0 })
      (Receiver.processQueue config queue { r with alloc := 0 }) := by
    rintro _ rfl
    exact hcleared.processQueue config _
  rw [Sender.complete, Receiver.complete, h.available_eq, h.alloc]
  split
  · exact hserved _ h.queue
  · exact h

/-- The parties between two acts. -/
structure Good (delta : Block) (w : World Digest) : Prop where
  paired : Paired delta w.sender w.receiver
  sender_state : w.sender.state = .extend
  receiver_state : w.receiver.state = .extend

/-- Behind an extension, the parties are idle again. -/
theorem Paired.idle (h : Paired delta s r) (config : FerretConfig) :
    Good delta (⟨{ s.complete config with state := .extend },
      { r.complete config with state := .extend }⟩ :
      World Digest) := by
  obtain ⟨hheld, hpending, hspcot, halloc, hqueue, hid, hgiven⟩ := h.complete config
  exact ⟨⟨hheld, hpending, hspcot, halloc, hqueue, hid, hgiven⟩, rfl, rfl⟩

theorem Good.new (delta : Block) : Good delta (World.new delta : World Digest) :=
  ⟨⟨.nil, ⟨rfl, rfl⟩, ⟨rfl, rfl⟩, rfl, rfl, rfl, .nil⟩, rfl, rfl⟩

variable {w : World Digest}

theorem Good.alloc (h : Good delta w) (count : ℕ) :
    Good delta ⟨{ w.sender with alloc := w.sender.alloc + count },
      { w.receiver with alloc := w.receiver.alloc + count }⟩ := by
  obtain ⟨hheld, hpending, hspcot, halloc, hqueue, hid, hgiven⟩ := h.paired
  exact ⟨⟨hheld, hpending, hspcot, by rw [halloc], hqueue, hid, hgiven⟩, h.sender_state,
    h.receiver_state⟩

theorem Good.give (h : Good delta w) (count : ℕ) :
    Good delta ⟨w.sender.give count, w.receiver.give count⟩ :=
  ⟨h.paired.give count, h.sender_state, h.receiver_state⟩

theorem Good.enqueue (h : Good delta w) (count : ℕ) :
    Good delta ⟨{ w.sender with queue := w.sender.queue ++ [count] },
      { w.receiver with queue := w.receiver.queue ++ [count] }⟩ := by
  obtain ⟨hheld, hpending, hspcot, halloc, hqueue, hid, hgiven⟩ := h.paired
  exact ⟨⟨hheld, hpending, hspcot, halloc, by rw [hqueue], hid, hgiven⟩, h.sender_state,
    h.receiver_state⟩

/-! ### An extension -/

section Extension

variable {params : LpnParameters} {keys macs vs ws cs : List Block} {choices flip : List Bool}
    {err : List ℕ}
  {l c : ℕ}

theorem sum_lengths (t l : ℕ) :
    (List.replicate t l).sum = t * l := by rw [List.sum_replicate, smul_eq_mul]

theorem cost_eq (hpos : 0 < params.t) (hn : params.n = params.t * 2 ^ l) :
    params.cost = params.t * l + params.k + Spcot.csp := by
  rw [LpnParameters.cost, hn, Nat.mul_div_cancel_left _ hpos, Nat.log2_two_pow]

theorem roundPlan_eq (h : params.Good) :
    roundPlan params = some ⟨params.cost, Spcot.csp, params.k⟩ := by
  rw [roundPlan, h.iterationCost_eq]
  rfl

theorem exists_newEncoder (h : params.Good) : ∃ enc, newEncoder params.k = some enc ∧ enc.k =
    params.k := by
  have hmod := Nat.mod_eq_of_lt h.lt
  have hpow : isPowerOfTwo (params.k % 2 ^ 32) = true := hmod.symm ▸ h.pow
  exact ⟨_, dif_pos hpow, hmod⟩

theorem Sender.startExtend_eq (hstate : s.state = .extend) (hpending : s.pending = 0)
    {boot : List Block} (hboot : s.bootstrap boot = { s with keys })
    (hparams : config.paramSelector keys.length (s.alloc - (keys.length - config.reserve)) = params)
    (hpos : 0 < params.t) (hn : params.n = params.t * 2 ^ l) :
    s.startExtend config boot =
      .ok { s with keys, state := .extending params (List.replicate params.t l) } := by
  rw [Sender.startExtend, hstate]
  dsimp only
  rw [hboot]
  dsimp only [Sender.available]
  rw [hpending, Nat.sub_zero, hparams, hn, spcotLengths_eq hpos]
  rfl

theorem Receiver.startExtend_eq (hstate : r.state = .extend) (hpending : r.pending = 0)
    {boot : List Bool × List Block}
    (hboot : r.bootstrap boot = { r with macs, choices })
    (hparams : S.config.paramSelector macs.length (r.alloc - (macs.length - S.config.reserve)) =
      params)
    (hpos : 0 < params.t) (hn : params.n = params.t * 2 ^ l) (herr : err.length = params.t)
    (hreg : Regular (2 ^ l) 0 err) (hlen : choices.length = c + params.t * l)
    (hflip : Spcot.Receiver.derandomize (List.replicate params.t l) (err.map (· % 2 ^ l))
      (choices.drop c) =
      .ok flip) (nonce : BitVec 256) (share : Block) :
    r.startExtend S boot err nonce share =
      .ok ((flip, S.commit ⟨nonce, [share]⟩), { r with
        macs
        choices := choices.take c
        state := .extending params err (List.replicate params.t l) (err.map (· % 2 ^ l))
          ⟨[share], ⟨nonce, [share]⟩⟩ }) := by
  have hstart : choices.length - params.t * l = c := by omega
  have hqueries := spcotQueries_eq (herr ▸ hpos) hreg
  rw [herr, ← hn] at hqueries
  have hlengths := spcotLengths_eq hpos l
  rw [← hn] at hlengths
  rw [Receiver.startExtend, hstate]
  dsimp only
  rw [hboot]
  dsimp only [Receiver.available]
  rw [hpending, Nat.sub_zero, hparams, hlengths, Outcome.mapErr_ok, Outcome.ok_bind, sum_lengths,
    if_neg (by omega), hqueries, Outcome.mapErr_ok, Outcome.ok_bind, hstart, hflip,
    Outcome.mapErr_ok,
    Outcome.ok_bind]
  rfl

theorem Sender.extend_eq (hstate : s.state = .extending params (List.replicate params.t l))
    (h : params.Good) (hn : params.n = params.t * 2 ^ l)
    (hlen : s.keys.length = c + params.k + Spcot.csp + params.t * l) {rng : ℕ → Block}
    {spcot : Spcot.Sender} (hspcot : s.spcot.extend S.build.H S.build.emp rng
      (List.replicate params.t l)
      (s.keys.drop (c + params.k + Spcot.csp)) flip (List.replicate params.n 0#128) =
        .ok ((cs, vs), spcot))
    (share : Block) (commitment : Digest) :
    s.extend S rng share flip commitment = .ok ((cs, [share]), { s with
      keys := s.keys.take c ++ vs
      pending := params.n
      spcot
      state := .check params ((s.keys.take (c + params.k + Spcot.csp)).drop (c + params.k))
        ((s.keys.take (c + params.k)).drop c) ⟨[share], commitment⟩ }) := by
  have hcost := cost_eq h.pos hn
  rw [Sender.extend, hstate]
  dsimp only
  rw [roundPlan_eq h, Outcome.ofOption_some, Outcome.ok_bind, if_neg (by dsimp only; omega),
    sum_lengths, split_eq params.cost hlen, Outcome.ofOption_some, Outcome.ok_bind]
  dsimp only
  rw [hspcot, Outcome.mapErr_ok, Outcome.ok_bind]
  rfl

theorem Receiver.expand_eq {spcotIdxs : List ℕ} {nonce : BitVec 256} {share' : Block}
    (hstate : r.state = .extending params err (List.replicate params.t l) spcotIdxs
      ⟨[share'], ⟨nonce, [share']⟩⟩) (h : params.Good)
    (hn : params.n = params.t * 2 ^ l)
    (hlen : r.macs.length = c + params.k + Spcot.csp + params.t * l)
    (hchoices : r.choices.length = c + params.k + Spcot.csp) {spcot : Spcot.Receiver}
    (hspcot : r.spcot.extend S.build.H S.build.emp (List.replicate params.t l) spcotIdxs
      (r.macs.drop (c + params.k + Spcot.csp)) cs (List.replicate params.n 0#128) = .ok (ws, spcot))
    (share : Block) :
    r.expand S cs [share] = .ok ({ r with
      macs := r.macs.take c ++ ws
      choices := r.choices.take (c + params.k)
      pending := params.n
      spcot
      state := .finish params err ((r.macs.take (c + params.k)).drop c) (share' ^^^ share) },
      ((r.macs.take (c + params.k + Spcot.csp)).drop (c + params.k), r.choices.drop (c + params.k),
        ws),
      ⟨nonce, [share']⟩) := by
  have hcost := cost_eq h.pos hn
  have hreceive : CointossSender.receive ⟨[share'], ⟨nonce, [share']⟩⟩ [share] =
      .ok ([share' ^^^ share], ⟨nonce, [share']⟩) := rfl
  rw [Receiver.expand, hstate]
  dsimp only
  rw [hreceive, Outcome.mapErr_ok, Outcome.ok_bind]
  dsimp only [List.head?_cons]
  rw [Outcome.ofOption_some, Outcome.ok_bind, roundPlan_eq h, Outcome.ofOption_some,
    Outcome.ok_bind, if_neg (by dsimp only; omega), sum_lengths, split_eq params.cost hlen,
    Outcome.ofOption_some,
    Outcome.ok_bind]
  dsimp only
  rw [takeCheckMasks_eq params.cost hchoices, Outcome.ofOption_some, Outcome.ok_bind]
  dsimp only
  rw [hspcot, Outcome.mapErr_ok, Outcome.ok_bind]
  rfl

theorem Receiver.extend_iff {share chiSeed : Block}
    {x : Receiver × (List Block × List Bool × List Block) × Decommitment}
    (hexpand : r.expand S cs [share] = .ok x) {spcot : Spcot.Receiver}
    (hstart : ∀ started, x.1.spcot.StartCheck S.build.rayon S.build.aes chiSeed x.2.1.1 x.2.1.2.1
      x.2.1.2.2 started ↔
      started = .ok ((flip, chiSeed), spcot))
    (out : Outcome ReceiverError ((List Bool × Block × Decommitment) × Receiver)) :
    r.Extend S cs [share] chiSeed out ↔
      out = .ok ((flip, chiSeed, x.2.2), { x.1 with spcot }) := by
  rw [Receiver.Extend, hexpand]
  dsimp only
  simp only [hstart, exists_eq_left]
  rfl

theorem Sender.finishExtend_eq {lpnKeys front y : List Block} {seed : Block} {enc : LpnEncoder}
    (hstate : s.state = .finish params lpnKeys seed) (henc : newEncoder params.k = some enc)
    (hkeys : s.keys = front ++ vs) (hvs : vs.length = params.n)
    (hy : enc.compute (S.prp seed) false 10 vs lpnKeys = some y) :
    s.finishExtend S = .ok
      { Sender.complete S.config { s with keys := front ++ y, pending := 0 } with
        state := .extend } := by
  have hlen : ¬s.keys.length < params.n := by
    rw [hkeys, List.length_append]
    omega
  have hstart : s.keys.length - params.n = front.length := by
    rw [hkeys, List.length_append, hvs, Nat.add_sub_cancel]
  rw [Sender.finishExtend, hstate]
  dsimp only
  rw [henc, Outcome.ofOption_some, Outcome.ok_bind, if_neg hlen, hstart, hkeys, List.drop_left, hy,
    Outcome.ofOption_some, Outcome.ok_bind, List.take_left]
  rfl

variable [DecidableEq Digest]

theorem Sender.check_iff {checkKeys lpnKeys front : List Block} {nonce : BitVec 256}
    {share share' chiSeed : Block}
    (hstate : s.state = .check params checkKeys lpnKeys ⟨[share], S.commit ⟨nonce, [share']⟩⟩)
    (hkeys : s.keys = front ++ vs) (hvs : vs.length = params.n) {hashedV : Digest}
    {spcot : Spcot.Sender} (hcheck : ∀ hashed,
      s.spcot.Check S.build.rayon S.build.aes S.build.hash checkKeys flip vs chiSeed hashed ↔
      hashed = .ok (hashedV, spcot)) (out : Outcome SenderError (Digest × Sender Digest)) :
    s.Check S flip chiSeed ⟨nonce, [share']⟩ out ↔
      out = .ok (hashedV,
        { s with spcot, state := .finish params lpnKeys (share ^^^ share') }) := by
  have hfinalize : CointossReceiver.finalize S.commit ⟨[share], S.commit ⟨nonce, [share']⟩⟩
      ⟨nonce, [share']⟩ =
      .ok [share ^^^ share'] := by
    rw [CointossReceiver.finalize, if_neg (by simp), if_neg (by simp)]
    rfl
  have hlen : ¬s.keys.length < params.n := by
    rw [hkeys, List.length_append]
    omega
  have hdrop : s.keys.drop (s.keys.length - params.n) = vs := by
    rw [hkeys, List.length_append, hvs, Nat.add_sub_cancel, List.drop_left]
  rw [Sender.Check, hstate]
  dsimp only
  rw [hfinalize]
  dsimp only
  rw [if_neg hlen, hdrop]
  simp only [hcheck, exists_eq_left]
  rfl

theorem Receiver.finishExtend_eq {lpnMacs front z : List Block} {rest u : List Bool}
    {x x' : List (BitVec 8)} {seed : Block} {enc : LpnEncoder} {hashedV : Digest}
    {spcot : Spcot.Receiver} (hstate : r.state = .finish params err lpnMacs seed)
    (henc : newEncoder params.k = some enc)
    (hfinish : r.spcot.finish S.build.hash hashedV = (.ok (), spcot)) (hmacs : r.macs = front ++ ws)
    (hws : ws.length = params.n) (hchoices : r.choices = rest ++ u) (hu : u.length = params.k)
    (hx : noiseBytes params.n err = some x)
    (hz : enc.computeWithBits (S.prp seed) false 10 ws x lpnMacs (packChoices params.k u) =
      some (z, x')) :
    r.finishExtend S hashedV = .ok { Receiver.complete S.config
      { r with
        macs := front ++ z
        pending := 0
        choices := rest ++ unpackChoices params.n x'
        spcot } with state := .extend } := by
  have hlen : ¬(r.choices.length < params.k ∨ r.macs.length < params.n) := by
    rw [hmacs, hchoices, List.length_append, List.length_append]
    omega
  have hstart : r.macs.length - params.n = front.length := by
    rw [hmacs, List.length_append, hws, Nat.add_sub_cancel]
  have hused : r.choices.length - params.k = rest.length := by
    rw [hchoices, List.length_append, hu, Nat.add_sub_cancel]
  rw [Receiver.finishExtend, hstate]
  dsimp only
  rw [hfinish]
  dsimp only
  rw [Outcome.mapErr_ok, Outcome.ok_bind, henc, Outcome.ofOption_some, Outcome.ok_bind, if_neg hlen,
    hstart, hused, hchoices, hmacs, List.drop_left, List.drop_left, hx, Outcome.ofOption_some,
    Outcome.ok_bind, hz,
    Outcome.ofOption_some, Outcome.ok_bind, List.take_left, List.take_left]
  rfl

end Extension

/-! ### Acts -/

/-- The buffers behind the bootstrap. -/
theorem Good.exists_boot (h : Good delta w) {bootKeys : List Block} {bootChoices : List Bool}
    (hkeys : bootKeys.length = bootstrapCost - w.sender.keys.length)
    (hchoices : bootChoices.length = bootKeys.length) : ∃ keys choices macs,
    w.sender.bootstrap bootKeys = { w.sender with keys } ∧
      w.receiver.bootstrap (bootChoices, List.zipWith (corrMsg delta) bootKeys bootChoices) =
        { w.receiver with macs, choices } ∧
      Correlated delta keys choices macs ∧ keys.length =
        max w.sender.keys.length bootstrapCost := by
  have hheld := h.paired.held
  by_cases hboot : w.sender.keys.length < bootstrapCost
  · refine ⟨_, _, _, if_pos hboot, if_pos (hheld.length_msgs.symm ▸ hboot),
      hheld.append ⟨hchoices, rfl⟩, ?_⟩
    rw [List.length_append, hkeys]
    omega
  · exact ⟨_, _, _, if_neg hboot, if_neg (hheld.length_msgs.symm ▸ hboot), hheld,
      (Nat.max_eq_left (Nat.le_of_not_lt hboot)).symm⟩

variable [DecidableEq Digest]

/-- **An extension of honest parties** comes through, leaves correlated buffers, and costs what it
costs. -/
theorem Good.extend (h : Good delta w) (hS : S.config.Good) {bootKeys : List Block}
    {bootChoices : List Bool} {err : List ℕ} {rng : ℕ → Block} {share share' : Block}
    {nonce : BitVec 256} {chiSeed : Block}
    (ha : (Act.extend bootKeys bootChoices err rng share share' nonce chiSeed).Careful S w) :
    ∃ w', Good delta w' ∧
      w'.sender.total + (w.params S).cost = w.sender.total + bootKeys.length + (w.params S).n ∧
      ∀ o, Performs S delta w (.extend bootKeys bootChoices err rng share share' nonce chiSeed) o ↔
        o = some w' := by
  obtain ⟨hbootKeys, hbootChoices, herr, hreg⟩ := ha
  obtain ⟨keys, choices, macs, hkeys, hmacs, hcorr, hlen⟩ := h.exists_boot hbootKeys hbootChoices
  obtain ⟨hgood, hpaid⟩ := hS keys.length (w.sender.alloc - (keys.length - S.config.reserve))
    (hlen ▸ Nat.le_max_right ..)
  have hparams : S.config.paramSelector keys.length
      (w.sender.alloc - (keys.length - S.config.reserve)) =
      w.params S := by rw [World.params, hlen]
  rw [hparams] at hgood hpaid
  generalize w.params S = params at *
  obtain ⟨l, hl, hl', hn⟩ := hgood.intervals
  have hcost := cost_eq hgood.pos hn
  rw [hn, Nat.mul_div_cancel_left _ hgood.pos] at hreg
  obtain ⟨c, hc⟩ : ∃ c, keys.length = c + params.k + Spcot.csp + params.t * l :=
    ⟨keys.length - params.cost, by omega⟩
  have hchoices := hcorr.length_eq
  have hmacsLen := hcorr.length_msgs
  -- The trees of the extension.
  obtain ⟨trees, htrees, hlengths, hidx, hseed⟩ := exists_trees hl hl' err rng
  have hvectors : Correlated delta (trees.flatMap (Spcot.Tree.v S.build.H delta))
      (noise err (err.length * 2 ^ l)) (trees.flatMap (Spcot.Tree.w S.build.H delta)) :=
    correlated_trees htrees hlengths hidx hreg
  rw [herr] at hlengths
  rw [herr, ← hn] at hvectors
  have hsum : (trees.map Spcot.Tree.length).sum = params.t * l := by rw [hlengths, sum_lengths]
  have hleaves : (trees.map fun t => 2 ^ t.length).sum = params.n := by rw [sum_leaves hlengths, hn]
  have hbuffer : (List.replicate params.n 0#128).length =
      (trees.map fun t => 2 ^ t.length).sum := by
    rw [List.length_replicate, hleaves]
  -- The groups are correlated, each on its own.
  have hspcot := hcorr.drop (c + params.k + Spcot.csp)
  have hcheck := (hcorr.take (c + params.k + Spcot.csp)).drop (c + params.k)
  have hlpn := (hcorr.take (c + params.k)).drop c
  have hspcotLen : (keys.drop (c + params.k + Spcot.csp)).length =
      (trees.map Spcot.Tree.length).sum := by
    rw [List.length_drop]
    omega
  have hcheckLen : ((keys.take (c + params.k + Spcot.csp)).drop (c + params.k)).length =
      Spcot.csp := by
    rw [List.length_drop, List.length_take]
    omega
  obtain ⟨flip, cs, hflip, hsender, hreceiver⟩ := Spcot.exists_extend (H := S.build.H) htrees
    (Spcot.Sender.new delta) Spcot.Receiver.new hseed hspcotLen
    (hspcot.length_eq.trans hspcotLen) hbuffer
    hbuffer
  obtain ⟨flip', sum, hstart, hchecked⟩ := Spcot.exists_check htrees S.build delta chiSeed hcheckLen
    (hcheck.length_eq.trans hcheckLen)
  -- The code.
  obtain ⟨enc, henc, hk⟩ := exists_newEncoder hgood
  obtain ⟨m, hm⟩ := hgood.eight_dvd
  have hkeysLen : ((keys.take (c + params.k)).drop c).length = enc.k := by
    rw [List.length_drop, List.length_take, hk]
    omega
  obtain ⟨x, y, z, x', hx, hy, hz, hylen, hyz⟩ := correlated_lpn (S.prp (share ^^^ share'))
    (D := 10) (by decide)
    (hk.symm ▸ hgood.le) (hk.trans hm) hlpn hkeysLen hvectors (fun idx hmem => by
      have := hreg.lt idx hmem
      rwa [Nat.zero_add, herr, ← hn] at this)
  have hvs : (trees.flatMap (Spcot.Tree.v S.build.H delta)).length = params.n :=
    (Spcot.length_flatMap_v htrees S.build.H delta).trans hleaves
  have hws : (trees.flatMap (Spcot.Tree.w S.build.H delta)).length = params.n :=
    (Spcot.length_flatMap_w htrees S.build.H delta).trans hleaves
  replace hsender : (Spcot.Sender.new delta).extend S.build.H false rng (List.replicate params.t l)
      (keys.drop (c + params.k + Spcot.csp)) flip (List.replicate params.n 0#128) =
        .ok ((cs, trees.flatMap (Spcot.Tree.v S.build.H delta)), ⟨params.n, delta⟩) := by
    rw [← hlengths, hsender, hleaves, Spcot.Sender.new, Nat.zero_add]
  replace hreceiver : Spcot.Receiver.new.extend S.build.H false (List.replicate params.t l)
    (err.map (· % 2 ^ l))
      (macs.drop (c + params.k + Spcot.csp)) cs (List.replicate params.n 0#128) =
        .ok (trees.flatMap (Spcot.Tree.w S.build.H delta),
          ⟨List.replicate params.t l, err.map (· % 2 ^ l), none⟩) := by
    rw [← hlengths, ← hidx, hspcot.msgs_eq]
    exact hreceiver
  rw [hlengths, hidx] at hflip
  rw [hlengths, hidx, ← hcheck.msgs_eq] at hstart
  rw [hleaves] at hchecked
  rw [BitVec.xor_comm] at hz
  -- The calls, one after the other.
  have hcall₁ := Sender.startExtend_eq h.sender_state h.paired.pending.1 hkeys hparams hgood.pos hn
  have hcall₂ := Receiver.startExtend_eq (S := S) (c := c + params.k + Spcot.csp) h.receiver_state
    h.paired.pending.2 hmacs (by rw [hmacsLen, h.paired.alloc]; exact hparams) hgood.pos hn
    herr hreg
    (hchoices.trans hc) hflip nonce share'
  have hcall₃ := Sender.extend_eq (S := S) (s := { w.sender with
      keys
      state := .extending params (List.replicate params.t l) }) rfl hgood hn hc
    (by rw [h.paired.spcot.1, S.emp_eq]; exact hsender) share (S.commit ⟨nonce, [share']⟩)
  have hcall₄ := Receiver.expand_eq (S := S) (r := { w.receiver with
      macs
      choices := choices.take (c + params.k + Spcot.csp)
      state := .extending params err (List.replicate params.t l) (err.map (· % 2 ^ l))
        ⟨[share'], ⟨nonce, [share']⟩⟩ }) rfl hgood hn (hmacsLen.trans hc)
    (by rw [List.length_take]; omega) (by rw [h.paired.spcot.2, S.emp_eq]; exact hreceiver) share
  have hcall₅ := Receiver.extend_iff hcall₄ hstart
  have hcall₆ := Sender.check_iff (S := S) (s := { w.sender with
      keys := keys.take c ++ trees.flatMap (Spcot.Tree.v S.build.H delta)
      pending := params.n
      spcot := ⟨params.n, delta⟩
      state := .check params ((keys.take (c + params.k + Spcot.csp)).drop (c + params.k))
        ((keys.take (c + params.k)).drop c) ⟨[share], S.commit ⟨nonce, [share']⟩⟩ }) rfl rfl hvs
        hchecked
  have hfinish : Spcot.Receiver.finish S.build.hash
      ⟨List.replicate params.t l, err.map (· % 2 ^ l), some sum⟩ (S.build.hash sum.toBytes) =
        (.ok (), ⟨[], [], none⟩) := if_neg (not_not.mpr rfl)
  have hrest : choices.take (c + params.k) = choices.take c ++
      (choices.take (c + params.k)).drop c := by
    rw [← List.take_append_drop c (choices.take (c + params.k)), List.take_take,
      Nat.min_eq_left (by omega), List.drop_left' (by rw [List.length_take]; omega)]
  have hcall₇ := Receiver.finishExtend_eq (S := S) (r := { w.receiver with
      macs := macs.take c ++ trees.flatMap (Spcot.Tree.w S.build.H delta)
      choices := choices.take (c + params.k)
      pending := params.n
      spcot := ⟨List.replicate params.t l, err.map (· % 2 ^ l), some sum⟩
      state := .finish params err ((macs.take (c + params.k)).drop c) (share' ^^^ share) }) rfl henc
        hfinish rfl hws
    hrest (by rw [List.length_drop, List.length_take]; omega) hx (hk ▸ hz)
  have hcall₈ := Sender.finishExtend_eq (S := S) (s := { w.sender with
      keys := keys.take c ++ trees.flatMap (Spcot.Tree.v S.build.H delta)
      pending := params.n
      spcot := ⟨0, delta⟩
      state := .finish params ((keys.take (c + params.k)).drop c) (share ^^^ share') }) rfl henc
        rfl hvs hy
  have hpaired : Paired delta
      ({ w.sender with
        keys := keys.take c ++ y
        pending := 0
        spcot := ⟨0, delta⟩
        state := .finish params ((keys.take (c + params.k)).drop c) (share ^^^ share') } :
          Sender Digest)
      { w.receiver with
        macs := macs.take c ++ z
        pending := 0
        choices := choices.take c ++ unpackChoices params.n x'
        spcot := ⟨[], [], none⟩
        state := .finish params err ((macs.take (c + params.k)).drop c) (share' ^^^ share) } :=
    ⟨(hcorr.take c).append hyz, ⟨rfl, rfl⟩, ⟨rfl, rfl⟩, h.paired.alloc, h.paired.queue,
      h.paired.transferId, h.paired.given⟩
  refine ⟨_, hpaired.idle S.config, ?_, fun o => ?_⟩
  · change (Sender.complete S.config _).total + _ = _
    rw [Sender.total_complete, Sender.total, Sender.total]
    dsimp only
    rw [List.length_append, hylen, List.length_take]
    omega
  have htake : (choices.take (c + params.k + Spcot.csp)).take (c + params.k) =
      choices.take (c + params.k) := by
    rw [List.take_take, Nat.min_eq_left (by omega)]
  rw [htake] at hcall₅
  rw [Performs, hcall₁, hcall₂]
  dsimp only
  rw [hcall₃]
  dsimp only
  simp only [hcall₅, exists_eq_left, hcall₆, hcall₇, hcall₈]

/-- **No act fails** on parties that are idle. -/
theorem Good.performs (h : Good delta w) (hS : S.config.Good) {a : Act} (ha : a.Careful S w) :
    ∃ w', Good delta w' ∧ w'.sender.total + a.cost S w = w.sender.total + a.gain S w ∧
      ∀ o, Performs S delta w a o ↔ o = some w' := by
  have havailable := h.paired.available_eq S.config
  cases a with
  | alloc count =>
    have hlt : w.sender.alloc + count < 2 ^ 64 := ha
    refine ⟨_, h.alloc count, rfl, fun o => ?_⟩
    rw [Performs, h.paired.alloc, if_pos ⟨hlt, hlt⟩]
  | transfer count =>
    by_cases hfew : w.sender.available S.config < count
    · refine ⟨w, h, rfl, fun o => ?_⟩
      rw [Performs, Sender.trySendRcot, Receiver.tryRecvRcot, havailable, if_pos hfew, if_pos hfew]
    · refine ⟨_, h.give count, w.sender.total_give count, fun o => ?_⟩
      rw [Performs, Sender.trySendRcot, Receiver.tryRecvRcot, havailable, if_neg hfew, if_neg hfew]
  | queue count =>
    by_cases hle : count ≤ w.sender.available S.config
    · refine ⟨_, h.give count, w.sender.total_give count, fun o => ?_⟩
      rw [Performs, Sender.queueSendRcot, Receiver.queueRecvRcot, Sender.trySendRcot,
        Receiver.tryRecvRcot, havailable, if_pos hle, if_pos hle, if_neg (Nat.not_lt_of_le hle),
        if_neg (Nat.not_lt_of_le hle)]
    · refine ⟨_, h.enqueue count, rfl, fun o => ?_⟩
      rw [Performs, Sender.queueSendRcot, Receiver.queueRecvRcot, havailable, if_neg hle,
        if_neg hle]
  | extend bootKeys bootChoices err rng share share' nonce chiSeed =>
    obtain ⟨w', hw', htotal, hperforms⟩ := h.extend hS ha
    exact ⟨w', hw', htotal.trans (Nat.add_assoc ..), hperforms⟩

/-! ### Runs -/

/-- **Every run is correlated.** Whatever is allocated, transferred, queued and extended, in any
order: what the parties hold and what they have given is correlated by the offset, output by output
and under the same identifiers, no act fails, and no correlation is lost or given twice. -/
theorem correlated_of_run (hS : S.config.Good) {acts : List Act}
    (h : Run (Step S delta) (World.new delta) acts w) :
    Good delta w ∧ ∀ a : Act, a.Careful S w → ∃ w', (∀ o, Performs S delta w a o ↔ o = some w') ∧
      w'.sender.total + a.cost S w = w.sender.total + a.gain S w := by
  have hgood : Good delta w := by
    induction h with
    | nil => exact .new delta
    | snoc _ hstep ih =>
      obtain ⟨w', hw', -, hperforms⟩ := ih.performs hS hstep.1
      obtain rfl := Option.some.inj ((hperforms _).mp hstep.2)
      exact hw'
  refine ⟨hgood, fun a ha => ?_⟩
  obtain ⟨w', -, htotal, hperforms⟩ := hgood.performs hS ha
  exact ⟨w', hperforms, htotal⟩

/-- The default configuration, and simple functions. -/
def sampleSetup : Setup ℕ :=
  ⟨⟨true, defaultParameterSelector⟩, Spcot.sampleBuild, rfl, fun seed x => seed ^^^ ~~~x, fun d =>
    (d.data.map BitVec.toNat).sum⟩

/-- Five correlations are asked for, of which three are queued. -/
def sampleActs : List Act := [.alloc 5, .queue 3]

def sampleWorld : World ℕ :=
  ⟨⟨5, [3], 0, [], 0, .extend, .new 3#128, []⟩, ⟨5, [3], 0, [], 0, [], .extend, .new, []⟩⟩

/-- An extension with the smallest parameters. -/
def sampleExtend : Act :=
  .extend (List.replicate bootstrapCost 7#128) (List.replicate bootstrapCost true)
    ((List.range' 0 850).map (· * 1024)) (fun i => BitVec.ofNat 128 i) 1#128 2#128 9#256 4#128

theorem correlated_of_run_sample : Good 3#128 sampleWorld ∧ ∃ w',
    (∀ o, Performs sampleSetup 3#128 sampleWorld sampleExtend o ↔ o = some w') ∧
      w'.sender.total + 74164 = 74164 + 870400 := by
  have halloc : Run (Step sampleSetup 3#128) (World.new 3#128) [.alloc 5] _ :=
    .single ⟨(by decide : 0 + 5 < 2 ^ 64), (if_pos ⟨by decide, by decide⟩).symm⟩
  have hrun : Run (Step sampleSetup 3#128) (World.new 3#128) sampleActs sampleWorld := by
    refine halloc.snoc ⟨trivial, ?_⟩
    rw [Performs, Sender.queueSendRcot, Receiver.queueRecvRcot, Sender.available,
      Receiver.available]
    simp [World.new, Sender.new, Receiver.new, sampleWorld]
  have hparams : sampleWorld.params sampleSetup = smallestParams := by decide +kernel
  have hcareful : sampleExtend.Careful sampleSetup sampleWorld := by
    refine ⟨?_, ?_, ?_, ?_⟩
    · exact List.length_replicate.trans (Nat.sub_zero bootstrapCost).symm
    · rw [List.length_replicate, List.length_replicate]
    · rw [hparams, List.length_map, List.length_range']
      rfl
    · rw [hparams]
      exact regular_multiples (by decide) 0 850
  obtain ⟨hgood, hacts⟩ := correlated_of_run (FerretConfig.good_default true) hrun
  obtain ⟨w', hperforms, htotal⟩ := hacts sampleExtend hcareful
  refine ⟨hgood, w', hperforms, ?_⟩
  have hboot : bootstrapCost = 74164 := by decide +kernel
  have hcost : sampleExtend.cost sampleSetup sampleWorld = bootstrapCost := by
    rw [sampleExtend, Act.cost, hparams, bootstrapCost]
  have hgain : sampleExtend.gain sampleSetup sampleWorld = bootstrapCost + 870400 := by
    rw [sampleExtend, Act.gain, hparams, List.length_replicate, smallestParams]
  have hzero : sampleWorld.sender.total = 0 := rfl
  rw [hcost, hgain, hboot, hzero, Nat.zero_add] at htotal
  exact htotal

end Ferret

end Mpz
