import Mpz.Lib.Lists
import Mpz.Lib.Run
import Mpz.Ot.Rcot
import Mpz.Ot.Shared

/-!
# Flushes of a shared RCOT

A flush is collective: an instance that is to take part arrives at a barrier, and when all have, the
leader allocates with the inner RCOT what all of them have allocated, flushes it together with the
leader of the other side, and distributes what it then takes from it. Behind the barrier every
instance picks up its own part and answers its requests. In between, those that are not in the flush
any more can make calls, and arrive for the next one.

The two sides of an instance make the same calls, but not at the same time, and the instances arrive
in any order, which need not be the same on both sides. A flush takes place when the calls of the
two sides are the same ones. Which instance leads makes no difference, as long as the leaders are
those of one instance.

The requests of an instance are answered in order, and one that there are not enough OTs for ends
that: it is gone, with all those behind it. `Act.Careful` says that it does not come to that.

## Main definitions

* `Party`, `World`, `Act` — the instances of one side, those of both sides, and what they do
* `Instance.Agree` — what two instances that belong together have in common
* `Half`, `Inv` — the invariant

## Main results

* `shared_rcot_serves` — every instance has its own correlated OTs
* `dropped_request` — a request is dropped whose OTs were allocated
-/

namespace Mpz

namespace SharedRCOT

/-- An inner RCOT, and what a flush does with it. Where that fails, so does the flush. -/
class Inner (I A : Type) where
  /-- Allocates OTs. -/
  alloc : ℕ → I → Option I
  /-- Takes OTs. -/
  draw : ℕ → I → Option (List A × I)

instance {S E : Type} [RCOTSender S E] : Inner S Block where
  alloc count := (RCOTSender.alloc count).ended
  draw count s := match RCOTSender.trySendRcot count s with
    | (.ok output, s) => some (output.keys, s)
    | _ => none

instance {R E : Type} [RCOTReceiver R E] : Inner R (Bool × Block) where
  alloc count := (RCOTReceiver.alloc count).ended
  draw count r := match RCOTReceiver.tryRecvRcot count r with
    | (.ok output, r) => some (output.choices.zip output.msgs, r)
    | _ => none

/-- Allocates what the instances have allocated. -/
def allocAll (A : Type) {I : Type} [Inner I A] : List ℕ → I → Option I
  | [], inner => some inner
  | count :: counts, inner =>
    if 0 < count then do
      let inner ← Inner.alloc A count inner
      allocAll A counts inner
    else allocAll A counts inner

/-- Takes what is distributed to the instances, in the order of their ids. -/
def drawAll {I A : Type} [Inner I A] : List ℕ → I → Option (List (List A) × I)
  | [], inner => some ([], inner)
  | count :: counts, inner =>
    if count = 0 then do
      let (parts, inner) ← drawAll counts inner
      some ([] :: parts, inner)
    else do
      let (part, inner) ← Inner.draw count inner
      let (parts, inner) ← drawAll counts inner
      some (part :: parts, inner)

/-- An instance, and its calls since the last flush. -/
structure Clone (A : Type) where
  /-- The instance. -/
  inst : Instance A
  /-- Its calls since the last flush. -/
  calls : List Call
  deriving DecidableEq, Repr

/-- The instances of one side, in the order of their ids, and what was taken from the inner RCOT. -/
structure Party (I A : Type) where
  /-- The inner RCOT. -/
  inner : I
  /-- Whether a flush is currently in progress. -/
  flushing : Bool
  /-- The instances. -/
  clones : List (Clone A)
  /-- What was taken from the inner RCOT. -/
  drawn : List A

/-- What an instance does. -/
inductive Local where
  /-- It is called. -/
  | call (i : ℕ) (call : Call)
  /-- It is to be flushed, and if a flush is wanted it arrives at the barrier. -/
  | arrive (i : ℕ)
  /-- It comes to the end of a flush. -/
  | collect (i : ℕ)
  deriving DecidableEq, Repr

namespace Party

variable {I A : Type}

/-- Instances that are new. -/
def new (inner : I) (n : ℕ) : Party I A := ⟨inner, false, List.replicate n ⟨Instance.new, []⟩, []⟩

/-- How many OTs each instance has allocated that are not setup yet. -/
def counts (self : Party I A) : List ℕ := self.clones.map fun k => k.inst.outstanding

/-- Whether any instance has an allocation which has not been setup yet. -/
def wantsFlush (self : Party I A) : Bool := self.counts.any fun count => decide (0 < count)

/-- Whether an instance must participate in a flush. If so, a flush is in progress. -/
def enterFlush (self : Party I A) : Bool × Party I A :=
  if self.flushing then (true, self)
  else if self.wantsFlush then (true, { self with flushing := true })
  else (false, self)

/-- An instance is changed. -/
def setClone (self : Party I A) (i : ℕ) (k : Clone A) : Party I A :=
  { self with clones := self.clones.set i k }

/-- What an instance does. The result of a call is returned to its caller. -/
def next (self : Party I A) : Local → Option (Party I A)
  | .call i call => do
    let k ← self.clones[i]?
    if k.inst.phase = .idle then
      some (self.setClone i ⟨k.inst.run call, k.calls ++ [call]⟩)
    else none
  | .arrive i => do
    let k ← self.clones[i]?
    if k.inst.phase = .idle then
      match self.enterFlush with
      | (true, self) => some (self.setClone i { k with inst := { k.inst with phase := .parked } })
      | (false, self) => some self
    else none
  | .collect i => do
    let k ← self.clones[i]?
    if k.inst.phase = .released then
      some (self.setClone i { k with inst := (Instance.collect k.inst).2 })
    else none

/-- The OTs are distributed, and the leader proceeds. -/
def release (parts : List (List A)) (inner : I) (self : Party I A) : Party I A where
  inner := inner
  flushing := false
  clones := List.zipWith (fun part k => ⟨{ k.inst.give part with phase := .released }, []⟩) parts
    self.clones
  drawn := self.drawn ++ parts.flatten

end Party

/-- The two sides. -/
structure World (S R : Type) where
  /-- The senders. -/
  sender : Party S Block
  /-- The receivers. -/
  receiver : Party R (Bool × Block)

/-- What can happen. -/
inductive Act where
  /-- A sender does something. -/
  | sender (a : Local)
  /-- A receiver does something. -/
  | receiver (a : Local)
  /-- All have arrived, and the leaders do a flush. -/
  | flush
  deriving DecidableEq, Repr

namespace World

variable {S R : Type}

/-- All instances have arrived, and the two sides of each have made the same calls. -/
def Met (w : World S R) : Prop :=
  (∀ k ∈ w.sender.clones, k.inst.phase = .parked) ∧
    (∀ k ∈ w.receiver.clones, k.inst.phase = .parked) ∧
      w.sender.clones.map Clone.calls = w.receiver.clones.map Clone.calls

instance (w : World S R) : Decidable w.Met := inferInstanceAs (Decidable (_ ∧ _ ∧ _))

variable {E E' : Type} [RCOTSender S E] [RCOTReceiver R E']

/-- What the leaders do. -/
def flush (innerFlush : S × R → Option (S × R)) (w : World S R) : Option (World S R) := do
  let s ← allocAll Block w.sender.counts w.sender.inner
  let r ← allocAll (Bool × Block) w.receiver.counts w.receiver.inner
  let (s, r) ← innerFlush (s, r)
  let (keys, s) ← drawAll w.sender.counts s
  let (items, r) ← drawAll w.receiver.counts r
  some ⟨w.sender.release keys s, w.receiver.release items r⟩

/-- What is behind a step. -/
def next (innerFlush : S × R → Option (S × R)) (w : World S R) : Act → Option (World S R)
  | .sender a => do
    let sender ← w.sender.next a
    some { w with sender }
  | .receiver a => do
    let receiver ← w.receiver.next a
    some { w with receiver }
  | .flush => if w.Met then w.flush innerFlush else none

end World

/-- A step. -/
def Step {S R E E' : Type} [RCOTSender S E] [RCOTReceiver R E']
    (innerFlush : S × R → Option (S × R)) (w : World S R) (a : Act) (w' : World S R) : Prop :=
  w.next innerFlush a = some w'

/-- In a flush, the requests of an instance are about no more OTs than it has and has allocated. -/
def Act.Careful {S R : Type} (w : World S R) : Act → Prop
  | .flush => ∀ k ∈ w.sender.clones, k.inst.Covered
  | _ => True

/-- A careful step. -/
def CarefulStep {S R E E' : Type} [RCOTSender S E] [RCOTReceiver R E']
    (innerFlush : S × R → Option (S × R)) (w : World S R) (a : Act) (w' : World S R) : Prop :=
  a.Careful w ∧ Step innerFlush w a w'

/-! ### What is taken from the inner RCOT -/

/-- OTs that are correlated. -/
def Corr (delta : Block) (t : Block × Bool × Block) : Prop := t.2.2 = corrMsg delta t.1 t.2.1

/-- The receiver has taken these outputs, for instances that are to get these parts. -/
inductive Taken : List ℕ → List RCOTReceiverOutput → List (List (Bool × Block)) → Prop where
  /-- Nothing was taken. -/
  | nil : Taken [] [] []
  /-- Nothing is taken for an instance that needs nothing. -/
  | skip {counts os parts} : Taken counts os parts → Taken (0 :: counts) os ([] :: parts)
  /-- An output is taken for an instance. -/
  | take {counts os parts} {o : RCOTReceiverOutput} : o.choices.length ≠ 0 →
    o.msgs.length = o.choices.length → Taken counts os parts →
    Taken (o.choices.length :: counts) (o :: os) (o.choices.zip o.msgs :: parts)

section

variable {S R E E' : Type} [RCOTSender S E] [RCOTReceiver R E'] {delta : Block}
  {innerFlush : S × R → Option (S × R)} (c : AdditiveRCOT S R delta innerFlush)

theorem allocAll_sender (counts : List ℕ) {a b : ℕ} {s : S} {r : R} (h : c.Rel [] a b s r) :
    ∃ s', allocAll Block counts s = some s' ∧ c.Rel [] (a + counts.sum) b s' r := by
  induction counts generalizing a s with
  | nil => exact ⟨s, rfl, h⟩
  | cons count counts ih =>
    rw [allocAll, List.sum_cons, ← Nat.add_assoc]
    by_cases h0 : 0 < count
    · obtain ⟨s', hrun, hrel⟩ := c.allocSender count h
      have halloc : Inner.alloc Block count s = some s' := by
        show (RCOTSender.alloc count).ended s = _
        rw [Method.ended, hrun]
      rw [if_pos h0, halloc]
      exact ih hrel
    · rw [if_neg h0, Nat.eq_zero_of_not_pos h0, Nat.add_zero]
      exact ih h

theorem allocAll_receiver (counts : List ℕ) {a b : ℕ} {s : S} {r : R} (h : c.Rel [] a b s r) :
    ∃ r', allocAll (Bool × Block) counts r = some r' ∧ c.Rel [] a (b + counts.sum) s r' := by
  induction counts generalizing b r with
  | nil => exact ⟨r, rfl, h⟩
  | cons count counts ih =>
    rw [allocAll, List.sum_cons, ← Nat.add_assoc]
    by_cases h0 : 0 < count
    · obtain ⟨r', hrun, hrel⟩ := c.allocReceiver count h
      have halloc : Inner.alloc (Bool × Block) count r = some r' := by
        show (RCOTReceiver.alloc count).ended r = _
        rw [Method.ended, hrun]
      rw [if_pos h0, halloc]
      exact ih hrel
    · rw [if_neg h0, Nat.eq_zero_of_not_pos h0, Nat.add_zero]
      exact ih h

theorem drawAll_receiver {counts : List ℕ} {ahead : List RCOTReceiverOutput} {s : S} {r : R}
    (h : c.Rel ahead 0 0 s r) (hn : counts.sum ≤ RCOTReceiver.available r) :
    ∃ os parts r', drawAll counts r = some (parts, r') ∧ Taken counts os parts ∧
      c.Rel (ahead ++ os) 0 0 s r' := by
  induction counts generalizing ahead r with
  | nil => exact ⟨[], [], r, rfl, .nil, (List.append_nil ahead).symm ▸ h⟩
  | cons count counts ih =>
    rw [List.sum_cons] at hn
    rw [drawAll]
    by_cases h0 : count = 0
    · obtain ⟨os, parts, r', hrun, htaken, hrel⟩ := ih h (le_trans (Nat.le_add_left _ _) hn)
      rw [if_pos h0, hrun, h0]
      exact ⟨os, [] :: parts, r', rfl, htaken.skip, hrel⟩
    · obtain ⟨o, r₁, hrecv, hchoices, hmsgs, hav, hrel₁⟩ :=
        c.recv h (le_trans (Nat.le_add_right _ _) hn)
      obtain ⟨os, parts, r', hrun, htaken, hrel⟩ := ih hrel₁ (by rw [hav]; omega)
      have hdraw : Inner.draw count r = some (o.choices.zip o.msgs, r₁) := by
        show (match RCOTReceiver.tryRecvRcot count r with
          | (.ok output, r) => some (output.choices.zip output.msgs, r)
          | _ => none) = _
        rw [hrecv]
      rw [if_neg h0, hdraw]
      refine ⟨o :: os, o.choices.zip o.msgs :: parts, r', ?_, ?_, ?_⟩
      · show (drawAll counts r₁).bind _ = _
        rw [hrun]
        rfl
      · subst hchoices
        exact htaken.take h0 hmsgs
      · rw [List.append_assoc] at hrel
        exact hrel

theorem drawAll_sender {counts : List ℕ} {os : List RCOTReceiverOutput}
    {parts : List (List (Bool × Block))} (ht : Taken counts os parts) {s : S} {r : R}
    (h : c.Rel os 0 0 s r) : ∃ (zs : List (List (Block × Bool × Block))) (s' : S),
      drawAll counts s = some (zs.map (List.map Prod.fst), s') ∧ c.Rel [] 0 0 s' r ∧
        parts = zs.map (List.map Prod.snd) ∧ zs.map List.length = counts ∧
          ∀ z ∈ zs, ∀ t ∈ z, Corr delta t := by
  induction ht generalizing s with
  | nil => exact ⟨[], s, rfl, h, rfl, rfl, nofun⟩
  | skip _ ih =>
    obtain ⟨zs, s', hrun, hrel, rfl, rfl, hcorr⟩ := ih h
    refine ⟨[] :: zs, s', ?_, hrel, rfl, rfl, ?_⟩
    · rw [drawAll, if_pos rfl, hrun]
      rfl
    · intro z hz
      rcases List.mem_cons.mp hz with rfl | hz
      · exact nofun
      · exact hcorr z hz
  | @take counts os parts o h0 hmsgs _ ih =>
    obtain ⟨k, s₁, hsend, hk, hrel₁⟩ := c.send h
    obtain ⟨zs, s', hrun, hrel, rfl, rfl, hcorr⟩ := ih hrel₁
    have hdraw : Inner.draw o.choices.length s = some (k.keys, s₁) := by
      show (match RCOTSender.trySendRcot o.choices.length s with
        | (.ok output, s) => some (output.keys, s)
        | _ => none) = _
      rw [hsend]
    have hlen : k.keys.length = (o.choices.zip o.msgs).length := by
      rw [List.length_zip, hmsgs, min_self, hk.length_eq]
    refine ⟨k.keys.zip (o.choices.zip o.msgs) :: zs, s', ?_, hrel, ?_, ?_, ?_⟩
    · rw [drawAll, if_neg h0, hdraw]
      show (drawAll _ s₁).bind _ = _
      rw [hrun, List.map_cons, List.map_fst_zip hlen.le]
      rfl
    · rw [List.map_cons, List.map_snd_zip hlen.ge]
    · rw [List.map_cons, List.length_zip, hlen, min_self, List.length_zip, hmsgs, min_self]
    · intro z hz
      rcases List.mem_cons.mp hz with rfl | hz
      · intro t ht
        obtain ⟨i, hi⟩ := List.mem_iff_getElem?.mp ht
        rw [List.getElem?_zip_eq_some, List.getElem?_zip_eq_some, hk.msgs_eq,
          List.getElem?_zipWith_eq_some] at hi
        obtain ⟨hkey, hchoice, key, choice, hkey', hchoice', hmsg⟩ := hi
        rw [hkey] at hkey'
        rw [hchoice] at hchoice'
        cases hkey'
        cases hchoice'
        exact hmsg.symm
      · exact hcorr z hz

end

/-! ### One side -/

/-- The instance of one side, where `c` is what the two sides of it were behind the last flush. -/
structure Half {T A : Type} (f : T → A) (c : Instance T) (k : Clone A) : Prop where
  settled : k.inst.settled = (c.runs k.calls).map f
  released : k.inst.phase = .released → k.calls = [] ∧ k.inst.outstanding = 0 ∧
    (k.inst.queue.map Queued.count).sum ≤ k.inst.items.length + k.inst.fetched.length

namespace Half

variable {T A : Type} {f : T → A} {c : Instance T} {k : Clone A}

theorem new (f : T → A) : Half f Instance.new ⟨Instance.new, []⟩ := ⟨rfl, nofun⟩

variable (h : Half f c k)
include h

/-- Where it is in no flush, or has not been released from one. -/
theorem inst_eq (hk : k.inst.phase ≠ .released) :
    ({ k.inst with phase := .idle } : Instance A) = (c.runs k.calls).map f := by
  have hsettled := h.settled
  rwa [Instance.settled, if_neg hk] at hsettled

theorem idle_eq (hk : k.inst.phase = .idle) : k.inst = (c.runs k.calls).map f := by
  have heq := h.inst_eq (by rw [hk]; exact nofun)
  rw [← heq]
  cases hi : k.inst
  rw [hi] at hk
  cases hk
  rfl

theorem call (hk : k.inst.phase = .idle) (call : Call) :
    Half f c ⟨k.inst.run call, k.calls ++ [call]⟩ := by
  have hphase : (k.inst.run call).phase = .idle := by rw [Instance.phase_run, hk]
  refine ⟨?_, fun hr => ?_⟩
  · have hsettled : (k.inst.run call).settled = k.inst.run call := by
      rw [Instance.settled, if_neg (by rw [hphase]; decide), ← hphase]
    show (k.inst.run call).settled = (c.runs (k.calls ++ [call])).map f
    rw [hsettled, Instance.runs_concat, Instance.map_run, ← h.idle_eq hk]
  · rw [hphase] at hr
    cases hr

theorem park (hk : k.inst.phase = .idle) :
    Half f c { k with inst := { k.inst with phase := .parked } } := by
  refine ⟨?_, nofun⟩
  rw [← h.inst_eq (by rw [hk]; exact nofun)]
  rfl

theorem collect_eq (hk : k.inst.phase = .released) :
    Instance.collect k.inst = (.ok (), k.inst.collected) :=
  Instance.collect_eq (h.released hk).2.2

theorem collect (hk : k.inst.phase = .released) :
    Half f c { k with inst := (Instance.collect k.inst).2 } := by
  have hphase := k.inst.collected_keeps.1
  rw [h.collect_eq hk]
  refine ⟨?_, fun hr => ?_⟩
  · have hsettled : k.inst.settled = k.inst.collected := by rw [Instance.settled, if_pos hk]
    show k.inst.collected.settled = (c.runs k.calls).map f
    rw [← h.settled, hsettled, Instance.settled, if_neg (by rw [hphase]; decide), ← hphase]
  · rw [hphase] at hr
    cases hr

/-- The OTs of one side. -/
theorem all : k.inst.all.Perm (c.all.map f) := by
  refine k.inst.all_settled.symm.trans ?_
  rw [h.settled, Instance.all_map]
  exact (Instance.all_runs c k.calls).map f

theorem good (hc : c.Good c.queue) (hk : k.inst.phase ≠ .released) : k.inst.Good k.inst.queue := by
  have hgood := (hc.runs k.calls).map f
  have heq := h.inst_eq hk
  have hqueue : k.inst.queue = (c.runs k.calls).queue := congrArg Instance.queue heq
  rw [← heq, ← hqueue] at hgood
  exact hgood.phase k.inst.phase

end Half

/-- All instances of one side. -/
abbrev Side {T I A : Type} (f : T → A) (cs : List (Instance T)) (p : Party I A) : Prop :=
  List.Forall₂ (Half f) cs p.clones

namespace Side

variable {T I A : Type} {f : T → A} {cs : List (Instance T)} {p : Party I A}

theorem new (f : T → A) (inner : I) (n : ℕ) :
    Side f (List.replicate n Instance.new) (Party.new inner n : Party I A) := by
  show List.Forall₂ (Half f) (List.replicate n Instance.new) (List.replicate n ⟨Instance.new, []⟩)
  induction n with
  | zero => exact .nil
  | succ n ih => exact .cons (Half.new f) ih

/-- What an instance does is no business of the others. -/
theorem next (h : Side f cs p) {a : Local} {p' : Party I A} (hp : p.next a = some p') :
    Side f cs p' ∧ p'.inner = p.inner ∧ p'.drawn = p.drawn := by
  cases a with
  | call i call =>
    simp only [Party.next, Option.bind_eq_bind, Option.bind_eq_some_iff,
      Option.ite_none_right_eq_some, Option.some.injEq] at hp
    obtain ⟨k, hk, hidle, rfl⟩ := hp
    exact ⟨List.Forall₂.set h fun c hc => (h.rel hc hk).call hidle call, rfl, rfl⟩
  | arrive i =>
    simp only [Party.next, Option.bind_eq_bind, Option.bind_eq_some_iff,
      Option.ite_none_right_eq_some] at hp
    obtain ⟨k, hk, hidle, hp⟩ := hp
    have hset {b : Bool} : Side f cs (Party.setClone { p with flushing := b } i
        { k with inst := { k.inst with phase := .parked } }) :=
      List.Forall₂.set h fun c hc => (h.rel hc hk).park hidle
    rw [Party.enterFlush] at hp
    by_cases hf : p.flushing
    · rw [if_pos hf] at hp
      cases hp
      exact ⟨hset, rfl, rfl⟩
    · rw [if_neg hf] at hp
      by_cases hw : p.wantsFlush
      · rw [if_pos hw] at hp
        cases hp
        exact ⟨hset, rfl, rfl⟩
      · rw [if_neg hw] at hp
        cases hp
        exact ⟨h, rfl, rfl⟩
  | collect i =>
    simp only [Party.next, Option.bind_eq_bind, Option.bind_eq_some_iff,
      Option.ite_none_right_eq_some, Option.some.injEq] at hp
    obtain ⟨k, hk, hrel, rfl⟩ := hp
    exact ⟨List.Forall₂.set h fun c hc => (h.rel hc hk).collect hrel, rfl, rfl⟩

/-- The OTs of one side. -/
theorem all (h : Side f cs p) :
    (p.clones.flatMap fun k => k.inst.all).Perm ((cs.flatMap Instance.all).map f) := by
  obtain ⟨inner, flushing, clones, drawn⟩ := p
  show (clones.flatMap fun k => k.inst.all).Perm _
  have h' : List.Forall₂ (Half f) cs clones := h
  clear h
  induction h' with
  | nil => exact List.Perm.refl _
  | cons hk _ ih =>
    rw [List.flatMap_cons, List.flatMap_cons, List.map_append]
    exact hk.all.append ih

end Side

/-! ### A flush -/

/-- An instance behind a flush, when it has come to the end. -/
def flushed {T : Type} (part : List T) (d : Instance T) : Instance T := (d.give part).collected

/-- An instance that is released with its part. -/
theorem half_release {T A : Type} {f : T → A} {d : Instance T} {k : Clone A} {part : List T}
    (hk : ({ k.inst with phase := .idle } : Instance A) = d.map f) (hcov : d.Covered)
    (hpart : part.length = d.outstanding) :
    Half f (flushed part d) ⟨{ k.inst.give (part.map f) with phase := .released }, []⟩ := by
  have hgive : ({ k.inst.give (part.map f) with phase := .idle } : Instance A) =
      (d.give part).map f := by
    rw [Instance.map_give, ← hk]
    exact (Instance.give_phase _ k.inst .idle).symm
  refine ⟨?_, fun _ => ⟨rfl, Instance.outstanding_give _ k.inst, ?_⟩⟩
  · show ({ k.inst.give (part.map f) with phase := .released } : Instance A).settled =
      (d.give part).collected.map f
    rw [Instance.settled, if_pos rfl, Instance.map_collected, ← hgive]
    exact (Instance.collected_phase _ .released).trans (Instance.collected_phase _ .idle).symm
  · have hle := hcov.give hpart
    have hqueue := congrArg Instance.queue hgive
    have hitems := congrArg (fun s => s.items.length) hgive
    have hfetched := congrArg (fun s => s.fetched.length) hgive
    simp only [Instance.length_map_items, Instance.fetched_map, List.length_map] at hitems hfetched
    show ((k.inst.give (part.map f)).queue.map Queued.count).sum ≤
      (k.inst.give (part.map f)).items.length + (k.inst.give (part.map f)).fetched.length
    rw [show (k.inst.give (part.map f)).queue = (d.give part).queue from hqueue, hitems]
    exact le_of_le_of_eq hle (congrArg _ hfetched.symm)

/-- What is true of an instance behind a flush. -/
structure Base (delta : Block) (c : Instance (Block × Bool × Block)) : Prop where
  good : c.Good c.queue
  phase : c.phase = .idle
  outstanding : c.outstanding = 0
  corr : ∀ t ∈ c.all, Corr delta t

namespace Base

variable {delta : Block} {c : Instance (Block × Bool × Block)}

theorem new : Base delta Instance.new := ⟨.new, rfl, rfl, nofun⟩

theorem flushed (h : Base delta c) {calls : List Call} (hcov : (c.runs calls).Covered)
    {part : List (Block × Bool × Block)} (hpart : part.length = (c.runs calls).outstanding)
    (hcorr : ∀ t ∈ part, Corr delta t) :
    Base delta (flushed part (c.runs calls)) ∧
      (SharedRCOT.flushed part (c.runs calls)).all.Perm (c.all ++ part) := by
  obtain ⟨hphase, hout, hqueue, -, -⟩ := ((c.runs calls).give part).collected_keeps
  have hgood : ((c.runs calls).give part).Good ((c.runs calls).give part).queue := by
    rw [Instance.queue_give]
    exact (h.good.runs calls).give hpart
  have hall : (SharedRCOT.flushed part (c.runs calls)).all.Perm (c.all ++ part) :=
    (Instance.all_collected _).trans ((Instance.all_give hpart).trans
      ((Instance.all_runs c calls).append_right part))
  refine ⟨⟨?_, hphase, hout.trans (Instance.outstanding_give part _), fun t ht => ?_⟩, hall⟩
  · rw [SharedRCOT.flushed, hqueue]
    exact hgood.collected (hcov.give hpart)
  · rcases List.mem_append.mp (hall.mem_iff.mp ht) with ht | ht
    · exact h.corr t ht
    · exact hcorr t ht

end Base

section

variable {S R E E' : Type} [RCOTSender S E] [RCOTReceiver R E'] {delta : Block}
  {innerFlush : S × R → Option (S × R)} (c : AdditiveRCOT S R delta innerFlush)

/-- The two sides of the instances, and the inner RCOT. -/
structure Inv (w : World S R) (cs : List (Instance (Block × Bool × Block)))
    (drawn : List (Block × Bool × Block)) : Prop where
  sender : Side Prod.fst cs w.sender
  receiver : Side Prod.snd cs w.receiver
  base : ∀ d ∈ cs, Base delta d
  rel : c.Rel [] 0 0 w.sender.inner w.receiver.inner
  senderDrawn : w.sender.drawn = drawn.map Prod.fst
  receiverDrawn : w.receiver.drawn = drawn.map Prod.snd
  all : (cs.flatMap Instance.all).Perm drawn

variable {c} {w : World S R} {cs : List (Instance (Block × Bool × Block))}
  {drawn : List (Block × Bool × Block)}

theorem Inv.new {s : S} {r : R} (n : ℕ) (h : c.Rel [] 0 0 s r) :
    Inv c ⟨.new s n, .new r n⟩ (List.replicate n Instance.new) [] where
  sender := Side.new Prod.fst s n
  receiver := Side.new Prod.snd r n
  base d hd := by
    rw [List.eq_of_mem_replicate hd]
    exact Base.new
  rel := h
  senderDrawn := rfl
  receiverDrawn := rfl
  all := by
    induction n with
    | zero => exact List.Perm.refl _
    | succ n ih => exact ih

end

/-- The instances with the calls since the last flush, where all have arrived. -/
theorem Side.parked {T I A : Type} {f : T → A} {cs : List (Instance T)} {p : Party I A}
    (h : Side f cs p) (hp : ∀ k ∈ p.clones, k.inst.phase = .parked) :
    List.Forall₂ (fun (d : Instance T) (k : Clone A) =>
        ({ k.inst with phase := .idle } : Instance A) = d.map f)
      (List.zipWith Instance.runs cs (p.clones.map Clone.calls)) p.clones := by
  obtain ⟨inner, flushing, clones, drawn⟩ := p
  have h' : List.Forall₂ (Half f) cs clones := h
  clear h
  have hp' : ∀ k ∈ clones, k.inst.phase = .parked := hp
  clear hp
  show List.Forall₂ _ (List.zipWith _ cs (clones.map _)) clones
  induction h' with
  | nil => exact .nil
  | cons hk _ ih =>
    refine .cons (hk.inst_eq ?_) (ih fun k hk => hp' k (List.mem_cons_of_mem _ hk))
    rw [hp' _ List.mem_cons_self]
    exact nofun

section

variable {T A : Type} {f : T → A} {ds : List (Instance T)} {ks : List (Clone A)}
  (h : List.Forall₂ (fun (d : Instance T) (k : Clone A) =>
    ({ k.inst with phase := .idle } : Instance A) = d.map f) ds ks)
include h

theorem counts_eq : (ks.map fun k => k.inst.outstanding) = ds.map Instance.outstanding := by
  induction h with
  | nil => rfl
  | cons hk _ ih =>
    rw [List.map_cons, List.map_cons, ih, ← Instance.outstanding_map f, ← hk]
    rfl

theorem covered_of (hcov : ∀ k ∈ ks, k.inst.Covered) : ∀ d ∈ ds, d.Covered := by
  intro d hd
  obtain ⟨k, hk, heq⟩ := List.Forall₂.exists_right h hd
  have hkcov : (d.map f).Covered := heq ▸ hcov k hk
  rw [Instance.Covered, Instance.length_map_items, Instance.fetched_map, List.length_map,
    Instance.outstanding_map] at hkcov
  exact hkcov

theorem release_half (hcov : ∀ d ∈ ds, d.Covered) {parts : List (List T)}
    (hparts : parts.map List.length = ds.map Instance.outstanding) :
    List.Forall₂ (Half f) (List.zipWith flushed parts ds)
      (List.zipWith (fun part k => ⟨{ k.inst.give part with phase := .released }, []⟩)
        (parts.map (List.map f)) ks) := by
  induction h generalizing parts with
  | nil =>
    rw [List.zipWith_nil_right, List.zipWith_nil_right]
    exact .nil
  | cons hk _ ih =>
    cases parts with
    | nil => exact .nil
    | cons part parts =>
      rw [List.map_cons, List.map_cons, List.cons.injEq] at hparts
      exact .cons (half_release hk (hcov _ List.mem_cons_self) hparts.1)
        (ih (fun d hd => hcov d (List.mem_cons_of_mem _ hd)) hparts.2)

end

theorem base_flushed {delta : Block} {cs : List (Instance (Block × Bool × Block))}
    {calls : List (List Call)} {parts : List (List (Block × Bool × Block))}
    (hbase : ∀ c ∈ cs, Base delta c) (hlen : cs.length = calls.length)
    (hcov : ∀ d ∈ List.zipWith Instance.runs cs calls, d.Covered)
    (hparts : parts.map List.length =
      (List.zipWith Instance.runs cs calls).map Instance.outstanding)
    (hcorr : ∀ part ∈ parts, ∀ t ∈ part, Corr delta t) :
    (∀ d ∈ List.zipWith flushed parts (List.zipWith Instance.runs cs calls), Base delta d) ∧
      ((List.zipWith flushed parts (List.zipWith Instance.runs cs calls)).flatMap Instance.all).Perm
        (cs.flatMap Instance.all ++ parts.flatten) := by
  induction cs generalizing calls parts with
  | nil =>
    obtain rfl : parts = [] := List.map_eq_nil_iff.mp hparts
    exact ⟨nofun, List.Perm.refl _⟩
  | cons c cs ih =>
    cases calls with
    | nil => cases hlen
    | cons cc calls =>
      cases parts with
      | nil => cases hparts
      | cons part parts =>
        rw [List.zipWith_cons_cons] at hcov hparts ⊢
        rw [List.map_cons, List.map_cons, List.cons.injEq] at hparts
        obtain ⟨hd, hall⟩ := (hbase c List.mem_cons_self).flushed
          (hcov _ List.mem_cons_self) hparts.1
          (hcorr part List.mem_cons_self)
        obtain ⟨hds, halls⟩ := ih (fun c hc => hbase c (List.mem_cons_of_mem _ hc))
          (Nat.succ.inj hlen) (fun d hd => hcov d (List.mem_cons_of_mem _ hd)) hparts.2
          (fun part hp => hcorr part (List.mem_cons_of_mem _ hp))
        rw [List.zipWith_cons_cons]
        refine ⟨fun d' hd' => ?_, ?_⟩
        · rcases List.mem_cons.mp hd' with rfl | hd'
          · exact hd
          · exact hds d' hd'
        · rw [List.flatMap_cons, List.flatMap_cons, List.flatten_cons]
          refine (hall.append halls).trans ?_
          rw [List.append_assoc, List.append_assoc, ← List.append_assoc part,
            ← List.append_assoc (cs.flatMap Instance.all)]
          exact (List.perm_append_comm.append_right _).append_left _

theorem released_release {I A : Type} (parts : List (List A)) (inner : I) (p : Party I A) :
    ∀ k ∈ (p.release parts inner).clones, k.inst.phase = .released ∧ k.inst.outstanding = 0 := by
  intro k hk
  obtain ⟨i, hi⟩ := List.mem_iff_getElem?.mp hk
  rw [Party.release, List.getElem?_zipWith_eq_some] at hi
  obtain ⟨part, k₀, -, -, rfl⟩ := hi
  exact ⟨rfl, Instance.outstanding_give part k₀.inst⟩

section

variable {S R E E' : Type} [RCOTSender S E] [RCOTReceiver R E'] {delta : Block}
  {innerFlush : S × R → Option (S × R)} {c : AdditiveRCOT S R delta innerFlush}
  {w : World S R} {cs : List (Instance (Block × Bool × Block))}
  {drawn : List (Block × Bool × Block)}

/-- **A flush.** It succeeds, and every instance gets what it has allocated. -/
theorem Inv.flush (h : Inv c w cs drawn) (hmet : w.Met)
    (hcov : ∀ k ∈ w.sender.clones, k.inst.Covered) : ∃ w' parts, w.flush innerFlush = some w' ∧
      (∀ k ∈ w'.sender.clones, k.inst.phase = .released ∧ k.inst.outstanding = 0) ∧
      (∀ k ∈ w'.receiver.clones, k.inst.phase = .released ∧ k.inst.outstanding = 0) ∧
        Inv c w' (List.zipWith flushed parts
          (List.zipWith Instance.runs cs (w.sender.clones.map Clone.calls)))
          (drawn ++ parts.flatten) := by
  obtain ⟨hs, hr, hcalls⟩ := hmet
  have hsend := h.sender.parked hs
  have hrecv := h.receiver.parked hr
  rw [← hcalls] at hrecv
  have hscounts : w.sender.counts = _ := counts_eq hsend
  have hrcounts : w.receiver.counts = _ := counts_eq hrecv
  have hcover := covered_of hsend hcov
  have hlen : cs.length = (w.sender.clones.map Clone.calls).length := by
    rw [List.length_map, h.sender.length_eq]
  -- the counts of the two sides are the same
  obtain ⟨s₁, halloc, hrel₁⟩ := allocAll_sender c w.sender.counts h.rel
  obtain ⟨r₁, halloc', hrel₂⟩ := allocAll_receiver c w.receiver.counts hrel₁
  rw [hscounts, hrcounts] at hrel₂
  obtain ⟨s₂, r₂, hflush, hav, hrel₃⟩ := c.flush hrel₂
  rw [Nat.zero_add, ← hrcounts] at hav
  obtain ⟨os, parts, r₃, hdraw', htaken, hrel₄⟩ := drawAll_receiver c hrel₃ hav
  rw [hrcounts, ← hscounts] at htaken
  obtain ⟨zs, s₃, hdraw, hrel₅, rfl, hzlen, hcorr⟩ := drawAll_sender c htaken hrel₄
  rw [hscounts] at hzlen
  obtain ⟨hbase, hall⟩ := base_flushed h.base hlen hcover hzlen hcorr
  refine ⟨⟨w.sender.release (zs.map (List.map Prod.fst)) s₃,
    w.receiver.release (zs.map (List.map Prod.snd)) r₃⟩, zs, ?_, ?_, ?_, ?_⟩
  · rw [World.flush, halloc]
    show (allocAll (Bool × Block) w.receiver.counts w.receiver.inner).bind _ = _
    rw [halloc']
    show (innerFlush (s₁, r₁)).bind _ = _
    rw [hflush]
    show (drawAll w.sender.counts s₂).bind _ = _
    rw [hdraw]
    show (drawAll w.receiver.counts r₂).bind _ = _
    rw [hdraw']
    rfl
  · exact released_release _ s₃ w.sender
  · exact released_release _ r₃ w.receiver
  · refine ⟨release_half hsend hcover hzlen, release_half hrecv hcover hzlen, hbase, hrel₅,
      ?_, ?_, ?_⟩
    · show w.sender.drawn ++ _ = _
      rw [h.senderDrawn, List.map_append, List.map_flatten]
    · show w.receiver.drawn ++ _ = _
      rw [h.receiverDrawn, List.map_append, List.map_flatten]
    · exact hall.trans (h.all.append_right _)

/-- A careful step. -/
theorem Inv.step (h : Inv c w cs drawn) {a : Act} {w' : World S R}
    (hstep : CarefulStep innerFlush w a w') : ∃ cs' drawn', Inv c w' cs' drawn' := by
  obtain ⟨hcare, hstep⟩ := hstep
  cases a with
  | sender a =>
    simp only [Step, World.next, Option.bind_eq_bind, Option.bind_eq_some_iff,
      Option.some.injEq] at hstep
    obtain ⟨p, hp, rfl⟩ := hstep
    obtain ⟨hside, hinner, hdrawn⟩ := h.sender.next hp
    exact ⟨cs, drawn, hside, h.receiver, h.base, hinner ▸ h.rel, hdrawn.trans h.senderDrawn,
      h.receiverDrawn, h.all⟩
  | receiver a =>
    simp only [Step, World.next, Option.bind_eq_bind, Option.bind_eq_some_iff,
      Option.some.injEq] at hstep
    obtain ⟨p, hp, rfl⟩ := hstep
    obtain ⟨hside, hinner, hdrawn⟩ := h.receiver.next hp
    exact ⟨cs, drawn, h.sender, hside, h.base, hinner ▸ h.rel, h.senderDrawn,
      hdrawn.trans h.receiverDrawn, h.all⟩
  | flush =>
    rw [Step, World.next, Option.ite_none_right_eq_some] at hstep
    obtain ⟨w'', parts, hrun, -, -, hinv⟩ := h.flush hstep.1 hcare
    rw [hrun] at hstep
    cases hstep.2
    exact ⟨_, _, hinv⟩

end

/-! ### What is promised -/

/-- The outputs of a transfer on the two sides. -/
structure Matched (delta : Block) (s : Output Block) (r : Output (Bool × Block)) : Prop where
  id_eq : s.id = r.id
  corr : Correlated delta s.items (r.items.map Prod.fst) (r.items.map Prod.snd)

/-- What the two sides of an instance have in common. -/
structure Instance.Agree (delta : Block) (s : Instance Block) (r : Instance (Bool × Block)) :
    Prop where
  available : s.available = r.available
  outstanding : s.outstanding = r.outstanding
  handed : List.Forall₂ (Matched delta) s.handed r.handed
  futures : ∀ k, Option.Rel (Matched delta) (s.futures.tryRecv k) (r.futures.tryRecv k)

theorem correlated_map {delta : Block} {ts : List (Block × Bool × Block)}
    (h : ∀ t ∈ ts, Corr delta t) : Correlated delta (ts.map Prod.fst)
      ((ts.map Prod.snd).map Prod.fst) ((ts.map Prod.snd).map Prod.snd) := by
  induction ts with
  | nil => exact .nil
  | cons t ts ih =>
    have htail := ih fun t ht => h t (List.mem_cons_of_mem _ ht)
    refine ⟨by simp only [List.length_map], ?_⟩
    rw [List.map_cons, List.map_cons, List.map_cons, List.map_cons, List.zipWith_cons_cons,
      h t List.mem_cons_self, ← htail.msgs_eq]

namespace Instance

variable {delta : Block} {d : Instance (Block × Bool × Block)}

theorem tryRecv_map {T A : Type} (f : T → A) (d : Instance T) (k : ℕ) :
    (d.map f).futures.tryRecv k = (d.futures.tryRecv k).map (Output.map f) := by
  rw [Futures.tryRecv, Futures.tryRecv, map, List.find?_map, Option.map_map, Option.map_map]
  rfl

theorem matched_map {o : Output (Block × Bool × Block)} (ho : o ∈ d.handed)
    (h : ∀ t ∈ d.all, Corr delta t) : Matched delta (o.map Prod.fst) (o.map Prod.snd) := by
  refine ⟨rfl, correlated_map fun t ht => h t ?_⟩
  rw [all, List.mem_append, List.mem_append, List.mem_flatMap]
  exact .inl (.inl ⟨o, ho, ht⟩)

/-- The two sides of an instance. -/
theorem agree_map (hgood : d.Good d.queue) (h : ∀ t ∈ d.all, Corr delta t) :
    Agree delta (d.map Prod.fst) (d.map Prod.snd) where
  available := by rw [available, available, length_map_items, length_map_items]
  outstanding := by rw [outstanding_map, outstanding_map]
  handed := by
    show List.Forall₂ _ (d.handed.map _) (d.handed.map _)
    rw [List.forall₂_map_left_iff, List.forall₂_map_right_iff, List.forall₂_same]
    exact fun o ho => matched_map ho h
  futures k := by
    rw [tryRecv_map, tryRecv_map]
    cases hk : d.futures.tryRecv k with
    | none => exact .none
    | some o =>
      rw [Futures.tryRecv, Option.map_eq_some_iff] at hk
      obtain ⟨s, hs, rfl⟩ := hk
      exact .some (matched_map (hgood.sent s (List.mem_of_find?_eq_some hs)).1 h)

end Instance

section

variable {S R E E' : Type} [RCOTSender S E] [RCOTReceiver R E']

/-- What is promised of a state. -/
structure Serves (delta : Block) (innerFlush : S × R → Option (S × R)) (w : World S R) : Prop where
  /-- Two instances that belong together, where neither is at the end of a flush, and both have made
  the same calls. -/
  agree : ∀ (i : ℕ) (s : Clone Block) (r : Clone (Bool × Block)), w.sender.clones[i]? = some s →
    w.receiver.clones[i]? = some r → s.inst.phase ≠ .released → r.inst.phase ≠ .released →
      s.calls = r.calls → s.inst.Agree delta r.inst
  /-- Every request waits or is answered, and what was allocated is outstanding or there. -/
  sender : ∀ k ∈ w.sender.clones, k.inst.phase ≠ .released → k.inst.Good k.inst.queue
  receiver : ∀ k ∈ w.receiver.clones, k.inst.phase ≠ .released → k.inst.Good k.inst.queue
  /-- What was taken from the inner RCOT is correlated, and belongs to one instance. -/
  drawn : Correlated delta w.sender.drawn (w.receiver.drawn.map Prod.fst)
    (w.receiver.drawn.map Prod.snd)
  senderOwns : (w.sender.clones.flatMap fun k => k.inst.all).Perm w.sender.drawn
  receiverOwns : (w.receiver.clones.flatMap fun k => k.inst.all).Perm w.receiver.drawn
  /-- The flush of all instances succeeds, and sets up all that is allocated. -/
  flushes : w.Met → Act.flush.Careful w → ∃ w', w.next innerFlush .flush = some w' ∧
    (∀ k ∈ w'.sender.clones, k.inst.phase = .released ∧ k.inst.outstanding = 0) ∧
    (∀ k ∈ w'.receiver.clones, k.inst.phase = .released ∧ k.inst.outstanding = 0)
  /-- At the end of it, an instance answers all requests that wait. -/
  senderCollects : ∀ k ∈ w.sender.clones, k.inst.phase = .released →
    ∃ inst, Instance.collect k.inst = (.ok (), inst) ∧ inst.queue = []
  receiverCollects : ∀ k ∈ w.receiver.clones, k.inst.phase = .released →
    ∃ inst, Instance.collect k.inst = (.ok (), inst) ∧ inst.queue = []

theorem Side.collects {T I A : Type} {f : T → A} {cs : List (Instance T)} {p : Party I A}
    (h : Side f cs p) : ∀ k ∈ p.clones, k.inst.phase = .released →
      ∃ inst, Instance.collect k.inst = (.ok (), inst) ∧ inst.queue = [] := by
  intro k hk hrel
  obtain ⟨c, -, hhalf⟩ := List.Forall₂.exists_left h hk
  exact ⟨_, hhalf.collect_eq hrel, k.inst.collected_keeps.2.2.1⟩

theorem Side.goods {I A : Type} {delta : Block} {f : Block × Bool × Block → A}
    {cs : List (Instance (Block × Bool × Block))} {p : Party I A} (h : Side f cs p)
    (hbase : ∀ c ∈ cs, Base delta c) :
    ∀ k ∈ p.clones, k.inst.phase ≠ .released → k.inst.Good k.inst.queue := by
  intro k hk hrel
  obtain ⟨c, hc, hhalf⟩ := List.Forall₂.exists_left h hk
  exact hhalf.good (hbase c hc).good hrel

theorem Inv.serves {delta : Block} {innerFlush : S × R → Option (S × R)}
    {c : AdditiveRCOT S R delta innerFlush} {w : World S R}
    {cs : List (Instance (Block × Bool × Block))} {drawn : List (Block × Bool × Block)}
    (h : Inv c w cs drawn) : Serves delta innerFlush w where
  agree i s r hs hr hsp hrp hcalls := by
    have hlt := (List.getElem?_eq_some_iff.mp hs).1
    rw [← h.sender.length_eq] at hlt
    have hd := List.getElem?_eq_getElem hlt
    have hbase := h.base _ (List.mem_of_getElem? hd)
    have hseq := (h.sender.rel hd hs).inst_eq hsp
    have hreq := (h.receiver.rel hd hr).inst_eq hrp
    rw [← hcalls] at hreq
    have hagree := Instance.agree_map (hbase.good.runs s.calls) fun t ht =>
      hbase.corr t ((Instance.all_runs cs[i] s.calls).mem_iff.mp ht)
    rw [← hseq, ← hreq] at hagree
    exact ⟨hagree.available, hagree.outstanding, hagree.handed, hagree.futures⟩
  sender := h.sender.goods h.base
  receiver := h.receiver.goods h.base
  drawn := by
    rw [h.senderDrawn, h.receiverDrawn]
    refine correlated_map fun t ht => ?_
    obtain ⟨d, hd, ht⟩ := List.mem_flatMap.mp (h.all.mem_iff.mpr ht)
    exact (h.base d hd).corr t ht
  senderOwns := h.senderDrawn ▸ h.sender.all.trans (h.all.map Prod.fst)
  receiverOwns := h.receiverDrawn ▸ h.receiver.all.trans (h.all.map Prod.snd)
  flushes hmet hcare := by
    obtain ⟨w', parts, hrun, hs, hr, -⟩ := h.flush hmet hcare
    exact ⟨w', by rw [World.next, if_pos hmet, hrun], hs, hr⟩
  senderCollects := h.sender.collects
  receiverCollects := h.receiver.collects

end

end SharedRCOT

open SharedRCOT

/-- **Every instance has its own correlated OTs**, in every run in which no flush comes to a request
that there are not enough OTs for. -/
theorem shared_rcot_serves {S R E E' : Type} [RCOTSender S E] [RCOTReceiver R E'] {delta : Block}
    {innerFlush : S × R → Option (S × R)} (c : AdditiveRCOT S R delta innerFlush) {s : S} {r : R}
    (hstart : c.Rel [] 0 0 s r) {n : ℕ} {acts : List Act} {w : World S R}
    (h : Run (CarefulStep innerFlush) ⟨.new s n, .new r n⟩ acts w) : Serves delta innerFlush w := by
  have hinv := h.invariant (P := fun w => ∃ cs drawn, Inv c w cs drawn)
    ⟨_, _, Inv.new n hstart⟩ fun t a u ⟨cs, drawn, hinv⟩ hstep => hinv.step hstep
  obtain ⟨cs, drawn, hinv⟩ := hinv
  exact hinv.serves

instance {S R : Type} (w : World S R) : (a : Act) → Decidable (a.Careful w)
  | .flush => inferInstanceAs (Decidable (∀ k ∈ w.sender.clones, _ ≤ _))
  | .sender _ => .isTrue trivial
  | .receiver _ => .isTrue trivial

/-- What is behind a careful step. -/
def SharedRCOT.World.carefulNext {S R E E' : Type} [RCOTSender S E] [RCOTReceiver R E']
    (innerFlush : S × R → Option (S × R)) (w : World S R) (a : Act) : Option (World S R) :=
  if a.Careful w then w.next innerFlush a else none

theorem SharedRCOT.carefulStep_of_next {S R E E' : Type} [RCOTSender S E] [RCOTReceiver R E']
    {innerFlush : S × R → Option (S × R)} (w : World S R) (a : Act) (w' : World S R)
    (h : w.carefulNext innerFlush a = some w') : CarefulStep innerFlush w a w' :=
  Option.ite_none_right_eq_some.mp h

/-- A new ideal sender. -/
def sampleSender : IdealRCOTSender := .new 3 1

/-- A new ideal receiver. -/
def sampleReceiver : IdealRCOTReceiver := .new fun i => i % 2 == 0

/-- A run with two instances, which arrive in different orders. -/
theorem run_two_instances : ∃ w : World IdealRCOTSender IdealRCOTReceiver,
    Run (CarefulStep IdealRCOT.flush) ⟨.new sampleSender 2, .new sampleReceiver 2⟩
      [.sender (.call 0 (.alloc 1)), .receiver (.call 1 (.alloc 2)), .sender (.call 1 (.alloc 2)),
        .sender (.call 1 (.queueRcot 2)), .receiver (.call 0 (.alloc 1)), .sender (.arrive 0),
        .receiver (.call 1 (.queueRcot 2)), .receiver (.arrive 1), .sender (.arrive 1),
        .receiver (.arrive 0), .flush, .sender (.collect 1), .receiver (.collect 0),
        .receiver (.collect 1), .sender (.collect 0)] w ∧
      (w.sender.clones.map fun k => (k.inst.futures.tryRecv 0).map fun o => o.items.length) =
        [none, some 2] :=
  ⟨_, Run.of_isSome (World.carefulNext IdealRCOT.flush) carefulStep_of_next (by decide +kernel),
    by decide +kernel⟩

/-- The instances of the run have their OTs. -/
theorem shared_rcot_serves_two : ∃ w : World IdealRCOTSender IdealRCOTReceiver,
    Serves 1 IdealRCOT.flush w ∧
      (w.sender.clones.map fun k => (k.inst.futures.tryRecv 0).map fun o => o.items.length) =
        [none, some 2] := by
  obtain ⟨w, hrun, hlen⟩ := run_two_instances
  have hstart : (IdealRCOT.additive 1).Rel [] 0 0 sampleSender sampleReceiver :=
    ⟨⟨rfl, rfl, rfl, rfl, rfl, rfl⟩, rfl, rfl⟩
  exact ⟨w, shared_rcot_serves (IdealRCOT.additive 1) hstart hrun, hlen⟩

/-- A request is dropped whose OTs were allocated: it waits behind one that there are not enough OTs
for. -/
theorem dropped_request : ∃ w w' : World IdealRCOTSender IdealRCOTReceiver,
    Run (Step IdealRCOT.flush) ⟨.new sampleSender 1, .new sampleReceiver 1⟩
      [.sender (.call 0 (.queueRcot 5)), .sender (.call 0 (.alloc 1)),
        .sender (.call 0 (.queueRcot 1)), .receiver (.call 0 (.queueRcot 5)),
        .receiver (.call 0 (.alloc 1)), .receiver (.call 0 (.queueRcot 1)), .sender (.arrive 0),
        .receiver (.arrive 0), .flush] w ∧
      Run (Step IdealRCOT.flush) w [.sender (.collect 0), .receiver (.collect 0)] w' ∧
      (w.sender.clones.map fun k => (k.inst.queue, k.inst.fetched.length)) =
        [([⟨5, 0⟩, ⟨1, 1⟩], 1)] ∧
      (w.sender.clones.map fun k => (Instance.collect k.inst).1) =
        [.err (.insufficientSetup 5 1)] ∧
      (w'.sender.clones.map fun k => (k.inst.available, k.inst.queue, k.inst.futures.tryRecv 1)) =
        [(1, [], none)] :=
  ⟨_, _, Run.of_isSome (World.next IdealRCOT.flush) (fun _ _ _ h => h) (by decide +kernel),
    Run.of_isSome (World.next IdealRCOT.flush) (fun _ _ _ h => h) (by decide +kernel),
    by decide +kernel, by decide +kernel, by decide +kernel⟩

end Mpz
