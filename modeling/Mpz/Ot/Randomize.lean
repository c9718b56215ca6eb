import Mathlib.Data.List.Nodup
import Mathlib.Tactic.Common
import Mpz.Lib.Run
import Mpz.Ot.Rcot
import Mpz.Ot.SharedFlush

/-!
# Random oblivious transfer from random correlated oblivious transfer

The keys `k` and `k + Δ` of an RCOT are hashed, and so is the message of the receiver. The hash
takes a tweak, which is made of the id of the transfer and of the index of the OT in it.

An RCOT counts its transfers, so over one RCOT all tweaks are different. But each instance of a
shared RCOT has a counter of its own, and they all have the same `Δ`. Here the instances make
mirrored calls on both sides, and a flush gives each of them as many new OTs as it has allocated.

## Main definitions

* `RandomizedROT.tweak`, `randomizeSender`, `randomizeReceiver` — what is done to an output
* `RandomizedROT.Selected` — what the two sides of a transfer have
* `RandomizedROT.World` — the instances of a shared RCOT, on both sides
* `RandomizedROT.Careful` — no two instances make a transfer with the same id

## Main results

* `RandomizedROT.single_correct` — one pair over an RCOT that counts its transfers
* `randomized_rot_correct` — several pairs over a shared one
-/

namespace Mpz

namespace RandomizedROT

open SharedRCOT

variable {A B : Type} {delta : Block} {tccr : BitVec 128 → Block → Block}

/-- `((id as u128) << 64) + (i as u128)` -/
def tweak (id i : ℕ) : BitVec 128 := (BitVec.ofNat 128 id <<< 64) + BitVec.ofNat 128 i

/-- The tweaks of an output. -/
def tweaks (o : Output A) : List (BitVec 128) := (List.range o.items.length).map (tweak o.id)

/-- The keys of a transfer, hashed. -/
def randomizeSender (tccr : BitVec 128 → Block → Block) (delta : Block) (output : Output Block) :
    Output (Block × Block) :=
  ⟨output.id, output.items.mapIdx fun i key =>
    (tccr (tweak output.id i) key, tccr (tweak output.id i) (key ^^^ delta))⟩

/-- The messages of a transfer, hashed. -/
def randomizeReceiver (tccr : BitVec 128 → Block → Block) (output : Output (Bool × Block)) :
    Output (Bool × Block) :=
  ⟨output.id, output.items.mapIdx fun i item => (item.1, tccr (tweak output.id i) item.2)⟩

/-- Of each pair of keys the receiver has the one of its choice. -/
structure Selected (s : Output (Block × Block)) (r : Output (Bool × Block)) : Prop where
  id_eq : s.id = r.id
  length_eq : s.items.length = r.items.length
  msg_eq : ∀ {i : ℕ} {keys : Block × Block} {item : Bool × Block}, s.items[i]? = some keys →
    r.items[i]? = some item → item.2 = if item.1 then keys.2 else keys.1

/-- The keys and the message are hashed with the same tweak. -/
theorem selected {s : Output Block} {r : Output (Bool × Block)} (h : Matched delta s r) :
    Selected (randomizeSender tccr delta s) (randomizeReceiver tccr r) where
  id_eq := h.id_eq
  length_eq := by
    have hlen := h.corr.length_eq
    rw [List.length_map] at hlen
    rw [randomizeSender, randomizeReceiver, List.length_mapIdx, List.length_mapIdx, hlen]
  msg_eq {i keys item} hs hr := by
    rw [randomizeSender, List.getElem?_mapIdx, Option.map_eq_some_iff] at hs
    rw [randomizeReceiver, List.getElem?_mapIdx, Option.map_eq_some_iff] at hr
    obtain ⟨key, hkey, rfl⟩ := hs
    obtain ⟨⟨choice, msg⟩, hitem, rfl⟩ := hr
    have hmsg := congrArg (·[i]?) h.corr.msgs_eq
    simp only [List.getElem?_map, List.getElem?_zipWith, hkey, hitem, Option.map_some,
      Option.some.injEq] at hmsg
    rw [hmsg, corrMsg, h.id_eq]
    cases choice <;> rfl

/-! ### Tweaks -/

theorem toNat_tweak {id i : ℕ} (hid : id < 2 ^ 64) (hi : i < 2 ^ 64) :
    (tweak id i).toNat = id * 2 ^ 64 + i := by
  rw [tweak, BitVec.toNat_add, BitVec.toNat_shiftLeft, BitVec.toNat_ofNat, BitVec.toNat_ofNat,
    Nat.shiftLeft_eq]
  omega

theorem tweak_inj {id i id' i' : ℕ} (hid : id < 2 ^ 64) (hi : i < 2 ^ 64) (hid' : id' < 2 ^ 64)
    (hi' : i' < 2 ^ 64) (h : tweak id i = tweak id' i') : id = id' ∧ i = i' := by
  have hnat := congrArg BitVec.toNat h
  rw [toNat_tweak hid hi, toNat_tweak hid' hi'] at hnat
  omega

/-- The id and the number of OTs of a transfer are numbers of the program. -/
def Small (o : Output A) : Prop := o.id < 2 ^ 64 ∧ o.items.length ≤ 2 ^ 64

instance (o : Output A) : Decidable (Small o) :=
  inferInstanceAs (Decidable (o.id < 2 ^ 64 ∧ o.items.length ≤ 2 ^ 64))

theorem mem_tweaks {o : Output A} {t : BitVec 128} :
    t ∈ tweaks o ↔ ∃ i < o.items.length, tweak o.id i = t := by
  rw [tweaks, List.mem_map]
  exact exists_congr fun i => and_congr_left' List.mem_range

theorem nodup_tweaks {o : Output A} (h : Small o) : (tweaks o).Nodup := by
  refine List.Nodup.map_on (fun i hi j hj heq => ?_) List.nodup_range
  rw [List.mem_range] at hi hj
  exact (tweak_inj h.1 (hi.trans_le h.2) h.1 (hj.trans_le h.2) heq).2

/-- Two transfers, given by their ids and the numbers of their OTs, that have no tweak in common. -/
def Apart (us vs : List (ℕ × ℕ)) : Prop := ∀ u ∈ us, ∀ v ∈ vs, u.1 = v.1 → u.2 = 0 ∨ v.2 = 0

instance (us vs : List (ℕ × ℕ)) : Decidable (Apart us vs) :=
  inferInstanceAs (Decidable (∀ u ∈ us, ∀ v ∈ vs, u.1 = v.1 → u.2 = 0 ∨ v.2 = 0))

/-- The id of a transfer, and the number of its OTs. -/
def size (o : Output A) : ℕ × ℕ := (o.id, o.items.length)

theorem Apart.mono {us vs us' vs' : List (ℕ × ℕ)} (h : Apart us vs) (hu : us' ⊆ us)
    (hv : vs' ⊆ vs) :
    Apart us' vs' := fun u hu' v hv' => h u (hu hu') v (hv hv')

theorem disjoint_tweaks_iff {o o' : Output A} (h : Small o) (h' : Small o') :
    List.Disjoint (tweaks o) (tweaks o') ↔
      (o.id = o'.id → o.items.length = 0 ∨ o'.items.length = 0) := by
  constructor
  · intro hdis hid
    by_contra hne
    rw [not_or] at hne
    refine hdis (mem_tweaks.mpr ⟨0, Nat.pos_of_ne_zero hne.1, rfl⟩)
      (mem_tweaks.mpr ⟨0, Nat.pos_of_ne_zero hne.2, ?_⟩)
    rw [hid]
  · intro himp t ht ht'
    obtain ⟨i, hi, rfl⟩ := mem_tweaks.mp ht
    obtain ⟨j, hj, heq⟩ := mem_tweaks.mp ht'
    have hid := (tweak_inj h'.1 (hj.trans_le h'.2) h.1 (hi.trans_le h.2) heq).1
    have := himp hid.symm
    omega

theorem disjoint_iff_apart {os os' : List (Output A)} (h : ∀ o ∈ os, Small o)
    (h' : ∀ o ∈ os', Small o) : List.Disjoint (os.flatMap tweaks) (os'.flatMap tweaks) ↔
      Apart (os.map size) (os'.map size) := by
  constructor
  · intro hdis u hu v hv
    obtain ⟨o, ho, rfl⟩ := List.mem_map.mp hu
    obtain ⟨o', ho', rfl⟩ := List.mem_map.mp hv
    refine (disjoint_tweaks_iff (h o ho) (h' o' ho')).mp fun t ht ht' => ?_
    exact hdis (List.mem_flatMap.mpr ⟨o, ho, ht⟩) (List.mem_flatMap.mpr ⟨o', ho', ht'⟩)
  · intro hapart t ht ht'
    obtain ⟨o, ho, hto⟩ := List.mem_flatMap.mp ht
    obtain ⟨o', ho', hto'⟩ := List.mem_flatMap.mp ht'
    refine (disjoint_tweaks_iff (h o ho) (h' o' ho')).mpr (fun hid => ?_) hto hto'
    exact hapart _ (List.mem_map_of_mem ho) _ (List.mem_map_of_mem ho') hid

/-- Transfers that are counted have different tweaks. -/
theorem nodup_of_counted {os : List (Output A)} {n : ℕ} (hsmall : ∀ o ∈ os, Small o)
    (hids : os.map Output.id = List.range n) : (os.flatMap tweaks).Nodup := by
  refine List.nodup_flatMap.mpr ⟨fun o ho => nodup_tweaks (hsmall o ho), ?_⟩
  have hnodup : os.Pairwise fun o o' => o.id ≠ o'.id := by
    rw [← List.pairwise_map, hids]
    exact List.nodup_range
  refine hnodup.imp_of_mem fun ho ho' hne => ?_
  exact (disjoint_tweaks_iff (hsmall _ ho) (hsmall _ ho')).mpr fun hid => absurd hid hne

/-- **Several counters:** no tweak is used twice if and only if no two of them gave the same id to
transfers of at least one OT. -/
theorem nodup_iff {l : List (List (Output A))} (hsmall : ∀ os ∈ l, ∀ o ∈ os, Small o)
    (hids : ∀ os ∈ l, ∃ n, os.map Output.id = List.range n) :
    (l.flatMap (·.flatMap tweaks)).Nodup ↔ (l.map (·.map size)).Pairwise Apart := by
  rw [List.nodup_flatMap, List.pairwise_map]
  constructor
  · rintro ⟨-, hpair⟩
    refine hpair.imp_of_mem fun hos hos' hdis => ?_
    exact (disjoint_iff_apart (hsmall _ hos) (hsmall _ hos')).mp hdis
  · intro hpair
    refine ⟨fun os hos => ?_, hpair.imp_of_mem fun hos hos' hapart => ?_⟩
    · obtain ⟨n, hn⟩ := hids os hos
      exact nodup_of_counted (hsmall os hos) hn
    · exact (disjoint_iff_apart (hsmall _ hos) (hsmall _ hos')).mpr hapart

/-! ### What an instance hands out -/

/-- The transfers that counts are served with, up to the first one that there are not enough OTs
for. -/
def due : ℕ → ℕ → List ℕ → List (ℕ × ℕ)
  | _, _, [] => []
  | available, id, count :: counts =>
    if count ≤ available then (id, count) :: due (available - count) (id + 1) counts else []

/-- How many OTs a call asks for. -/
def asked : SharedRCOT.Call → List ℕ
  | .alloc _ => []
  | .tryRcot count => [count]
  | .queueRcot count => [count]

/-- Requests are answered in order, up to the first one that there are not enough OTs for. -/
def serveSome : List Queued → Instance A → Instance A
  | [], self => self
  | q :: queue, self =>
    if q.count ≤ self.items.length then serveSome queue (self.answered q.count q.sender) else self

/-- The transfers of an instance. -/
def transfers (self : Instance A) : List (ℕ × ℕ) := self.handed.map size

theorem forEach_answer_snd (queue : List Queued) (self : Instance A) :
    (Method.forEach (fun q : Queued => Instance.answer q.count q.sender) queue self).2 =
      serveSome queue self := by
  induction queue generalizing self with
  | nil => rfl
  | cons q queue ih =>
    rw [Method.forEach, serveSome]
    split
    next hle =>
      rw [Method.bind_apply_of_ok (Instance.answer_eq hle _)]
      exact ih _
    next hle =>
      have herr : Instance.answer q.count q.sender self =
          (.err (.insufficientSetup q.count self.available), self) := by
        rw [Instance.answer, Method.bind_apply, Instance.tryRcot_eq, if_neg hle]
      rw [Method.bind_apply, herr]

/-- What the end of a flush leaves, also where it fails. -/
theorem collect_snd (self : Instance A) :
    (Instance.collect self).2 = serveSome self.queue { self.pickUp with queue := [] } := by
  have hqueue : self.pickUp.queue = self.queue := by
    obtain ⟨items, buffer, heq⟩ := Instance.pickUp_eq self
    rw [heq]
  rw [Instance.collect, Method.modify_bind, Method.get_bind, Method.modify_bind, hqueue]
  exact forEach_answer_snd _ _

theorem map_serveSome (f : A → B) (queue : List Queued) (self : Instance A) :
    (serveSome queue self).map f = serveSome queue (self.map f) := by
  induction queue generalizing self with
  | nil => rfl
  | cons q queue ih =>
    rw [serveSome, serveSome, Instance.length_map_items]
    split
    next => rw [ih, Instance.map_answered]
    next => rfl

theorem map_collect (f : A → B) (self : Instance A) :
    (Instance.collect self).2.map f = (Instance.collect (self.map f)).2 := by
  rw [collect_snd, collect_snd, map_serveSome, ← Instance.map_pickUp]
  rfl

/-- What is true of an instance: it counts its transfers, its futures get what it hands out, and all
its OTs are of a kind. -/
structure Counted (P : A → Prop) (c : Instance A) : Prop where
  ids : c.handed.map Output.id = List.range c.transferId
  sent : ∀ s ∈ c.futures.sent, s.2 ∈ c.handed
  ots : ∀ a ∈ c.all, P a

namespace Counted

variable {P : A → Prop} {self : Instance A}

theorem new : Counted P (Instance.new : Instance A) := ⟨rfl, nofun, nofun⟩

theorem items (h : Counted P self) {o : Output A} (ho : o ∈ self.handed) : ∀ a ∈ o.items, P a := by
  intro a ha
  refine h.ots a (List.mem_append_left _ (List.mem_append_left _ ?_))
  exact List.mem_flatMap.mpr ⟨o, ho, ha⟩

theorem withoutLast (h : Counted P self) (count : ℕ) : Counted P (self.withoutLast count) where
  ids := by
    show (self.handed ++ [self.last count]).map Output.id = List.range (self.transferId + 1)
    rw [List.map_append, h.ids, List.range_succ]
    rfl
  sent s hs := List.mem_append_left _ (h.sent s hs)
  ots a ha := h.ots a ((Instance.all_withoutLast count self).subset ha)

theorem answered (h : Counted P self) (count sender : ℕ) :
    Counted P (self.answered count sender) where
  ids := (h.withoutLast count).ids
  sent s hs := by
    rcases List.mem_append.mp hs with hs | hs
    · exact List.mem_append_left _ (h.sent s hs)
    · rw [List.mem_singleton] at hs
      subst hs
      exact List.mem_append_right _ (List.mem_singleton_self _)
  ots := (h.withoutLast count).ots

theorem serveSome (h : Counted P self) (queue : List Queued) :
    Counted P (serveSome queue self) := by
  induction queue generalizing self with
  | nil => exact h
  | cons q queue ih =>
    rw [RandomizedROT.serveSome]
    split
    next => exact ih (h.answered q.count q.sender)
    next => exact h

theorem collect (h : Counted P self) : Counted P (Instance.collect self).2 := by
  rw [collect_snd]
  refine serveSome ?_ _
  have hall := (Instance.all_pickUp self).subset
  obtain ⟨items, buffer, heq⟩ := Instance.pickUp_eq self
  rw [heq] at hall ⊢
  exact ⟨h.ids, h.sent, fun a ha => h.ots a (hall ha)⟩

theorem give (h : Counted P self) {new : List A} (hlen : new.length = self.outstanding)
    (hnew : ∀ a ∈ new, P a) : Counted P (self.give new) := by
  have hall := (Instance.all_give hlen).subset
  refine ⟨?_, ?_, fun a ha => ?_⟩
  · rw [Instance.give]
    split <;> exact h.ids
  · rw [Instance.give]
    split <;> exact h.sent
  · rcases List.mem_append.mp (hall ha) with ha | ha
    · exact h.ots a ha
    · exact hnew a ha

theorem run (h : Counted P self) (call : SharedRCOT.Call) : Counted P (self.run call) := by
  cases call with
  | alloc count =>
    have hall := Instance.all_alloc count self
    refine ⟨?_, ?_, fun a ha => h.ots a (hall ▸ ha)⟩
    · show (self.alloc count).handed.map Output.id = List.range (self.alloc count).transferId
      rw [Instance.alloc]
      split <;> exact h.ids
    · show ∀ s ∈ (self.alloc count).futures.sent, s.2 ∈ (self.alloc count).handed
      rw [Instance.alloc]
      split <;> exact h.sent
  | tryRcot count =>
    rw [Instance.run, Instance.tryRcot_eq]
    split
    next => exact h.withoutLast count
    next => exact h
  | queueRcot count =>
    rw [Instance.run, Instance.queueRcot_eq]
    split
    next =>
      refine answered ?_ count _
      exact ⟨h.ids, h.sent, h.ots⟩
    next => exact ⟨h.ids, h.sent, h.ots⟩

end Counted

theorem transfers_answered {self : Instance A} {count : ℕ} (h : count ≤ self.items.length)
    (sender : ℕ) :
    transfers (self.answered count sender) = transfers self ++ [(self.transferId, count)] := by
  show (self.handed ++ [self.last count]).map size = _
  rw [List.map_append, List.map_singleton, size, Instance.last, List.length_drop,
    Nat.sub_sub_self h]
  rfl

theorem transfers_serveSome (queue : List Queued) (self : Instance A) :
    transfers (serveSome queue self) =
      transfers self ++ due self.items.length self.transferId (queue.map Queued.count) := by
  induction queue generalizing self with
  | nil => exact (List.append_nil _).symm
  | cons q queue ih =>
    rw [serveSome, List.map_cons, due]
    split
    next hle =>
      have hlen : (self.answered q.count q.sender).items.length = self.items.length - q.count := by
        show (self.items.take _).length = _
        rw [List.length_take, min_eq_left (Nat.sub_le _ _)]
      rw [ih, transfers_answered hle, hlen, List.append_assoc]
      rfl
    next => exact (List.append_nil _).symm

theorem transfers_collect (self : Instance A) : transfers (Instance.collect self).2 =
    transfers self ++ due (self.items.length + self.fetched.length) self.transferId
      (self.queue.map Queued.count) := by
  rw [collect_snd, transfers_serveSome, ← Instance.length_pickUp]
  obtain ⟨items, buffer, heq⟩ := Instance.pickUp_eq self
  rw [heq]
  rfl

theorem transfers_collect_give {self : Instance A} {new : List A}
    (h : new.length = self.outstanding) : transfers (Instance.collect (self.give new)).2 =
      transfers self ++ due (self.items.length + self.fetched.length + self.outstanding)
        self.transferId (self.queue.map Queued.count) := by
  rw [transfers_collect, Instance.give]
  split
  next h0 => rw [h0, Nat.add_zero]
  next =>
    show transfers self ++ due (self.items.length + (merge new self.fetched).length)
      self.transferId (self.queue.map Queued.count) = _
    rw [(Instance.merge_perm new self.fetched).length_eq, List.length_append, h, Nat.add_assoc]

theorem transfers_run (self : Instance A) (call : SharedRCOT.Call) : transfers (self.run call) =
    transfers self ++ due self.items.length self.transferId (asked call) := by
  cases call with
  | alloc count =>
    rw [asked, due, List.append_nil]
    show transfers (self.alloc count) = _
    rw [Instance.alloc]
    split <;> rfl
  | tryRcot count =>
    rw [Instance.run, Instance.tryRcot_eq, asked, due, due]
    split
    next hle => exact transfers_answered hle 0
    next => exact (List.append_nil _).symm
  | queueRcot count =>
    rw [Instance.run, Instance.queueRcot_eq, asked, due, due]
    split
    next hle => exact transfers_answered hle self.futures.next
    next => exact (List.append_nil _).symm

/-! ### A shared RCOT -/

/-- An OT of both sides: a key, and a choice with its message. -/
abbrev Ot : Type := Block × (Bool × Block)

/-- The end of a flush of all instances, each of which gets new OTs. If none has allocated any, the
flush does nothing. -/
def collectAll (news : List (List A)) (l : List (Instance A)) : List (Instance A) :=
  if l.any fun c => decide (0 < c.outstanding) then
    List.zipWith (fun new c => (Instance.collect (c.give new)).2) news l
  else l

/-- The instances, on both sides. -/
structure World where
  /-- The instances of the sender. -/
  senders : List (Instance Block)
  /-- The instances of the receiver. -/
  receivers : List (Instance (Bool × Block))
  deriving DecidableEq, Repr

/-- What happens, on both sides. -/
inductive Act where
  /-- One more instance. -/
  | clone
  /-- An instance makes a call. -/
  | call (i : ℕ) (call : SharedRCOT.Call)
  /-- A flush gives every instance keys and choices. -/
  | flush (ots : List (List (Block × Bool)))
  deriving DecidableEq, Repr

namespace World

/-- The first instance. -/
def new : World := ⟨[Instance.new], [Instance.new]⟩

/-- The next state. In a flush every instance gets as many OTs as it has allocated. -/
def next (delta : Block) (w : World) : Act → Option World
  | .clone => some ⟨w.senders ++ [Instance.new], w.receivers ++ [Instance.new]⟩
  | .call i call => some ⟨w.senders.modify i (·.run call), w.receivers.modify i (·.run call)⟩
  | .flush ots =>
    if ots.map List.length = w.senders.map Instance.outstanding ∧
        ots.map List.length = w.receivers.map Instance.outstanding then
      some ⟨collectAll (ots.map fun l => l.map Prod.fst) w.senders,
        collectAll (ots.map fun l => l.map fun ot => (ot.2, corrMsg delta ot.1 ot.2)) w.receivers⟩
    else none

/-- The tweaks of all transfers so far. -/
def tweaks (w : World) : List (BitVec 128) :=
  w.senders.flatMap fun c => c.handed.flatMap RandomizedROT.tweaks

/-- The transfers so far, and those that a step makes. -/
def planned (w : World) : Act → List (List (ℕ × ℕ))
  | .clone => w.senders.map transfers
  | .call i call => w.senders.mapIdx fun j c =>
    transfers c ++ if j = i then due c.items.length c.transferId (asked call) else []
  | .flush _ => w.senders.map fun c =>
    transfers c ++ if w.senders.any fun c => decide (0 < c.outstanding) then
      due (c.items.length + c.fetched.length + c.outstanding) c.transferId
        (c.queue.map Queued.count) else []

/-- The ids and the numbers of OTs of all transfers are numbers of the program. -/
def Small (w : World) : Prop := ∀ c ∈ w.senders, ∀ o ∈ c.handed, RandomizedROT.Small o

instance (w : World) : Decidable w.Small :=
  inferInstanceAs (Decidable (∀ c ∈ w.senders, ∀ o ∈ c.handed, RandomizedROT.Small o))

/-- What the two sides have. -/
structure Correct (tccr : BitVec 128 → Block → Block) (delta : Block) (w : World) : Prop where
  length_eq : w.senders.length = w.receivers.length
  outputs : ∀ {i : ℕ} {s : Instance Block} {r : Instance (Bool × Block)},
    w.senders[i]? = some s → w.receivers[i]? = some r →
      List.Forall₂ (fun o o' => Selected (randomizeSender tccr delta o) (randomizeReceiver tccr o'))
        s.handed r.handed
  futures : ∀ {i : ℕ} {s : Instance Block} {r : Instance (Bool × Block)},
    w.senders[i]? = some s → w.receivers[i]? = some r → ∀ n,
      Option.Rel (fun o o' => Selected (randomizeSender tccr delta o) (randomizeReceiver tccr o'))
        (s.futures.tryRecv n) (r.futures.tryRecv n)
  tweaks_eq : (w.receivers.flatMap fun c => c.handed.flatMap RandomizedROT.tweaks) = w.tweaks

end World

/-- A step. -/
def Step (delta : Block) (w : World) (act : Act) (w' : World) : Prop := w.next delta act = some w'

/-- No two instances make a transfer of at least one OT with the same id. -/
def Careful (w : World) (act : Act) : Prop := (w.planned act).Pairwise Apart

instance (w : World) (act : Act) : Decidable (Careful w act) :=
  inferInstanceAs (Decidable ((w.planned act).Pairwise Apart))

/-- A step that makes no transfer with an id that another instance has used. -/
def CarefulStep (delta : Block) (w : World) (act : Act) (w' : World) : Prop :=
  Careful w act ∧ Step delta w act w'

/-! ### The tweaks -/

theorem map_transfers_collectAll {news : List (List A)} {l : List (Instance A)}
    (h : news.map List.length = l.map Instance.outstanding) :
    (collectAll news l).map transfers = l.map fun c =>
      transfers c ++ if l.any fun c => decide (0 < c.outstanding) then
        due (c.items.length + c.fetched.length + c.outstanding) c.transferId
          (c.queue.map Queued.count) else [] := by
  rw [collectAll]
  split
  next hany =>
    clear hany
    induction news generalizing l with
    | nil =>
      obtain rfl := List.map_eq_nil_iff.mp h.symm
      rfl
    | cons new news ih =>
      cases l with
      | nil => cases h
      | cons c l =>
        rw [List.map_cons, List.map_cons, List.cons.injEq] at h
        rw [List.zipWith_cons_cons, List.map_cons, List.map_cons, transfers_collect_give h.1,
          ih h.2]
  next =>
    refine List.map_congr_left fun c _ => ?_
    exact (List.append_nil _).symm

/-- What a step makes is what was planned. -/
theorem pairwise_next {w w' : World} {act : Act} (h : Step delta w act w') :
    (w'.senders.map transfers).Pairwise Apart ↔ Careful w act := by
  rw [Careful]
  cases act with
  | clone =>
    obtain rfl := Option.some.inj h
    rw [World.planned, List.map_append, List.pairwise_append]
    refine ⟨And.left, fun hpair => ⟨hpair, List.pairwise_singleton _ _, ?_⟩⟩
    rintro _ - v hv u - v' hv'
    rw [List.map_singleton, List.mem_singleton] at hv
    rw [hv] at hv'
    cases hv'
  | call i call =>
    obtain rfl := Option.some.inj h
    have heq : (w.senders.modify i (·.run call)).map transfers = w.planned (.call i call) := by
      refine List.ext_getElem? fun j => ?_
      rw [World.planned, List.getElem?_map, List.getElem?_modify, List.getElem?_mapIdx]
      cases w.senders[j]? with
      | none => split <;> rfl
      | some c =>
        by_cases hij : i = j
        · simp only [Option.map_eq_map, Option.map_some, if_pos hij, if_pos hij.symm, transfers_run]
        · simp only [Option.map_eq_map, Option.map_some, if_neg hij, if_neg (Ne.symm hij),
            List.append_nil]
    rw [← heq]
  | flush ots =>
    rw [Step, World.next] at h
    split at h
    next hlen =>
      obtain rfl := Option.some.inj h
      have heq : (ots.map fun l => l.map Prod.fst).map List.length =
          w.senders.map Instance.outstanding := by
        rw [← hlen.1, List.map_map]
        exact List.map_congr_left fun l _ => List.length_map _
      rw [map_transfers_collectAll heq, World.planned]
    next => cases h

/-- What has been planned so far stays. -/
theorem pairwise_of_careful {w : World} {act : Act} (h : Careful w act) :
    (w.senders.map transfers).Pairwise Apart := by
  have happ : ∀ us vs us' vs' : List (ℕ × ℕ), Apart (us ++ us') (vs ++ vs') → Apart us vs :=
    fun us vs us' vs' hapart =>
      hapart.mono (List.subset_append_left us us') (List.subset_append_left vs vs')
  rw [Careful] at h
  cases act with
  | clone => exact h
  | call i call =>
    rw [List.pairwise_map, List.pairwise_iff_getElem]
    rw [World.planned, List.pairwise_iff_getElem] at h
    intro j k hj hk hlt
    have hjk := h j k (by rwa [List.length_mapIdx]) (by rwa [List.length_mapIdx]) hlt
    rw [List.getElem_mapIdx, List.getElem_mapIdx] at hjk
    exact happ _ _ _ _ hjk
  | flush ots =>
    rw [World.planned, List.pairwise_map] at h
    rw [List.pairwise_map]
    exact h.imp fun hapart => happ _ _ _ _ hapart

/-- In a run no two instances have made transfers with the same id if and only if each of its steps
kept to that. -/
theorem pairwise_iff {acts : List Act} {w : World} (h : Run (Step delta) World.new acts w) :
    (w.senders.map transfers).Pairwise Apart ↔ Run (CarefulStep delta) World.new acts w := by
  constructor
  · intro hpair
    induction h with
    | nil => exact .nil
    | snoc _ hstep ih =>
      have hcareful := (pairwise_next hstep).mp hpair
      exact (ih (pairwise_of_careful hcareful)).snoc ⟨hcareful, hstep⟩
  · intro hrun
    refine hrun.invariant (P := fun w => (w.senders.map transfers).Pairwise Apart)
      (List.pairwise_singleton _ _) ?_
    rintro w act w' - ⟨hcareful, hstep⟩
    exact (pairwise_next hstep).mpr hcareful

/-! ### The two sides -/

/-- The two sides have the same instances, but for what they move. -/
def Inv (delta : Block) (w : World) : Prop :=
  ∃ ds : List (Instance Ot), w.senders = ds.map (Instance.map Prod.fst) ∧
    w.receivers = ds.map (Instance.map Prod.snd) ∧ ∀ d ∈ ds, Counted (Corr delta) d

theorem collectAll_map (f : A → B) (news : List (List A)) (l : List (Instance A)) :
    (collectAll news l).map (Instance.map f) =
      collectAll (news.map fun new => new.map f) (l.map (Instance.map f)) := by
  have hany : ((l.map (Instance.map f)).any fun c => decide (0 < c.outstanding)) =
      l.any fun c => decide (0 < c.outstanding) := by
    rw [List.any_map]
    exact congrArg l.any (funext fun c => by rw [Function.comp_apply, Instance.outstanding_map])
  rw [collectAll, collectAll, hany]
  split
  next =>
    rw [List.map_zipWith, List.zipWith_map]
    congr 1
    funext new c
    rw [map_collect, Instance.map_give]
  next => rfl

theorem counted_collectAll {P : A → Prop} {news : List (List A)} {l : List (Instance A)}
    (hlen : news.map List.length = l.map Instance.outstanding) (hnew : ∀ new ∈ news, ∀ a ∈ new, P a)
    (hl : ∀ c ∈ l, Counted P c) : ∀ c ∈ collectAll news l, Counted P c := by
  rw [collectAll]
  split
  next hany =>
    clear hany
    induction news generalizing l with
    | nil => exact nofun
    | cons new news ih =>
      cases l with
      | nil => exact nofun
      | cons c l =>
        rw [List.map_cons, List.map_cons, List.cons.injEq] at hlen
        rw [List.forall_mem_cons] at hl hnew
        rw [List.zipWith_cons_cons, List.forall_mem_cons]
        exact ⟨(hl.1.give hlen.1 hnew.1).collect, ih hlen.2 hnew.2 hl.2⟩
  next => exact hl

theorem Inv.step {w w' : World} {act : Act} (hinv : Inv delta w) (h : Step delta w act w') :
    Inv delta w' := by
  obtain ⟨ds, hs, hr, hds⟩ := hinv
  cases act with
  | clone =>
    obtain rfl := Option.some.inj h
    refine ⟨ds ++ [Instance.new], ?_, ?_, ?_⟩
    · rw [hs, List.map_append]
      rfl
    · rw [hr, List.map_append]
      rfl
    · intro d hd
      rcases List.mem_append.mp hd with hd | hd
      · exact hds d hd
      · rw [List.mem_singleton] at hd
        subst hd
        exact .new
  | call i call =>
    obtain rfl := Option.some.inj h
    have hmap : ∀ {B : Type} (f : Ot → B), (ds.modify i (·.run call)).map (Instance.map f) =
        (ds.map (Instance.map f)).modify i (·.run call) := by
      intro B f
      refine List.ext_getElem? fun j => ?_
      simp only [List.getElem?_map, List.getElem?_modify, Option.map_eq_map, Option.map_map]
      congr 1
      funext d
      simp only [Function.comp_apply]
      split
      next => exact Instance.map_run f call d
      next => rfl
    refine ⟨ds.modify i (·.run call), ?_, ?_, ?_⟩
    · rw [hmap, hs]
    · rw [hmap, hr]
    · intro d hd
      obtain ⟨j, hj⟩ := List.mem_iff_getElem?.mp hd
      rw [List.getElem?_modify, Option.map_eq_map, Option.map_eq_some_iff] at hj
      obtain ⟨d', hd', rfl⟩ := hj
      have hc := hds d' (List.mem_of_getElem? hd')
      split
      next => exact hc.run call
      next => exact hc
  | flush ots =>
    rw [Step, World.next] at h
    split at h
    next hlen =>
      obtain rfl := Option.some.inj h
      let news : List (List Ot) := ots.map fun l => l.map fun ot =>
        (ot.1, ot.2, corrMsg delta ot.1 ot.2)
      have hfst : (news.map fun new => new.map Prod.fst) = ots.map fun l => l.map Prod.fst := by
        simp only [news, List.map_map, Function.comp_def]
      have hsnd : (news.map fun new => new.map Prod.snd) =
          ots.map fun l => l.map fun ot => (ot.2, corrMsg delta ot.1 ot.2) := by
        simp only [news, List.map_map, Function.comp_def]
      refine ⟨collectAll news ds, ?_, ?_, counted_collectAll ?_ ?_ hds⟩
      · rw [collectAll_map, hfst, hs]
      · rw [collectAll_map, hsnd, hr]
      · have hlen' := hlen.1
        rw [hs, List.map_map] at hlen'
        have hout : (ds.map (Instance.outstanding ∘ Instance.map Prod.fst)) =
            ds.map Instance.outstanding :=
          List.map_congr_left fun d _ => Instance.outstanding_map Prod.fst d
        rw [← hout, ← hlen', List.map_map]
        exact List.map_congr_left fun l _ => List.length_map _
      · intro new hnew ot hot
        obtain ⟨l, -, rfl⟩ := List.mem_map.mp hnew
        obtain ⟨o, -, rfl⟩ := List.mem_map.mp hot
        rfl
    next => cases h

theorem tweaks_map (f : A → B) (o : Output A) : tweaks (o.map f) = tweaks o := by
  rw [tweaks, tweaks, Output.map, List.length_map]

theorem flatMap_tweaks_map (f : A → B) (ds : List (Instance A)) :
    ((ds.map (Instance.map f)).flatMap fun c => c.handed.flatMap tweaks) =
      ds.flatMap fun d => d.handed.flatMap tweaks := by
  rw [List.flatMap_map]
  refine congrArg ds.flatMap (funext fun d => ?_)
  show (d.handed.map (Output.map f)).flatMap tweaks = _
  rw [List.flatMap_map]
  exact congrArg d.handed.flatMap (funext fun o => tweaks_map f o)

theorem Inv.correct {w : World} (h : Inv delta w) : w.Correct tccr delta := by
  obtain ⟨ds, hs, hr, hds⟩ := h
  have hboth : ∀ {i : ℕ} {s : Instance Block} {r : Instance (Bool × Block)},
      w.senders[i]? = some s → w.receivers[i]? = some r →
        ∃ d ∈ ds, s = d.map Prod.fst ∧ r = d.map Prod.snd := by
    intro i s r hsi hri
    rw [hs, List.getElem?_map, Option.map_eq_some_iff] at hsi
    rw [hr, List.getElem?_map, Option.map_eq_some_iff] at hri
    obtain ⟨d, hd, rfl⟩ := hsi
    obtain ⟨d', hd', rfl⟩ := hri
    obtain rfl := Option.some.inj (hd.symm.trans hd')
    exact ⟨d, List.mem_of_getElem? hd, rfl, rfl⟩
  refine ⟨?_, ?_, ?_, ?_⟩
  · rw [hs, hr, List.length_map, List.length_map]
  · intro i s r hsi hri
    obtain ⟨d, hd, rfl, rfl⟩ := hboth hsi hri
    show List.Forall₂ _ (d.handed.map _) (d.handed.map _)
    rw [List.forall₂_map_left_iff, List.forall₂_map_right_iff, List.forall₂_same]
    exact fun o ho => selected (Instance.matched_map ho (hds d hd).ots)
  · intro i s r hsi hri n
    obtain ⟨d, hd, rfl, rfl⟩ := hboth hsi hri
    rw [Instance.tryRecv_map, Instance.tryRecv_map]
    cases hn : d.futures.tryRecv n with
    | none => exact .none
    | some o =>
      rw [Futures.tryRecv, Option.map_eq_some_iff] at hn
      obtain ⟨sent, hsent, rfl⟩ := hn
      have hmem := (hds d hd).sent sent (List.mem_of_find?_eq_some hsent)
      exact .some (selected (Instance.matched_map hmem (hds d hd).ots))
  · rw [World.tweaks, hs, hr, flatMap_tweaks_map, flatMap_tweaks_map]

theorem Inv.nodup_iff {w : World} (h : Inv delta w) (hsmall : w.Small) :
    w.tweaks.Nodup ↔ (w.senders.map transfers).Pairwise Apart := by
  obtain ⟨ds, hs, -, hds⟩ := h
  have heq : w.tweaks = (w.senders.map Instance.handed).flatMap (·.flatMap tweaks) := by
    rw [List.flatMap_map]
    rfl
  have hmap : w.senders.map transfers = (w.senders.map Instance.handed).map (·.map size) := by
    rw [List.map_map]
    rfl
  rw [heq, hmap]
  refine RandomizedROT.nodup_iff (fun os hos => ?_) (fun os hos => ?_)
  · obtain ⟨c, hc, rfl⟩ := List.mem_map.mp hos
    exact hsmall c hc
  · obtain ⟨c, hc, rfl⟩ := List.mem_map.mp hos
    rw [hs] at hc
    obtain ⟨d, hd, rfl⟩ := List.mem_map.mp hc
    refine ⟨d.transferId, ?_⟩
    rw [← (hds d hd).ids]
    show (d.handed.map (Output.map Prod.fst)).map Output.id = _
    rw [List.map_map]
    rfl

end RandomizedROT

namespace RandomizedROT

open SharedRCOT

/-- The next state, where the step is careful. -/
def carefulNext (delta : Block) (w : World) (act : Act) : Option World :=
  if Careful w act then w.next delta act else none

theorem carefulStep_of_next {w w' : World} {act : Act} (h : carefulNext delta w act = some w') :
    CarefulStep delta w act w' := by
  rw [carefulNext] at h
  split at h
  next hcareful => exact ⟨hcareful, h⟩
  next => cases h

/-- Two instances, each of which gets an OT. -/
def sampleActs : List Act :=
  [.clone, .call 0 (.alloc 1), .call 1 (.alloc 1), .flush [[(1, true)], [(2, false)]]]

/-- The second instance makes an empty transfer first. -/
theorem run_sampleActs : ∃ w, Run (CarefulStep 9) World.new (sampleActs ++
    [.call 0 (.tryRcot 1), .call 1 (.tryRcot 0), .call 1 (.queueRcot 1)]) w ∧ w.Small := by
  have run : Run (CarefulStep 9) World.new (sampleActs ++
      [.call 0 (.tryRcot 1), .call 1 (.tryRcot 0), .call 1 (.queueRcot 1)]) _ :=
    .of_isSome (carefulNext 9) (fun _ _ _ => carefulStep_of_next) (by decide +kernel)
  exact ⟨_, run, by decide +kernel⟩

end RandomizedROT

end Mpz
