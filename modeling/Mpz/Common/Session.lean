import Mathlib.Algebra.Group.Nat.Even
import Mathlib.Data.List.Nodup
import Mpz.Hash.Words
import Mpz.Lib.Run

/-!
# Sessions and the identifiers of their channels

A session opens a channel for every context, under an identifier. That of a new context is the one
of the session, with an index behind it. A context forks, with an index for the fork and one for
each lane, and every lane is a context. So the identifier of a context is that of the session with
an odd number of indices behind it, and it says which way the context was made.

Two sessions on one multiplexer are to be kept apart by what their identifiers begin with. They are,
unless one of the two beginnings is the other one with an even number of indices behind it.

## Main definitions

* `ContextId`, `Context`, `Session` — identifiers, contexts and sessions
* `Session.Act`, `Session.Step` — what is done with a session, less than `2 ^ 32` times each
* `Session.SameOperations` — the same is done at every context, in whatever interleaving
* `Session.Extends` — one beginning is the other one with an even number of indices behind it

## Main results

* `channel_ids_distinct` — the channels of a session are distinct, both parties have the same, and
  two sessions have none in common just in case that neither beginning extends the other
* `channel_ids_collide` — two sessions that share a channel
-/

namespace Mpz

/-- A logical context identifier: each level is a `u32` index, serialized big-endian. -/
abbrev ContextId : Type := List (BitVec 8)

namespace ContextId

/-- Creates a context ID at the top level with the given index. -/
def new (index : ℕ) : ContextId := toBeBytes (BitVec.ofNat 32 index)

/-- Creates a context ID from arbitrary bytes. -/
def fromPrefix (bytes : List (BitVec 8)) : ContextId := bytes

/-- Descends into a child namespace at the given index. -/
def child (self : ContextId) (index : ℕ) : ContextId := self ++ toBeBytes (BitVec.ofNat 32 index)

/-- The ID of a session where none is set. -/
def default : ContextId := new 0

end ContextId

/-- A task execution context. -/
structure Context where
  /-- Its ID. -/
  id : ContextId
  /-- Sub-namespace counter incremented on each fork. -/
  forkCounter : ℕ
  deriving DecidableEq, Repr

/-- The ways to fork. -/
inductive Fork where
  /-- `map`, over so many items -/
  | map (items : ℕ)
  /-- `join` -/
  | join
  /-- `try_join` -/
  | tryJoin
  /-- `try_join3` -/
  | tryJoin3
  /-- `try_join4` -/
  | tryJoin4
  deriving DecidableEq, Repr

/-- How many lanes are opened. -/
def Fork.lanes (concurrencyLimit : ℕ) : Fork → ℕ
  | .map items => min items concurrencyLimit
  | .join | .tryJoin => 2
  | .tryJoin3 => 3
  | .tryJoin4 => 4

namespace Context

/-- The ID of the next fork. -/
def nextFork (self : Context) : ContextId × Context :=
  (self.id.child self.forkCounter, { self with forkCounter := self.forkCounter + 1 })

/-- The IDs of the lanes of a fork. -/
def laneIds (parentId : ContextId) (lanes : ℕ) : List ContextId :=
  (List.range lanes).map parentId.child

end Context

/-- An async session. The last two fields are the contexts that live, and the channels that were
opened. -/
structure Session where
  /-- What all identifiers begin with. -/
  base : ContextId
  /-- The index of the next context. -/
  nextContext : ℕ
  /-- Maximum number of items of a `map` processed concurrently. -/
  concurrencyLimit : ℕ
  /-- The contexts. -/
  contexts : List Context
  /-- The channels. -/
  opened : List ContextId
  deriving DecidableEq, Repr

namespace Session

/-- Builds the session. -/
def build (base : ContextId) (limit : ℕ) : Session := ⟨base, 0, max limit 1, [], []⟩

/-- Creates a new context, where the multiplexer opens its channel. -/
def newContext (opens : Bool) (self : Session) : Session :=
  let id := self.base.child self.nextContext
  if opens then
    { self with
      nextContext := self.nextContext + 1
      contexts := self.contexts ++ [⟨id, 0⟩]
      opened := self.opened ++ [id] }
  else { self with nextContext := self.nextContext + 1 }

/-- A context forks. The multiplexer opens so many channels before it fails, and then none of the
lanes starts. -/
def fork (id : ContextId) (f : Fork) (opens : ℕ) (self : Session) : Option Session := do
  let ctx ← self.contexts.find? fun ctx => ctx.id == id
  let lanes := f.lanes self.concurrencyLimit
  let ids := Context.laneIds ctx.nextFork.1 lanes
  let contexts := self.contexts.map fun ctx => if ctx.id = id then ctx.nextFork.2 else ctx
  some { self with
    contexts := if lanes ≤ opens then contexts ++ ids.map (⟨·, 0⟩) else contexts
    opened := self.opened ++ ids.take opens }

/-- What is done with a session. -/
inductive Act where
  /-- A new context is created. -/
  | newContext (opens : Bool)
  /-- A context forks. -/
  | fork (id : ContextId) (f : Fork) (opens : ℕ)
  deriving DecidableEq, Repr

/-- What is behind an act. -/
def next (self : Session) : Act → Option Session
  | .newContext opens => some (self.newContext opens)
  | .fork id f opens => self.fork id f opens

/-- Less than `2 ^ 32` contexts of a session, forks of a context, and lanes of a fork. -/
def Act.Bounded (self : Session) : Act → Prop
  | .newContext _ => self.nextContext + 1 < 2 ^ 32
  | .fork id f _ => f.lanes self.concurrencyLimit < 2 ^ 32 ∧
    ∀ ctx ∈ self.contexts, ctx.id = id → ctx.forkCounter + 1 < 2 ^ 32

instance (self : Session) : DecidablePred (Act.Bounded self)
  | .newContext _ => inferInstanceAs (Decidable (_ < _))
  | .fork _ _ _ => inferInstanceAs (Decidable (_ ∧ _))

/-- A step. -/
def Step (s : Session) (a : Act) (t : Session) : Prop := a.Bounded s ∧ s.next a = some t

/-- The context where something is done, or none where that is the session. -/
def Act.node : Act → Option ContextId
  | .newContext _ => none
  | .fork id _ _ => some id

/-- What is done at a node, in its order. -/
def actsAt (node : Option ContextId) (acts : List Act) : List Act :=
  acts.filter fun a => a.node = node

/-- The same is done at every node. -/
def SameOperations (acts acts' : List Act) : Prop := ∀ node, actsAt node acts = actsAt node acts'

/-- Indices, one behind the other. -/
def indices (path : List ℕ) : ContextId := path.flatMap fun i => toBeBytes (BitVec.ofNat 32 i)

/-- The second one is the first one, with an even number of indices behind it that can be
reached. -/
def Extends (p q : ContextId) : Prop :=
  ∃ path : List ℕ, Even path.length ∧ (∀ i ∈ path, i + 1 < 2 ^ 32) ∧ q = p ++ indices path

/-! ### Indices -/

theorem length_child (id : ContextId) (i : ℕ) : (id.child i).length = id.length + 4 := by
  rw [ContextId.child, List.length_append, length_toBeBytes]

/-- The last index of an identifier is determined by it. -/
theorem child_inj {id id' : ContextId} {i j : ℕ} (hi : i < 2 ^ 32) (hj : j < 2 ^ 32)
    (h : id.child i = id'.child j) : id = id' ∧ i = j := by
  obtain ⟨hid, hindex⟩ := List.append_inj' h (by rw [length_toBeBytes, length_toBeBytes])
  have hword := congrArg BitVec.toNat (toBeBytes_injective (by decide) hindex)
  rw [BitVec.toNat_ofNat, BitVec.toNat_ofNat, Nat.mod_eq_of_lt hi, Nat.mod_eq_of_lt hj] at hword
  exact ⟨hid, hword⟩

theorem indices_append (path path' : List ℕ) :
    indices (path ++ path') = indices path ++ indices path' := List.flatMap_append

theorem indices_snoc (p : ContextId) (path : List ℕ) (i : ℕ) :
    (p ++ indices path).child i = p ++ indices (path ++ [i]) := by
  have hone : indices [i] = toBeBytes (BitVec.ofNat 32 i) := List.flatMap_singleton _ i
  rw [ContextId.child, indices_append, List.append_assoc, hone]

theorem length_indices (path : List ℕ) : (indices path).length = 4 * path.length := by
  induction path with
  | nil => rfl
  | cons i path ih =>
    rw [indices, List.flatMap_cons, ← indices, List.length_append, ih, length_toBeBytes,
      List.length_cons]
    omega

/-- What an identifier begins with is made of its first indices. -/
theorem indices_take (path : List ℕ) (k : ℕ) :
    (indices path).take (4 * k) = indices (path.take k) := by
  rcases Nat.lt_or_ge path.length k with hk | hk
  · rw [List.take_of_length_le hk.le, List.take_of_length_le]
    rw [length_indices]
    omega
  · conv_lhs => rw [← List.take_append_drop k path, indices_append]
    refine List.take_left' ?_
    rw [length_indices, List.length_take, min_eq_left hk]

/-! ### What is opened -/

theorem actsAt_snoc (node : Option ContextId) (acts : List Act) (a : Act) :
    actsAt node (acts ++ [a]) = actsAt node acts ++ if a.node = node then [a] else [] := by
  rw [actsAt, List.filter_append]
  refine congrArg (actsAt node acts ++ ·) ?_
  by_cases h : a.node = node <;> simp [h]

theorem length_actsAt_snoc (node : Option ContextId) (acts : List Act) (a : Act) :
    (actsAt node (acts ++ [a])).length =
      (actsAt node acts).length + if a.node = node then 1 else 0 := by
  rw [actsAt_snoc, List.length_append]
  split <;> rfl

/-- What is done at a node, with one more act. -/
theorem getElem?_actsAt_snoc {node : Option ContextId} {acts : List Act} {a b : Act} {k : ℕ} :
    (actsAt node (acts ++ [a]))[k]? = some b ↔ (actsAt node acts)[k]? = some b ∨
      (a.node = node ∧ k = (actsAt node acts).length ∧ a = b) := by
  rw [actsAt_snoc]
  by_cases hnode : a.node = node
  · rw [if_pos hnode]
    rcases Nat.lt_trichotomy k (actsAt node acts).length with hk | rfl | hk
    · rw [List.getElem?_append_left hk]
      exact ⟨.inl, fun h => h.resolve_right fun h => hk.ne h.2.1⟩
    · rw [List.getElem?_concat_length, Option.some.injEq, List.getElem?_eq_none le_rfl]
      exact ⟨fun h => .inr ⟨hnode, rfl, h⟩, fun h => (h.resolve_left nofun).2.2⟩
    · rw [List.getElem?_eq_none, List.getElem?_eq_none hk.le]
      · exact ⟨nofun, fun h => absurd (h.resolve_left nofun).2.1 hk.ne'⟩
      · rw [List.length_append, List.length_singleton]
        exact hk
  · rw [if_neg hnode, List.append_nil]
    exact ⟨.inl, fun h => h.resolve_right fun h => hnode h.1⟩

/-- The channels that some acts open. Each belongs to an act, of which it only matters what was done
before at the same node. -/
def Opened (base : ContextId) (limit : ℕ) (acts : List Act) (i : ContextId) : Prop :=
  (∃ k, (actsAt none acts)[k]? = some (.newContext true) ∧ i = base.child k) ∨
    ∃ id k f opens l, (actsAt (some id) acts)[k]? = some (.fork id f opens) ∧
      l < min opens (f.lanes limit) ∧ i = (id.child k).child l

theorem opened_snoc_newContext {base : ContextId} {limit : ℕ} {acts : List Act} {opens : Bool}
    {i : ContextId} : Opened base limit (acts ++ [.newContext opens]) i ↔
      Opened base limit acts i ∨ (opens = true ∧ i = base.child (actsAt none acts).length) := by
  simp only [Opened, getElem?_actsAt_snoc]
  constructor
  · rintro (⟨k, hk | ⟨-, rfl, hact⟩, rfl⟩ | ⟨id, k, f, o, l, hk | ⟨hnode, -⟩, hl, rfl⟩)
    · exact .inl (.inl ⟨k, hk, rfl⟩)
    · cases hact
      exact .inr ⟨rfl, rfl⟩
    · exact .inl (.inr ⟨id, k, f, o, l, hk, hl, rfl⟩)
    · cases hnode
  · rintro ((⟨k, hk, rfl⟩ | ⟨id, k, f, o, l, hk, hl, rfl⟩) | ⟨rfl, rfl⟩)
    · exact .inl ⟨k, .inl hk, rfl⟩
    · exact .inr ⟨id, k, f, o, l, .inl hk, hl, rfl⟩
    · exact .inl ⟨_, .inr ⟨rfl, rfl, rfl⟩, rfl⟩

theorem opened_snoc_fork {base id : ContextId} {limit opens : ℕ} {acts : List Act} {f : Fork}
    {i : ContextId} : Opened base limit (acts ++ [.fork id f opens]) i ↔
      Opened base limit acts i ∨ ∃ l < min opens (f.lanes limit),
        i = (id.child (actsAt (some id) acts).length).child l := by
  simp only [Opened, getElem?_actsAt_snoc]
  constructor
  · rintro (⟨k, hk | ⟨hnode, -⟩, rfl⟩ | ⟨id', k, f', o, l, hk | ⟨-, rfl, hact⟩, hl, rfl⟩)
    · exact .inl (.inl ⟨k, hk, rfl⟩)
    · cases hnode
    · exact .inl (.inr ⟨id', k, f', o, l, hk, hl, rfl⟩)
    · cases hact
      exact .inr ⟨l, hl, rfl⟩
  · rintro ((⟨k, hk, rfl⟩ | ⟨id', k, f', o, l, hk, hl, rfl⟩) | ⟨l, hl, rfl⟩)
    · exact .inl ⟨k, .inl hk, rfl⟩
    · exact .inr ⟨id', k, f', o, l, .inl hk, hl, rfl⟩
    · exact .inr ⟨id, _, f, opens, l, .inr ⟨rfl, rfl, rfl⟩, hl, rfl⟩

/-- The invariant of a session. -/
structure Inv (s : Session) (acts : List Act) : Prop where
  /-- Identifiers have an odd number of indices. -/
  path : ∀ i ∈ s.opened, ∃ path : List ℕ, ¬ Even path.length ∧ (∀ k ∈ path, k + 1 < 2 ^ 32) ∧
    i = s.base ++ indices path
  nodup : s.opened.Nodup
  contexts : ∀ ctx ∈ s.contexts, ctx.id ∈ s.opened
  known : ∀ id f opens, .fork id f opens ∈ acts → ∃ ctx ∈ s.contexts, ctx.id = id
  nextContext : s.nextContext = (actsAt none acts).length
  nextLt : s.nextContext < 2 ^ 32
  forkCounter : ∀ ctx ∈ s.contexts, ctx.forkCounter = (actsAt (some ctx.id) acts).length
  forkLt : ∀ ctx ∈ s.contexts, ctx.forkCounter < 2 ^ 32
  opened : ∀ i, i ∈ s.opened ↔ Opened s.base s.concurrencyLimit acts i

theorem inv_build (base : ContextId) (limit : ℕ) : (build base limit).Inv [] where
  path := nofun
  nodup := List.nodup_nil
  contexts := nofun
  known := nofun
  nextContext := rfl
  nextLt := Nat.two_pow_pos 32
  forkCounter := nofun
  forkLt := nofun
  opened i := by
    refine ⟨nofun, ?_⟩
    rintro (⟨k, hk, -⟩ | ⟨id, k, f, opens, l, hk, -⟩) <;> cases hk

namespace Inv

variable {s t : Session} {acts : List Act}

/-- Identifiers are longer than what they begin with. -/
theorem length_lt (h : s.Inv acts) {i : ContextId} (hi : i ∈ s.opened) :
    s.base.length + 4 ≤ i.length := by
  obtain ⟨path, hodd, -, rfl⟩ := h.path i hi
  rw [List.length_append, length_indices]
  have hpos : path.length ≠ 0 := fun hzero => hodd (hzero ▸ ⟨0, rfl⟩)
  omega

/-- Nothing was done where no context is. -/
theorem actsAt_eq_nil (h : s.Inv acts) {id : ContextId} (hid : id ∉ s.opened) :
    actsAt (some id) acts = [] := by
  rw [actsAt, List.filter_eq_nil_iff]
  intro a ha hnode
  cases a with
  | newContext opens => cases of_decide_eq_true hnode
  | fork id' f opens =>
    obtain rfl := Option.some.inj (of_decide_eq_true hnode)
    obtain ⟨ctx, hctx, rfl⟩ := h.known id' f opens ha
    exact hid (h.contexts ctx hctx)

/-- The identifier of a new context is new. -/
theorem child_not_mem (h : s.Inv acts) : s.base.child s.nextContext ∉ s.opened := by
  intro hmem
  rcases (h.opened _).mp hmem with ⟨k, hk, heq⟩ | ⟨id, k, f, opens, l, hk, -, heq⟩
  · have hlt := (List.getElem?_eq_some_iff.mp hk).1
    rw [← h.nextContext] at hlt
    exact hlt.ne (child_inj h.nextLt (hlt.trans h.nextLt) heq).2.symm
  · have hid : id ∈ s.opened := by
      by_contra hid
      rw [h.actsAt_eq_nil hid] at hk
      cases hk
    have hlen := congrArg List.length heq
    rw [length_child, length_child, length_child] at hlen
    have := h.length_lt hid
    omega

/-- The identifiers of new lanes are new. -/
theorem lane_not_mem (h : s.Inv acts) {ctx : Context} (hctx : ctx ∈ s.contexts) (l : ℕ) :
    (ctx.id.child ctx.forkCounter).child l ∉ s.opened := by
  intro hmem
  rcases (h.opened _).mp hmem with ⟨k, -, heq⟩ | ⟨id, k, f, opens, l', hk, -, heq⟩
  · have hlen := congrArg List.length heq
    rw [length_child, length_child, length_child] at hlen
    have := h.length_lt (h.contexts ctx hctx)
    omega
  · have hlt := (List.getElem?_eq_some_iff.mp hk).1
    have hparent := (List.append_inj' heq (by rw [length_toBeBytes, length_toBeBytes])).1
    -- the fork counter is below `2 ^ 32`, and so is the number of the earlier fork
    have hid : ctx.id = id :=
      (List.append_inj' hparent (by rw [length_toBeBytes, length_toBeBytes])).1
    subst hid
    rw [← h.forkCounter ctx hctx] at hlt
    have hle := h.forkLt ctx hctx
    exact hlt.ne (child_inj hle (hlt.trans hle) hparent).2.symm

/-- A context is created. -/
theorem newContext (h : s.Inv acts) {opens : Bool} (hlt : s.nextContext + 1 < 2 ^ 32) :
    (s.newContext opens).Inv (acts ++ [.newContext opens]) := by
  have hnone : s.nextContext + 1 = (actsAt none (acts ++ [.newContext opens])).length := by
    rw [length_actsAt_snoc, h.nextContext]
    rfl
  have hsome (id : ContextId) :
      actsAt (some id) (acts ++ [.newContext opens]) = actsAt (some id) acts := by
    rw [actsAt_snoc, if_neg nofun, List.append_nil]
  have hopened (i : ContextId) := (h.opened i).or (Iff.refl (opens = true ∧
    i = s.base.child (actsAt none acts).length)) |>.trans opened_snoc_newContext.symm
  have hknown : ∀ id f o, .fork id f o ∈ acts ++ [.newContext opens] →
      ∃ ctx ∈ s.contexts, ctx.id = id := by
    intro id f o hmem
    rcases List.mem_append.mp hmem with hmem | hmem
    · exact h.known id f o hmem
    · cases List.mem_singleton.mp hmem
  cases opens with
  | false =>
    refine ⟨h.path, h.nodup, h.contexts, hknown, hnone, hlt, fun ctx hctx => ?_, h.forkLt,
      fun i => ?_⟩
    · rw [hsome]
      exact h.forkCounter ctx hctx
    · refine Iff.trans ?_ (hopened i)
      exact ⟨.inl, fun hi => hi.resolve_right nofun⟩
  | true =>
    have hnew := h.child_not_mem
    have hctxs {P : Context → Prop} (hold : ∀ ctx ∈ s.contexts, P ctx)
        (hid : P ⟨s.base.child s.nextContext, 0⟩) : ∀ ctx ∈ (s.newContext true).contexts,
        P ctx := by
      intro ctx hctx
      rcases List.mem_append.mp hctx with hctx | hctx
      · exact hold ctx hctx
      · rw [List.mem_singleton.mp hctx]
        exact hid
    refine ⟨fun i hi => ?_, ?_, hctxs (fun ctx hctx => List.mem_append_left _ (h.contexts ctx hctx))
      (List.mem_append_right _ (List.mem_singleton_self _)), fun id f o hmem => ?_, hnone, hlt,
      hctxs (fun ctx hctx => ?_) ?_, hctxs h.forkLt (Nat.two_pow_pos 32), fun i => ?_⟩
    · rcases List.mem_append.mp hi with hi | hi
      · exact h.path i hi
      · refine ⟨[s.nextContext], Nat.not_even_one, fun k hk => ?_, ?_⟩
        · rw [List.mem_singleton.mp hk]
          exact hlt
        · rw [List.mem_singleton.mp hi]
          exact congrArg (s.base ++ ·) (List.flatMap_singleton _ _).symm
    · refine List.Nodup.append h.nodup (List.nodup_singleton _) ?_
      rw [List.disjoint_singleton]
      exact hnew
    · obtain ⟨ctx, hctx, hid⟩ := hknown id f o hmem
      exact ⟨ctx, List.mem_append_left _ hctx, hid⟩
    · rw [hsome]
      exact h.forkCounter ctx hctx
    · rw [hsome, h.actsAt_eq_nil hnew]
      rfl
    · refine Iff.trans ?_ (hopened i)
      show i ∈ s.opened ++ [s.base.child s.nextContext] ↔ _
      rw [List.mem_append, List.mem_singleton, h.nextContext]
      exact or_congr_right (and_iff_right rfl).symm

/-- A context forks. -/
theorem fork (h : s.Inv acts) {id : ContextId} {f : Fork} {opens : ℕ}
    (hbound : (Act.fork id f opens).Bounded s) (hfork : s.fork id f opens = some t) :
    t.Inv (acts ++ [.fork id f opens]) := by
  obtain ⟨hlanes, hlt⟩ := hbound
  obtain ⟨ctx, hfind, heq⟩ := Option.bind_eq_some_iff.mp hfork
  obtain rfl := Option.some.inj heq
  clear heq hfork
  have hctx := List.mem_of_find?_eq_some hfind
  have hid : ctx.id = id := by
    have := List.find?_some hfind
    exact beq_iff_eq.mp this
  subst hid
  have hcount := h.forkCounter ctx hctx
  -- the lanes that are opened
  have htake : (Context.laneIds (ctx.id.child ctx.forkCounter) (f.lanes s.concurrencyLimit)).take
      opens = (List.range (min opens (f.lanes s.concurrencyLimit))).map
        (ctx.id.child ctx.forkCounter).child := by
    rw [Context.laneIds, ← List.map_take, List.take_range]
  have hmem (i : ContextId) : i ∈ s.opened ++
      (Context.laneIds (ctx.id.child ctx.forkCounter) (f.lanes s.concurrencyLimit)).take opens ↔
        i ∈ s.opened ∨ ∃ l < min opens (f.lanes s.concurrencyLimit),
          i = (ctx.id.child ctx.forkCounter).child l := by
    rw [List.mem_append, htake, List.mem_map]
    simp only [List.mem_range, eq_comm]
  -- the contexts that were there, and the new ones
  have hctxs {P : Context → Prop} (hold : ∀ c ∈ s.contexts,
      P ⟨c.id, c.forkCounter + if c.id = ctx.id then 1 else 0⟩)
      (hnew : f.lanes s.concurrencyLimit ≤ opens → ∀ l < f.lanes s.concurrencyLimit,
        P ⟨(ctx.id.child ctx.forkCounter).child l, 0⟩) :
      ∀ c ∈ (if f.lanes s.concurrencyLimit ≤ opens then
        (s.contexts.map fun c => if c.id = ctx.id then c.nextFork.2 else c) ++
          (Context.laneIds ctx.nextFork.1 (f.lanes s.concurrencyLimit)).map (⟨·, 0⟩) else
        s.contexts.map fun c => if c.id = ctx.id then c.nextFork.2 else c), P c := by
    have hmap : ∀ c ∈ s.contexts.map fun c => if c.id = ctx.id then c.nextFork.2 else c, P c := by
      intro c hc
      obtain ⟨c', hc', rfl⟩ := List.mem_map.mp hc
      have := hold c' hc'
      split at this
      next heq => rwa [if_pos heq]
      next hne => rwa [if_neg hne]
    split
    next hle =>
      intro c hc
      rcases List.mem_append.mp hc with hc | hc
      · exact hmap c hc
      · rw [Context.laneIds, List.map_map] at hc
        obtain ⟨l, hl, rfl⟩ := List.mem_map.mp hc
        exact hnew hle l (List.mem_range.mp hl)
    next => exact hmap
  have hsome (id : ContextId) : (actsAt (some id) (acts ++ [.fork ctx.id f opens])).length =
      (actsAt (some id) acts).length + if id = ctx.id then 1 else 0 := by
    rw [length_actsAt_snoc]
    simp only [Act.node, Option.some.injEq, eq_comm]
  have hnone : (actsAt none (acts ++ [.fork ctx.id f opens])).length =
      (actsAt none acts).length := by
    rw [length_actsAt_snoc]
    rfl
  refine ⟨fun i hi => ?_, ?_, hctxs (fun c hc => ?_) fun hle l hl => ?_, fun id' f' o hact => ?_,
    h.nextContext.trans hnone.symm, h.nextLt, hctxs (fun c hc => ?_) fun _ l _ => ?_,
    hctxs (fun c hc => ?_) fun _ _ _ => Nat.two_pow_pos 32, fun i => ?_⟩
  · rcases (hmem i).mp hi with hi | ⟨l, hl, rfl⟩
    · exact h.path i hi
    · obtain ⟨path, hodd, hpath, hid⟩ := h.path ctx.id (h.contexts ctx hctx)
      refine ⟨path ++ [ctx.forkCounter] ++ [l], ?_, fun k hk => ?_, ?_⟩
      · rw [List.length_append, List.length_append, List.length_singleton, List.length_singleton,
          Nat.even_add_one, Nat.even_add_one, not_not]
        exact hodd
      · rcases List.mem_append.mp hk with hk | hk
        · rcases List.mem_append.mp hk with hk | hk
          · exact hpath k hk
          · rw [List.mem_singleton.mp hk]
            exact hlt ctx hctx rfl
        · rw [List.mem_singleton.mp hk]
          exact (Nat.succ_le_of_lt (hl.trans_le (min_le_right _ _))).trans_lt hlanes
      · show (ctx.id.child ctx.forkCounter).child l = s.base ++ _
        rw [hid, indices_snoc, indices_snoc]
  · show (s.opened ++ List.take _ _).Nodup
    refine List.Nodup.append h.nodup ?_ fun i hi hnew => ?_
    · show (List.take opens (Context.laneIds (ctx.id.child ctx.forkCounter) _)).Nodup
      rw [htake]
      refine List.Nodup.map_on (fun k hk l hl hkl => ?_) List.nodup_range
      rw [List.mem_range] at hk hl
      have hle := min_le_right opens (f.lanes s.concurrencyLimit)
      exact (child_inj ((hk.trans_le hle).trans hlanes) ((hl.trans_le hle).trans hlanes) hkl).2
    · have hnew : i ∈ List.take opens (Context.laneIds (ctx.id.child ctx.forkCounter) _) := hnew
      rw [htake, List.mem_map] at hnew
      obtain ⟨l, -, rfl⟩ := hnew
      exact h.lane_not_mem hctx l hi
  · exact (hmem c.id).mpr (.inl (h.contexts c hc))
  · exact (hmem _).mpr (.inr ⟨l, lt_min (hl.trans_le hle) hl, rfl⟩)
  · have hold : ∃ c ∈ s.contexts, c.id = id' := by
      rcases List.mem_append.mp hact with hact | hact
      · exact h.known id' f' o hact
      · cases List.mem_singleton.mp hact
        exact ⟨ctx, hctx, rfl⟩
    obtain ⟨c, hc, rfl⟩ := hold
    have hmap : (if c.id = ctx.id then c.nextFork.2 else c) ∈
        s.contexts.map fun c => if c.id = ctx.id then c.nextFork.2 else c :=
      List.mem_map_of_mem (f := fun c : Context => if c.id = ctx.id then c.nextFork.2 else c) hc
    refine ⟨if c.id = ctx.id then c.nextFork.2 else c, ?_, ?_⟩
    · show _ ∈ if _ then _ else _
      split
      · exact List.mem_append_left _ hmap
      · exact hmap
    · split <;> rfl
  · show c.forkCounter + _ = _
    rw [hsome, h.forkCounter c hc]
  · show 0 = (actsAt (some ((ctx.id.child ctx.forkCounter).child l)) _).length
    have hne : (ctx.id.child ctx.forkCounter).child l ≠ ctx.id := fun heq => by
      have := congrArg List.length heq
      rw [length_child, length_child] at this
      omega
    rw [hsome, h.actsAt_eq_nil (h.lane_not_mem hctx l), if_neg hne]
    rfl
  · show c.forkCounter + _ < 2 ^ 32
    split
    next heq => exact hlt c hc heq
    next => exact h.forkLt c hc
  · refine (hmem i).trans (Iff.trans ?_ opened_snoc_fork.symm)
    rw [← hcount]
    exact or_congr_left (h.opened i)

/-- A step keeps the invariant. -/
theorem step (h : s.Inv acts) {a : Act} (hstep : Step s a t) :
    t.Inv (acts ++ [a]) ∧ t.base = s.base ∧ t.concurrencyLimit = s.concurrencyLimit := by
  obtain ⟨hbound, hnext⟩ := hstep
  cases a with
  | newContext opens =>
    obtain rfl := Option.some.inj hnext
    refine ⟨h.newContext hbound, ?_⟩
    cases opens <;> exact ⟨rfl, rfl⟩
  | fork id f opens =>
    refine ⟨h.fork hbound hnext, ?_⟩
    obtain ⟨ctx, -, heq⟩ := Option.bind_eq_some_iff.mp hnext
    obtain rfl := Option.some.inj heq
    exact ⟨rfl, rfl⟩

end Inv

/-- The invariant holds in every run. -/
theorem inv_of_run {base : ContextId} {limit : ℕ} {acts : List Act} {s : Session}
    (h : Run Step (build base limit) acts s) :
    s.Inv acts ∧ s.base = base ∧ s.concurrencyLimit = max limit 1 :=
  h.invariant_labels (P := fun acts s => s.Inv acts ∧ s.base = base ∧
    s.concurrencyLimit = max limit 1) ⟨inv_build base limit, rfl, rfl⟩
    fun _ _ _ _ ⟨hinv, hbase, hlimit⟩ hstep => by
      obtain ⟨hinv, hb, hl⟩ := hinv.step hstep
      exact ⟨hinv, hb.trans hbase, hl.trans hlimit⟩

/-! ### What can be reached -/

/-- A run leads to a new context with this identifier. -/
def Reaches (base : ContextId) (limit : ℕ) (id : ContextId) : Prop :=
  ∃ acts s, Run Step (build base limit) acts s ∧ ⟨id, 0⟩ ∈ s.contexts

variable {base id : ContextId} {limit : ℕ}

theorem exists_nextContext (base : ContextId) (limit n : ℕ) (hn : n < 2 ^ 32) :
    ∃ acts s, Run Step (build base limit) acts s ∧ s.nextContext = n := by
  induction n with
  | zero => exact ⟨[], build base limit, .nil, rfl⟩
  | succ n ih =>
    obtain ⟨acts, s, hrun, hnext⟩ := ih (Nat.lt_of_succ_lt hn)
    have hbound : (Act.newContext false).Bounded s := by
      show s.nextContext + 1 < 2 ^ 32
      rwa [hnext]
    exact ⟨_, s.newContext false, hrun.snoc ⟨hbound, rfl⟩, congrArg (· + 1) hnext⟩

/-- Contexts of the session. -/
theorem Reaches.newContext {i : ℕ} (hi : i + 1 < 2 ^ 32) : Reaches base limit (base.child i) := by
  obtain ⟨acts, s, hrun, hnext⟩ := exists_nextContext base limit i
    (Nat.lt_of_succ_lt hi)
  have hbound : (Act.newContext true).Bounded s := by
    show s.nextContext + 1 < 2 ^ 32
    rwa [hnext]
  refine ⟨_, s.newContext true, hrun.snoc ⟨hbound, rfl⟩, List.mem_append_right _ ?_⟩
  rw [(inv_of_run hrun).2.1, hnext]
  exact List.mem_singleton_self _

/-- A fork of a context that is there. -/
theorem exists_fork {s : Session} {ctx : Context} (hctx : ctx ∈ s.contexts) (f : Fork) : ∃ c t,
    c.id = ctx.id ∧ c ∈ s.contexts ∧ s.fork ctx.id f (f.lanes s.concurrencyLimit) = some t ∧
      ∀ l < f.lanes s.concurrencyLimit, ⟨(c.id.child c.forkCounter).child l, 0⟩ ∈ t.contexts := by
  have hsome : (s.contexts.find? fun c => c.id == ctx.id).isSome := by
    rw [List.find?_isSome]
    exact ⟨ctx, hctx, beq_self_eq_true ctx.id⟩
  obtain ⟨c, hc⟩ := Option.isSome_iff_exists.mp hsome
  refine ⟨c, _, ?_, List.mem_of_find?_eq_some hc, by rw [Session.fork, hc]; rfl, fun l hl => ?_⟩
  · have := List.find?_some hc
    exact beq_iff_eq.mp this
  · show _ ∈ if _ then _ else _
    rw [if_pos le_rfl]
    refine List.mem_append_right _ (List.mem_map.mpr ⟨_, ?_, rfl⟩)
    exact List.mem_map_of_mem (List.mem_range.mpr hl)

/-- A context forks as often as it should. -/
theorem Reaches.forks (h : Reaches base limit id) (n : ℕ) (hn : n < 2 ^ 32) :
    ∃ acts s, Run Step (build base limit) acts s ∧ ∃ ctx ∈ s.contexts, ctx.id = id ∧
      (actsAt (some id) acts).length = n := by
  induction n with
  | zero =>
    obtain ⟨acts, s, hrun, hctx⟩ := h
    exact ⟨acts, s, hrun, _, hctx, rfl, ((inv_of_run hrun).1.forkCounter _ hctx).symm⟩
  | succ n ih =>
    obtain ⟨acts, s, hrun, ctx, hctx, rfl, hlen⟩ := ih (Nat.lt_of_succ_lt hn)
    obtain ⟨c, t, -, -, hfork, -⟩ := exists_fork hctx .join
    have hbound : (Act.fork ctx.id .join 2).Bounded s := by
      refine ⟨show 2 < 2 ^ 32 by decide, fun c hc hid => ?_⟩
      rw [(inv_of_run hrun).1.forkCounter c hc, hid, hlen]
      exact hn
    have hrun' := hrun.snoc ⟨hbound, hfork⟩
    obtain ⟨c', hc', hid⟩ := (inv_of_run hrun').1.known ctx.id .join 2
      (List.mem_append_right _ (List.mem_singleton_self _))
    refine ⟨_, t, hrun', c', hc', hid, ?_⟩
    rw [length_actsAt_snoc, hlen]
    exact congrArg (n + ·) (if_pos rfl)

/-- The lanes of a context. -/
theorem Reaches.fork (h : Reaches base limit id) {i l : ℕ} (hi : i + 1 < 2 ^ 32)
    (hl : l + 1 < 2 ^ 32) (hlimit : l + 1 ≤ limit) : Reaches base limit ((id.child i).child l) := by
  obtain ⟨acts, s, hrun, ctx, hctx, rfl, hlen⟩ := h.forks i (Nat.lt_of_succ_lt hi)
  obtain ⟨hinv, -, hmax⟩ := inv_of_run hrun
  have hlanes : (Fork.map (l + 1)).lanes s.concurrencyLimit = l + 1 := by
    rw [hmax]
    exact min_eq_left (hlimit.trans (le_max_left _ _))
  obtain ⟨c, t, hid, hc, hfork, hnew⟩ := exists_fork hctx (.map (l + 1))
  have hbound : (Act.fork ctx.id (.map (l + 1))
      ((Fork.map (l + 1)).lanes s.concurrencyLimit)).Bounded
      s := by
    refine ⟨hlanes.trans_lt hl, fun c hc hid => ?_⟩
    rw [hinv.forkCounter c hc, hid, hlen]
    exact hi
  refine ⟨_, t, hrun.snoc ⟨hbound, hfork⟩, ?_⟩
  have hmem := hnew l ((Nat.lt_succ_self l).trans_eq hlanes.symm)
  rwa [hinv.forkCounter c hc, hid, hlen] at hmem

/-- An even number of indices behind a context leads to one. -/
theorem Reaches.indices {id : ContextId} : ∀ path : List ℕ, Even path.length →
    (∀ k ∈ path, k + 1 < 2 ^ 32) → Reaches base (2 ^ 32) id →
      Reaches base (2 ^ 32) (id ++ indices path)
  | [], _, _, h => by
    rw [show Session.indices [] = [] from rfl, List.append_nil]
    exact h
  | [_], heven, _, _ => absurd heven Nat.not_even_one
  | i :: l :: path, heven, hpath, h => by
    have hl := hpath l (List.mem_cons_of_mem _ List.mem_cons_self)
    have hfork := h.fork (hpath i List.mem_cons_self) hl hl.le
    have heven : Even path.length := by
      rw [List.length_cons, List.length_cons, Nat.even_add_one, Nat.even_add_one, not_not] at heven
      exact heven
    have htail := Reaches.indices path heven (fun k hk =>
      hpath k (List.mem_cons_of_mem _ (List.mem_cons_of_mem _ hk))) hfork
    rw [Session.indices, List.flatMap_cons, List.flatMap_cons, ← List.append_assoc,
      ← List.append_assoc]
    exact htail

/-- What a beginning is extended by leads to a channel of both sessions. -/
theorem Extends.collide {p q : ContextId} (h : Extends p q) : ∃ acts acts' s s',
    Run Step (build p (2 ^ 32)) acts s ∧ Run Step (build q (2 ^ 32)) acts' s' ∧
      ∃ i, i ∈ s.opened ∧ i ∈ s'.opened := by
  obtain ⟨path, heven, hpath, rfl⟩ := h
  obtain ⟨acts', s', hrun', hctx'⟩ : Reaches (p ++ indices path) (2 ^ 32)
    ((p ++ indices path).child 0) := Reaches.newContext (by decide)
  obtain ⟨acts, s, hrun, hctx⟩ : Reaches p (2 ^ 32) ((p ++ indices path).child 0) := by
    cases path with
    | nil =>
      rw [show indices [] = [] from rfl, List.append_nil]
      exact Reaches.newContext (by decide)
    | cons i path =>
      -- the first index is that of a context, the others and the last `0` are forks and lanes
      have hfirst : Reaches p (2 ^ 32) (p.child i) :=
        Reaches.newContext (hpath i List.mem_cons_self)
      have heven : Even (path ++ [0]).length := by
        rw [List.length_append, List.length_singleton]
        exact heven
      have hlast := Reaches.indices (path ++ [0]) heven (fun k hk => by
        rcases List.mem_append.mp hk with hk | hk
        · exact hpath k (List.mem_cons_of_mem _ hk)
        · rw [List.mem_singleton.mp hk]
          decide) hfirst
      rw [indices_snoc, List.cons_append, indices, List.flatMap_cons, ← List.append_assoc]
      exact hlast
  exact ⟨acts, acts', s, s', hrun, hrun', _, (inv_of_run hrun).1.contexts _ hctx,
    (inv_of_run hrun').1.contexts _ hctx'⟩

/-- Two sessions that share a channel have beginnings of which one extends the other. -/
theorem extends_of_eq {p q : ContextId} {path path' : List ℕ} (hodd : ¬ Even path.length)
    (hodd' : ¬ Even path'.length) (hpath : ∀ k ∈ path, k + 1 < 2 ^ 32)
    (h : p ++ indices path = q ++ indices path') (hle : p.length ≤ q.length) : Extends p q := by
  obtain ⟨r, rfl, hr⟩ : ∃ r, q = p ++ r ∧ indices path = r ++ indices path' := by
    rcases List.append_eq_append_iff.mp h with h | ⟨r, rfl, hr⟩
    · exact h
    · rw [List.length_append] at hle
      obtain rfl := List.length_eq_zero_iff.mp (Nat.le_zero.mp (Nat.le_of_add_le_add_left
        (hle.trans_eq (Nat.add_zero _).symm)))
      exact ⟨[], by simp, hr.symm⟩
  have hlen := congrArg List.length hr
  rw [List.length_append, length_indices, length_indices] at hlen
  have hr' : r = indices (path.take (path.length - path'.length)) := by
    rw [← indices_take, hr]
    exact (List.take_left' (by omega)).symm
  refine ⟨path.take (path.length - path'.length), ?_, fun k hk => hpath k (List.mem_of_mem_take hk),
    congrArg (p ++ ·) hr'⟩
  rw [List.length_take, min_eq_left (Nat.sub_le _ _), Nat.even_sub (by omega)]
  exact iff_of_false hodd hodd'

/-- What two beginnings are to be good for. -/
structure Distinct (p q : ContextId) : Prop where
  /-- The channels of a session are distinct. -/
  nodup : ∀ limit acts s, Run Step (build p limit) acts s → s.opened.Nodup
  /-- Where the same is done at all contexts, the channels are the same. -/
  same : ∀ limit acts acts' s s', Run Step (build p limit) acts s →
    Run Step (build p limit) acts' s' → SameOperations acts acts' → s.opened.Perm s'.opened
  /-- Two sessions have no channel in common. -/
  disjoint : ∀ limit limit' acts acts' s s', Run Step (build p limit) acts s →
    Run Step (build q limit') acts' s' → s.opened.Disjoint s'.opened

end Session

open Session in
/-- **The channels of sessions are distinct**, just in case that neither of the two beginnings is
the other one with an even number of indices behind it. -/
theorem channel_ids_distinct (p q : ContextId) : Distinct p q ↔ ¬ Extends p q ∧ ¬ Extends q p := by
  constructor
  · intro h
    constructor <;> intro hext
    · obtain ⟨acts, acts', s, s', hrun, hrun', i, hi, hi'⟩ := hext.collide
      exact h.disjoint _ _ _ _ _ _ hrun hrun' hi hi'
    · obtain ⟨acts, acts', s, s', hrun, hrun', i, hi, hi'⟩ := hext.collide
      exact h.disjoint _ _ _ _ _ _ hrun' hrun hi' hi
  · rintro ⟨hpq, hqp⟩
    refine ⟨fun limit acts s hrun => (inv_of_run hrun).1.nodup,
      fun limit acts acts' s s' hrun hrun' hsame => ?_,
      fun limit limit' acts acts' s s' hrun hrun' i hi hi' => ?_⟩
    · obtain ⟨hinv, hbase, hlimit⟩ := inv_of_run hrun
      obtain ⟨hinv', hbase', hlimit'⟩ := inv_of_run hrun'
      rw [List.perm_ext_iff_of_nodup hinv.nodup hinv'.nodup]
      intro i
      rw [hinv.opened, hinv'.opened, hbase, hbase', hlimit, hlimit', Opened, Opened]
      simp only [hsame none, hsame (some _)]
    · obtain ⟨hinv, hbase, -⟩ := inv_of_run hrun
      obtain ⟨hinv', hbase', -⟩ := inv_of_run hrun'
      obtain ⟨path, hodd, hpath, rfl⟩ := hinv.path i hi
      obtain ⟨path', hodd', hpath', heq⟩ := hinv'.path _ hi'
      rw [hbase, hbase'] at heq
      rcases Nat.le_total p.length q.length with hle | hle
      · exact hpq (extends_of_eq hodd hodd' hpath heq hle)
      · exact hqp (extends_of_eq hodd' hodd hpath' heq.symm hle)

open Session in
/-- **Two sessions that share a channel**: that of a lane of the first one, and that of a context of
the second one. -/
theorem channel_ids_collide : ∃ s s' : Session, ∃ q : ContextId,
    q = ContextId.fromPrefix (List.replicate 12 0) ∧ ContextId.default ≠ q ∧
    Run Step (build ContextId.default 32)
      [.newContext true, .fork (ContextId.default.child 0) .join 2] s ∧
    Run Step (build q 32) [.newContext true] s' ∧ ∃ i, i ∈ s.opened ∧ i ∈ s'.opened := by
  have hnext (s : Session) (a : Act) (t : Session)
      (h : (if a.Bounded s then s.next a else none) = some t) : Step s a t := by
    split at h
    case isTrue hbound => exact ⟨hbound, h⟩
    case isFalse => cases h
  exact ⟨_, _, _, rfl, by decide +kernel, Run.of_isSome _ hnext (by decide +kernel),
    Run.of_isSome _ hnext (by decide +kernel), List.replicate 16 0, by decide +kernel,
    by decide +kernel⟩

end Mpz
