import Mpz.Common.Session
import Mpz.Lib.RoundRobin

/-!
# Mapping over items concurrently

The items are put into the queues of lanes in turn, every lane gets a channel, and then the lanes
work off their queues, one item after the other, while the other lanes do the same. The results are
taken from the lanes in turn again.

The steps of the model are the ones between which other tasks can run: a channel is opened, a lane
calls the function for an item, and a call comes back. The function may do anything with the channel
of its lane.

## Main definitions

* `Mapping` — how far a call of `Context::map` is
* `Step` — its steps, and those of its lanes
* `Sequential` — the loop over items on one channel
* `Mapped` — what a call has done so far, and what it returns

## Main results

* `map_correct` — a call maps the items as a loop does, as long as indices fit into 32 bits
* `map_panics` — more lanes are a panic
-/

namespace Mpz

namespace ContextMap

variable {T R C E : Type}

/-- A lane: its context, the items that wait, the one that is worked on, and the results. -/
structure Lane (T R C : Type) where
  ctx : C
  queue : List T
  running : Option T
  results : List R

/-- How far a call is. -/
inductive Phase (T R C E : Type) where
  /-- Channels are being opened. -/
  | opening (ctxs : List C)
  /-- The lanes run. -/
  | running (lanes : List (Lane T R C))
  /-- The call returned. -/
  | returned (r : Except E (List R))
  /-- The call panicked. -/
  | panicked

/-- A call of `Context::map`. The last two fields are the channels that were opened, and the calls
of the function, each with its lane. -/
structure Mapping (T R C E : Type) where
  phase : Phase T R C E
  opened : List ContextId
  calls : List (ℕ × T)

/-- What a call is given. -/
structure Input (T : Type) where
  /-- Whether the build checks for overflows. -/
  checked : Bool
  /-- The context. -/
  ctx : Context
  items : List T
  concurrencyLimit : ℕ

namespace Input

/-- The number of lanes. -/
def lanes (a : Input T) : ℕ := min a.items.length a.concurrencyLimit

/-- The identifier of the fork. -/
def parentId (a : Input T) : ContextId := a.ctx.nextFork.1

/-- The state before any channel is opened. Without items nothing is left to do. -/
def start (a : Input T) : Mapping T R C E :=
  if a.checked = true ∧ 2 ^ 32 ≤ a.ctx.forkCounter + 1 then ⟨.panicked, [], []⟩
  else if a.items.length = 0 then ⟨.returned (.ok []), [], []⟩
  else ⟨.opening [], [], []⟩

end Input

/-- The lanes, each with its context and its queue. -/
def spawn (ctxs : List C) (queues : List (List T)) : List (Lane T R C) :=
  ctxs.zipWith (fun ctx queue => ⟨ctx, queue, none, []⟩) queues

/-- The lane has nothing left to do. -/
def Lane.IsDone (lane : Lane T R C) : Prop := lane.queue = [] ∧ lane.running = none

/-- The results of the lanes, in the order of the items. A lane without a result panics. -/
def finish (a : Input T) (lanes : List (Lane T R C)) : Phase T R C E :=
  match gather a.lanes a.items.length (lanes.map Lane.results) with
  | some out => .returned (.ok out)
  | none => .panicked

/-- A step of a call, for a function `f` and a multiplexer that may or may not open a channel. -/
inductive Step (f : C → T → R → C → Prop) (opens : ContextId → Except E C → Prop) (a : Input T) :
    Mapping T R C E → Unit → Mapping T R C E → Prop
  | opened {ctxs : List C} {c : C} {ids calls} (hlane : ctxs.length < a.lanes)
      (hindex : ctxs.length < 2 ^ 32) (hopen : opens (a.parentId.child ctxs.length) (.ok c)) :
      Step f opens a ⟨.opening ctxs, ids, calls⟩ ()
        ⟨.opening (ctxs ++ [c]), ids ++ [a.parentId.child ctxs.length], calls⟩
  | failed {ctxs : List C} {e : E} {ids calls} (hlane : ctxs.length < a.lanes)
      (hindex : ctxs.length < 2 ^ 32) (hopen : opens (a.parentId.child ctxs.length) (.error e)) :
      Step f opens a ⟨.opening ctxs, ids, calls⟩ () ⟨.returned (.error e), ids, calls⟩
  | tooMany {ctxs : List C} {ids calls} (hlane : ctxs.length < a.lanes)
      (hindex : 2 ^ 32 ≤ ctxs.length) :
      Step f opens a ⟨.opening ctxs, ids, calls⟩ () ⟨.panicked, ids, calls⟩
  | spawned {ctxs : List C} {ids calls} (hlane : a.lanes ≤ ctxs.length) :
      Step f opens a ⟨.opening ctxs, ids, calls⟩ ()
        ⟨.running (spawn ctxs (scatter a.lanes a.items)), ids, calls⟩
  | call {lanes : List (Lane T R C)} {l : ℕ} {ctx : C} {x : T} {q : List T} {rs : List R}
      {ids calls} (hl : lanes[l]? = some ⟨ctx, x :: q, none, rs⟩) :
      Step f opens a ⟨.running lanes, ids, calls⟩ ()
        ⟨.running (lanes.set l ⟨ctx, q, some x, rs⟩), ids, calls ++ [(l, x)]⟩
  | result {lanes : List (Lane T R C)} {l : ℕ} {ctx ctx' : C} {x : T} {q : List T} {r : R}
      {rs : List R} {ids calls} (hl : lanes[l]? = some ⟨ctx, q, some x, rs⟩) (hf : f ctx x r ctx') :
      Step f opens a ⟨.running lanes, ids, calls⟩ ()
        ⟨.running (lanes.set l ⟨ctx', q, none, rs ++ [r]⟩), ids, calls⟩
  | joined {lanes : List (Lane T R C)} {ids calls} (hdone : ∀ lane ∈ lanes, lane.IsDone) :
      Step f opens a ⟨.running lanes, ids, calls⟩ () ⟨finish a lanes, ids, calls⟩

/-- The loop over items on one channel: that of a lane, and that of a single-channel context. -/
inductive Sequential (f : C → T → R → C → Prop) (c : C) : List T → List R → C → Prop
  | nil : Sequential f c [] [] c
  | snoc {xs : List T} {rs : List R} {c' c'' : C} {x : T} {r : R} (h : Sequential f c xs rs c')
      (hf : f c' x r c'') : Sequential f c (xs ++ [x]) (rs ++ [r]) c''

/-- The items that were passed to the function on a lane. -/
def callsOf (calls : List (ℕ × T)) (l : ℕ) : List T := (calls.filter fun p => p.1 = l).map Prod.snd

/-! ### Sequential loops -/

theorem Sequential.length_eq {f : C → T → R → C → Prop} {c c' : C} {xs : List T} {rs : List R}
    (h : Sequential f c xs rs c') : rs.length = xs.length := by
  induction h with
  | nil => rfl
  | snoc _ _ ih => rw [List.length_append, List.length_append, ih]; rfl

/-- A function of the item alone. -/
theorem Sequential.eq_map {f : C → T → R → C → Prop} {g : T → R}
    (hg : ∀ c x r c', f c x r c' → r = g x) {c c' : C} {xs : List T} {rs : List R}
    (h : Sequential f c xs rs c') : rs = xs.map g := by
  induction h with
  | nil => rfl
  | snoc _ hf ih => rw [ih, hg _ _ _ _ hf, List.map_append, List.map_singleton]

theorem callsOf_snoc (calls : List (ℕ × T)) (l k : ℕ) (x : T) : callsOf (calls ++ [(k, x)]) l =
    if k = l then callsOf calls l ++ [x] else callsOf calls l := by
  rw [callsOf, callsOf, List.filter_append, List.map_append]
  by_cases h : k = l <;> simp [h]

/-! ### The invariant -/

variable {f : C → T → R → C → Prop} {opens : ContextId → Except E C → Prop} {a : Input T}

/-- The channels that are opened for a number of lanes. -/
def Input.channels (a : Input T) (n : ℕ) : List ContextId := (List.range n).map a.parentId.child

/-- The items of a lane. -/
def Input.queue (a : Input T) (l : ℕ) : List T := Mpz.queue (scatter a.lanes a.items) l

/-- A lane has worked off the first items of its queue, one after the other, on its channel. -/
structure LaneInv (f : C → T → R → C → Prop) (opens : ContextId → Except E C → Prop) (a : Input T)
    (calls : List (ℕ × T)) (l : ℕ) (lane : Lane T R C) : Prop where
  exists_done : ∃ c d, opens (a.parentId.child l) (.ok c) ∧ Sequential f c d lane.results lane.ctx ∧
    callsOf calls l = d ++ lane.running.toList ∧
    a.queue l = d ++ lane.running.toList ++ lane.queue

/-- The results of a call, lane by lane. -/
def Results (f : C → T → R → C → Prop) (opens : ContextId → Except E C → Prop) (a : Input T)
    (calls : List (ℕ × T)) (out : List R) : Prop :=
  ∀ l < a.lanes, ∃ c rs c', opens (a.parentId.child l) (.ok c) ∧ callsOf calls l = a.queue l ∧
    Sequential f c (a.queue l) rs c' ∧ ∀ j, l + j * a.lanes < a.items.length →
      out[l + j * a.lanes]? = rs[j]?

/-- What holds of a phase. -/
def PhaseInv (f : C → T → R → C → Prop) (opens : ContextId → Except E C → Prop) (a : Input T)
    (opened : List ContextId) (calls : List (ℕ × T)) : Phase T R C E → Prop
  | .opening ctxs => 0 < a.lanes ∧ ctxs.length ≤ a.lanes ∧ opened = a.channels ctxs.length ∧
      calls = [] ∧
      ∀ l c, ctxs[l]? = some c → opens (a.parentId.child l) (.ok c)
  | .running lanes => 0 < a.lanes ∧ lanes.length = a.lanes ∧ opened = a.channels a.lanes ∧
      ∀ l lane, lanes[l]? = some lane → LaneInv f opens a calls l lane
  | .returned (.ok out) => opened = a.channels a.lanes ∧ out.length = a.items.length ∧
      Results f opens a calls out
  | .returned (.error _) => calls = []
  | .panicked => False

/-- What holds of every state that is reached. -/
structure Inv (f : C → T → R → C → Prop) (opens : ContextId → Except E C → Prop) (a : Input T)
    (s : Mapping T R C E) : Prop where
  calls_lt : ∀ p ∈ s.calls, p.1 < a.lanes
  phase : PhaseInv f opens a s.opened s.calls s.phase

theorem Input.channels_succ (a : Input T) (n : ℕ) :
    a.channels (n + 1) = a.channels n ++ [a.parentId.child n] := by
  rw [Input.channels, List.range_succ, List.map_append, List.map_singleton]
  rfl

theorem Inv.start (hlimit : 0 < a.concurrencyLimit)
    (hfork : a.checked = true → a.ctx.forkCounter + 1 < 2 ^ 32) :
    Inv f opens a (a.start : Mapping T R C E) := by
  have hguard : ¬ (a.checked = true ∧ 2 ^ 32 ≤ a.ctx.forkCounter + 1) := fun h =>
    Nat.not_le.mpr (hfork h.1) h.2
  rw [Input.start, if_neg hguard]
  split
  case isTrue hempty =>
    have hlanes : a.lanes = 0 := by rw [Input.lanes, hempty, Nat.zero_min]
    refine ⟨fun p hp => absurd hp List.not_mem_nil, ?_, hempty.symm, fun l hl => ?_⟩
    · rw [hlanes]
      rfl
    · rw [hlanes] at hl
      exact absurd hl (Nat.not_lt_zero l)
  case isFalse hne =>
    have hpos : 0 < a.lanes := Nat.lt_min.mpr ⟨Nat.pos_of_ne_zero hne, hlimit⟩
    refine ⟨fun p hp => absurd hp List.not_mem_nil, hpos, Nat.zero_le _, rfl, rfl, fun l c hc => ?_⟩
    rw [List.getElem?_nil] at hc
    cases hc

/-- A lane that has not started. -/
theorem LaneInv.spawn {ctxs : List C}
    (hctxs : ∀ l c, ctxs[l]? = some c → opens (a.parentId.child l) (.ok c)) {l : ℕ}
    {lane : Lane T R C} (hl : (spawn ctxs (scatter a.lanes a.items))[l]? = some lane) :
    LaneInv f opens a [] l lane := by
  rw [ContextMap.spawn, List.getElem?_zipWith_eq_some] at hl
  obtain ⟨c, q, hc, hq, rfl⟩ := hl
  refine ⟨c, [], hctxs l c hc, .nil, rfl, ?_⟩
  rw [Input.queue, Mpz.queue, List.getD_eq_getElem?_getD, hq]
  rfl

/-- What a lane does leaves the other lanes as they are. -/
theorem LaneInv.of_ne {calls : List (ℕ × T)} {l k : ℕ} {x : T} {lane : Lane T R C} (hne : k ≠ l)
    (h : LaneInv f opens a calls l lane) : LaneInv f opens a (calls ++ [(k, x)]) l lane := by
  obtain ⟨c, d, hc, hd, hcalls, hq⟩ := h.exists_done
  exact ⟨c, d, hc, hd, by rw [callsOf_snoc, if_neg hne, hcalls], hq⟩

/-- The function is called for the next item. -/
theorem LaneInv.call {calls : List (ℕ × T)} {l : ℕ} {ctx : C} {x : T} {q : List T} {rs : List R}
    (h : LaneInv f opens a calls l ⟨ctx, x :: q, none, rs⟩) :
    LaneInv f opens a (calls ++ [(l, x)]) l ⟨ctx, q, some x, rs⟩ := by
  obtain ⟨c, d, hc, hd, hcalls, hq⟩ := h.exists_done
  refine ⟨c, d, hc, hd, ?_, ?_⟩
  · rw [callsOf_snoc, if_pos rfl, hcalls]
    simp
  · rw [hq]
    simp

/-- The function returns. -/
theorem LaneInv.result {calls : List (ℕ × T)} {l : ℕ} {ctx ctx' : C} {x : T} {q : List T} {r : R}
    {rs : List R} (h : LaneInv f opens a calls l ⟨ctx, q, some x, rs⟩) (hf : f ctx x r ctx') :
    LaneInv f opens a calls l ⟨ctx', q, none, rs ++ [r]⟩ := by
  obtain ⟨c, d, hc, hd, hcalls, hq⟩ := h.exists_done
  refine ⟨c, d ++ [x], hc, hd.snoc hf, ?_, ?_⟩
  · rw [hcalls]
    simp
  · rw [hq]
    simp

/-- A lane that is done has worked off its queue. -/
theorem LaneInv.done {calls : List (ℕ × T)} {l : ℕ} {lane : Lane T R C}
    (h : LaneInv f opens a calls l lane) (hdone : lane.IsDone) :
    ∃ c, opens (a.parentId.child l) (.ok c) ∧ callsOf calls l = a.queue l ∧
      Sequential f c (a.queue l) lane.results lane.ctx := by
  obtain ⟨c, d, hc, hd, hcalls, hq⟩ := h.exists_done
  rw [hdone.1, hdone.2, Option.toList_none, List.append_nil, List.append_nil] at hq
  rw [hdone.2, Option.toList_none, List.append_nil] at hcalls
  exact ⟨c, hc, hcalls.trans hq.symm, hq ▸ hd⟩

/-- An item is in the queue of its lane. -/
theorem Input.getElem?_queue (hlanes : 0 < a.lanes) (i : ℕ) :
    (a.queue (i % a.lanes))[i / a.lanes]? = a.items[i]? := getElem?_scatter_mod a.items hlanes i

/-- **The results are there for every item.** -/
theorem phaseInv_finish {lanes : List (Lane T R C)} {calls : List (ℕ × T)} (hpos : 0 < a.lanes)
    (hlen : lanes.length = a.lanes)
    (hinv : ∀ l lane, lanes[l]? = some lane → LaneInv f opens a calls l lane)
    (hdone : ∀ lane ∈ lanes, lane.IsDone) :
    PhaseInv f opens a (a.channels a.lanes) calls (finish a lanes : Phase T R C E) := by
  have hlane : ∀ l < a.lanes, ∃ lane c, lanes[l]? = some lane ∧ opens (a.parentId.child l) (.ok c) ∧
      callsOf calls l = a.queue l ∧ Sequential f c (a.queue l) lane.results lane.ctx ∧
      Mpz.queue (lanes.map Lane.results) l = lane.results := by
    intro l hl
    have hget : lanes[l]? = some lanes[l] := List.getElem?_eq_getElem (by omega)
    obtain ⟨c, hc, hcalls, hseq⟩ := (hinv l _ hget).done (hdone _ (List.getElem_mem _))
    refine ⟨_, c, hget, hc, hcalls, hseq, ?_⟩
    rw [Mpz.queue, List.getD_eq_getElem?_getD, List.getElem?_map, hget]
    rfl
  have hresult : ∀ i < a.items.length,
      ∃ r, (Mpz.queue (lanes.map Lane.results) (i % a.lanes))[i / a.lanes]? = some r := by
    intro i hi
    obtain ⟨lane, c, -, -, -, hseq, hq⟩ := hlane (i % a.lanes) (Nat.mod_lt i hpos)
    have hsome : i / a.lanes < (a.queue (i % a.lanes)).length := by
      refine Nat.lt_of_not_le fun hle => ?_
      have hnone := List.getElem?_eq_none hle
      rw [Input.getElem?_queue hpos, List.getElem?_eq_getElem hi] at hnone
      cases hnone
    rw [hq]
    exact ⟨_, List.getElem?_eq_getElem (by rw [hseq.length_eq]; exact hsome)⟩
  obtain ⟨out, hout, houtlen, hget⟩ := gather_eq_some hpos (by rw [List.length_map, hlen]) hresult
  rw [finish, hout]
  refine ⟨rfl, houtlen, fun l hl => ?_⟩
  obtain ⟨lane, c, -, hc, hcalls, hseq, hq⟩ := hlane l hl
  refine ⟨c, lane.results, lane.ctx, hc, hcalls, hseq, fun j hj => ?_⟩
  obtain ⟨hmod, hdiv⟩ := (add_mul_eq_iff hpos hl).mp (Eq.refl (l + j * a.lanes))
  rw [hget _ hj, ← hmod, ← hdiv, hq]

/-- A step of one lane. -/
theorem phaseInv_set {lanes : List (Lane T R C)} {opened : List ContextId}
    {calls calls' : List (ℕ × T)} {l : ℕ} {lane lane' : Lane T R C}
    (h : PhaseInv f opens a opened calls (.running lanes : Phase T R C E))
    (hl : lanes[l]? = some lane)
    (hself : LaneInv f opens a calls l lane → LaneInv f opens a calls' l lane')
    (hother : ∀ k ≠ l, ∀ lane, LaneInv f opens a calls k lane → LaneInv f opens a calls' k lane) :
    PhaseInv f opens a opened calls' (.running (lanes.set l lane') : Phase T R C E) := by
  obtain ⟨hpos, hlen, hopened, hlanes⟩ := h
  refine ⟨hpos, by rw [List.length_set, hlen], hopened, fun k lane'' hk => ?_⟩
  rw [List.getElem?_set] at hk
  split at hk
  case isTrue heq =>
    subst heq
    split at hk
    case isTrue =>
      cases hk
      exact hself (hlanes _ _ hl)
    case isFalse => cases hk
  case isFalse hne => exact hother k (fun h => hne h.symm) _ (hlanes k _ hk)

/-- **Every step keeps the invariant.** -/
theorem Inv.step (hbound : a.lanes ≤ 2 ^ 32) {s t : Mapping T R C E} (h : Inv f opens a s)
    (hstep : Step f opens a s () t) : Inv f opens a t := by
  obtain ⟨hlt, hphase⟩ := h
  cases hstep with
  | @opened ctxs c ids calls hlane hindex hopen =>
    obtain ⟨hpos, hle, hopened, hcalls, hctxs⟩ := hphase
    have hlen : (ctxs ++ [c]).length = ctxs.length + 1 := by
      rw [List.length_append, List.length_singleton]
    refine ⟨hlt, hpos, by omega, ?_, hcalls, fun l c' hc => ?_⟩
    · rw [hlen, Input.channels_succ, ← hopened]
    · rw [List.getElem?_append] at hc
      split at hc
      case isTrue => exact hctxs l c' hc
      case isFalse hge =>
        obtain ⟨hl, rfl⟩ := List.getElem?_eq_some_iff.mp hc
        have hl' : l = ctxs.length := by
          rw [List.length_singleton] at hl
          omega
        subst hl'
        simpa using hopen
  | failed hlane hindex hopen => exact ⟨hlt, hphase.2.2.2.1⟩
  | tooMany hlane hindex => omega
  | @spawned ctxs ids calls hlane =>
    obtain ⟨hpos, hle, hopened, hcalls, hctxs⟩ := hphase
    have hlen := Nat.le_antisymm hle hlane
    replace hcalls : calls = [] := hcalls
    subst hcalls
    refine ⟨hlt, hpos, ?_, hlen ▸ hopened, fun l lane hl => .spawn hctxs hl⟩
    rw [spawn, List.length_zipWith, length_scatter, hlen, Nat.min_self]
  | @call lanes l ctx x q rs ids calls hl =>
    have hlane : l < a.lanes := hphase.2.1 ▸ (List.getElem?_eq_some_iff.mp hl).1
    refine ⟨fun p hp => ?_, phaseInv_set hphase hl LaneInv.call fun k hk _ h =>
      h.of_ne (Ne.symm hk)⟩
    rcases List.mem_append.mp hp with hp | hp
    · exact hlt p hp
    · rw [List.mem_singleton.mp hp]
      exact hlane
  | result hl hf => exact ⟨hlt, phaseInv_set hphase hl (·.result hf) fun _ _ _ h => h⟩
  | joined hdone =>
    obtain ⟨hpos, hlen, hopened, hlanes⟩ := hphase
    refine ⟨hlt, ?_⟩
    have hfinish := phaseInv_finish (E := E) hpos hlen hlanes hdone
    rwa [← hopened] at hfinish

/-! ### What a call does -/

/-- The calls of the function for an item are the ones at its place: on lane `i % lanes`, as the
`i / lanes`-th one. -/
def AtPlace (a : Input T) (calls : List (ℕ × T)) : Prop :=
  ∀ l j x, (callsOf calls l)[j]? = some x → l < a.lanes ∧ a.items[l + j * a.lanes]? = some x

/-- What a call that returned results has done. -/
structure Returned (f : C → T → R → C → Prop) (opens : ContextId → Except E C → Prop) (a : Input T)
    (s : Mapping T R C E) (out : List R) : Prop where
  /-- As many channels as lanes were opened. -/
  opened : s.opened = a.channels a.lanes
  length : out.length = a.items.length
  /-- The function was called for every item, at its place. -/
  called : ∀ i < a.items.length, (callsOf s.calls (i % a.lanes))[i / a.lanes]? = a.items[i]?
  /-- Every lane was a sequential loop, and its results are where its items are. -/
  lanes : ∀ l < a.lanes, ∃ c rs c', opens (a.parentId.child l) (.ok c) ∧
    Sequential f c (callsOf s.calls l) rs c' ∧
    ∀ j, l + j * a.lanes < a.items.length → out[l + j * a.lanes]? = rs[j]?
  /-- A function of the item alone gives what it gives on a single channel. -/
  single : ∀ g : T → R, (∀ c x r c', f c x r c' → r = g x) →
    out = a.items.map g ∧ ∀ c rs c', Sequential f c a.items rs c' → out = rs

/-- What a call has done so far, and what it returns. -/
structure Mapped (f : C → T → R → C → Prop) (opens : ContextId → Except E C → Prop) (a : Input T)
    (s : Mapping T R C E) : Prop where
  no_panic : s.phase ≠ .panicked
  calls : AtPlace a s.calls
  failed : ∀ e, s.phase = .returned (.error e) → s.calls = []
  returned : ∀ out, s.phase = .returned (.ok out) → Returned f opens a s out
  /-- The call goes on until it returns, if the multiplexer and the function come back. -/
  progress : (∀ id, ∃ r, opens id r) → (∀ c x, ∃ r c', f c x r c') →
    (∃ r, s.phase = .returned r) ∨ ∃ t, Step f opens a s () t

theorem exists_mem_of_callsOf {calls : List (ℕ × T)} {l j : ℕ} {x : T}
    (h : (callsOf calls l)[j]? = some x) : ∃ p ∈ calls, p.1 = l := by
  obtain ⟨p, hp, -⟩ := List.mem_map.mp (List.mem_of_getElem? h)
  obtain ⟨hmem, hl⟩ := List.mem_filter.mp hp
  exact ⟨p, hmem, of_decide_eq_true hl⟩

/-- The calls of a lane are the first items of its queue. -/
theorem Inv.callsOf_prefix {s : Mapping T R C E} (h : Inv f opens a s) {l : ℕ} (hl : l < a.lanes) :
    callsOf s.calls l <+: a.queue l := by
  obtain ⟨phase, opened, calls⟩ := s
  cases phase with
  | opening ctxs =>
    have hcalls : calls = [] := h.phase.2.2.2.1
    subst hcalls
    exact List.nil_prefix
  | running lanes =>
    obtain ⟨-, hlen, -, hlanes⟩ := h.phase
    obtain ⟨c, d, -, -, hcalls, hq⟩ :=
      (hlanes l _ (List.getElem?_eq_getElem (by omega))).exists_done
    rw [hcalls, hq]
    exact List.prefix_append _ _
  | returned r =>
    cases r with
    | ok out =>
      obtain ⟨c, rs, c', -, hcalls, -⟩ := h.phase.2.2 l hl
      exact hcalls ▸ List.prefix_rfl
    | error e =>
      have hcalls : calls = [] := h.phase
      subst hcalls
      exact List.nil_prefix
  | panicked => exact absurd h.phase not_false

theorem Inv.atPlace {s : Mapping T R C E} (h : Inv f opens a s) : AtPlace a s.calls := by
  intro l j x hx
  obtain ⟨p, hp, rfl⟩ := exists_mem_of_callsOf hx
  have hl := h.calls_lt p hp
  refine ⟨hl, ?_⟩
  obtain ⟨rest, hrest⟩ := h.callsOf_prefix hl
  have hq : (a.queue p.1)[j]? = some x := by
    rw [← hrest, List.getElem?_append_left (List.getElem?_eq_some_iff.mp hx).1, hx]
  rwa [Input.queue, getElem?_scatter a.items hl] at hq

theorem Inv.progress {s : Mapping T R C E} (h : Inv f opens a s) (hopens : ∀ id, ∃ r, opens id r)
    (hf : ∀ c x, ∃ r c', f c x r c') : (∃ r, s.phase = .returned r) ∨ ∃ t,
    Step f opens a s () t := by
  obtain ⟨phase, opened, calls⟩ := s
  cases phase with
  | opening ctxs =>
    right
    by_cases hlane : ctxs.length < a.lanes
    · by_cases hindex : ctxs.length < 2 ^ 32
      · obtain ⟨r, hr⟩ := hopens (a.parentId.child ctxs.length)
        cases r with
        | ok c => exact ⟨_, .opened hlane hindex hr⟩
        | error e => exact ⟨_, .failed hlane hindex hr⟩
      · exact ⟨_, .tooMany hlane (Nat.le_of_not_lt hindex)⟩
    · exact ⟨_, .spawned (Nat.le_of_not_lt hlane)⟩
  | running lanes =>
    right
    by_cases hdone : ∀ lane ∈ lanes, lane.IsDone
    · exact ⟨_, .joined hdone⟩
    · push Not at hdone
      obtain ⟨⟨ctx, q, running, rs⟩, hmem, hnot⟩ := hdone
      obtain ⟨l, hl⟩ := List.mem_iff_getElem?.mp hmem
      cases running with
      | some x =>
        obtain ⟨r, c', hr⟩ := hf ctx x
        exact ⟨_, .result hl hr⟩
      | none =>
        cases q with
        | nil => exact absurd ⟨rfl, rfl⟩ hnot
        | cons x q => exact ⟨_, .call hl⟩
  | returned r => exact .inl ⟨r, rfl⟩
  | panicked => exact absurd h.phase not_false

theorem Inv.returned {s : Mapping T R C E} (hlimit : 0 < a.concurrencyLimit) (h : Inv f opens a s)
    {out : List R} (hs : s.phase = .returned (.ok out)) : Returned f opens a s out := by
  obtain ⟨phase, opened, calls⟩ := s
  subst hs
  obtain ⟨hopened, hlen, hresults⟩ := h.phase
  have hlane : ∀ i < a.items.length, 0 < a.lanes := fun i hi =>
    Nat.lt_min.mpr ⟨Nat.zero_lt_of_lt hi, hlimit⟩
  have hmap : ∀ g : T → R, (∀ c x r c', f c x r c' → r = g x) → out = a.items.map g := by
    intro g hg
    refine List.ext_getElem? fun i => ?_
    rcases Nat.lt_or_ge i a.items.length with hi | hi
    · have hpos := hlane i hi
      have hplace := Nat.mod_add_div' i a.lanes
      obtain ⟨c, rs, c', -, -, hseq, hout⟩ := hresults _ (Nat.mod_lt i hpos)
      have hi' := hout (i / a.lanes) (by rwa [hplace])
      rw [hplace] at hi'
      rw [hi', hseq.eq_map hg, List.getElem?_map, Input.getElem?_queue hpos, List.getElem?_map]
    · rw [List.getElem?_eq_none (by omega), List.getElem?_eq_none (by rw [List.length_map]; omega)]
  refine ⟨hopened, hlen, fun i hi => ?_, fun l hl => ?_, fun g hg =>
    ⟨hmap g hg, fun c rs c' hseq => ?_⟩⟩
  · have hpos := hlane i hi
    obtain ⟨c, rs, c', -, hcalls, -⟩ := hresults _ (Nat.mod_lt i hpos)
    rw [hcalls, Input.getElem?_queue hpos]
  · obtain ⟨c, rs, c', hc, hcalls, hseq, hout⟩ := hresults l hl
    exact ⟨c, rs, c', hc, hcalls ▸ hseq, hout⟩
  · rw [hmap g hg, hseq.eq_map hg]

theorem mapped (hlimit : 0 < a.concurrencyLimit) (hbound : a.lanes ≤ 2 ^ 32)
    (hfork : a.checked = true → a.ctx.forkCounter + 1 < 2 ^ 32) {n : List Unit}
    {s : Mapping T R C E} (h : Run (Step f opens a) a.start n s) : Mapped f opens a s := by
  have hinv : Inv f opens a s :=
    h.invariant (Inv.start hlimit hfork) fun _ _ _ hinv hstep => hinv.step hbound hstep
  refine ⟨fun hs => ?_, hinv.atPlace, fun e hs => ?_, fun out hs => hinv.returned hlimit hs,
    hinv.progress⟩
  · have hphase := hinv.phase
    rw [hs] at hphase
    exact hphase
  · have hphase := hinv.phase
    rw [hs] at hphase
    exact hphase

/-- **Concurrent map is sequential map.** Two parties with equally long lists, the same limit and
the same context call their functions for item `i` at the same place of the same channel. -/
theorem map_correct {T' R' C' E' : Type} {f' : C' → T' → R' → C' → Prop}
    {opens' : ContextId → Except E' C' → Prop} {b : Input T'} {n m : List Unit}
    {s : Mapping T R C E} {t : Mapping T' R' C' E'} (hlimit : 0 < a.concurrencyLimit)
    (hbound : a.lanes ≤ 2 ^ 32) (hfork : a.checked = true ∨ b.checked = true → a.ctx.forkCounter +
      1 < 2 ^ 32)
    (hlen : b.items.length = a.items.length) (hsame : b.concurrencyLimit = a.concurrencyLimit)
    (hctx : b.ctx = a.ctx) (h : Run (Step f opens a) a.start n s)
    (h' : Run (Step f' opens' b) b.start m t) :
    Mapped f opens a s ∧ Mapped f' opens' b t ∧
      ∀ out out', s.phase = .returned (.ok out) → t.phase = .returned (.ok out') →
        s.opened = t.opened ∧ ∀ i < a.items.length,
          (callsOf s.calls (i % a.lanes))[i / a.lanes]? = a.items[i]? ∧
            (callsOf t.calls (i % a.lanes))[i / a.lanes]? = b.items[i]? := by
  have hlanes : b.lanes = a.lanes := by rw [Input.lanes, Input.lanes, hlen, hsame]
  have hparent : b.parentId = a.parentId := by rw [Input.parentId, Input.parentId, hctx]
  have hs := mapped hlimit hbound (fun hc => hfork (.inl hc)) h
  have ht := mapped (hsame ▸ hlimit) (hlanes ▸ hbound)
    (fun hc => by rw [hctx]; exact hfork (.inr hc)) h'
  refine ⟨hs, ht, fun out out' hout hout' => ⟨?_, fun i hi => ⟨?_, ?_⟩⟩⟩
  · rw [(hs.returned out hout).opened, (ht.returned out' hout').opened, Input.channels,
      Input.channels, hlanes, hparent]
  · exact (hs.returned out hout).called i hi
  · rw [← hlanes]
    exact (ht.returned out' hout').called i (hlen ▸ hi)

/-- The channel of a lane counts the items. -/
def addsCount (c x r c' : ℕ) : Prop := r = x + c ∧ c' = c + 1

/-- The channel of a lane remembers the last item. -/
def xorsLast (c x r c' : Bool) : Prop := r = (x ^^ c) ∧ c' = x

/-- Three numbers on two lanes. -/
def numbers : Input ℕ := ⟨true, ⟨ContextId.default, 0⟩, [7, 8, 9], 2⟩

/-- Three bits on two lanes. -/
def bits : Input Bool := ⟨true, ⟨ContextId.default, 0⟩, [true, false, true], 2⟩

/-- What the call for the numbers returns, and what it has done. -/
def numbersEnd : Mapping ℕ ℕ ℕ Unit :=
  ⟨.returned (.ok [7, 8, 10]), numbers.channels 2, [(0, 7), (1, 8), (0, 9)]⟩

/-- What the call for the bits returns, and what it has done. -/
def bitsEnd : Mapping Bool Bool Bool Unit :=
  ⟨.returned (.ok [true, false, false]), bits.channels 2, [(1, false), (0, true), (0, true)]⟩

/-- The second lane works while the first one does. -/
theorem run_numbers : Run (Step addsCount (fun _ r => r = .ok 0) numbers) numbers.start
    (List.replicate 10 ()) numbersEnd := by
  have h₀ : Run (Step (E := Unit) addsCount (fun _ r => r = .ok 0) numbers) numbers.start _
      ⟨.opening [0, 0], numbers.channels 2, []⟩ :=
    (Run.nil.snoc (.opened (by decide) (by decide) rfl)).snoc (.opened (by decide) (by decide) rfl)
  have h₁ := h₀.snoc (.spawned (by decide) : Step _ _ _ _ _
    ⟨.running [⟨0, [7, 9], none, []⟩, ⟨0, [8], none, []⟩], numbers.channels 2, []⟩)
  have h₂ := ((h₁.snoc (.call (l := 0) rfl)).snoc (.call (l := 1) rfl)).snoc
    (.result (l := 1) rfl ⟨rfl, rfl⟩)
  have h₃ := ((h₂.snoc (.result (l := 0) rfl ⟨rfl, rfl⟩)).snoc (.call (l := 0) rfl)).snoc
    (.result (l := 0) rfl ⟨rfl, rfl⟩)
  exact h₃.snoc (.joined (by simp [Lane.IsDone]))

/-- The second lane is done before the first one begins. -/
theorem run_bits : Run (Step xorsLast (fun _ r => r = .ok false) bits) bits.start
    (List.replicate 10 ()) bitsEnd := by
  have h₀ : Run (Step (E := Unit) xorsLast (fun _ r => r = .ok false) bits) bits.start _
      ⟨.opening [false, false], bits.channels 2, []⟩ :=
    (Run.nil.snoc (.opened (by decide) (by decide) rfl)).snoc (.opened (by decide) (by decide) rfl)
  have h₁ := h₀.snoc (.spawned (by decide) : Step _ _ _ _ _
    ⟨.running [⟨false, [true, true], none, []⟩, ⟨false, [false], none, []⟩], bits.channels 2, []⟩)
  have h₂ := ((h₁.snoc (.call (l := 1) rfl)).snoc (.result (l := 1) rfl ⟨rfl, rfl⟩)).snoc
    (.call (l := 0) rfl)
  have h₃ := ((h₂.snoc (.result (l := 0) rfl ⟨rfl, rfl⟩)).snoc (.call (l := 0) rfl)).snoc
    (.result (l := 0) rfl ⟨rfl, rfl⟩)
  exact h₃.snoc (.joined (by simp [Lane.IsDone]))

/-- Two parties with three items on two lanes, which do different things in different orders. -/
theorem map_correct_three : Mapped addsCount (fun _ r => r = .ok 0) numbers numbersEnd ∧
    Mapped xorsLast (fun _ r => r = .ok false) bits bitsEnd ∧
      numbersEnd.opened = bitsEnd.opened ∧ ∀ i < 3,
        (callsOf numbersEnd.calls (i % 2))[i / 2]? = numbers.items[i]? ∧
          (callsOf bitsEnd.calls (i % 2))[i / 2]? = bits.items[i]? := by
  obtain ⟨hs, ht, hpaired⟩ := map_correct (a := numbers) (b := bits) (by decide) (by decide)
    (by decide) rfl rfl rfl run_numbers run_bits
  exact ⟨hs, ht, hpaired _ _ rfl rfl⟩

/-- More lanes than indices are a panic, if all channels are opened. -/
theorem exists_run_panicked (hbound : 2 ^ 32 < a.lanes) (hfork : a.ctx.forkCounter + 1 < 2 ^ 32)
    (hopens : ∀ id, ∃ c, opens id (.ok c)) :
    ∃ n s, Run (Step f opens a) (a.start : Mapping T R C E) n s ∧ s.phase = .panicked := by
  have hguard : ¬ (a.checked = true ∧ 2 ^ 32 ≤ a.ctx.forkCounter + 1) := fun h =>
    Nat.not_le.mpr hfork h.2
  have hne : a.items.length ≠ 0 := fun hzero => by
    rw [Input.lanes, hzero, Nat.zero_min] at hbound
    omega
  have hstart : (a.start : Mapping T R C E) = ⟨.opening [], [], []⟩ := by
    rw [Input.start, if_neg hguard, if_neg hne]
  have hrun : ∀ k ≤ 2 ^ 32, ∃ n ctxs ids, Run (Step f opens a) (a.start : Mapping T R C E) n
      ⟨.opening ctxs, ids, []⟩ ∧ ctxs.length = k := by
    intro k
    induction k with
    | zero => exact fun _ => ⟨[], [], [], hstart ▸ .nil, rfl⟩
    | succ k ih =>
      intro hk
      obtain ⟨n, ctxs, ids, hrun, hlen⟩ := ih (by omega)
      obtain ⟨c, hc⟩ := hopens (a.parentId.child ctxs.length)
      refine ⟨_, _, _, hrun.snoc (.opened (by omega) (by omega) hc), ?_⟩
      rw [List.length_append, List.length_singleton, hlen]
  obtain ⟨n, ctxs, ids, hrun, hlen⟩ := hrun (2 ^ 32) le_rfl
  exact ⟨_, _, hrun.snoc (.tooMany (by omega) (by omega)), rfl⟩

/-- A list of more than `2 ^ 32` items, for as many lanes. -/
def hugeInput : Input Unit := ⟨true, ⟨ContextId.default, 0⟩, List.replicate (2 ^ 32 + 1) (),
  2 ^ 32 + 1⟩

/-- More lanes than indices are not mapped over. -/
theorem map_panics : ∃ n s, Run (Step (fun _ _ _ _ => True) (fun _ r => r = .ok ()) hugeInput)
    (hugeInput.start : Mapping Unit Unit Unit Unit) n s ∧ s.phase = .panicked := by
  have hlanes : hugeInput.lanes = 2 ^ 32 + 1 := by
    rw [Input.lanes, hugeInput, List.length_replicate, Nat.min_self]
  refine exists_run_panicked ?_ ?_ fun _ => ⟨(), rfl⟩
  · rw [hlanes]
    exact Nat.lt_succ_self _
  · rw [hugeInput]
    decide

end ContextMap

end Mpz
