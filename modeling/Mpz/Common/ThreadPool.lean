import Mathlib.Algebra.BigOperators.Group.Finset.Piecewise
import Mathlib.Tactic.Common
import Mpz.Lib.Run

/-!
# The thread pool

A runnable that is scheduled is pushed to the injector, and one worker is woken for it. A worker
takes from its own queue, then from the injector, then from the queues of the others. If it finds
nothing it announces that it is about to park, looks once more, and parks.

All threads take turns, and a turn is one access to what they share. Here a runnable is named by the
call that schedules it. The last fields of the state remember what was run, and what was dropped.

## Main definitions

* `ThreadPool.World` — the workers, the calls of `schedule`, and the shutdown
* `ThreadPool.World.next` — a turn of one of them
* `ThreadPool.Careful` — no call is about to push when the shutdown has drained the injector
* `ThreadPool.Serves` — what is expected of the pool

## Main results

* `thread_pool_serves` — a pool of at least one worker is as expected in every state of a careful
  run
* `stranded_runnable` — a runnable that is pushed behind the shutdown
-/

namespace Mpz

namespace ThreadPool

/-- Where a worker is in `find_task`. -/
inductive Stage where
  /-- `local.pop()` -/
  | pop
  /-- `inner.injector.steal_batch_and_pop(local)` -/
  | injector
  /-- `inner.stealers[victim].steal_batch_and_pop(local)`, of the worker so many and one behind. -/
  | steal (i : ℕ)
  deriving DecidableEq, Repr

/-- Where a worker is in `worker_loop`. -/
inductive Pc where
  /-- The condition of the loop. -/
  | check
  /-- In `find_task`, the second time or not. -/
  | find (again : Bool) (stage : Stage)
  /-- A runnable was found the second time: `state.parked.store(false)`. -/
  | found (r : ℕ)
  /-- In `runnable.run()`. -/
  | running (r : ℕ)
  /-- Nothing was found: `state.parked.store(true)`. -/
  | announce
  /-- Nothing was found the second time: `if inner.shutdown.load()`. -/
  | recheck
  /-- The pool is shut down: `state.parked.store(false)`, and out of the loop. -/
  | stop
  /-- `parker.park()` -/
  | park
  /-- Behind it: `state.parked.store(false)`. -/
  | unparked
  /-- `drain_local` -/
  | drain
  /-- The thread is over. -/
  | exited
  deriving DecidableEq, Repr

/-- A worker. -/
structure Worker where
  /-- Where it is. -/
  pc : Pc
  /-- Its local queue. -/
  queue : List ℕ
  /-- `WorkerState::parked` -/
  parked : Bool
  /-- The token of its parker. -/
  token : Bool
  deriving DecidableEq, Repr

/-- Where a call of `schedule` is. -/
inductive Caller where
  /-- `if inner.shutdown.load()` -/
  | check
  /-- `inner.injector.push(runnable)` -/
  | push
  /-- `w.parked.load()`, of the worker with this number. -/
  | scan (k : ℕ)
  /-- `w.parked.compare_exchange(true, false)` -/
  | claim (k : ℕ)
  /-- `w.unparker.unpark()` -/
  | unpark (k : ℕ)
  /-- It has returned, or was not yet made. -/
  | idle
  deriving DecidableEq, Repr

/-- Where `Inner::shutdown` is. -/
inductive Shutdown where
  /-- It was not called. -/
  | idle
  /-- `self.shutdown` is set, and the injector is drained. -/
  | draining
  /-- `w.unparker.unpark()`, of the worker with this number. -/
  | unparking (k : ℕ)
  /-- It has returned. -/
  | ended
  deriving DecidableEq, Repr

/-- The pool. -/
structure World where
  /-- The injector. -/
  injector : List ℕ
  /-- The workers. -/
  workers : ℕ → Worker
  /-- The calls of `schedule`. -/
  callers : ℕ → Caller
  /-- The shutdown. -/
  shutdown : Shutdown
  /-- How many calls of `schedule` were made. -/
  issued : ℕ
  /-- The runnables that were run, and by which worker. -/
  ran : List (ℕ × ℕ)
  /-- The runnables that were dropped. -/
  dropped : List ℕ

/-- Whose turn it is. -/
inductive Act where
  /-- A call of `schedule` is made, from outside or by what a worker runs. -/
  | schedule
  /-- A call of `schedule` goes on. -/
  | caller (i : ℕ)
  /-- A worker goes on. If it steals a batch, it is one of at most so many besides the first. -/
  | worker (j batch : ℕ)
  /-- The shutdown is called, or goes on. -/
  | shutdown
  deriving DecidableEq, Repr

namespace World

/-- A new pool. -/
def new : World where
  injector := []
  workers := fun _ => ⟨.check, [], false, false⟩
  callers := fun _ => .idle
  shutdown := .idle
  issued := 0
  ran := []
  dropped := []

/-- `inner.shutdown.load()` -/
def isShutdown (w : World) : Bool := w.shutdown != .idle

/-- A worker is changed. -/
def setWorker (w : World) (j : ℕ) (x : Worker) : World :=
  { w with workers := Function.update w.workers j x }

/-- A call is changed. -/
def setCaller (w : World) (i : ℕ) (c : Caller) : World :=
  { w with callers := Function.update w.callers i c }

/-- A worker has found a runnable. The first time it runs it at once. -/
def take (w : World) (j : ℕ) (again : Bool) (r : ℕ) (queue : List ℕ) : World :=
  if again then w.setWorker j { w.workers j with pc := .found r, queue := queue }
  else { w.setWorker j { w.workers j with pc := .running r, queue := queue } with
    ran := w.ran ++ [(j, r)] }

/-- A turn in `find_task`, of `n` workers. -/
def find (n : ℕ) (w : World) (j : ℕ) (again : Bool) (batch : ℕ) : Stage → World
  | .pop =>
    match (w.workers j).queue with
    | r :: queue => w.take j again r queue
    | [] => w.setWorker j { w.workers j with pc := .find again .injector }
  | .injector =>
    match w.injector with
    | r :: rest =>
      { w with injector := rest.drop batch }.take j again r ((w.workers j).queue ++ rest.take batch)
    | [] => w.setWorker j { w.workers j with pc := .find again (.steal 0) }
  | .steal i =>
    if i + 1 < n then
      let victim := (j + (i + 1)) % n
      match (w.workers victim).queue with
      | r :: rest =>
        (w.setWorker victim { w.workers victim with queue := rest.drop batch }).take j again r
          ((w.workers j).queue ++ rest.take batch)
      | [] => w.setWorker j { w.workers j with pc := .find again (.steal (i + 1)) }
    else w.setWorker j { w.workers j with pc := if again then .recheck else .announce }

/-- A turn of a worker. -/
def stepWorker (n : ℕ) (w : World) (j batch : ℕ) : Option World :=
  let self := w.workers j
  match self.pc with
  | .check => some (w.setWorker j { self with
      pc := if w.isShutdown then .drain else .find false .pop })
  | .find again stage => some (w.find n j again batch stage)
  | .found r => some { w.setWorker j { self with pc := .running r, parked := false } with
      ran := w.ran ++ [(j, r)] }
  | .running _ => some (w.setWorker j { self with pc := .check })
  | .announce => some (w.setWorker j { self with pc := .find true .pop, parked := true })
  | .recheck => some (w.setWorker j { self with pc := if w.isShutdown then .stop else .park })
  | .stop => some (w.setWorker j { self with pc := .drain, parked := false })
  | .park =>
    if self.token then some (w.setWorker j { self with pc := .unparked, token := false }) else none
  | .unparked => some (w.setWorker j { self with pc := .check, parked := false })
  | .drain =>
    match self.queue with
    | r :: queue => some { w.setWorker j { self with queue := queue } with
        dropped := w.dropped ++ [r] }
    | [] => some (w.setWorker j { self with pc := .exited })
  | .exited => none

/-- A turn of a call of `schedule`. -/
def stepCaller (n : ℕ) (w : World) (i : ℕ) : Option World :=
  match w.callers i with
  | .check =>
    if w.isShutdown then some { w.setCaller i .idle with dropped := w.dropped ++ [i] }
    else some (w.setCaller i .push)
  | .push => some { w.setCaller i (.scan 0) with injector := w.injector ++ [i] }
  | .scan k =>
    if k < n then
      some (w.setCaller i (if (w.workers k).parked then .claim k else .scan (k + 1)))
    else some (w.setCaller i .idle)
  | .claim k =>
    if (w.workers k).parked then
      some ((w.setWorker k { w.workers k with parked := false }).setCaller i (.unpark k))
    else some (w.setCaller i (.scan (k + 1)))
  | .unpark k => some ((w.setWorker k { w.workers k with token := true }).setCaller i .idle)
  | .idle => none

/-- A turn of the shutdown. -/
def stepShutdown (n : ℕ) (w : World) : Option World :=
  match w.shutdown with
  | .idle => some { w with shutdown := .draining }
  | .draining =>
    match w.injector with
    | r :: rest => some { w with injector := rest, dropped := w.dropped ++ [r] }
    | [] => some { w with shutdown := .unparking 0 }
  | .unparking k =>
    if k < n then
      some { w.setWorker k { w.workers k with token := true } with shutdown := .unparking (k + 1) }
    else some { w with shutdown := .ended }
  | .ended => none

/-- A turn in a pool of `n` workers. -/
def next (n : ℕ) (w : World) : Act → Option World
  | .schedule => some { w.setCaller w.issued .check with issued := w.issued + 1 }
  | .caller i => w.stepCaller n i
  | .worker j batch => if j < n then w.stepWorker n j batch else none
  | .shutdown => w.stepShutdown n

end World

/-- A turn. -/
def Step (n : ℕ) (w : World) (a : Act) (w' : World) : Prop := w.next n a = some w'

/-- When the shutdown finds the injector empty, no call of `schedule` is between its look at the
shutdown and its push. -/
def Careful (w : World) (a : Act) : Prop :=
  a = .shutdown → w.shutdown = .draining → w.injector = [] → ∀ i < w.issued, w.callers i ≠ .push

instance (w : World) (a : Act) : Decidable (Careful w a) :=
  inferInstanceAs (Decidable (a = .shutdown → w.shutdown = .draining → w.injector = [] →
    ∀ i < w.issued, w.callers i ≠ .push))

/-- A turn that meets the condition. -/
def CarefulStep (n : ℕ) (w : World) (a : Act) (w' : World) : Prop := Careful w a ∧ Step n w a w'

/-! ### What is expected -/

/-- An unpark of a worker is pending: its token is set, or a call has claimed the worker, or is on
its way to it and will claim it. -/
def World.Woken (w : World) (j : ℕ) : Prop :=
  (w.workers j).token = true ∨ ∃ i, w.callers i = .unpark j ∨
    (w.workers j).parked = true ∧ ∃ k ≤ j, w.callers i = .scan k ∨ w.callers i = .claim k

/-- A runnable that a worker has taken and not yet begun to run. -/
def Pc.hand : Pc → List ℕ
  | .found r => [r]
  | _ => []

/-- What a worker has. -/
def Worker.held (x : Worker) : List ℕ := x.queue ++ x.pc.hand

/-- A call has its runnable. -/
def Caller.holds (c : Caller) : Bool := c == .check || c == .push

/-- In how many places a runnable is. -/
def World.places (n : ℕ) (w : World) (r : ℕ) : ℕ :=
  (w.callers r).holds.toNat + w.injector.count r +
    (∑ j ∈ Finset.range n, (w.workers j).held.count r) + (w.ran.map Prod.snd).count r +
      w.dropped.count r

/-- What is expected of a pool of `n` workers. -/
structure Serves (n : ℕ) (w : World) : Prop where
  /-- No runnable waits while all workers sleep. -/
  awake : w.shutdown = .idle → (w.injector ≠ [] ∨ ∃ j < n, (w.workers j).queue ≠ []) →
    ¬ ∀ j < n, (w.workers j).pc = .park ∧ ¬ w.Woken j
  /-- None is lost, and none is in two places. -/
  once : ∀ r < w.issued, w.places n r = 1
  /-- None is run twice. -/
  nodup : (w.ran.map Prod.snd).Nodup
  /-- None is dropped while the pool is not shut down. -/
  kept : w.shutdown = .idle → w.dropped = []
  /-- None is left behind. -/
  empty : w.shutdown = .ended → (∀ j < n, (w.workers j).pc = .exited) → (∀ i, w.callers i = .idle) →
    w.injector = [] ∧ ∀ j < n, (w.workers j).queue = []

/-! ### A turn of a worker -/

/-- The worker has found its own queue empty, and has put nothing there since. -/
def Pc.bare : Pc → Prop
  | .find _ .injector | .find _ (.steal _) | .announce | .recheck | .stop | .park | .unparked
  | .exited => True
  | _ => False

/-- The worker has announced that it is about to park, and has not taken that back. -/
def Pc.announced : Pc → Prop
  | .find true _ | .recheck | .park => True
  | _ => False

/-- The worker has then found the injector empty. -/
def Pc.past : Pc → Prop
  | .find true (.steal _) | .recheck | .park => True
  | _ => False

/-- The worker has seen the shutdown. -/
def Pc.stopped : Pc → Prop
  | .stop | .drain | .exited => True
  | _ => False

theorem Pc.past.announced {pc : Pc} (h : pc.past) : pc.announced := by
  cases pc with
  | find again stage =>
    cases again with
    | false => cases h
    | true => trivial
  | recheck => trivial
  | park => trivial
  | _ => cases h

variable {n : ℕ} {w w' : World} {j : ℕ}

theorem setWorker_self (x : Worker) : (w.setWorker j x).workers j = x := by
  show Function.update w.workers j x j = x
  rw [Function.update_self]

theorem setWorker_ne {k : ℕ} (hk : k ≠ j) (x : Worker) :
    (w.setWorker j x).workers k = w.workers k := by
  show Function.update w.workers j x k = w.workers k
  rw [Function.update_of_ne hk]

theorem sum_update {f : ℕ → Worker} (hj : j < n) (x : Worker) (g : Worker → ℕ) :
    ∑ i ∈ Finset.range n, g (Function.update f j x i) + g (f j) =
      ∑ i ∈ Finset.range n, g (f i) + g x := by
  have hmem : j ∈ Finset.range n := Finset.mem_range.mpr hj
  have hcomp : ∀ i, g (Function.update f j x i) = Function.update (g ∘ f) j (g x) i :=
    fun i => congrFun (Function.comp_update g f j x) i
  rw [Finset.sum_congr rfl fun i _ => hcomp i, Finset.sum_update_of_mem hmem,
    Finset.sdiff_singleton_eq_erase, ← Finset.add_sum_erase _ (fun i => g (f i)) hmem]
  simp only [Function.comp_apply]
  omega

/-- A worker changes, and so may what it shares. -/
theorem places_update (hj : j < n) (x : Worker) (injector : List ℕ) (ran : List (ℕ × ℕ))
    (dropped : List ℕ) (r : ℕ) :
    ({ w with
      injector := injector
      workers := Function.update w.workers j x
      ran := ran
      dropped := dropped } : World).places n r + ((w.workers j).held.count r + w.injector.count r +
        (w.ran.map Prod.snd).count r + w.dropped.count r) =
      w.places n r + (x.held.count r + injector.count r + (ran.map Prod.snd).count r +
        dropped.count r) := by
  have hsum := sum_update (f := w.workers) hj x fun x => x.held.count r
  simp only [World.places]
  omega

/-- What a turn of a worker changes. -/
structure Turn (n : ℕ) (w : World) (j : ℕ) (w' : World) : Prop where
  callers : w'.callers = w.callers
  shutdown : w'.shutdown = w.shutdown
  issued : w'.issued = w.issued
  others : ∀ k ≠ j, (w'.workers k).pc = (w.workers k).pc ∧
    (w'.workers k).parked = (w.workers k).parked ∧ (w'.workers k).token = (w.workers k).token ∧
      ((w.workers k).queue = [] → (w'.workers k).queue = [])
  injector : w.injector = [] → w'.injector = []
  bare : (w'.workers j).pc.bare → (w'.workers j).queue = []
  announced : (w'.workers j).pc.announced → (w'.workers j).parked = true ∨
    (w.workers j).pc.announced ∧ (w'.workers j).parked = (w.workers j).parked ∧
      (w'.workers j).token = (w.workers j).token
  past : (w'.workers j).pc.past → w.injector = [] ∨
    (w.workers j).pc.past ∧ (w'.workers j).token = (w.workers j).token
  stopped : (w'.workers j).pc.stopped → w.isShutdown = true ∨ (w.workers j).pc.stopped
  dropped : ¬ (w.workers j).pc.stopped → w'.dropped = w.dropped
  places : ∀ r, w'.places n r = w.places n r

/-- A turn that changes one worker. -/
theorem Turn.solo (hj : j < n) (x : Worker) (injector : List ℕ) (ran : List (ℕ × ℕ))
    (dropped : List ℕ) (hinjector : w.injector = [] → injector = [])
    (hbare : x.pc.bare → x.queue = [])
    (hannounced : x.pc.announced → x.parked = true ∨ (w.workers j).pc.announced ∧
      x.parked = (w.workers j).parked ∧ x.token = (w.workers j).token)
    (hpast : x.pc.past → w.injector = [] ∨ (w.workers j).pc.past ∧ x.token = (w.workers j).token)
    (hstopped : x.pc.stopped → w.isShutdown = true ∨ (w.workers j).pc.stopped)
    (hdropped : ¬ (w.workers j).pc.stopped → dropped = w.dropped)
    (hcount : ∀ r, x.held.count r + injector.count r + (ran.map Prod.snd).count r +
      dropped.count r =
      (w.workers j).held.count r + w.injector.count r + (w.ran.map Prod.snd).count r +
        w.dropped.count r) :
    Turn n w j { w with
      injector := injector
      workers := Function.update w.workers j x
      ran := ran
      dropped := dropped } where
  callers := rfl
  shutdown := rfl
  issued := rfl
  others k hk := by
    show (Function.update w.workers j x k).pc = _ ∧ (Function.update w.workers j x k).parked = _ ∧
      (Function.update w.workers j x k).token = _ ∧
        (_ → (Function.update w.workers j x k).queue = [])
    rw [Function.update_of_ne hk]
    exact ⟨rfl, rfl, rfl, id⟩
  injector := hinjector
  bare := by
    show (Function.update w.workers j x j).pc.bare → (Function.update w.workers j x j).queue = []
    rwa [Function.update_self]
  announced := by
    show (Function.update w.workers j x j).pc.announced →
      (Function.update w.workers j x j).parked = true ∨ _ ∧
        (Function.update w.workers j x j).parked = _ ∧ (Function.update w.workers j x j).token = _
    rwa [Function.update_self]
  past := by
    show (Function.update w.workers j x j).pc.past → _ ∨ _ ∧
      (Function.update w.workers j x j).token = _
    rwa [Function.update_self]
  stopped := by
    show (Function.update w.workers j x j).pc.stopped → _
    rwa [Function.update_self]
  dropped := hdropped
  places r := by
    have hplaces := places_update (w := w) hj x injector ran dropped r
    have hc := hcount r
    omega

/-- A turn that moves no runnable. -/
theorem Turn.move (hj : j < n) (x : Worker) (hheld : x.held = (w.workers j).held)
    (hbare : x.pc.bare → x.queue = [])
    (hannounced : x.pc.announced → x.parked = true ∨ (w.workers j).pc.announced ∧
      x.parked = (w.workers j).parked ∧ x.token = (w.workers j).token)
    (hpast : x.pc.past → w.injector = [] ∨ (w.workers j).pc.past ∧ x.token = (w.workers j).token)
    (hstopped : x.pc.stopped → w.isShutdown = true ∨ (w.workers j).pc.stopped) :
    Turn n w j (w.setWorker j x) :=
  Turn.solo hj x w.injector w.ran w.dropped id hbare hannounced hpast hstopped (fun _ => rfl)
    fun r => by rw [hheld]

theorem Worker.held_of_find {x : Worker} {again : Bool} {stage : Stage}
    (h : x.pc = .find again stage) : x.held = x.queue := by
  rw [Worker.held, h]
  exact List.append_nil _

/-- The queue of a worker changes. -/
theorem places_setQueue (hj : j < n) (queue : List ℕ) (r : ℕ) :
    (w.setWorker j { w.workers j with queue := queue }).places n r + (w.workers j).queue.count r =
      w.places n r + queue.count r := by
  have hplaces : (w.setWorker j { w.workers j with queue := queue }).places n r +
      (((w.workers j).queue ++ (w.workers j).pc.hand).count r + w.injector.count r +
        (w.ran.map Prod.snd).count r + w.dropped.count r) = w.places n r +
      ((queue ++ (w.workers j).pc.hand).count r + w.injector.count r +
        (w.ran.map Prod.snd).count r + w.dropped.count r) :=
    places_update hj { w.workers j with queue := queue } w.injector w.ran w.dropped r
  rw [List.count_append, List.count_append] at hplaces
  omega

/-- A worker has found a runnable. -/
theorem places_take (hj : j < n) {again : Bool} {stage : Stage}
    (hpc : (w.workers j).pc = .find again stage) (r : ℕ) (queue : List ℕ) (s : ℕ) :
    (w.take j again r queue).places n s + (w.workers j).queue.count s =
      w.places n s + (r :: queue).count s := by
  have hheld := congrArg (List.count s) (Worker.held_of_find hpc)
  rw [List.count_cons]
  cases again with
  | true =>
    have hplaces : (w.take j true r queue).places n s +
        ((w.workers j).held.count s + w.injector.count s + (w.ran.map Prod.snd).count s +
          w.dropped.count s) = w.places n s +
        ((queue ++ [r]).count s + w.injector.count s + (w.ran.map Prod.snd).count s +
          w.dropped.count s) :=
      places_update hj { w.workers j with pc := .found r, queue := queue } w.injector w.ran
        w.dropped s
    rw [List.count_append, List.count_singleton] at hplaces
    omega
  | false =>
    have hplaces : (w.take j false r queue).places n s +
        ((w.workers j).held.count s + w.injector.count s + (w.ran.map Prod.snd).count s +
          w.dropped.count s) = w.places n s +
        ((queue ++ []).count s + w.injector.count s + ((w.ran ++ [(j, r)]).map Prod.snd).count s +
          w.dropped.count s) :=
      places_update hj { w.workers j with pc := .running r, queue := queue } w.injector
        (w.ran ++ [(j, r)]) w.dropped s
    rw [List.append_nil, List.map_append, List.count_append, List.map_singleton,
      List.count_singleton] at hplaces
    dsimp only at hplaces
    omega

/-- A worker finds a runnable, after what it came from was changed. -/
theorem Turn.take {v : World} (hj : j < n) {again : Bool} {stage : Stage} (r : ℕ) (queue : List ℕ)
    (hpc : (w.workers j).pc = .find again stage) (hself : v.workers j = w.workers j)
    (hcallers : v.callers = w.callers) (hshutdown : v.shutdown = w.shutdown)
    (hissued : v.issued = w.issued) (hdropped : v.dropped = w.dropped)
    (hothers : ∀ k ≠ j, (v.workers k).pc = (w.workers k).pc ∧
      (v.workers k).parked = (w.workers k).parked ∧ (v.workers k).token = (w.workers k).token ∧
        ((w.workers k).queue = [] → (v.workers k).queue = []))
    (hinjector : w.injector = [] → v.injector = [])
    (hplaces : ∀ s, v.places n s + (r :: queue).count s =
      w.places n s + (w.workers j).queue.count s) :
    Turn n w j (v.take j again r queue) := by
  have hcount : ∀ s, (v.take j again r queue).places n s = w.places n s := by
    intro s
    have htake := places_take (n := n) hj (hself ▸ hpc) r queue s
    have hp := hplaces s
    rw [hself] at htake
    omega
  have hpc' : ((v.take j again r queue).workers j).pc = if again then .found r else .running r := by
    cases again with
    | true => exact congrArg Worker.pc (setWorker_self (w := v) _)
    | false => exact congrArg Worker.pc (setWorker_self (w := v) _)
  have hothers' : ∀ k ≠ j, (v.take j again r queue).workers k = v.workers k := by
    intro k hk
    cases again with
    | true => exact setWorker_ne (w := v) hk _
    | false => exact setWorker_ne (w := v) hk _
  refine ⟨?_, ?_, ?_, fun k hk => ?_, ?_, ?_, ?_, ?_, ?_, fun _ => ?_, hcount⟩
  · cases again <;> exact hcallers
  · cases again <;> exact hshutdown
  · cases again <;> exact hissued
  · rw [hothers' k hk]
    exact hothers k hk
  · cases again <;> exact hinjector
  · rw [hpc']
    cases again <;> exact nofun
  · rw [hpc']
    cases again <;> exact nofun
  · rw [hpc']
    cases again <;> exact nofun
  · rw [hpc']
    cases again <;> exact nofun
  · cases again <;> exact hdropped

theorem victim_ne {i : ℕ} (hj : j < n) (hpos : 0 < i) (hi : i < n) : (j + i) % n ≠ j := by
  intro h
  rcases Nat.lt_or_ge (j + i) n with hlt | hge
  · rw [Nat.mod_eq_of_lt hlt] at h
    omega
  · rw [Nat.mod_eq_sub_mod hge, Nat.mod_eq_of_lt (by omega)] at h
    omega

/-- A turn in `find_task`. -/
theorem turn_find (hj : j < n) {again : Bool} {stage : Stage} (batch : ℕ)
    (hpc : (w.workers j).pc = .find again stage)
    (hbare : (w.workers j).pc.bare → (w.workers j).queue = []) :
    Turn n w j (w.find n j again batch stage) := by
  have hheld := Worker.held_of_find hpc
  cases stage with
  | pop =>
    rw [World.find]
    cases hq : (w.workers j).queue with
    | cons r queue =>
      refine Turn.take (v := w) hj r queue hpc rfl rfl rfl rfl rfl
        (fun _ _ => ⟨rfl, rfl, rfl, id⟩) id fun s => ?_
      rw [hq]
    | nil =>
      refine Turn.move hj _ ?_ (fun _ => hq) (fun h => .inr ?_)
        (by cases again <;> exact nofun) nofun
      · rw [hheld]
        exact Worker.held_of_find rfl
      · rw [hpc]
        cases again with
        | true => exact ⟨trivial, rfl, rfl⟩
        | false => cases h
  | injector =>
    have hnil : (w.workers j).queue = [] := hbare (by rw [hpc]; trivial)
    rw [World.find]
    cases hq : w.injector with
    | cons r rest =>
      refine Turn.take (v := { w with injector := rest.drop batch }) hj r _ hpc rfl rfl rfl rfl rfl
        (fun _ _ => ⟨rfl, rfl, rfl, id⟩) (fun h => ?_) fun s => ?_
      · rw [hq] at h
        cases h
      · have hcount := congrArg (List.count s) (List.take_append_drop batch rest)
        rw [List.count_append] at hcount
        simp only [World.places, hq, List.count_cons, List.count_append]
        omega
    | nil =>
      refine Turn.move hj _ ?_ (fun _ => hnil) (fun h => .inr ?_) (fun _ => .inl hq) nofun
      · rw [hheld]
        exact Worker.held_of_find rfl
      · rw [hpc]
        cases again with
        | true => exact ⟨trivial, rfl, rfl⟩
        | false => cases h
  | steal i =>
    have hnil : (w.workers j).queue = [] := hbare (by rw [hpc]; trivial)
    rw [World.find]
    split
    next hlt =>
      have hne := victim_ne hj (Nat.succ_pos i) hlt
      have hvictim : (j + (i + 1)) % n < n := Nat.mod_lt _ (Nat.zero_lt_of_lt hj)
      dsimp only
      cases hq : (w.workers ((j + (i + 1)) % n)).queue with
      | cons r rest =>
        refine Turn.take (v := w.setWorker ((j + (i + 1)) % n)
          { w.workers ((j + (i + 1)) % n) with queue := rest.drop batch }) hj r _ hpc
          (setWorker_ne hne.symm _) rfl rfl rfl rfl (fun k _ => ?_) id fun s => ?_
        · by_cases hk : k = (j + (i + 1)) % n
          · rw [hk, setWorker_self, hq]
            exact ⟨rfl, rfl, rfl, nofun⟩
          · rw [setWorker_ne hk]
            exact ⟨rfl, rfl, rfl, id⟩
        · have hplaces := places_setQueue (w := w) hvictim (rest.drop batch) s
          have hcount := congrArg (List.count s) (List.take_append_drop batch rest)
          rw [List.count_append] at hcount
          rw [hq, List.count_cons] at hplaces
          rw [List.count_cons, List.count_append]
          omega
      | nil =>
        refine Turn.move hj _ ?_ (fun _ => hnil) (fun h => .inr ?_) (fun h => .inr ?_) nofun
        · rw [hheld]
          exact Worker.held_of_find rfl
        · rw [hpc]
          cases again with
          | true => exact ⟨trivial, rfl, rfl⟩
          | false => cases h
        · rw [hpc]
          cases again with
          | true => exact ⟨trivial, rfl⟩
          | false => cases h
    next =>
      refine Turn.move hj _ ?_ (fun _ => hnil) (fun h => .inr ?_) (fun h => .inr ?_) (fun h => ?_)
      · rw [hheld, Worker.held]
        cases again <;> exact List.append_nil _
      · rw [hpc]
        cases again with
        | true => exact ⟨trivial, rfl, rfl⟩
        | false => cases h
      · rw [hpc]
        cases again with
        | true => exact ⟨trivial, rfl⟩
        | false => cases h
      · cases again <;> cases h

/-- **A turn of a worker**, whose own queue is empty where it found it so. -/
theorem turn_worker (hj : j < n) {batch : ℕ}
    (hbare : (w.workers j).pc.bare → (w.workers j).queue = [])
    (hstep : w.stepWorker n j batch = some w') : Turn n w j w' := by
  rw [World.stepWorker] at hstep
  have hheld : (w.workers j).held = (w.workers j).queue ++ (w.workers j).pc.hand := rfl
  cases hpc : (w.workers j).pc with
  | check =>
    simp only [hpc, Option.some.injEq] at hstep
    subst hstep
    by_cases hshutdown : w.isShutdown = true
    · rw [if_pos hshutdown]
      refine Turn.move hj _ ?_ nofun nofun nofun fun _ => .inl hshutdown
      rw [hheld, hpc]
      rfl
    · rw [if_neg hshutdown]
      refine Turn.move hj _ ?_ nofun nofun nofun nofun
      rw [hheld, hpc]
      rfl
  | find again stage =>
    simp only [hpc, Option.some.injEq] at hstep
    subst hstep
    exact turn_find hj batch hpc hbare
  | found r =>
    simp only [hpc, Option.some.injEq] at hstep
    subst hstep
    refine Turn.solo hj { w.workers j with pc := .running r, parked := false } w.injector
      (w.ran ++ [(j, r)]) w.dropped id nofun nofun nofun nofun (fun _ => rfl) fun s => ?_
    rw [hheld, hpc, Worker.held, Pc.hand, Pc.hand, List.append_nil, List.map_append,
      List.count_append, List.count_append, List.map_singleton]
    · dsimp only
      omega
    · exact nofun
  | running r =>
    simp only [hpc, Option.some.injEq] at hstep
    subst hstep
    refine Turn.move hj _ ?_ nofun nofun nofun nofun
    rw [hheld, hpc]
    rfl
  | announce =>
    simp only [hpc, Option.some.injEq] at hstep
    subst hstep
    refine Turn.move hj _ ?_ nofun (fun _ => .inl rfl) nofun nofun
    rw [hheld, hpc]
    rfl
  | recheck =>
    simp only [hpc, Option.some.injEq] at hstep
    subst hstep
    have hnil : (w.workers j).queue = [] := hbare (by rw [hpc]; trivial)
    refine Turn.move hj _ ?_ (fun _ => hnil) (fun _ => .inr ⟨?_, rfl, rfl⟩)
      (fun _ => .inr ⟨?_, rfl⟩) ?_
    · rw [hheld, hpc, Worker.held]
      split <;> rfl
    · rw [hpc]
      trivial
    · rw [hpc]
      trivial
    · dsimp only
      split
      next hshutdown => exact fun _ => .inl hshutdown
      next => exact nofun
  | stop =>
    simp only [hpc, Option.some.injEq] at hstep
    subst hstep
    refine Turn.move hj _ ?_ nofun nofun nofun fun _ => .inr ?_
    · rw [hheld, hpc]
      rfl
    · rw [hpc]
      trivial
  | park =>
    simp only [hpc] at hstep
    have hnil : (w.workers j).queue = [] := hbare (by rw [hpc]; trivial)
    split at hstep
    next =>
      obtain rfl := Option.some.inj hstep
      refine Turn.move hj _ ?_ (fun _ => hnil) nofun nofun nofun
      rw [hheld, hpc]
      rfl
    next => cases hstep
  | unparked =>
    simp only [hpc, Option.some.injEq] at hstep
    subst hstep
    refine Turn.move hj _ ?_ nofun nofun nofun nofun
    rw [hheld, hpc]
    rfl
  | drain =>
    have hstopped : (w.workers j).pc.stopped := by
      rw [hpc]
      trivial
    simp only [hpc] at hstep
    split at hstep
    next r queue hq =>
      obtain rfl := Option.some.inj hstep
      refine Turn.solo hj { w.workers j with pc := .drain, queue := queue } w.injector w.ran
        (w.dropped ++ [r]) id nofun nofun nofun (fun _ => .inr hstopped)
        (fun h => absurd hstopped h) fun s => ?_
      have hnew : ({ w.workers j with pc := .drain, queue := queue } : Worker).held = queue :=
        List.append_nil queue
      rw [hnew, hheld, hpc, hq, Pc.hand, List.append_nil, List.count_append,
        List.count_singleton, List.count_cons]
      · omega
      · exact nofun
    next hq =>
      obtain rfl := Option.some.inj hstep
      refine Turn.move hj _ ?_ (fun _ => hq) nofun nofun fun _ => .inr hstopped
      rw [hheld, hpc]
      rfl
  | exited =>
    simp only [hpc] at hstep
    cases hstep

/-! ### The invariant -/

/-- The token of a worker is set, or will be. -/
def World.Claimed (w : World) (j : ℕ) : Prop :=
  (w.workers j).token = true ∨ ∃ i, w.callers i = .unpark j

/-- A worker will look at the injector before it sleeps. -/
def World.Attentive (w : World) (j : ℕ) : Prop := ¬ (w.workers j).pc.past ∨ w.Claimed j

/-- A call is at the first worker. -/
def World.Scanning (w : World) : Prop := ∃ i, w.callers i = .scan 0 ∨ w.callers i = .claim 0

/-- What holds at any time. -/
structure Inv (n : ℕ) (w : World) : Prop where
  bare : ∀ j < n, (w.workers j).pc.bare → (w.workers j).queue = []
  alive : w.shutdown = .idle → ∀ j < n, ¬ (w.workers j).pc.stopped
  announced : ∀ j < n, (w.workers j).pc.announced → (w.workers j).parked = true ∨ w.Claimed j
  awake : w.shutdown = .idle → w.injector ≠ [] → (∃ j < n, w.Attentive j) ∨ w.Scanning
  drained : (w.shutdown = .idle ∨ w.shutdown = .draining) ∨
    w.injector = [] ∧ ∀ i, w.callers i ≠ .push
  idle : ∀ i, w.issued ≤ i → w.callers i = .idle
  kept : w.shutdown = .idle → w.dropped = []
  places : ∀ r, w.places n r = if r < w.issued then 1 else 0

theorem Inv.new : Inv n World.new where
  bare _ _ h := by cases h
  alive _ _ _ := nofun
  announced _ _ h := by cases h
  awake _ h := absurd rfl h
  drained := .inl (.inl rfl)
  idle _ _ := rfl
  kept _ := rfl
  places r := by
    show 0 + 0 + (∑ j ∈ Finset.range n, 0) + 0 + 0 = 0
    rw [Finset.sum_const_zero]
    rfl

theorem Inv.turn (h : Inv n w) (hj : j < n) (t : Turn n w j w') : Inv n w' where
  bare k hk hbare := by
    by_cases hkj : k = j
    · subst hkj
      exact t.bare hbare
    · obtain ⟨hpc, -, -, hqueue⟩ := t.others k hkj
      exact hqueue (h.bare k hk (hpc ▸ hbare))
  alive hidle k hk hstopped := by
    rw [t.shutdown] at hidle
    by_cases hkj : k = j
    · subst hkj
      rcases t.stopped hstopped with hshut | hold
      · rw [World.isShutdown, hidle] at hshut
        cases hshut
      · exact h.alive hidle k hk hold
    · exact h.alive hidle k hk ((t.others k hkj).1 ▸ hstopped)
  announced k hk hann := by
    rw [World.Claimed, t.callers]
    by_cases hkj : k = j
    · subst hkj
      rcases t.announced hann with hparked | ⟨hold, hparked, htoken⟩
      · exact .inl hparked
      · rw [hparked, htoken]
        exact h.announced k hk hold
    · obtain ⟨hpc, hparked, htoken, -⟩ := t.others k hkj
      rw [hparked, htoken]
      exact h.announced k hk (hpc ▸ hann)
  awake hidle hinj := by
    rw [t.shutdown] at hidle
    have hne : w.injector ≠ [] := fun hnil => hinj (t.injector hnil)
    rcases h.awake hidle hne with ⟨k, hk, hatt⟩ | hscan
    · refine .inl ⟨k, hk, ?_⟩
      rw [World.Attentive, World.Claimed, t.callers]
      by_cases hkj : k = j
      · subst hkj
        by_contra hcon
        rw [not_or, not_not] at hcon
        rcases t.past hcon.1 with hnil | ⟨hold, htoken⟩
        · exact hne hnil
        · rw [htoken] at hcon
          exact hatt.elim (fun hp => hp hold) hcon.2
      · obtain ⟨hpc, -, htoken, -⟩ := t.others k hkj
        rw [hpc, htoken]
        exact hatt
    · refine .inr ?_
      rw [World.Scanning, t.callers]
      exact hscan
  drained := by
    rw [t.shutdown, t.callers]
    exact h.drained.imp id fun hd => ⟨t.injector hd.1, hd.2⟩
  idle i hi := by
    rw [t.callers]
    exact h.idle i (t.issued ▸ hi)
  kept hidle := by
    rw [t.shutdown] at hidle
    rw [t.dropped (h.alive hidle j hj), h.kept hidle]
  places r := by
    rw [t.places, h.places, t.issued]

/-- A call of `schedule` changes. The injector and what was dropped may change with it. -/
structure Called (w : World) (i : ℕ) (c : Caller) (w' : World) : Prop where
  workers : w'.workers = w.workers
  callers : w'.callers = Function.update w.callers i c
  shutdown : w'.shutdown = w.shutdown
  issued : w'.issued = w.issued
  ran : w'.ran = w.ran

theorem called_setCaller (i : ℕ) (c : Caller) : Called w i c (w.setCaller i c) :=
  ⟨rfl, rfl, rfl, rfl, rfl⟩

theorem Called.caller_self {i : ℕ} {c : Caller} (t : Called w i c w') : w'.callers i = c := by
  rw [t.callers, Function.update_self]

theorem Called.caller_ne {i k : ℕ} {c : Caller} (t : Called w i c w') (hk : k ≠ i) :
    w'.callers k = w.callers k := by
  rw [t.callers, Function.update_of_ne hk]

theorem Called.places {i : ℕ} {c : Caller} (t : Called w i c w') (r : ℕ) :
    w'.places n r + ((if i = r then (w.callers i).holds.toNat else 0) + w.injector.count r +
      w.dropped.count r) = w.places n r + ((if i = r then c.holds.toNat else 0) +
        w'.injector.count r + w'.dropped.count r) := by
  rw [World.places, World.places, t.workers, t.ran]
  by_cases hi : i = r
  · subst hi
    rw [t.caller_self, if_pos rfl, if_pos rfl]
    omega
  · rw [t.caller_ne (Ne.symm hi), if_neg hi, if_neg hi]
    omega

/-- A turn that changes no queue of a worker, and no worker's place. -/
theorem Inv.quiet (h : Inv n w) (hworkers : ∀ k, (w'.workers k).pc = (w.workers k).pc ∧
      (w'.workers k).queue = (w.workers k).queue)
    (hshutdown : w'.shutdown = .idle → w.shutdown = .idle)
    (hannounced : ∀ k < n, (w.workers k).pc.announced →
      (w'.workers k).parked = true ∨ w'.Claimed k)
    (hawake : w'.shutdown = .idle → w'.injector ≠ [] → (∃ k < n, w'.Attentive k) ∨ w'.Scanning)
    (hdrained : (w'.shutdown = .idle ∨ w'.shutdown = .draining) ∨
      w'.injector = [] ∧ ∀ i, w'.callers i ≠ .push)
    (hidle : ∀ i, w'.issued ≤ i → w'.callers i = .idle)
    (hkept : w'.shutdown = .idle → w'.dropped = [])
    (hplaces : ∀ r, w'.places n r = if r < w'.issued then 1 else 0) : Inv n w' where
  bare k hk hbare := by
    rw [(hworkers k).2]
    exact h.bare k hk ((hworkers k).1 ▸ hbare)
  alive hi k hk hstopped := h.alive (hshutdown hi) k hk ((hworkers k).1 ▸ hstopped)
  announced k hk hann := hannounced k hk ((hworkers k).1 ▸ hann)
  awake := hawake
  drained := hdrained
  idle := hidle
  kept := hkept
  places := hplaces

theorem Called.claimed {i k : ℕ} {c : Caller} (t : Called w i c w') (h : w.Claimed k)
    (hi : w.callers i = .unpark k → (w.workers k).token = true) : w'.Claimed k := by
  rw [World.Claimed, t.workers]
  rcases h with htoken | ⟨i', hi'⟩
  · exact .inl htoken
  · by_cases hne : i' = i
    · subst hne
      exact .inl (hi hi')
    · exact .inr ⟨i', (t.caller_ne hne).trans hi'⟩

theorem Called.attentive {i k : ℕ} {c : Caller} (t : Called w i c w') (h : w.Attentive k)
    (hi : w.callers i = .unpark k → (w.workers k).token = true) : w'.Attentive k := by
  refine Or.imp (fun hp => ?_) (fun hc => t.claimed hc hi) h
  rwa [t.workers]

/-- A call goes on. If it was about to unpark a worker, the token of that worker is set. -/
theorem Inv.call (h : Inv n w) {i : ℕ} {c : Caller} (t : Called w i c w')
    (hidle : w.callers i ≠ .idle)
    (hunpark : ∀ k, w.callers i = .unpark k → (w.workers k).token = true)
    (hawake : w'.injector ≠ [] → (c = .scan 0 ∨ c = .claim 0) ∨ (w.injector ≠ [] ∧
      ¬ (w.callers i = .scan 0 ∨ w.callers i = .claim 0)) ∨ ∃ k < n, w'.Attentive k)
    (hdrained : ¬ (w.shutdown = .idle ∨ w.shutdown = .draining) → w.callers i ≠ .push →
      w.injector = [] → w'.injector = [] ∧ c ≠ .push)
    (hkept : w.shutdown = .idle → w'.dropped = w.dropped)
    (hcount : ∀ r, (if i = r then c.holds.toNat else 0) + w'.injector.count r + w'.dropped.count r =
      (if i = r then (w.callers i).holds.toNat else 0) + w.injector.count r + w.dropped.count r) :
    Inv n w' := by
  have hissued : i < w.issued := Nat.lt_of_not_le fun hle => hidle (h.idle i hle)
  refine h.quiet (fun k => ?_) (fun hid => t.shutdown ▸ hid) (fun k hk hann => ?_)
    (fun hid hinj => ?_) ?_ (fun i' hi' => ?_) (fun hid => ?_) fun r => ?_
  · rw [t.workers]
    exact ⟨rfl, rfl⟩
  · rw [t.workers]
    exact (h.announced k hk hann).imp id fun hc => t.claimed hc (hunpark k)
  · rw [t.shutdown] at hid
    rcases hawake hinj with hc | ⟨hne, hfirst⟩ | ha
    · exact .inr ⟨i, t.caller_self ▸ hc⟩
    · refine (h.awake hid hne).imp ?_ ?_
      · rintro ⟨k, hk, ha⟩
        exact ⟨k, hk, t.attentive ha (hunpark k)⟩
      · rintro ⟨i', hi'⟩
        have hne' : i' ≠ i := fun he => hfirst (he ▸ hi')
        exact ⟨i', t.caller_ne hne' ▸ hi'⟩
    · exact .inl ha
  · rw [t.shutdown]
    by_cases hd : w.shutdown = .idle ∨ w.shutdown = .draining
    · exact .inl hd
    · obtain ⟨hnil, hpush⟩ := h.drained.resolve_left hd
      obtain ⟨hnil', hc⟩ := hdrained hd (hpush i) hnil
      refine .inr ⟨hnil', fun i' => ?_⟩
      by_cases hne : i' = i
      · subst hne
        rwa [t.caller_self]
      · rw [t.caller_ne hne]
        exact hpush i'
  · rw [t.issued] at hi'
    have hne : i' ≠ i := fun he => absurd hissued (Nat.not_lt.mpr (he ▸ hi'))
    rw [t.caller_ne hne]
    exact h.idle i' hi'
  · rw [t.shutdown] at hid
    exact (hkept hid).trans (h.kept hid)
  · have hplaces := t.places (n := n) r
    rw [hcount r] at hplaces
    rw [t.issued]
    exact (Nat.add_right_cancel hplaces).trans (h.places r)

/-- A call goes on that has pushed its runnable. -/
theorem Inv.setCaller (h : Inv n w) {i : ℕ} {c : Caller} (hidle : w.callers i ≠ .idle)
    (hold : (w.callers i).holds = false) (hnew : c.holds = false)
    (hunpark : ∀ k, w.callers i = .unpark k → (w.workers k).token = true)
    (hscan : w.callers i = .scan 0 ∨ w.callers i = .claim 0 →
      (c = .scan 0 ∨ c = .claim 0) ∨ ∃ k < n, (w.setCaller i c).Attentive k) :
    Inv n (w.setCaller i c) := by
  refine h.call ⟨rfl, rfl, rfl, rfl, rfl⟩ hidle hunpark (fun hinj => ?_)
    (fun _ _ hnil => ⟨hnil, ?_⟩) (fun _ => rfl) fun r => ?_
  · by_cases hfirst : w.callers i = .scan 0 ∨ w.callers i = .claim 0
    · exact (hscan hfirst).imp id .inr
    · exact .inr (.inl ⟨hinj, hfirst⟩)
  · rintro rfl
    cases hnew
  · rw [hold, hnew]
    rfl

/-- The flag of a worker is taken back, or its token set. -/
theorem Inv.setFlags (h : Inv n w) {k : ℕ} (parked token : Bool)
    (htoken : (w.workers k).token = true → token = true)
    (hflags : (w.workers k).pc.announced → parked = true ∨ token = true ∨
      ∃ i, w.callers i = .unpark k) :
    Inv n (w.setWorker k { w.workers k with parked := parked, token := token }) := by
  have hclaimed : ∀ k', w.Claimed k' →
      (w.setWorker k { w.workers k with parked := parked, token := token }).Claimed k' := by
    intro k' hc
    rcases hc with ht | hc
    · refine .inl ?_
      by_cases hne : k' = k
      · subst hne
        rw [setWorker_self]
        exact htoken ht
      · rw [setWorker_ne hne]
        exact ht
    · exact .inr hc
  have hsame : ∀ k', ((w.setWorker k { w.workers k with parked := parked, token := token }).workers
      k').pc = (w.workers k').pc ∧ ((w.setWorker k { w.workers k with
        parked := parked, token := token }).workers k').queue = (w.workers k').queue := by
    intro k'
    by_cases hne : k' = k
    · subst hne
      rw [setWorker_self]
      exact ⟨rfl, rfl⟩
    · rw [setWorker_ne hne]
      exact ⟨rfl, rfl⟩
  refine h.quiet hsame id (fun k' hk' hann => ?_) (fun hid hinj => ?_) h.drained h.idle h.kept
    fun r => ?_
  · by_cases hne : k' = k
    · subst hne
      rw [World.Claimed, setWorker_self]
      exact hflags hann
    · rw [setWorker_ne hne]
      exact (h.announced k' hk' hann).imp id (hclaimed k')
  · refine (h.awake hid hinj).imp ?_ id
    rintro ⟨k', hk', ha⟩
    refine ⟨k', hk', ha.imp (fun hp => ?_) (hclaimed k')⟩
    rwa [(hsame k').1]
  · have hheld : ∀ k', ((w.setWorker k
        { w.workers k with parked := parked, token := token }).workers k').held =
          (w.workers k').held := by
      intro k'
      rw [Worker.held, Worker.held, (hsame k').1, (hsame k').2]
    rw [World.places, Finset.sum_congr rfl fun k' _ => by rw [hheld k']]
    exact h.places r

/-- A worker whose flag is not set will look at the injector. -/
theorem Inv.attentive (h : Inv n w) {k : ℕ} (hk : k < n) (hparked : (w.workers k).parked = false) :
    w.Attentive k := by
  by_cases hpast : (w.workers k).pc.past
  · refine .inr ((h.announced k hk hpast.announced).resolve_left ?_)
    rw [hparked]
    exact Bool.false_ne_true
  · exact .inl hpast

/-- A turn of a call of `schedule`. -/
theorem Inv.caller (h : Inv n w) (hn : 0 < n) {i : ℕ} (hstep : w.stepCaller n i = some w') :
    Inv n w' := by
  rw [World.stepCaller] at hstep
  cases hc : w.callers i with
  | check =>
    simp only [hc] at hstep
    have hunpark : ∀ k, w.callers i = .unpark k → (w.workers k).token = true := by
      rw [hc]
      exact nofun
    have hfirst : ¬ (w.callers i = .scan 0 ∨ w.callers i = .claim 0) := by
      rw [hc]
      exact nofun
    split at hstep
    next hshutdown =>
      obtain rfl := Option.some.inj hstep
      refine h.call (c := .idle) ⟨rfl, rfl, rfl, rfl, rfl⟩ (hc ▸ nofun) hunpark
        (fun hinj => .inr (.inl ⟨hinj, hfirst⟩)) (fun _ _ hnil => ⟨hnil, nofun⟩) (fun hid => ?_)
        fun r => ?_
      · rw [World.isShutdown, hid] at hshutdown
        cases hshutdown
      · rw [hc]
        show (if i = r then 0 else 0) + w.injector.count r + (w.dropped ++ [i]).count r =
          (if i = r then 1 else 0) + w.injector.count r + w.dropped.count r
        rw [List.count_append, List.count_singleton]
        simp only [beq_iff_eq]
        split <;> omega
    next hshutdown =>
      obtain rfl := Option.some.inj hstep
      refine h.call (c := .push) ⟨rfl, rfl, rfl, rfl, rfl⟩ (hc ▸ nofun) hunpark
        (fun hinj => .inr (.inl ⟨hinj, hfirst⟩)) (fun hd _ _ => absurd ?_ hd) (fun _ => rfl)
        fun r => by rw [hc]; rfl
      rw [World.isShutdown, bne_iff_ne, not_not] at hshutdown
      exact .inl hshutdown
  | push =>
    simp only [hc] at hstep
    obtain rfl := Option.some.inj hstep
    refine h.call (c := .scan 0) ⟨rfl, rfl, rfl, rfl, rfl⟩ (hc ▸ nofun) (by rw [hc]; exact nofun)
      (fun _ => .inl (.inl rfl)) (fun _ hpush _ => absurd hc hpush) (fun _ => rfl) fun r => ?_
    rw [hc]
    show (if i = r then 0 else 0) + (w.injector ++ [i]).count r + w.dropped.count r =
      (if i = r then 1 else 0) + w.injector.count r + w.dropped.count r
    rw [List.count_append, List.count_singleton]
    simp only [beq_iff_eq]
    split <;> omega
  | scan k =>
    simp only [hc] at hstep
    have hidle : w.callers i ≠ .idle := hc ▸ nofun
    have hold : (w.callers i).holds = false := hc ▸ rfl
    have hunpark : ∀ k', w.callers i = .unpark k' → (w.workers k').token = true := by
      rw [hc]
      exact nofun
    split at hstep
    next hk =>
      obtain rfl := Option.some.inj hstep
      refine h.setCaller hidle hold (by split <;> rfl) hunpark fun hfirst => ?_
      have hzero : k = 0 := by
        rw [hc] at hfirst
        rcases hfirst with heq | heq <;> cases heq
        rfl
      subst hzero
      cases hparked : (w.workers 0).parked with
      | true => exact .inl (.inr rfl)
      | false => exact .inr ⟨0, hn, (called_setCaller i _).attentive
        (h.attentive hn hparked) (hunpark 0)⟩
    next hk =>
      obtain rfl := Option.some.inj hstep
      refine h.setCaller hidle hold rfl hunpark fun hfirst => ?_
      rw [hc] at hfirst
      rcases hfirst with heq | heq <;> cases heq
      exact absurd hn hk
  | claim k =>
    simp only [hc] at hstep
    have hidle : w.callers i ≠ .idle := hc ▸ nofun
    have hold : (w.callers i).holds = false := hc ▸ rfl
    have hunpark : ∀ k', w.callers i = .unpark k' → (w.workers k').token = true := by
      rw [hc]
      exact nofun
    split at hstep
    next hparked =>
      obtain rfl := Option.some.inj hstep
      have hcalled : (w.setCaller i (.unpark k)).callers i = .unpark k := Function.update_self i _ _
      have hinv : Inv n (w.setCaller i (.unpark k)) := by
        refine h.setCaller hidle hold rfl hunpark fun hfirst => .inr ?_
        rw [hc] at hfirst
        rcases hfirst with heq | heq <;> cases heq
        exact ⟨0, hn, .inr (.inr ⟨i, hcalled⟩)⟩
      exact hinv.setFlags false (w.workers k).token id fun _ => .inr (.inr ⟨i, hcalled⟩)
    next hparked =>
      obtain rfl := Option.some.inj hstep
      refine h.setCaller hidle hold rfl hunpark fun hfirst => .inr ?_
      rw [hc] at hfirst
      rcases hfirst with heq | heq <;> cases heq
      exact ⟨0, hn, (called_setCaller i _).attentive
        (h.attentive hn (Bool.eq_false_iff.mpr hparked)) (hunpark 0)⟩
  | unpark k =>
    simp only [hc] at hstep
    obtain rfl := Option.some.inj hstep
    have hinv : Inv n (w.setWorker k { w.workers k with token := true }) :=
      h.setFlags (w.workers k).parked true (fun _ => rfl) fun _ => .inr (.inl rfl)
    refine hinv.setCaller (hc ▸ nofun) (hc ▸ rfl) rfl (fun k' hk' => ?_) fun hfirst => ?_
    · have heq : w.callers i = .unpark k' := hk'
      rw [hc] at heq
      cases heq
      rw [setWorker_self]
    · have heq : w.callers i = .scan 0 ∨ w.callers i = .claim 0 := hfirst
      rw [hc] at heq
      rcases heq with heq | heq <;> cases heq
  | idle =>
    simp only [hc] at hstep
    cases hstep

/-- A turn of the shutdown. -/
theorem Inv.shut (h : Inv n w) (hcareful : Careful w .shutdown)
    (hstep : w.stepShutdown n = some w') :
    Inv n w' := by
  rw [World.stepShutdown] at hstep
  cases hs : w.shutdown with
  | idle =>
    simp only [hs] at hstep
    obtain rfl := Option.some.inj hstep
    exact h.quiet (fun _ => ⟨rfl, rfl⟩) nofun h.announced nofun
      (.inl (.inr rfl)) h.idle nofun h.places
  | draining =>
    simp only [hs] at hstep
    split at hstep
    next r rest hinj =>
      obtain rfl := Option.some.inj hstep
      refine h.quiet (fun _ => ⟨rfl, rfl⟩) nofun h.announced nofun (.inl (.inr rfl)) h.idle nofun
        fun s => ?_
      rw [← h.places s]
      dsimp only [World.places]
      rw [hinj, List.count_cons, List.count_append, List.count_singleton]
      omega
    next hinj =>
      obtain rfl := Option.some.inj hstep
      have hpush : ∀ i, w.callers i ≠ .push := by
        intro i
        rcases Nat.lt_or_ge i w.issued with hi | hi
        · exact hcareful rfl hs hinj i hi
        · rw [h.idle i hi]
          exact nofun
      exact h.quiet (fun _ => ⟨rfl, rfl⟩) nofun h.announced nofun (.inr ⟨hinj, hpush⟩) h.idle nofun
        h.places
  | unparking k =>
    have hidle : w.shutdown ≠ .idle := by
      rw [hs]
      exact nofun
    have hdrained : w.injector = [] ∧ ∀ i, w.callers i ≠ .push :=
      h.drained.resolve_left (by rw [hs]; exact nofun)
    simp only [hs] at hstep
    split at hstep
    next =>
      obtain rfl := Option.some.inj hstep
      have hinv : Inv n (w.setWorker k { w.workers k with token := true }) :=
        h.setFlags (w.workers k).parked true (fun _ => rfl) fun _ => .inr (.inl rfl)
      exact hinv.quiet (fun _ => ⟨rfl, rfl⟩) nofun hinv.announced nofun (.inr hdrained) h.idle nofun
        hinv.places
    next =>
      obtain rfl := Option.some.inj hstep
      exact h.quiet (fun _ => ⟨rfl, rfl⟩) nofun h.announced nofun (.inr hdrained) h.idle nofun
        h.places
  | ended =>
    simp only [hs] at hstep
    cases hstep

/-- A call is made. -/
theorem Inv.schedule (h : Inv n w) :
    Inv n { w.setCaller w.issued .check with issued := w.issued + 1 } := by
  have hnew : w.callers w.issued = .idle := h.idle _ le_rfl
  have hself : Function.update w.callers w.issued .check w.issued = .check :=
    Function.update_self ..
  have hother : ∀ {i}, w.callers i ≠ .idle → Function.update w.callers w.issued .check i =
      w.callers i :=
    fun {i} hi => Function.update_of_ne (fun he : i = w.issued => hi (he ▸ hnew)) _ _
  have hclaimed : ∀ k, w.Claimed k →
      ({ w.setCaller w.issued .check with issued := w.issued + 1 } : World).Claimed k := by
    rintro k (htoken | ⟨i, hi⟩)
    · exact .inl htoken
    · exact .inr ⟨i, (hother (hi ▸ nofun)).trans hi⟩
  refine h.quiet (fun _ => ⟨rfl, rfl⟩) id (fun k hk hann => ?_) (fun hid hinj => ?_) ?_
    (fun i hi => ?_) h.kept fun r => ?_
  · exact (h.announced k hk hann).imp id (hclaimed k)
  · refine (h.awake hid hinj).imp ?_ ?_
    · rintro ⟨k, hk, ha⟩
      exact ⟨k, hk, ha.imp id (hclaimed k)⟩
    · rintro ⟨i, hi⟩
      have hne : w.callers i ≠ .idle := by
        rcases hi with hi | hi <;> rw [hi] <;> exact nofun
      refine ⟨i, ?_⟩
      show Function.update w.callers w.issued .check i = _ ∨
        Function.update w.callers w.issued .check i = _
      rwa [hother hne]
  · refine h.drained.imp id fun hd => ⟨hd.1, fun i => ?_⟩
    show Function.update w.callers w.issued .check i ≠ _
    by_cases hne : i = w.issued
    · rw [hne, hself]
      exact nofun
    · rw [Function.update_of_ne hne]
      exact hd.2 i
  · show Function.update w.callers w.issued .check i = _
    have hi : w.issued + 1 ≤ i := hi
    rw [Function.update_of_ne (Nat.ne_of_gt hi)]
    exact h.idle i (Nat.le_of_succ_le hi)
  · have hplaces : ({ w.setCaller w.issued .check with issued := w.issued + 1 } : World).places n
        r +
        ((if w.issued = r then (w.callers w.issued).holds.toNat else 0) + w.injector.count r +
          w.dropped.count r) = w.places n r + ((if w.issued = r then 1 else 0) +
            w.injector.count r + w.dropped.count r) :=
      (called_setCaller w.issued .check).places r
    have hold : (w.callers w.issued).holds.toNat = 0 := by
      rw [hnew]
      rfl
    rw [hold, h.places r] at hplaces
    show _ = if r < w.issued + 1 then 1 else 0
    split_ifs at hplaces ⊢ <;> omega

/-- **The invariant holds at any time**, in a pool of at least one worker. -/
theorem Inv.step (h : Inv n w) (hn : 0 < n) {a : Act} (hstep : CarefulStep n w a w') :
    Inv n w' := by
  obtain ⟨hcareful, hnext⟩ := hstep
  cases a with
  | schedule =>
    obtain rfl := Option.some.inj hnext
    exact h.schedule
  | caller i => exact h.caller hn hnext
  | worker j batch =>
    have hnext : (if j < n then w.stepWorker n j batch else none) = some w' := hnext
    split at hnext
    next hj => exact h.turn hj (turn_worker hj (h.bare j hj) hnext)
    next => cases hnext
  | shutdown => exact h.shut hcareful hnext

/-- What the invariant says of a state. -/
theorem Inv.serves (h : Inv n w) (hn : 0 < n) : Serves n w where
  awake hid hwaits hall := by
    have hqueue : ∀ j < n, (w.workers j).queue = [] := fun j hj => h.bare j hj (by
      rw [(hall j hj).1]
      trivial)
    have hinj : w.injector ≠ [] := by
      rcases hwaits with hinj | ⟨j, hj, hne⟩
      · exact hinj
      · exact absurd (hqueue j hj) hne
    have hclaimed : ∀ j < n, ¬ w.Claimed j := by
      rintro j hj (htoken | ⟨i, hi⟩)
      · exact (hall j hj).2 (.inl htoken)
      · exact (hall j hj).2 (.inr ⟨i, .inl hi⟩)
    rcases h.awake hid hinj with ⟨j, hj, ha⟩ | ⟨i, hi⟩
    · refine ha.elim (fun hpast => hpast ?_) (hclaimed j hj)
      rw [(hall j hj).1]
      trivial
    · have hann : (w.workers 0).pc.announced := by
        rw [(hall 0 hn).1]
        trivial
      have hparked := (h.announced 0 hn hann).resolve_right (hclaimed 0 hn)
      exact (hall 0 hn).2 (.inr ⟨i, .inr ⟨hparked, 0, le_rfl, hi⟩⟩)
  once r hr := (h.places r).trans (if_pos hr)
  nodup := by
    refine List.nodup_iff_count_le_one.mpr fun r => ?_
    have hr := h.places r
    rw [World.places] at hr
    split at hr <;> omega
  kept := h.kept
  empty hover hexited _ := by
    refine ⟨(h.drained.resolve_left (by rw [hover]; exact nofun)).1, fun j hj => h.bare j hj ?_⟩
    rw [hexited j hj]
    trivial

end ThreadPool

open ThreadPool in
/-- **The thread pool**: in a pool of at least one worker, no runnable waits while all workers
sleep, none is lost or run twice, and none is left behind by the shutdown, if no call of `schedule`
is between its look at the shutdown and its push when the shutdown finds the injector empty. -/
theorem thread_pool_serves {n : ℕ} (hn : 0 < n) {acts : List ThreadPool.Act} {w : ThreadPool.World}
    (h : Run (ThreadPool.CarefulStep n) .new acts w) : ThreadPool.Serves n w :=
  (h.invariant (P := Inv n) .new fun _ _ _ hinv hstep => hinv.step hn hstep).serves hn

namespace ThreadPool

/-- A careful turn, where it is one. -/
def carefulNext (n : ℕ) (w : World) (a : Act) :
    Option World := if Careful w a then w.next n a else none

theorem carefulStep_of_next {n : ℕ} {w w' : World} {a : Act} (h : carefulNext n w a = some w') :
    CarefulStep n w a w' := by
  rw [carefulNext] at h
  split at h
  next hcareful => exact ⟨hcareful, h⟩
  next => cases h

/-- The only worker parks, is woken for a runnable, and sees the shutdown when it has run it. -/
def sampleActs : List Act :=
  List.replicate 9 (.worker 0 0) ++ [.schedule] ++ List.replicate 5 (.caller 0) ++
    List.replicate 6 (.worker 0 0) ++ List.replicate 4 .shutdown ++ List.replicate 2 (.worker 0 0)

theorem run_sampleActs : ∃ w, Run (CarefulStep 1) World.new sampleActs w ∧ w.ran = [(0, 0)] ∧
    (w.workers 0).pc = .exited := by
  have run : Run (CarefulStep 1) World.new sampleActs _ :=
    .of_isSome (carefulNext 1) (fun _ _ _ => carefulStep_of_next) (by decide +kernel)
  exact ⟨_, run, by decide +kernel, by decide +kernel⟩

end ThreadPool

theorem thread_pool_serves_one : ∃ w, Run (ThreadPool.CarefulStep 1) .new ThreadPool.sampleActs w ∧
    w.ran = [(0, 0)] ∧ (w.workers 0).pc = .exited ∧ ThreadPool.Serves 1 w := by
  obtain ⟨w, hrun, hran, hexited⟩ := ThreadPool.run_sampleActs
  exact ⟨w, hrun, hran, hexited, thread_pool_serves Nat.one_pos hrun⟩

open ThreadPool in
/-- **A runnable that is left behind**: a call of `schedule` sees that the pool is not shut down.
Then the shutdown takes place, and the worker exits. Then the call pushes its runnable. -/
theorem stranded_runnable : ∃ w, Run (ThreadPool.Step 1) .new ([.schedule, .caller 0] ++
      List.replicate 4 .shutdown ++ List.replicate 2 (.worker 0 0) ++ List.replicate 3 (.caller 0))
      w ∧
    w.shutdown = .ended ∧ (w.workers 0).pc = .exited ∧ (∀ i, w.callers i = .idle) ∧
    w.injector = [0] ∧ ¬ ThreadPool.Serves 1 w := by
  have run : Run (ThreadPool.Step 1) World.new ([.schedule, .caller 0] ++
      List.replicate 4 .shutdown ++ List.replicate 2 (.worker 0 0) ++
        List.replicate 3 (.caller 0)) _ :=
    .of_isSome (World.next 1) (fun _ _ _ h => h) (by decide +kernel)
  obtain ⟨w, hrun, hover, hexited, hidle, hinj⟩ : ∃ w, Run (ThreadPool.Step 1) World.new
      ([.schedule, .caller 0] ++ List.replicate 4 .shutdown ++ List.replicate 2 (.worker 0 0) ++
        List.replicate 3 (.caller 0)) w ∧ w.shutdown = .ended ∧ (w.workers 0).pc = .exited ∧
      (∀ i, w.callers i = .idle) ∧ w.injector = [0] := by
    refine ⟨_, run, by decide +kernel, by decide +kernel, fun i => ?_, by decide +kernel⟩
    cases i <;> rfl
  refine ⟨w, hrun, hover, hexited, hidle, hinj, fun h => ?_⟩
  have hall : ∀ j < 1, (w.workers j).pc = .exited := by
    intro j hj
    rwa [Nat.lt_one_iff.mp hj]
  rw [(h.empty hover hall hidle).1] at hinj
  cases hinj

end Mpz
