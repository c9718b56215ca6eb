import Mathlib.Data.Nat.Notation
import Mpz.Lib.Method

/-!
# Output futures

A value that is computed later is handed out as a future. It can be asked for in two ways: by
`try_recv`, outside of a task, and by `poll`, from a task that waits for it. Between the calls the
sender of the value goes on: it sends the value, or it is dropped.

A mapped future keeps the inner one and the function until it has a value. An early `try_recv` takes
both out and does not put them back.

## Main definitions

* `Future.Output` — a future, as how it answers
* `Future.maybeDone` — the future of a oneshot channel
* `Future.map` — the mapped future
* `Future.Careful` — nothing is asked behind a `try_recv` or a result that the inner future would
  still answer

## Main results

* `Future.map_transparent_iff` — the mapped future answers as the inner one exactly then
-/

namespace Mpz.Future

/-- Output canceled error. -/
inductive Canceled where
  /-- The sender was dropped, or the value was taken. -/
  | canceled
  deriving DecidableEq, Repr

/-- What a future answers: a value, nothing yet, an error, or a panic. -/
abbrev Reply (T : Type) : Type := Outcome Canceled (Option T)

/-- How a future is asked. -/
inductive Ask where
  /-- `Output::try_recv` -/
  | tryRecv
  /-- `Future::poll`, where nothing yet is `Poll::Pending`. -/
  | poll
  deriving DecidableEq, Repr

/-- An output future with states `σ`, where `ε` is what its sender can do. -/
structure Output (σ ε T : Type) where
  /-- What it answers, and the state that this leaves. -/
  answer : σ → Ask → Reply T × σ
  /-- The sender does something. -/
  event : σ → ε → σ

/-- What happens to a future. -/
inductive Act (ε : Type) where
  /-- It is asked. -/
  | ask (ask : Ask)
  /-- The sender does something. -/
  | event (e : ε)
  deriving DecidableEq, Repr

variable {σ ε T O : Type}

/-- What a future answers, one after the other. -/
def Output.replies (out : Output σ ε T) : σ → List (Act ε) → List (Reply T)
  | _, [] => []
  | s, .ask ask :: acts => (out.answer s ask).1 :: replies out (out.answer s ask).2 acts
  | s, .event e :: acts => replies out (out.event s e) acts

/-! ### The channel -/

/-- A oneshot channel, as its receiver sees it. -/
inductive Oneshot (T : Type) where
  /-- Nothing was sent. -/
  | waiting
  /-- The value was sent. -/
  | sent (value : T)
  /-- The value was taken, or the sender was dropped without sending. -/
  | closed
  deriving DecidableEq, Repr

/-- What the sender of a oneshot channel does. -/
inductive Sender (T : Type) where
  /-- `Sender::send` -/
  | send (value : T)
  /-- It is dropped. -/
  | drop
  deriving DecidableEq, Repr

/-- The sender sends or is dropped, where it has done neither. -/
def Oneshot.event (self : Oneshot T) (e : Sender T) : Oneshot T :=
  match self, e with
  | waiting, .send value => sent value
  | waiting, .drop => closed
  | self, _ => self

/-- The receiver is asked. -/
def Oneshot.answer : Oneshot T → Reply T × Oneshot T
  | waiting => (.ok none, waiting)
  | sent value => (.ok (some value), closed)
  | closed => (.err .canceled, closed)

/-- `MaybeDone` -/
def maybeDone (T : Type) : Output (Oneshot T) (Sender T) T := ⟨fun s _ => s.answer, Oneshot.event⟩

/-! ### The mapped future -/

/-- `MapInner` -/
inductive MapInner (σ T O : Type) where
  /-- The inner future has not answered. -/
  | incomplete (inner : σ) (f : T → O)
  /-- There is no inner future any more. -/
  | done

/-- A reply with its value mapped. -/
def Reply.map (f : T → O) : Reply T → Reply O
  | .ok value => .ok (value.map f)
  | .err e => .err e
  | .panic => .panic

/-- What there is to say when the inner future is gone. -/
def doneReply : Ask → Reply O
  | .tryRecv => .err .canceled
  -- "Map must not be polled after it returned `Poll::Ready`"
  | .poll => .panic

namespace MapInner

/-- `MapInner::try_recv`, which puts `MapInner::Done` in its place before it asks. -/
def tryRecv (out : Output σ ε T) : MapInner σ T O → Reply O × MapInner σ T O
  | incomplete inner f => (Reply.map f (out.answer inner .tryRecv).1, done)
  | done => (doneReply .tryRecv, done)

/-- `MapInner::poll` -/
def poll (out : Output σ ε T) : MapInner σ T O → Reply O × MapInner σ T O
  | incomplete inner f =>
    match out.answer inner .poll with
    -- `ready!`
    | (.ok none, inner) => (.ok none, incomplete inner f)
    | (.panic, inner) => (.panic, incomplete inner f)
    | (reply, _) => (Reply.map f reply, done)
  | done => (doneReply .poll, done)

/-- The sender of the inner future does something, which is lost when the inner future is gone. -/
def event (out : Output σ ε T) (e : ε) : MapInner σ T O → MapInner σ T O
  | incomplete inner f => incomplete (out.event inner e) f
  | done => done

end MapInner

/-- `OutputExt::map` -/
def map (out : Output σ ε T) (O : Type) : Output (MapInner σ T O) ε O where
  answer s
    | .tryRecv => s.tryRecv out
    | .poll => s.poll out
  event s e := s.event out e

/-! ### When the mapped future is transparent -/

/-- What is asked has the answer of a future that is gone: `try_recv` is answered with an error. -/
def Over (out : Output σ ε T) : σ → List (Act ε) → Prop
  | _, [] => True
  | s, .ask ask :: acts =>
    (out.answer s ask).1 = doneReply ask ∧ Over out (out.answer s ask).2 acts
  | s, .event e :: acts => Over out (out.event s e) acts

/-- The inner future is asked by `try_recv` only once, or polled until it has a result. Whatever is
asked behind that has the answer of a future that is gone. -/
def Careful (out : Output σ ε T) : σ → List (Act ε) → Prop
  | _, [] => True
  | s, .ask .tryRecv :: acts => Over out (out.answer s .tryRecv).2 acts
  | s, .ask .poll :: acts =>
    match out.answer s .poll with
    | (.ok none, s) | (.panic, s) => Careful out s acts
    | (_, s) => Over out s acts
  | s, .event e :: acts => Careful out (out.event s e) acts

variable {out : Output σ ε T} {s : σ} {f : T → O} {acts : List (Act ε)}

theorem Reply.map_eq_doneReply {reply : Reply T} {ask : Ask} :
    Reply.map f reply = doneReply ask ↔ reply = doneReply ask := by
  cases ask <;> rcases reply with (_ | _) | ⟨⟨⟩⟩ | _ <;> simp [Reply.map, doneReply]

/-- A future that is gone answers as the inner one would where that is over. -/
theorem replies_done (f : T → O) (s : σ) (acts : List (Act ε)) :
    (map out O).replies .done acts = (out.replies s acts).map (Reply.map f) ↔ Over out s acts := by
  induction acts generalizing s with
  | nil => exact iff_of_true rfl trivial
  | cons act acts ih =>
    cases act with
    | event e => exact ih (out.event s e)
    | ask ask =>
      have hdone : (map out O).answer .done ask = (doneReply ask, .done) := by cases ask <;> rfl
      rw [Output.replies, Output.replies, hdone, List.map_cons, List.cons.injEq, Over, ih,
        eq_comm (a := doneReply ask), Reply.map_eq_doneReply]

/-- **When mapping is transparent.** The mapped future answers what the inner one would answer, with
the value mapped, exactly where it is asked carefully. -/
theorem map_transparent_iff (out : Output σ ε T) (f : T → O) (s : σ) (acts : List (Act ε)) :
    (map out O).replies (.incomplete s f) acts = (out.replies s acts).map (Reply.map f) ↔
      Careful out s acts := by
  induction acts generalizing s with
  | nil => exact iff_of_true rfl trivial
  | cons act acts ih =>
    rcases act with (_ | _) | e
    · -- The inner future is taken out, whatever it answers.
      have hanswer : (map out O).answer (.incomplete s f) .tryRecv =
          (Reply.map f (out.answer s .tryRecv).1, .done) := rfl
      rw [Output.replies, Output.replies, hanswer, List.map_cons, List.cons.injEq, Careful,
        replies_done f]
      exact and_iff_right rfl
    · have hpoll : (map out O).answer (.incomplete s f) .poll =
          MapInner.poll out (.incomplete s f) :=
        rfl
      rw [Output.replies, Output.replies, hpoll, List.map_cons, List.cons.injEq, Careful,
        MapInner.poll]
      rcases out.answer s .poll with ⟨(_ | value) | e | _, t⟩
      · exact (and_iff_right rfl).trans (ih t)
      · exact (and_iff_right rfl).trans (replies_done f t acts)
      · exact (and_iff_right rfl).trans (replies_done f t acts)
      · exact (and_iff_right rfl).trans (ih t)
    · exact ih (out.event s e)

/-- A `try_recv` comes before the value is sent. The mapped future is cancelled by it, and panics
where it is polled. -/
theorem early_try_recv :
    (map (maybeDone ℕ) ℕ).replies (.incomplete .waiting (2 * ·))
        [.ask .tryRecv, .event (.send 3), .ask .tryRecv, .ask .poll] =
      [.ok none, .err .canceled, .panic] ∧
    ((maybeDone ℕ).replies .waiting
        [.ask .tryRecv, .event (.send 3), .ask .tryRecv, .ask .poll]).map (Reply.map (2 * ·)) =
      [.ok none, .ok (some 6), .err .canceled] := by
  decide

end Mpz.Future
