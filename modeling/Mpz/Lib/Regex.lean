import Mathlib.Data.Nat.Notation
import Mathlib.Logic.Function.Basic

/-!
# Regular expressions with groups

A pattern reads a text from a cursor. `Regex.run` lists all the ways in which it can, the preferred
ones first: the left side of an alternative before the right one, and one more round of a loop
before none. The match of a text is the first entry of that list at the leftmost cursor that has
one.

## Main definitions

* `Regex`, `Cursor`, `Regex.run` — patterns, and the ways they read a text
* `Regex.captures`, `Regex.capturesIter` — the leftmost match, and all that do not overlap
* `Regex.binds` — the group takes part in every match

## Main results

* `Regex.isSome_of_binds` — such a group is captured however the pattern reads
* `Regex.isSome_captures`, `Regex.isSome_capturesIter` — and so in the matches of a text
-/

namespace Mpz

/-- A pattern. Its groups are named by `N`. -/
inductive Regex (N : Type) where
  /-- The empty pattern. -/
  | empty
  /-- A character of a class. -/
  | char (p : Char → Bool)
  /-- The start of a line. -/
  | lineStart
  /-- The end of a line. -/
  | lineEnd
  /-- One pattern after the other. -/
  | cat (r q : Regex N)
  /-- The first pattern, or else the second. -/
  | alt (r q : Regex N)
  /-- As many rounds of the pattern as can be. -/
  | star (r : Regex N)
  /-- A pattern that captures what it reads. -/
  | group (n : N) (r : Regex N)

/-- A place in a text, and what the groups captured on the way to it. -/
structure Cursor (N : Type) where
  /-- What was read, the last character first. -/
  before : List Char
  /-- What is left. -/
  rest : List Char
  /-- The last capture of each group. -/
  captured : N → Option (List Char)

namespace Regex

variable {N : Type} [DecidableEq N]

/-- Rounds of `m`, each of which reads something, at most the given number of them. -/
def rounds (m : Cursor N → List (Cursor N)) : ℕ → Cursor N → List (Cursor N)
  | 0, s => [s]
  | fuel + 1, s =>
    ((m s).filter fun t => t.rest.length < s.rest.length).flatMap (rounds m fuel) ++ [s]

/-- The ways in which the pattern reads from a cursor, the preferred ones first. -/
def run : Regex N → Cursor N → List (Cursor N)
  | empty, s => [s]
  | char p, s => match s.rest with
    | [] => []
    | c :: rest => if p c then [⟨c :: s.before, rest, s.captured⟩] else []
  | lineStart, s => if s.before.head?.all (· == '\n') then [s] else []
  | lineEnd, s => if s.rest.head?.all (· == '\n') then [s] else []
  | cat r q, s => (run r s).flatMap (run q)
  | alt r q, s => run r s ++ run q s
  -- each round reads a character, so there are no more of them than characters
  | star r, s => rounds (run r) s.rest.length s
  | group n r, s => (run r s).map fun t =>
    { t with captured :=
        Function.update t.captured n (some (s.rest.take (s.rest.length - t.rest.length))) }

/-! ### Patterns made of others -/

/-- One pattern after the other. -/
def seq (l : List (Regex N)) : Regex N := l.foldr cat empty

/-- One round or more. -/
def plus (r : Regex N) : Regex N := cat r (star r)

/-- One round or none. -/
def opt (r : Regex N) : Regex N := alt r empty

/-- The text itself. -/
def lit (text : List Char) : Regex N := seq (text.map fun c => char (· == c))

/-! ### The matches of a text -/

/-- Where the first match from a place on ends. -/
def find (r : Regex N) (before : List Char) : List Char → Option (Cursor N)
  | [] => (run r ⟨before, [], fun _ => none⟩).head?
  | c :: rest => match (run r ⟨before, c :: rest, fun _ => none⟩).head? with
    | some s => some s
    | none => find r (c :: before) rest

/-- The groups of the leftmost match. -/
def captures (r : Regex N) (text : List Char) : Option (N → Option (List Char)) :=
  (r.find [] text).map Cursor.captured

/-- The groups of the first `fuel` matches, each of which starts where the one before it ended. -/
def capturesFrom (r : Regex N) : ℕ → List Char → List Char → List (N → Option (List Char))
  | 0, _, _ => []
  | fuel + 1, before, rest => match r.find before rest with
    | none => []
    | some s => s.captured :: capturesFrom r fuel s.before s.rest

/-- The groups of all the matches, for a pattern that reads a character or more: there are then no
more matches than characters. -/
def capturesIter (r : Regex N) (text : List Char) : List (N → Option (List Char)) :=
  r.capturesFrom text.length [] text

/-! ### Groups that take part in every match -/

/-- The group is on every way through the pattern. -/
def binds (n : N) : Regex N → Bool
  | empty | char _ | lineStart | lineEnd | star _ => false
  | cat r q => r.binds n || q.binds n
  | alt r q => r.binds n && q.binds n
  | group m r => m == n || r.binds n

variable {r : Regex N} {n : N} {s t : Cursor N}

omit [DecidableEq N] in
theorem isSome_rounds {m : Cursor N → List (Cursor N)}
    (hm : ∀ s, (s.captured n).isSome → ∀ t ∈ m s, (t.captured n).isSome) (fuel : ℕ)
    (hs : (s.captured n).isSome) (ht : t ∈ rounds m fuel s) : (t.captured n).isSome := by
  induction fuel generalizing s with
  | zero =>
    rw [rounds, List.mem_singleton] at ht
    exact ht ▸ hs
  | succ fuel ih =>
    rw [rounds, List.mem_append, List.mem_flatMap, List.mem_singleton] at ht
    rcases ht with ⟨u, hu, ht⟩ | rfl
    · exact ih (hm s hs u (List.mem_filter.mp hu).1) ht
    · exact hs

/-- A group once captured stays so. -/
theorem isSome_run (hs : (s.captured n).isSome) (ht : t ∈ run r s) : (t.captured n).isSome := by
  induction r generalizing s t with
  | empty =>
    rw [run, List.mem_singleton] at ht
    exact ht ▸ hs
  | char p =>
    rw [run] at ht
    split at ht
    · cases ht
    · split at ht
      · rw [List.mem_singleton] at ht
        exact ht ▸ hs
      · cases ht
  | lineStart | lineEnd =>
    rw [run] at ht
    split at ht
    · rw [List.mem_singleton] at ht
      exact ht ▸ hs
    · cases ht
  | cat r q ihr ihq =>
    rw [run, List.mem_flatMap] at ht
    obtain ⟨u, hu, ht⟩ := ht
    exact ihq (ihr hs hu) ht
  | alt r q ihr ihq =>
    rw [run, List.mem_append] at ht
    rcases ht with ht | ht
    · exact ihr hs ht
    · exact ihq hs ht
  | star r ih => exact isSome_rounds (fun s hs t ht => ih hs ht) _ hs ht
  | group m r ih =>
    rw [run, List.mem_map] at ht
    obtain ⟨u, hu, rfl⟩ := ht
    rcases eq_or_ne n m with rfl | hne
    · simp
    · dsimp only
      rw [Function.update_of_ne hne]
      exact ih hs hu

/-- **A group that is on every way through the pattern is captured**, however the pattern reads. -/
theorem isSome_of_binds (hr : r.binds n = true) (ht : t ∈ run r s) : (t.captured n).isSome := by
  induction r generalizing s t with
  | empty | char | lineStart | lineEnd | star => simp [binds] at hr
  | cat r q ihr ihq =>
    rw [run, List.mem_flatMap] at ht
    obtain ⟨u, hu, ht⟩ := ht
    rw [binds, Bool.or_eq_true] at hr
    rcases hr with hr | hq
    · exact isSome_run (ihr hr hu) ht
    · exact ihq hq ht
  | alt r q ihr ihq =>
    rw [binds, Bool.and_eq_true] at hr
    rw [run, List.mem_append] at ht
    rcases ht with ht | ht
    · exact ihr hr.1 ht
    · exact ihq hr.2 ht
  | group m r ih =>
    rw [run, List.mem_map] at ht
    obtain ⟨u, hu, rfl⟩ := ht
    rcases eq_or_ne n m with rfl | hne
    · simp
    · rw [binds, Bool.or_eq_true, beq_iff_eq] at hr
      dsimp only
      rw [Function.update_of_ne hne]
      exact ih (hr.resolve_left hne.symm) hu

theorem isSome_find (hr : r.binds n = true) {before text : List Char}
    (h : r.find before text = some t) : (t.captured n).isSome := by
  induction text generalizing before with
  | nil => exact isSome_of_binds hr (List.mem_of_mem_head? h)
  | cons c rest ih =>
    rw [find] at h
    split at h
    case h_1 u hu => exact isSome_of_binds hr (List.mem_of_mem_head? (Option.some.inj h ▸ hu))
    case h_2 => exact ih h

/-- **It is captured in the match of a text.** -/
theorem isSome_captures (hr : r.binds n = true) {text : List Char} {c : N → Option (List Char)}
    (h : r.captures text = some c) : (c n).isSome := by
  obtain ⟨t, ht, rfl⟩ := Option.map_eq_some_iff.mp h
  exact isSome_find hr ht

theorem isSome_capturesFrom (hr : r.binds n = true) (fuel : ℕ) {before text : List Char}
    {c : N → Option (List Char)} (h : c ∈ r.capturesFrom fuel before text) : (c n).isSome := by
  induction fuel generalizing before text with
  | zero => cases h
  | succ fuel ih =>
    rw [capturesFrom] at h
    split at h
    case h_1 => cases h
    case h_2 s hs =>
      rcases List.mem_cons.mp h with rfl | h
      · exact isSome_find hr hs
      · exact ih h

/-- **And so in all the matches of a text.** -/
theorem isSome_capturesIter (hr : r.binds n = true) {text : List Char}
    {c : N → Option (List Char)} (h : c ∈ r.capturesIter text) : (c n).isSome :=
  isSome_capturesFrom hr _ h

end Regex

end Mpz
