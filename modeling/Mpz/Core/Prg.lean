import Mathlib.Logic.Function.Basic
import Mpz.Core.Block
import Mpz.Lib.Run

/-!
# The pseudo-random generator

A generator encrypts blocks of a counter and a stream, eight at a time, and hands out the words of
the eight blocks one after the other. A counter is kept for each stream. The words that are buffered
are kept too when another stream is selected.

## Main definitions

* `Prg`, `Prg.setStreamId`, `Prg.read` — the generator
* `Prg.streamByte` — the bytes of a stream
* `Prg.Isolated` — what is read of a stream is of that stream, and does not depend on the others

## Main results

* `Prg.nextWords_spec` — words are handed out in the order of the stream
* `Prg.streams_isolated` — streams are isolated, where no read begins on words of another stream
* `Prg.not_streams_isolated` — they are not where one does
-/

namespace Mpz

/-- The generator. -/
structure Prg where
  /-- The counter for each stream id that is not selected. -/
  state : BitVec 64 → Option ℕ
  streamId : BitVec 64
  counter : ℕ
  /-- The results of the last call of the block generator. -/
  results : List (BitVec 32)
  /-- The number of results that are used up. -/
  index : ℕ
  /-- The stream that was selected when the results were made. It is not in the source. -/
  source : BitVec 64
  /-- What was read, with the stream that was selected. It is not in the source. -/
  outputs : List (BitVec 64 × List (BitVec 8))

namespace Prg

/-- The number of words of one call of the block generator. -/
def resultsLen : ℕ := 32

/-- `AesEncryptor::AES_BLOCK_COUNT` -/
def aesBlockCount : ℕ := 8

/-- A block of a counter and a stream. -/
def counterBlock (counter : ℕ) (streamId : BitVec 64) : Block := streamId ++ BitVec.ofNat 64 counter

/-- `Prg::from_seed`: there are no results left. -/
def new : Prg where
  state _ := none
  streamId := 0#64
  counter := 0
  results := List.replicate resultsLen 0#32
  index := resultsLen
  source := 0#64
  outputs := []

variable (aes : Block → Block)

/-- Word `q` of a stream. A block has four words, and is encrypted from its number in the low eight
bytes and the stream in the high ones. -/
def streamWord (s : BitVec 64) (q : ℕ) : BitVec 32 :=
  (aes (BitVec.ofNat 128 (2 ^ 64 * s.toNat + q / 4 % 2 ^ 64))).extractLsb' (32 * (q % 4)) 32

/-- Byte `p` of a stream. -/
def streamByte (s : BitVec 64) (p : ℕ) :
    BitVec 8 := (streamWord aes s (p / 4)).extractLsb' (8 * (p % 4)) 8

/-- The bytes of a word. -/
def wordBytes (word : BitVec 32) : List (BitVec 8) := (List.range 4).map fun j =>
  word.extractLsb' (8 * j) 8

/-- Computes 8 encrypted counter blocks at a time. A counter that overflows is a panic. -/
def generate (self : Prg) : Option Prg :=
  if 2 ^ 64 ≤ self.counter + aesBlockCount then none
  else some { self with
    results := (List.range aesBlockCount).flatMap fun i =>
      (List.range 4).map fun j =>
        (aes (counterBlock (self.counter + i) self.streamId)).extractLsb' (32 * j) 32
    counter := self.counter + aesBlockCount
    index := 0
    source := self.streamId }

/-- The results are made anew when they are used up. -/
def refill (self : Prg) :
    Option Prg := if resultsLen ≤ self.index then self.generate aes else some self

/-- The next of the results. -/
def takeWord (self : Prg) : Option (BitVec 32 × Prg) := do
  let word ← self.results[self.index]?
  return (word, { self with index := self.index + 1 })

/-- The next word. -/
def nextWord (self : Prg) : Option (BitVec 32 × Prg) := do
  let self ← self.refill aes
  self.takeWord

/-- The next words. -/
def nextWords : ℕ → Prg → Option (List (BitVec 32) × Prg)
  | 0, self => some ([], self)
  | n + 1, self => do
    let (word, self) ← self.nextWord aes
    let (words, self) ← nextWords n self
    return (word :: words, self)

/-- A read of `n` bytes uses up as many words as it needs. -/
def read (n : ℕ) (self : Prg) : Option Prg := do
  let (words, self) ← nextWords aes ((n + 3) / 4) self
  return { self with outputs := self.outputs ++
    [(self.streamId, (words.flatMap wordBytes).take n)] }

/-- `try_next_u32` -/
def tryNextU32 (self : Prg) : Option Prg := self.read aes 4

/-- `try_next_u64` -/
def tryNextU64 (self : Prg) : Option Prg := self.read aes 8

/-- `try_fill_bytes` -/
def tryFillBytes (n : ℕ) (self : Prg) : Option Prg := self.read aes n

/-- Sets the stream id. -/
def setStreamId (streamId : BitVec 64) (self : Prg) : Prg :=
  let state := Function.update self.state self.streamId (some self.counter)
  { self with state, streamId, counter := (state streamId).getD 0 }

/-- What can be done with a generator. -/
inductive Act where
  | setStreamId (streamId : BitVec 64)
  | nextU32
  | nextU64
  | fillBytes (n : ℕ)

/-- What an act makes of the generator. -/
def Act.step (self : Prg) : Act → Option Prg
  | .setStreamId streamId => some (self.setStreamId streamId)
  | .nextU32 => self.tryNextU32 aes
  | .nextU64 => self.tryNextU64 aes
  | .fillBytes n => self.tryFillBytes aes n

/-- The number of bytes that an act reads. -/
def Act.len : Act → ℕ
  | .setStreamId _ => 0
  | .nextU32 => 4
  | .nextU64 => 8
  | .fillBytes n => n

/-- No read begins on words that were made for another stream. -/
def Act.Meets (self : Prg) (act : Act) : Prop :=
  act.len = 0 ∨ resultsLen ≤ self.index ∨ self.source = self.streamId

instance (self : Prg) (act : Act) :
    Decidable (act.Meets self) := inferInstanceAs (Decidable (_ ∨ _ ∨ _))

/-- A step of the generator. -/
def Does (self : Prg) (act : Act) (next : Prg) : Prop := Act.step aes self act = some next

/-- A step that meets the condition. -/
def Takes (self : Prg) (act : Act) (next : Prg) : Prop := act.Meets self ∧ Does aes self act next

/-- The counter of a stream, selected or not. -/
def counterOf (self : Prg) (s : BitVec 64) :
    ℕ := if s = self.streamId then self.counter else (self.state s).getD 0

/-- What was read while a stream was selected. -/
def readOf (self : Prg) (s : BitVec 64) : List (BitVec 8) :=
  (self.outputs.filter fun e => e.1 == s).flatMap Prod.snd

/-- The streams are isolated, for a generator and others of the same seed that take such steps. -/
structure Isolated (step : Prg → Act → Prg → Prop) (prg : Prg) : Prop where
  /-- What is read of a stream are bytes of its blocks, each at most once and in their order. -/
  stream : ∀ s, ∃ ps : List ℕ, ps.Pairwise (· < ·) ∧ (∀ p ∈ ps, p < 16 * 2 ^ 64) ∧
    prg.readOf s = ps.map (streamByte aes s)
  /-- The same reads of a stream that nothing was made of before give the same. -/
  same : ∀ (acts : List Act) (other : Prg), Run step new acts other →
    ∀ s, prg.counterOf s = 0 → other.counterOf s = 0 → ∀ reads : List Act,
      (∀ r ∈ reads, ∀ t, r ≠ .setStreamId t) →
      ∀ next next', Run step (prg.setStreamId s) reads next →
        Run step (other.setStreamId s) reads next' →
        next.outputs.drop prg.outputs.length = next'.outputs.drop other.outputs.length

variable {aes} {g u : Prg} {n : ℕ} {t : BitVec 64} {word : BitVec 32}

/-! ### Words -/

/-- The first word of a stream that was not handed out: one that is buffered, or one of the next
block. -/
def frontier (self : Prg) (s : BitVec 64) : ℕ :=
  if self.index < resultsLen ∧ self.source = s then 4 * (self.counterOf s - aesBlockCount) +
    self.index
  else 4 * self.counterOf s

/-- The buffered words are the last ones that were made of their stream. -/
structure Buffered (aes : Block → Block) (prg : Prg) : Prop where
  counter_lt : ∀ s, prg.counterOf s < 2 ^ 64
  made : prg.index < resultsLen → aesBlockCount ≤ prg.counterOf prg.source
  results : ∀ i, prg.index ≤ i → i < resultsLen → prg.results[i]? =
    some (streamWord aes prg.source (4 * (prg.counterOf prg.source - aesBlockCount) + i))

/-- The buffer is used up, or holds words of the selected stream. -/
def Own (self : Prg) : Prop := resultsLen ≤ self.index ∨ self.source = self.streamId

theorem counterOf_streamId (self : Prg) : self.counterOf self.streamId = self.counter := if_pos rfl

theorem flatMap_range_four {α : Type} (f : ℕ → ℕ → α) (n : ℕ) :
    ((List.range n).flatMap fun i => (List.range 4).map (f i)) =
      (List.range (n * 4)).map fun q => f (q / 4) (q % 4) := by
  induction n with
  | zero => rfl
  | succ n ih =>
    rw [List.range_succ (n := n), List.flatMap_append, ih, List.flatMap_singleton, Nat.succ_mul,
      List.range_add, List.map_append, List.map_map]
    congr 1
    refine List.map_congr_left fun i hi => ?_
    have hlt := List.mem_range.mp hi
    rw [Function.comp_apply, show (n * 4 + i) / 4 = n by omega, show (n * 4 + i) % 4 = i by omega]

theorem counterBlock_eq (counter : ℕ) (s : BitVec 64) :
    counterBlock counter s = BitVec.ofNat 128 (2 ^ 64 * s.toNat + counter % 2 ^ 64) := by
  rw [← Block.append_ofNat, BitVec.ofNat_toNat, BitVec.setWidth_eq, counterBlock]

theorem streamWord_eq (s : BitVec 64) (q : ℕ) :
    streamWord aes s q = (aes (counterBlock (q / 4) s)).extractLsb' (32 * (q % 4)) 32 := by
  rw [streamWord, counterBlock_eq]

/-- The results of the block generator are the words of the stream. -/
theorem generate_spec (h : g.generate aes = some u) :
    g.counter + aesBlockCount < 2 ^ 64 ∧ u = { g with
      results := u.results, counter := g.counter + aesBlockCount, index := 0,
        source := g.streamId } ∧
      ∀ i < resultsLen, u.results[i]? = some (streamWord aes g.streamId (4 * g.counter + i)) := by
  rw [generate] at h
  split at h
  case isTrue => cases h
  case isFalse hlt =>
    cases h
    refine ⟨Nat.lt_of_not_le hlt, rfl, fun i hi => ?_⟩
    have hwords : ((List.range aesBlockCount).flatMap fun i => (List.range 4).map fun j =>
        (aes (counterBlock (g.counter + i) g.streamId)).extractLsb' (32 * j) 32) =
        (List.range resultsLen).map fun i => streamWord aes g.streamId (4 * g.counter + i) := by
      rw [flatMap_range_four fun i j => (aes (counterBlock (g.counter + i) g.streamId)).extractLsb'
        (32 * j) 32]
      refine List.map_congr_left fun q _ => ?_
      rw [streamWord_eq, show (4 * g.counter + q) / 4 = g.counter + q / 4 by omega,
        show (4 * g.counter + q) % 4 = q % 4 by omega]
    rw [hwords, List.getElem?_map, List.getElem?_range hi]
    rfl

theorem counterOf_of_ne (h : t ≠ g.streamId) : g.counterOf t = (g.state t).getD 0 := if_neg h

theorem Buffered.generate (h : g.generate aes = some u) (hg : Buffered aes g) :
    Buffered aes u ∧ u.counterOf u.streamId = g.counter + aesBlockCount ∧
      ∀ t, t ≠ g.streamId → u.counterOf t = g.counterOf t := by
  obtain ⟨hlt, hu, hresults⟩ := generate_spec h
  have hself : u.counterOf g.streamId = g.counter + aesBlockCount := by
    rw [hu]
    exact if_pos rfl
  have hother : ∀ t, t ≠ g.streamId → u.counterOf t = g.counterOf t := fun t ht => by
    rw [hu, counterOf_of_ne ht]
    exact if_neg ht
  have hsource : u.source = g.streamId := by rw [hu]
  have hid : u.streamId = g.streamId := by rw [hu]
  refine ⟨⟨fun t => ?_, fun _ => ?_, fun i _ hi => ?_⟩, by rw [hid, hself], hother⟩
  · by_cases ht : t = g.streamId
    · rw [ht, hself]
      exact hlt
    · rw [hother t ht]
      exact hg.counter_lt t
  · rw [hsource, hself]
    exact Nat.le_add_left _ _
  · rw [hsource, hself, Nat.add_sub_cancel, hresults i hi]

/-- What is refilled is what it was, but for words that are there. -/
theorem Buffered.refill (hg : Buffered aes g) (hown : g.Own) (h : g.refill aes = some u) :
    Buffered aes u ∧ u.source = u.streamId ∧ u.index < resultsLen ∧ u.streamId = g.streamId ∧
      u.outputs = g.outputs ∧ ∀ t, u.frontier t = g.frontier t := by
  rw [Prg.refill] at h
  split at h
  case isTrue hfull =>
    obtain ⟨hbuf, hself, hother⟩ := hg.generate h
    obtain ⟨-, hu, -⟩ := generate_spec h
    have hid : u.streamId = g.streamId := by rw [hu]
    have hindex : u.index = 0 := by rw [hu]
    have hsource : u.source = u.streamId := by rw [hu]
    have hlt : u.index < resultsLen := by
      rw [hindex]
      decide
    refine ⟨hbuf, hsource, hlt, hid, by rw [hu], fun t => ?_⟩
    have hempty : g.frontier t = 4 * g.counterOf t := if_neg fun hand =>
      Nat.not_le_of_lt hand.1 hfull
    rw [hempty, frontier]
    by_cases ht : t = g.streamId
    · rw [if_pos ⟨hlt, by rw [hsource, hid, ht]⟩, ht, ← hid, hself, hindex, Nat.add_sub_cancel, hid,
        counterOf_streamId, Nat.add_zero]
    · rw [if_neg fun hand => ht (by rw [← hand.2, hsource, hid]), hother t ht]
  case isFalse hfull =>
    cases h
    exact ⟨hg, hown.resolve_left hfull, Nat.lt_of_not_le hfull, rfl, rfl, fun _ => rfl⟩

/-- A word that is buffered is the next one of its stream. -/
theorem Buffered.takeWord (hg : Buffered aes g) (hsource : g.source = g.streamId)
    (hlt : g.index < resultsLen) (h : g.takeWord = some (word, u)) :
    word = streamWord aes g.streamId (g.frontier g.streamId) ∧ Buffered aes u ∧ u.Own ∧
      u.streamId = g.streamId ∧ u.outputs = g.outputs ∧
      u.frontier g.streamId = g.frontier g.streamId + 1 ∧
      ∀ t, t ≠ g.streamId → u.frontier t = g.frontier t := by
  have hword := hg.results g.index le_rfl hlt
  rw [Prg.takeWord, hword, Option.bind_eq_bind, Option.bind_some, Option.pure_def,
    Option.some.injEq, Prod.mk.injEq] at h
  obtain ⟨hword', hu⟩ := h
  have hmade := hg.made hlt
  have hindex : u.index = g.index + 1 := by rw [← hu]
  have hsource' : u.source = g.source := by rw [← hu]
  have hcounter : ∀ t, u.counterOf t = g.counterOf t := fun t => by
    rw [← hu]
    rfl
  have hfrontier : g.frontier g.streamId =
      4 * (g.counterOf g.streamId - aesBlockCount) + g.index := by
    rw [frontier, if_pos ⟨hlt, hsource⟩]
  refine ⟨?_, ⟨fun t => ?_, fun _ => ?_, fun i hi hi' => ?_⟩, ?_, by rw [← hu], by rw [← hu], ?_,
    fun t ht => ?_⟩
  · rw [hfrontier, ← hword', hsource]
  · rw [hcounter]
    exact hg.counter_lt t
  · rw [hsource', hcounter]
    exact hmade
  · rw [← hu]
    exact hg.results i (by omega) hi'
  · refine .inr ?_
    rw [← hu]
    exact hsource
  · rw [hfrontier, frontier, hindex, hsource', hcounter]
    rw [hsource] at hmade
    split
    case isTrue => exact (Nat.add_assoc _ _ _).symm
    case isFalse hnot =>
      have hfull : ¬ g.index + 1 < resultsLen := fun hlt => hnot ⟨hlt, hsource⟩
      unfold aesBlockCount resultsLen at *
      omega
  · have hne : ¬ g.source = t := fun heq => ht (heq.symm.trans hsource)
    rw [frontier, frontier, hsource', if_neg fun hand => hne hand.2, if_neg fun hand => hne hand.2,
      hcounter]

/-- **A word is the next one of its stream.** -/
theorem nextWord_spec (hg : Buffered aes g) (hown : g.Own) (h : g.nextWord aes = some (word, u)) :
    word = streamWord aes g.streamId (g.frontier g.streamId) ∧ Buffered aes u ∧ u.Own ∧
      u.streamId = g.streamId ∧ u.outputs = g.outputs ∧
      u.frontier g.streamId = g.frontier g.streamId + 1 ∧
      ∀ t, t ≠ g.streamId → u.frontier t = g.frontier t := by
  rw [nextWord, Option.bind_eq_bind, Option.bind_eq_some_iff] at h
  obtain ⟨v, hrefill, htake⟩ := h
  obtain ⟨hbuf, hsource, hlt, hid, hout, hfrontier⟩ := hg.refill hown hrefill
  obtain ⟨h₁, h₂, h₃, h₄, h₅, h₆, h₇⟩ := hbuf.takeWord hsource hlt htake
  rw [hid, hfrontier] at h₁ h₆
  refine ⟨h₁, h₂, h₃, h₄.trans hid, h₅.trans hout, h₆, fun t ht => ?_⟩
  rw [h₇ t (hid ▸ ht), hfrontier]

/-- **Words are handed out in the order of the stream.** -/
theorem nextWords_spec {words : List (BitVec 32)} (hg : Buffered aes g) (hown : n = 0 ∨ g.Own)
    (h : nextWords aes n g = some (words, u)) :
    words = (List.range' (g.frontier g.streamId) n).map (streamWord aes g.streamId) ∧
      Buffered aes u ∧
      u.streamId = g.streamId ∧ u.outputs = g.outputs ∧
      u.frontier g.streamId = g.frontier g.streamId + n ∧
      ∀ t, t ≠ g.streamId → u.frontier t = g.frontier t := by
  induction n generalizing g words with
  | zero =>
    cases h
    exact ⟨rfl, hg, rfl, rfl, rfl, fun _ _ => rfl⟩
  | succ n ih =>
    rw [nextWords, Option.bind_eq_bind, Option.bind_eq_some_iff] at h
    obtain ⟨⟨word, v⟩, hword, h⟩ := h
    rw [Option.bind_eq_bind, Option.bind_eq_some_iff] at h
    obtain ⟨⟨words', w⟩, hwords, h⟩ := h
    cases h
    obtain ⟨h₁, h₂, h₃, h₄, h₅, h₆, h₇⟩ := nextWord_spec hg (hown.resolve_left n.succ_ne_zero) hword
    obtain ⟨k₁, k₂, k₃, k₄, k₅, k₆⟩ := ih h₂ (.inr h₃) hwords
    rw [h₄] at k₁ k₃ k₅ k₆
    refine ⟨?_, k₂, k₃, k₄.trans h₅, ?_, fun t ht => (k₆ t ht).trans (h₇ t ht)⟩
    · rw [h₁, k₁, h₆, List.range'_succ, List.map_cons]
    · rw [k₅, h₆]
      omega

/-! ### Reads -/

/-- The invariant of a run: what was read of a stream is behind its frontier. -/
structure Inv (aes : Block → Block) (prg : Prg) : Prop extends Buffered aes prg where
  stream : ∀ s, ∃ ps : List ℕ, ps.Pairwise (· < ·) ∧ (∀ p ∈ ps, p < 4 * prg.frontier s) ∧
    prg.readOf s = ps.map (streamByte aes s)

theorem frontier_le (hg : Buffered aes g) (s : BitVec 64) : g.frontier s ≤ 4 * g.counterOf s := by
  rw [frontier]
  split
  case isTrue hand =>
    obtain ⟨hlt, rfl⟩ := hand
    have hmade := hg.made hlt
    unfold aesBlockCount resultsLen at *
    omega
  case isFalse => exact le_rfl

theorem inv_new : Inv aes new := by
  have hcounter : ∀ s, new.counterOf s = 0 := fun s => by
    rw [counterOf]
    split <;> rfl
  refine ⟨⟨fun s => ?_, fun hlt => absurd hlt (Nat.lt_irrefl _), fun i hi hi' =>
    absurd hi' (Nat.not_lt_of_le hi)⟩,
    fun s => ⟨[], List.Pairwise.nil, by simp, rfl⟩⟩
  rw [hcounter]
  exact Nat.two_pow_pos 64

/-- The bytes of a word of a stream are bytes of the stream. -/
theorem wordBytes_streamWord (s : BitVec 64) (q : ℕ) :
    wordBytes (streamWord aes s q) = (List.range' (4 * q) 4).map (streamByte aes s) := by
  rw [List.range'_eq_map_range, List.map_map, wordBytes]
  refine List.map_congr_left fun j hj => ?_
  have hlt := List.mem_range.mp hj
  rw [Function.comp_apply, streamByte, show (4 * q + j) / 4 = q by omega, show (4 * q + j) % 4 =
    j by omega]

theorem flatMap_wordBytes (s : BitVec 64) (f n : ℕ) :
    ((List.range' f n).map (streamWord aes s)).flatMap wordBytes =
      (List.range' (4 * f) (4 * n)).map (streamByte aes s) := by
  induction n generalizing f with
  | zero => rfl
  | succ n ih =>
    have hsplit : List.range' (4 * f) (4 * (n + 1)) =
        List.range' (4 * f) 4 ++ List.range' (4 * (f + 1)) (4 * n) := by
      rw [Nat.mul_succ 4 n, Nat.add_comm (4 * n), Nat.mul_succ 4 f]
      exact (List.range'_append_1 ..).symm
    rw [List.range'_succ, List.map_cons, List.flatMap_cons, ih, wordBytes_streamWord, hsplit,
      List.map_append]

theorem readOf_append (self : Prg) (e : BitVec 64 × List (BitVec 8)) (s : BitVec 64) :
    ({ self with outputs := self.outputs ++ [e] } : Prg).readOf s =
      self.readOf s ++ if e.1 = s then e.2 else [] := by
  rw [readOf, List.filter_append, List.flatMap_append, readOf]
  congr 1
  by_cases he : e.1 = s
  · rw [if_pos he, List.filter_cons_of_pos (by simpa using he)]
    simp
  · rw [if_neg he, List.filter_cons_of_neg (by simpa using he)]
    rfl

/-- **A read gives the next bytes of the stream that is selected.** -/
theorem Inv.read (hg : Inv aes g) (hmeets : n = 0 ∨ g.Own) (h : g.read aes n = some u) :
    Inv aes u := by
  rw [Prg.read, Option.bind_eq_bind, Option.bind_eq_some_iff] at h
  obtain ⟨⟨words, v⟩, hrun, h⟩ := h
  cases h
  have hzero : (n + 3) / 4 = 0 ∨ g.Own := hmeets.imp_left fun h => by omega
  obtain ⟨hwords, hbuf, hid, hout, hfrontier, hother⟩ := nextWords_spec hg.toBuffered hzero hrun
  have hsame : ∀ s, v.readOf s = g.readOf s := fun s => by rw [readOf, hout, readOf]
  have hbytes : (words.flatMap wordBytes).take n =
      (List.range' (4 * g.frontier g.streamId) n).map (streamByte aes g.streamId) := by
    rw [hwords, flatMap_wordBytes, ← List.map_take, List.take_range'_of_length_ge (by omega)]
  refine ⟨⟨hbuf.counter_lt, hbuf.made, hbuf.results⟩, fun s => ?_⟩
  obtain ⟨ps, hps, hlt, hread⟩ := hg.stream s
  change ∃ ps : List ℕ, _ ∧ (∀ p ∈ ps, p < 4 * v.frontier s) ∧ _
  rw [readOf_append, hsame, hread, hid, hbytes]
  by_cases hs : g.streamId = s
  · subst hs
    refine ⟨ps ++ List.range' (4 * g.frontier g.streamId) n, ?_, fun p hp => ?_, ?_⟩
    · refine List.pairwise_append.mpr ⟨hps, List.pairwise_lt_range', fun p hp q hq => ?_⟩
      exact (hlt p hp).trans_le (List.mem_range'_1.mp hq).1
    · rw [hfrontier]
      rcases List.mem_append.mp hp with hp | hp
      · have := hlt p hp
        omega
      · have := (List.mem_range'_1.mp hp).2
        omega
    · rw [if_pos rfl, List.map_append]
  · refine ⟨ps, hps, fun p hp => ?_, by rw [if_neg hs, List.append_nil]⟩
    rw [hother s (Ne.symm hs)]
    exact hlt p hp

theorem counterOf_setStreamId (self : Prg) (t s : BitVec 64) :
    (self.setStreamId t).counterOf s = self.counterOf s := by
  rw [counterOf, counterOf]
  show (if s = t then (Function.update self.state self.streamId (some self.counter) t).getD 0
    else (Function.update self.state self.streamId (some self.counter) s).getD 0) = _
  rw [← apply_ite fun q => (Function.update self.state self.streamId (some self.counter) q).getD 0]
  have hite : (if s = t then t else s) = s := by
    split
    case isTrue h => exact h.symm
    case isFalse => rfl
  rw [hite, Function.update_apply]
  split <;> rfl

theorem Inv.setStreamId (hg : Inv aes g) (t : BitVec 64) : Inv aes (g.setStreamId t) := by
  refine ⟨⟨fun s => ?_, fun hlt => ?_, fun i hi hi' => ?_⟩, fun s => ?_⟩
  · rw [counterOf_setStreamId]
    exact hg.counter_lt s
  · rw [counterOf_setStreamId]
    exact hg.made hlt
  · rw [counterOf_setStreamId]
    exact hg.results i hi hi'
  · have hfrontier : (g.setStreamId t).frontier s = g.frontier s := by
      rw [frontier, counterOf_setStreamId]
      rfl
    rw [hfrontier]
    exact hg.stream s

/-- **An act that meets its condition keeps the invariant.** -/
theorem Inv.takes {act : Act} (hg : Inv aes g) (h : Takes aes g act u) : Inv aes u := by
  obtain ⟨hmeets, hstep⟩ := h
  cases act with
  | setStreamId t =>
    cases hstep
    exact hg.setStreamId t
  | nextU32 => exact hg.read hmeets hstep
  | nextU64 => exact hg.read hmeets hstep
  | fillBytes n => exact hg.read hmeets hstep

/-! ### Two generators -/

variable {g' u' : Prg}

/-- Two generators that will hand out the same words: nothing is buffered, or the same. -/
structure Same (a b : Prg) : Prop where
  streamId : a.streamId = b.streamId
  counter : a.counter = b.counter
  buffer : resultsLen ≤ a.index ∧ resultsLen ≤ b.index ∨ a.index = b.index ∧ a.results = b.results

theorem Same.refill (h : Same g g') (hu : g.refill aes = some u) (hu' : g'.refill aes = some u') :
    u.streamId = u'.streamId ∧ u.counter = u'.counter ∧ u.index = u'.index ∧ u.results =
      u'.results := by
  rw [Prg.refill] at hu hu'
  by_cases hfull : resultsLen ≤ g.index
  · have hfull' : resultsLen ≤ g'.index := by
      rcases h.buffer with ⟨-, hle⟩ | ⟨heq, -⟩
      · exact hle
      · exact heq ▸ hfull
    rw [if_pos hfull, generate] at hu
    rw [if_pos hfull', generate] at hu'
    split at hu
    case isTrue => cases hu
    case isFalse =>
      split at hu'
      case isTrue => cases hu'
      case isFalse =>
        cases hu
        cases hu'
        exact ⟨h.streamId, by rw [h.counter], rfl, by rw [h.counter, h.streamId]⟩
  · have hsame : g.index = g'.index ∧ g.results = g'.results := h.buffer.resolve_left fun hand =>
      hfull hand.1
    rw [if_neg hfull] at hu
    rw [if_neg (hsame.1 ▸ hfull)] at hu'
    cases hu
    cases hu'
    exact ⟨h.streamId, h.counter, hsame⟩

theorem Same.nextWord (h : Same g g') {word' : BitVec 32} (hu : g.nextWord aes = some (word, u))
    (hu' : g'.nextWord aes = some (word', u')) : word = word' ∧ Same u u' := by
  rw [Prg.nextWord, Option.bind_eq_bind, Option.bind_eq_some_iff] at hu hu'
  obtain ⟨v, hv, hu⟩ := hu
  obtain ⟨v', hv', hu'⟩ := hu'
  obtain ⟨hid, hcounter, hindex, hresults⟩ := h.refill hv hv'
  rw [takeWord, Option.bind_eq_bind, Option.bind_eq_some_iff] at hu hu'
  obtain ⟨w, hw, hu⟩ := hu
  obtain ⟨w', hw', hu'⟩ := hu'
  rw [hindex, hresults, hw', Option.some.injEq] at hw
  cases hu
  cases hu'
  exact ⟨hw.symm, hid, hcounter, .inr ⟨congrArg (· + 1) hindex, hresults⟩⟩

theorem Same.nextWords (h : Same g g') {words words' : List (BitVec 32)}
    (hu : Prg.nextWords aes n g = some (words, u))
    (hu' : Prg.nextWords aes n g' = some (words', u')) :
    words = words' ∧ Same u u' := by
  induction n generalizing g g' words words' with
  | zero =>
    cases hu
    cases hu'
    exact ⟨rfl, h⟩
  | succ n ih =>
    rw [Prg.nextWords, Option.bind_eq_bind, Option.bind_eq_some_iff] at hu hu'
    obtain ⟨⟨word, v⟩, hv, hu⟩ := hu
    obtain ⟨⟨word', v'⟩, hv', hu'⟩ := hu'
    rw [Option.bind_eq_bind, Option.bind_eq_some_iff] at hu hu'
    obtain ⟨⟨words, w⟩, hw, hu⟩ := hu
    obtain ⟨⟨words', w'⟩, hw', hu'⟩ := hu'
    cases hu
    cases hu'
    obtain ⟨rfl, hsame⟩ := h.nextWord hv hv'
    obtain ⟨rfl, hsame'⟩ := ih hsame hw hw'
    exact ⟨rfl, hsame'⟩

/-- Two generators of which the same was read since a stream was selected that nothing was read of
before. -/
structure Alike (a b : Prg) (n n' : ℕ) : Prop where
  streamId : a.streamId = b.streamId
  counter : a.counter = b.counter
  buffer : a.counter = 0 ∨ Same a b
  outputs : a.outputs.drop n = b.outputs.drop n'
  le : n ≤ a.outputs.length
  le' : n' ≤ b.outputs.length

/-- A generator that begins a read with a counter of zero has nothing buffered. -/
theorem Buffered.full_of_zero (hg : Buffered aes g) (hown : g.Own) (hzero : g.counter = 0) :
    resultsLen ≤ g.index := by
  rcases hown with hfull | hsource
  · exact hfull
  · by_contra hlt
    have hmade := hg.made (Nat.lt_of_not_le hlt)
    rw [hsource, counterOf_streamId, hzero] at hmade
    exact absurd hmade (by decide)

theorem Alike.read {m m' : ℕ} (h : Alike g g' m m') (hg : Buffered aes g) (hg' : Buffered aes g')
    (hmeets : n = 0 ∨ g.Own) (hmeets' : n = 0 ∨ g'.Own) (hu : g.read aes n = some u)
    (hu' : g'.read aes n = some u') : Alike u u' m m' := by
  rw [Prg.read, Option.bind_eq_bind, Option.bind_eq_some_iff] at hu hu'
  obtain ⟨⟨words, v⟩, hv, hu⟩ := hu
  obtain ⟨⟨words', v'⟩, hv', hu'⟩ := hu'
  have hwords : words = words' ∧ v.streamId = v'.streamId ∧ v.counter = v'.counter ∧
      (v.counter = 0 ∨ Same v v') ∧ v.outputs = g.outputs ∧ v'.outputs = g'.outputs := by
    rcases Nat.eq_zero_or_pos n with rfl | hpos
    · cases hv
      cases hv'
      exact ⟨rfl, h.streamId, h.counter, h.buffer, rfl, rfl⟩
    · have hown := hmeets.resolve_left hpos.ne'
      have hown' := hmeets'.resolve_left hpos.ne'
      have hsame : Same g g' := by
        rcases h.buffer with hzero | hsame
        · exact ⟨h.streamId, h.counter,
            .inl ⟨hg.full_of_zero hown hzero, hg'.full_of_zero hown' (h.counter ▸ hzero)⟩⟩
        · exact hsame
      obtain ⟨hwords, hsame'⟩ := hsame.nextWords hv hv'
      obtain ⟨-, -, -, hout, -⟩ := nextWords_spec hg (.inr hown) hv
      obtain ⟨-, -, -, hout', -⟩ := nextWords_spec hg' (.inr hown') hv'
      exact ⟨hwords, hsame'.streamId, hsame'.counter, .inr hsame', hout, hout'⟩
  obtain ⟨rfl, hid, hcounter, hbuffer, hout, hout'⟩ := hwords
  cases hu
  cases hu'
  refine ⟨hid, hcounter, hbuffer.imp_right fun hs => ⟨hs.streamId, hs.counter, hs.buffer⟩,
    ?_, ?_, ?_⟩
  · dsimp only
    rw [hout, hout', List.drop_append_of_le_length h.le, List.drop_append_of_le_length h.le',
      h.outputs, hid]
  · dsimp only
    rw [hout, List.length_append]
    exact Nat.le_add_right_of_le h.le
  · dsimp only
    rw [hout', List.length_append]
    exact Nat.le_add_right_of_le h.le'

theorem Inv.run {acts : List Act} (hg : Inv aes g) (h : Run (Takes aes) g acts u) : Inv aes u :=
  h.invariant hg fun _ _ _ hi ht => hi.takes ht

/-- A run without a step. -/
theorem eq_of_run_nil (h : Run (Takes aes) g [] u) : u = g := by
  generalize hl : ([] : List Act) = l at h
  cases h with
  | nil => rfl
  | snoc => simp at hl

/-- The last step of a run. -/
theorem takes_of_run_snoc {acts : List Act} {act : Act} (h : Run (Takes aes) g (acts ++ [act]) u) :
    ∃ v, Run (Takes aes) g acts v ∧ Takes aes v act u := by
  generalize hl : acts ++ [act] = l at h
  cases h with
  | nil => simp at hl
  | snoc hrun hstep =>
    obtain ⟨rfl, hact⟩ := List.append_inj' hl rfl
    cases hact
    exact ⟨_, hrun, hstep⟩

theorem Alike.takes {m m' : ℕ} {act : Act} (h : Alike g g' m m') (hg : Inv aes g) (hg' : Inv aes g')
    (hact : ∀ t, act ≠ .setStreamId t) (hu : Takes aes g act u) (hu' : Takes aes g' act u') :
    Alike u u' m m' := by
  obtain ⟨hmeets, hstep⟩ := hu
  obtain ⟨hmeets', hstep'⟩ := hu'
  cases act with
  | setStreamId t => exact absurd rfl (hact t)
  | nextU32 => exact h.read hg.toBuffered hg'.toBuffered hmeets hmeets' hstep hstep'
  | nextU64 => exact h.read hg.toBuffered hg'.toBuffered hmeets hmeets' hstep hstep'
  | fillBytes n => exact h.read hg.toBuffered hg'.toBuffered hmeets hmeets' hstep hstep'

/-- **The same reads of both give the same.** -/
theorem Alike.run {m m' : ℕ} {reads : List Act} (h : Alike g g' m m') (hg : Inv aes g)
    (hg' : Inv aes g') (hreads : ∀ r ∈ reads, ∀ t, r ≠ .setStreamId t)
    (hu : Run (Takes aes) g reads u) (hu' : Run (Takes aes) g' reads u') : Alike u u' m m' := by
  induction hu generalizing u' with
  | nil =>
    rw [eq_of_run_nil hu']
    exact h
  | @snoc reads act v w hrun hstep ih =>
    obtain ⟨v', hrun', hstep'⟩ := takes_of_run_snoc hu'
    have halike := ih (fun r hr => hreads r (List.mem_append_left _ hr)) hrun'
    exact halike.takes (hg.run hrun) (hg'.run hrun')
      (hreads act (List.mem_append_right _ (List.mem_singleton_self _)))
      hstep hstep'

/-- **Streams are isolated, where no read begins on words that were made for another stream.** -/
theorem streams_isolated (aes : Block → Block) {acts : List Act} {g : Prg}
    (h : Run (Takes aes) new acts g) :
    Isolated aes (Takes aes) g := by
  have hinv := inv_new.run h
  refine ⟨fun s => ?_, fun acts' other hother s hzero hzero' reads hreads next next' hnext hnext' =>
    ?_⟩
  · obtain ⟨ps, hps, hlt, hread⟩ := hinv.stream s
    refine ⟨ps, hps, fun p hp => ?_, hread⟩
    calc p < 4 * g.frontier s := hlt p hp
      _ ≤ 4 * (4 * g.counterOf s) := Nat.mul_le_mul_left 4 (frontier_le hinv.toBuffered s)
      _ ≤ 4 * (4 * 2 ^ 64) := Nat.mul_le_mul_left 4 (Nat.mul_le_mul_left 4 (hinv.counter_lt s).le)
      _ = 16 * 2 ^ 64 := by rw [← Nat.mul_assoc]
  · have hcounter : (g.setStreamId s).counter = 0 := by
      rw [← hzero, ← counterOf_setStreamId g s s]
      exact (counterOf_streamId _).symm
    have hcounter' : (other.setStreamId s).counter = 0 := by
      rw [← hzero', ← counterOf_setStreamId other s s]
      exact (counterOf_streamId _).symm
    have halike : Alike (g.setStreamId s)
        (other.setStreamId s) g.outputs.length other.outputs.length := by
      refine ⟨rfl, hcounter.trans hcounter'.symm, .inl hcounter, ?_, le_rfl, le_rfl⟩
      exact (List.drop_length (l := g.outputs)).trans (List.drop_length (l := other.outputs)).symm
    exact (halike.run (hinv.setStreamId s) ((inv_new.run hother).setStreamId s) hreads hnext
      hnext').outputs

theorem streams_isolated_three : ∃ g,
    exec (Act.step id) new [.fillBytes 128, .setStreamId 1, .nextU32] = some g ∧
    Isolated id (Takes id) g := by
  have hfill : ∃ g, Act.step id new (.fillBytes 128) = some g ∧
      Act.Meets (g.setStreamId 1) .nextU32 ∧ ∃ u, Act.step id (g.setStreamId 1) .nextU32 = some u :=
    ⟨_, rfl, by decide, _, rfl⟩
  obtain ⟨g, hfill, hmeets, u, hread⟩ := hfill
  have hrun : Run (Takes id) new [.fillBytes 128, .setStreamId 1, .nextU32] u :=
    ((Run.single ⟨.inr (.inl le_rfl), hfill⟩).snoc ⟨.inl rfl, rfl⟩).snoc ⟨hmeets, hread⟩
  refine ⟨u, ?_, streams_isolated id hrun⟩
  rw [exec, hfill, Option.bind_eq_bind, Option.bind_some, exec, Act.step, Option.bind_eq_bind,
    Option.bind_some, exec, hread]
  rfl

/-- A cipher that tells stream 1 from stream 0. -/
def tellsApart (block : Block) : Block := if block.getLsbD 64 then 0#128 else BitVec.allOnes 128

theorem streamByte_tellsApart (p : ℕ) : streamByte tellsApart 1#64 p = 0#8 := by
  have hblock : tellsApart (counterBlock (p / 4 / 4) 1#64) = 0#128 := by
    rw [tellsApart, counterBlock, BitVec.getLsbD_append]
    rfl
  rw [streamByte, streamWord_eq, hblock]
  simp

/-- Words of stream 0 are read of stream 1. -/
theorem not_streams_isolated :
    ¬ ∀ (aes : Block → Block) (acts : List Act) (g : Prg), Run (Does aes) new acts g →
      Isolated aes (Does aes) g := by
  intro h
  have hrun : ∃ g, Run (Does tellsApart) new [.nextU32, .setStreamId 1, .nextU32] g ∧
      g.readOf 1 = List.replicate 4 (BitVec.allOnes 8) := by
    have hread : (exec (Act.step tellsApart) new [.nextU32, .setStreamId 1, .nextU32]).map
        (readOf · 1) =
        some (List.replicate 4 (BitVec.allOnes 8)) := by decide +kernel
    obtain ⟨g, hg, hread⟩ := Option.map_eq_some_iff.mp hread
    exact ⟨g, Run.of_exec (fun _ _ _ h => h) hg, hread⟩
  obtain ⟨g, hrun, hread⟩ := hrun
  obtain ⟨ps, -, -, hps⟩ := (h tellsApart _ g hrun).stream 1
  rw [hread] at hps
  have hmem : BitVec.allOnes 8 ∈ ps.map (streamByte tellsApart 1) := by
    rw [← hps]
    exact List.mem_replicate.mpr ⟨by decide, rfl⟩
  obtain ⟨p, -, hp⟩ := List.mem_map.mp hmem
  rw [show (1 : BitVec 64) = 1#64 from rfl, streamByte_tellsApart] at hp
  exact absurd hp (by decide)

end Prg

end Mpz
