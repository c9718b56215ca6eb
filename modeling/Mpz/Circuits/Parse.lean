import Mathlib.Algebra.GroupWithZero.Nat
import Mathlib.Data.List.Range
import Mpz.Circuits.Build
import Mpz.Lib.Regex

/-!
# The parser of Bristol circuits

The header and the gates of a file are found by two patterns, each over the whole text. The numbers
that the groups captured are then combined: the wires of the file are looked up in a map to the
feeds of a builder, and the outputs are the last wires that the header counts.

Three things depend on the outside. `digit` is the class of decimal digits that the patterns know,
`maxCapacity` the largest map that can be asked for, and sums are those of a build that checks
overflows.

## Main definitions

* `headerPattern`, `gatePattern`, `usizeFromStr`, `splitWhitespace`
* `readHeader`, `UncheckedGate.parse`, `addAll`, `Circuit.parseStr` — the parser

## Main results

* `readHeader_ne_panic`, `UncheckedGate.parse_ne_panic` — the groups that are unwrapped take part in
  every match
-/

namespace Mpz

/-! ### The patterns -/

/-- The groups of the header. -/
inductive HeaderGroup where
  | gateCount
  | wireCount
  | inputLine
  | outputLine
  deriving DecidableEq, Repr

/-- The groups of a gate. -/
inductive GateGroup where
  | inputCount
  | outputCount
  | xref
  | yref
  | zref
  | gate
  deriving DecidableEq, Repr

/-- White space, as Unicode has it. -/
def isWhitespace (c : Char) : Bool :=
  (0x9 ≤ c.toNat && c.toNat ≤ 0xd) || (0x2000 ≤ c.toNat && c.toNat ≤ 0x200a) ||
    [0x20, 0x85, 0xa0, 0x1680, 0x2028, 0x2029, 0x202f, 0x205f, 0x3000].contains c.toNat

section Pattern

variable {N : Type} (digit : Char → Bool)

/-- `\s` -/
def space : Regex N := .char isWhitespace

/-- `\d+` -/
def digits : Regex N := .plus (.char digit)

/-- `\d+(?:\s+\d+)*` -/
def numbers : Regex N := .cat (digits digit) (.star (.cat (.plus space) (digits digit)))

/-- `\s*\n` -/
def newline : Regex N := .cat (.star space) (.lit ['\n'])

/-- `^(?P<gate_count>\d+)\s+(?P<wire_count>\d+)\s*\n`, and then
`(?P<input_line>\d+(?:\s+\d+)*)\s*\n(?P<output_line>\d+(?:\s+\d+)*)\s*$` -/
def headerPattern : Regex HeaderGroup := .seq [
  .lineStart,
  .group .gateCount (digits digit), .plus space,
  .group .wireCount (digits digit), newline,
  .group .inputLine (numbers digit), newline,
  .group .outputLine (numbers digit), .star space, .lineEnd]

/-- `(?P<input_count>\d+)\s(?P<output_count>\d+)\s(?P<xref>\d+)\s(?:(?P<yref>\d+)\s)?`, and then
`(?P<zref>\d+)\s(?P<gate>INV|AND|XOR)` -/
def gatePattern : Regex GateGroup := .seq [
  .group .inputCount (digits digit), space,
  .group .outputCount (digits digit), space,
  .group .xref (digits digit), space,
  .opt (.cat (.group .yref (digits digit)) space),
  .group .zref (digits digit), space,
  .group .gate (.alt (.lit ['I', 'N', 'V']) (.alt (.lit ['A', 'N', 'D']) (.lit ['X', 'O', 'R'])))]

end Pattern

/-! ### Numbers -/

/-- Why a number is not read. -/
inductive IntErrorKind where
  | empty
  | invalidDigit
  | posOverflow
  deriving DecidableEq, Repr

/-- The digits that follow those of `n`. -/
def usizeDigits (n : ℕ) : List Char → Except IntErrorKind ℕ
  | [] => .ok n
  | c :: cs =>
    if c.isDigit then
      if 10 * n + (c.toNat - 48) < 2 ^ 64 then usizeDigits (10 * n + (c.toNat - 48)) cs
      else .error .posOverflow
    else
      .error .invalidDigit

/-- `usize::from_str` -/
def usizeFromStr : List Char → Except IntErrorKind ℕ
  | [] => .error .empty
  | '+' :: c :: cs => usizeDigits 0 (c :: cs)
  | cs => usizeDigits 0 cs

/-- `str::split_whitespace` -/
def splitWhitespace (text : List Char) : List (List Char) :=
  (text.splitOnP isWhitespace).filter fun s => !s.isEmpty

/-- A sum of `usize` that overflows is a panic. -/
def checkedSize (n : ℕ) : Option ℕ := if n < 2 ^ 64 then some n else none

@[simp] theorem checkedSize_eq_some {n m : ℕ} : checkedSize n = some m ↔ n < 2 ^ 64 ∧ n = m := by
  unfold checkedSize
  split <;> simp only [Option.some.injEq, reduceCtorEq, *] <;> simp

/-! ### The parser -/

/-- An error of the parser. -/
inductive ParseError where
  /-- invalid header -/
  | invalidHeader
  /-- The error of a number. -/
  | parseIntError (kind : IntErrorKind)
  /-- uninitialized feed: {0} -/
  | uninitializedFeed (i : ℕ)
  /-- unsupported gate type: {0} -/
  | unsupportedGateType (gateType : List Char)
  /-- The error of the builder. -/
  | builderError (e : BuilderError)
  deriving DecidableEq, Repr

/-- `s.parse::<usize>()?` -/
def parseUsize (s : List Char) : Outcome ParseError ℕ :=
  match usizeFromStr s with
  | .ok n => .ok n
  | .error kind => .err (.parseIntError kind)

/-- All of the numbers, or the error of the first that is none. -/
def parseUsizes : List (List Char) → Outcome ParseError (List ℕ)
  | [] => .ok []
  | s :: l => do
    let n ← parseUsize s
    let ns ← parseUsizes l
    return n :: ns

/-- The numbers of a line, the first of which is their count, and skipped. -/
def parseLine (line : List Char) : Outcome ParseError (List ℕ) :=
  parseUsizes ((splitWhitespace line).drop 1)

/-- What is read of a header. -/
structure Header where
  gateCount : ℕ
  inputLengths : List ℕ
  outputLengths : List ℕ
  deriving DecidableEq, Repr

/-- The header of a text. -/
def readHeader (digit : Char → Bool) (text : List Char) : Outcome ParseError Header :=
  match (headerPattern digit).captures text with
  | none => .err .invalidHeader
  | some captures => do
    let gateCount ← .ofOption (captures .gateCount)
    let gateCount ← parseUsize gateCount
    let inputLine ← .ofOption (captures .inputLine)
    let inputLengths ← parseLine inputLine
    let outputLine ← .ofOption (captures .outputLine)
    let outputLengths ← parseLine outputLine
    return ⟨gateCount, inputLengths, outputLengths⟩

/-- The type of a gate. -/
inductive GateType where
  | xor
  | and
  | inv
  | id
  deriving DecidableEq, Repr

/-- The gate reads two wires. -/
def GateType.isBinary : GateType → Bool
  | xor | and => true
  | inv | id => false

/-- A gate as it stands in the file. -/
structure UncheckedGate where
  xref : ℕ
  yref : Option ℕ
  zref : ℕ
  gateType : GateType
  deriving DecidableEq, Repr

/-- The gate type that a word stands for. -/
def parseGateType (gateType : List Char) : Outcome ParseError GateType :=
  if gateType = ['X', 'O', 'R'] then .ok .xor
  else if gateType = ['A', 'N', 'D'] then .ok .and
  else if gateType = ['I', 'N', 'V'] then .ok .inv
  else .err (.unsupportedGateType gateType)

/-- An optional number. -/
def parseOption : Option (List Char) → Outcome ParseError (Option ℕ)
  | none => .ok none
  | some s => do
    let n ← parseUsize s
    return some n

/-- The gate of a match. -/
def UncheckedGate.parse (captures : GateGroup → Option (List Char)) :
    Outcome ParseError UncheckedGate := do
  let xref ← .ofOption (captures .xref)
  let xref ← parseUsize xref
  let yref ← parseOption (captures .yref)
  let zref ← .ofOption (captures .zref)
  let zref ← parseUsize zref
  let gate ← .ofOption (captures .gate)
  let gateType ← parseGateType gate
  return ⟨xref, yref, zref, gateType⟩

/-- The builder, and the feeds of the wires. -/
structure Feeds where
  builder : CircuitBuilder
  feedMap : ℕ → Option ℕ

namespace Feeds

/-- A call of the builder. -/
def build {α : Type} (m : Method CircuitBuilder ParseError α) : Method Feeds ParseError α :=
  .zoom Feeds.builder (fun self builder => { self with builder }) (fun e => e) m

/-- `feed_map.get(&i).ok_or(ParseError::UninitializedFeed(i))?` -/
def get (i : ℕ) : Method Feeds ParseError ℕ := fun self =>
  match self.feedMap i with
  | some node => (.ok node, self)
  | none => (.err (.uninitializedFeed i), self)

/-- `feed_map.insert(i, node)` -/
def insert (i node : ℕ) : Method Feeds ParseError Unit :=
  .modify fun self => { self with feedMap := Function.update self.feedMap i (some node) }

/-- An input is added, under its number in the file. -/
def addInput (i : ℕ) : Method Feeds ParseError Unit := do
  let node ← build CircuitBuilder.addInput
  insert i node

/-- A gate that was read is added. -/
def addUnchecked : UncheckedGate → Method Feeds ParseError Unit
  | ⟨xref, yref, zref, .xor⟩ => do
    let newX ← get xref
    let yref ← .call (.ofOption yref)
    let newY ← get yref
    let z ← build (CircuitBuilder.addXorGate newX newY)
    insert zref z
  | ⟨xref, yref, zref, .and⟩ => do
    let newX ← get xref
    let yref ← .call (.ofOption yref)
    let newY ← get yref
    let newZ ← build (CircuitBuilder.addAndGate newX newY)
    insert zref newZ
  | ⟨xref, _, zref, .inv⟩ => do
    let newX ← get xref
    let newZ ← build (CircuitBuilder.addInvGate newX)
    insert zref newZ
  | ⟨xref, _, zref, .id⟩ => do
    let newX ← get xref
    let newZ ← build (CircuitBuilder.addIdGate newX)
    insert zref newZ

/-- A gate of the file is added. -/
def addGate (captures : GateGroup → Option (List Char)) : Method Feeds ParseError Unit := do
  let gate ← .call (UncheckedGate.parse captures)
  addUnchecked gate

/-- `builder.add_output(*feed_map.get(&i).unwrap())` -/
def addOutput (i : ℕ) : Method Feeds ParseError Unit := fun self =>
  match self.feedMap i with
  | some node => build (CircuitBuilder.addOutput node) self
  | none => (.panic, self)

/-- The outputs, which are the last wires that the header counts. -/
def addOutputs (feedCount : ℕ) (outputLengths : List ℕ) : Method Feeds ParseError Unit := do
  let outputs ← .call (.ofOption (checkedSize outputLengths.sum))
  -- `feed_count - output_lengths.iter().sum::<usize>()`
  if feedCount < outputs then
    .panic
  else
    .forEach addOutput (List.range' (feedCount - outputs) outputs)

/-- The inputs, the gates and the outputs, in their order. -/
def addAll (inputs feedCount : ℕ) (captured : List (GateGroup → Option (List Char)))
    (outputLengths : List ℕ) : Method Feeds ParseError Unit := do
  .forEach addInput (List.range' 0 inputs)
  .forEach addGate captured
  addOutputs feedCount outputLengths

/-- The circuit of the builder, or what kept the file from being read. -/
def finish : Outcome ParseError Unit × Feeds → Outcome ParseError Circuit
  | (.ok _, self) => self.builder.build.mapErr .builderError
  | (.err e, _) => .err e
  | (.panic, _) => .panic

end Feeds

/-- Parses a circuit in Bristol-fashion format from a string. -/
def Circuit.parseStr (maxCapacity : ℕ) (digit : Char → Bool) (text : List Char) :
    Outcome ParseError Circuit := do
  let header ← readHeader digit text
  let inputs ← .ofOption (checkedSize header.inputLengths.sum)
  let feedCount ← .ofOption (checkedSize (inputs + header.gateCount))
  -- `HashMap::with_capacity(feed_count)`
  if maxCapacity < feedCount then
    .panic
  else
    Feeds.finish (Feeds.addAll inputs feedCount ((gatePattern digit).capturesIter text)
      header.outputLengths ⟨.new, fun _ => none⟩)

/-! ### What the groups captured is there -/

theorem parseUsize_ne_panic (s : List Char) : parseUsize s ≠ .panic := by
  unfold parseUsize
  split <;> simp

theorem parseGateType_ne_panic (gateType : List Char) : parseGateType gateType ≠ .panic := by
  unfold parseGateType
  split_ifs <;> simp

/-- A sequence comes back when both of its halves do. -/
theorem Outcome.bind_ne_panic {ε α β : Type} {o : Outcome ε α} {f : α → Outcome ε β}
    (ho : o ≠ .panic) (hf : ∀ a, f a ≠ .panic) : (o >>= f) ≠ .panic := by
  cases o with
  | ok a => exact hf a
  | err e => simp
  | panic => exact absurd rfl ho

/-- What is captured in every match is unwrapped without a panic. -/
theorem ofOption_ne_panic {ε α : Type} {o : Option α} (h : o.isSome) :
    (.ofOption o : Outcome ε α) ≠ .panic := by
  obtain ⟨a, rfl⟩ := Option.isSome_iff_exists.mp h
  simp

theorem parseLine_ne_panic (line : List Char) : parseLine line ≠ .panic := by
  unfold parseLine
  induction (splitWhitespace line).drop 1 with
  | nil => simp [parseUsizes]
  | cons s l ih =>
    refine Outcome.bind_ne_panic (parseUsize_ne_panic s) fun _ => ?_
    exact Outcome.bind_ne_panic ih fun _ => by simp

theorem parseOption_ne_panic (s : Option (List Char)) : parseOption s ≠ .panic := by
  cases s with
  | none => simp [parseOption]
  | some s => exact Outcome.bind_ne_panic (parseUsize_ne_panic s) fun _ => by simp

variable {digit : Char → Bool} {text : List Char}

theorem readHeader_ne_panic (digit : Char → Bool) (text : List Char) :
    readHeader digit text ≠ .panic := by
  unfold readHeader
  split
  case h_1 => simp
  case h_2 captures hc =>
    refine Outcome.bind_ne_panic (ofOption_ne_panic (Regex.isSome_captures rfl hc)) fun _ => ?_
    refine Outcome.bind_ne_panic (parseUsize_ne_panic _) fun _ => ?_
    refine Outcome.bind_ne_panic (ofOption_ne_panic (Regex.isSome_captures rfl hc)) fun _ => ?_
    refine Outcome.bind_ne_panic (parseLine_ne_panic _) fun _ => ?_
    refine Outcome.bind_ne_panic (ofOption_ne_panic (Regex.isSome_captures rfl hc)) fun _ => ?_
    exact Outcome.bind_ne_panic (parseLine_ne_panic _) fun _ => by simp

theorem UncheckedGate.parse_ne_panic {captures : GateGroup → Option (List Char)}
    (hc : captures ∈ (gatePattern digit).capturesIter text) :
    UncheckedGate.parse captures ≠ .panic := by
  unfold UncheckedGate.parse
  refine Outcome.bind_ne_panic (ofOption_ne_panic (Regex.isSome_capturesIter rfl hc)) fun _ => ?_
  refine Outcome.bind_ne_panic (parseUsize_ne_panic _) fun _ => ?_
  refine Outcome.bind_ne_panic (parseOption_ne_panic _) fun _ => ?_
  refine Outcome.bind_ne_panic (ofOption_ne_panic (Regex.isSome_capturesIter rfl hc)) fun _ => ?_
  refine Outcome.bind_ne_panic (parseUsize_ne_panic _) fun _ => ?_
  refine Outcome.bind_ne_panic (ofOption_ne_panic (Regex.isSome_capturesIter rfl hc)) fun _ => ?_
  exact Outcome.bind_ne_panic (parseGateType_ne_panic _) fun _ => by simp

end Mpz
