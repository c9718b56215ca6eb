import Mpz.Circuits.Circuit
import Mathlib.Logic.Function.Basic

/-!
# The circuit builder

A circuit is built gate by gate. A node is the id of a feed, of which 0 and 1 are the constants. A
gate on constants is folded: what is returned is a constant or one of the operands, and no gate is
added. The ids are final only when the circuit is built; until then each gate writes the next one.

## Main definitions

* `CircuitBuilder` — the builder; its gates write feeds that are not constants
* `CircuitBuilder.addXorGate`, `addAndGate`, `addInvGate`, `addIdGate`
* `CircuitBuilder.value` — what the feeds come to be under an assignment of the inputs
* `CircuitBuilder.Holds` — a node with a value
* `CircuitBuilder.Gives` — a method of the builder that comes back, and what its nodes hold

## Main results

* `CircuitBuilder.gives_addXorGate`, `gives_addAndGate`, `gives_addInvGate`, `gives_addIdGate` —
  every gate computes what it is named after, folded or not, and leaves all other nodes as they are
-/

namespace Mpz

/-- What a gate does to the values of the feeds. -/
def Gate.write (v : ℕ → Bool) : Gate → ℕ → Bool
  | .xor x y z => Function.update v z (v x ^^ v y)
  | .and x y z => Function.update v z (v x && v y)
  | .inv x z => Function.update v z (!v x)
  | .id x z => Function.update v z (v x)

theorem Gate.write_of_ne (v : ℕ → Bool) (gate : Gate) {i : ℕ} (h : i ≠ gate.z) :
    gate.write v i = v i := by
  cases gate <;> exact Function.update_of_ne h _ _

/-- A circuit builder. -/
structure CircuitBuilder where
  /-- The next feed. -/
  feedId : ℕ
  /-- The inputs. -/
  inputs : List ℕ
  /-- The outputs. -/
  outputs : List ℕ
  /-- The gates. -/
  gates : List Gate
  /-- The number of AND gates. -/
  andCount : ℕ
  /-- The number of XOR gates. -/
  xorCount : ℕ
  two_le : 2 ≤ feedId
  writes : ∀ gate ∈ gates, 2 ≤ gate.z ∧ gate.z < feedId

namespace CircuitBuilder

variable {ε α β : Type}

/-- Creates a new circuit builder: ids 0 and 1 are reserved for constant zero and one. -/
def new : CircuitBuilder := ⟨2, [], [], [], 0, 0, le_rfl, nofun⟩

/-- Returns constant zero node. -/
def getConstZero : ℕ := 0

/-- Returns constant one node. -/
def getConstOne : ℕ := 1

/-- A feed is added. -/
def addFeed : Method CircuitBuilder ε ℕ := fun self =>
  (.ok self.feedId, { self with
    feedId := self.feedId + 1
    two_le := Nat.le_succ_of_le self.two_le
    writes := fun gate hgate => (self.writes gate hgate).imp_right Nat.lt_succ_of_lt })

/-- Adds an input to the circuit. -/
def addInput : Method CircuitBuilder ε ℕ := do
  let node ← addFeed
  Method.modify fun self => { self with inputs := self.inputs ++ [node] }
  return node

/-- Adds an output to the circuit. -/
def addOutput (node : ℕ) : Method CircuitBuilder ε Unit :=
  Method.modify fun self => { self with outputs := self.outputs ++ [node] }

/-- A gate is added that writes a new feed. -/
def addGate (gate : ℕ → Gate) (hz : ∀ z, (gate z).z = z) : Method CircuitBuilder ε ℕ := fun self =>
  (.ok self.feedId, { self with
    feedId := self.feedId + 1
    gates := self.gates ++ [gate self.feedId]
    two_le := Nat.le_succ_of_le self.two_le
    writes := fun g hg => (List.mem_append.mp hg).elim
      (fun hg => (self.writes g hg).imp_right Nat.lt_succ_of_lt)
      fun hg => by
        rw [List.mem_singleton.mp hg, hz]
        exact ⟨self.two_le, Nat.lt_succ_self _⟩ })

/-- Adds an XOR gate to the circuit. If either input is a constant, the gate is simplified. -/
def addXorGate (x y : ℕ) : Method CircuitBuilder ε ℕ :=
  if (x = 0 ∧ y = 0) ∨ (x = 1 ∧ y = 1) then
    return getConstZero
  else if x = 0 then
    return y
  else if y = 0 then
    return x
  else if x = 1 then
    addGate (.inv y) fun _ => rfl
  else if y = 1 then
    addGate (.inv x) fun _ => rfl
  else do
    let out ← addGate (.xor x y) fun _ => rfl
    Method.modify fun self => { self with xorCount := self.xorCount + 1 }
    return out

/-- Adds an AND gate to the circuit. If either input is a constant, the gate is simplified. -/
def addAndGate (x y : ℕ) : Method CircuitBuilder ε ℕ :=
  if x = 0 ∨ y = 0 then
    return getConstZero
  else if x = 1 then
    return y
  else if y = 1 then
    return x
  else do
    let out ← addGate (.and x y) fun _ => rfl
    Method.modify fun self => { self with andCount := self.andCount + 1 }
    return out

/-- Adds an INV gate to the circuit. -/
def addInvGate (x : ℕ) : Method CircuitBuilder ε ℕ :=
  if x = 0 then
    return getConstOne
  else if x = 1 then
    return getConstZero
  else
    addGate (.inv x) fun _ => rfl

/-- Adds an identity gate to the circuit. -/
def addIdGate (x : ℕ) : Method CircuitBuilder ε ℕ :=
  if x = 0 then
    return getConstZero
  else if x = 1 then
    return getConstOne
  else
    addGate (.id x) fun _ => rfl

/-! ### What the feeds come to be -/

/-- The constants, in front of an assignment. -/
def constants (v : ℕ → Bool) : ℕ → Bool
  | 0 => false
  | 1 => true
  | i => v i

/-- What the feeds come to be under an assignment of the inputs, when all gates have run. -/
def value (self : CircuitBuilder) (v : ℕ → Bool) :
    ℕ → Bool := self.gates.foldl Gate.write (constants v)

variable {b b' : CircuitBuilder} {v : ℕ → Bool} {x y : ℕ} {p q : Bool}

theorem foldl_write_of_ne {gates : List Gate} {i : ℕ} (h : ∀ gate ∈ gates, i ≠ gate.z)
    (v : ℕ → Bool) : gates.foldl Gate.write v i = v i := by
  induction gates generalizing v with
  | nil => rfl
  | cons gate gates ih =>
    rw [List.foldl_cons, ih fun g hg => h g (List.mem_cons_of_mem _ hg),
      gate.write_of_ne v (h gate List.mem_cons_self)]

theorem value_zero (b : CircuitBuilder) (v : ℕ → Bool) : b.value v 0 = false := by
  refine (foldl_write_of_ne (fun gate hgate => ?_) _).trans rfl
  have := (b.writes gate hgate).1
  omega

theorem value_one (b : CircuitBuilder) (v : ℕ → Bool) : b.value v 1 = true := by
  refine (foldl_write_of_ne (fun gate hgate => ?_) _).trans rfl
  have := (b.writes gate hgate).1
  omega

/-- The builder goes on: there are more feeds, and those that were there keep what they come to
be. -/
structure Extends (b b' : CircuitBuilder) : Prop where
  le : b.feedId ≤ b'.feedId
  value : ∀ v i, i < b.feedId → b'.value v i = b.value v i

theorem Extends.refl (b : CircuitBuilder) : b.Extends b := ⟨le_rfl, fun _ _ _ => rfl⟩

theorem Extends.trans {b'' : CircuitBuilder} (h : b.Extends b') (h' : b'.Extends b'') :
    b.Extends b'' :=
  ⟨h.le.trans h'.le, fun v i hi => (h'.value v i (hi.trans_le h.le)).trans (h.value v i hi)⟩

/-- The node is one of the builder, and comes to be the bit. -/
structure Holds (b : CircuitBuilder) (v : ℕ → Bool) (x : ℕ) (p : Bool) : Prop where
  lt : x < b.feedId
  value : b.value v x = p

theorem Holds.of_extends (h : b.Holds v x p) (hb : b.Extends b') : b'.Holds v x p :=
  ⟨h.lt.trans_le hb.le, (hb.value v x h.lt).trans h.value⟩

theorem Holds.zero (b : CircuitBuilder) (v : ℕ → Bool) : b.Holds v getConstZero false :=
  ⟨Nat.lt_of_lt_of_le (by decide) b.two_le, b.value_zero v⟩

theorem Holds.one (b : CircuitBuilder) (v : ℕ → Bool) : b.Holds v getConstOne true :=
  ⟨Nat.lt_of_lt_of_le (by decide) b.two_le, b.value_one v⟩

theorem Holds.eq_of_zero (h : b.Holds v 0 p) : p = false := h.value.symm.trans (b.value_zero v)

theorem Holds.eq_of_one (h : b.Holds v 1 p) : p = true := h.value.symm.trans (b.value_one v)

/-! ### Methods of the builder -/

/-- The method comes back, the builder goes on, and what is given back satisfies `φ`. -/
def Gives (m : Method CircuitBuilder ε α) (b : CircuitBuilder) (φ : α → CircuitBuilder → Prop) :
    Prop :=
  ∃ a b', m b = (.ok a, b') ∧ b.Extends b' ∧ φ a b'

theorem Gives.pure {a : α} {φ : α → CircuitBuilder → Prop} (h : φ a b) :
    Gives (pure a : Method CircuitBuilder ε α) b φ := ⟨a, b, rfl, .refl b, h⟩

/-- **The rule of a sequence.** -/
theorem Gives.bind {m : Method CircuitBuilder ε α} {f : α → Method CircuitBuilder ε β}
    {φ : α → CircuitBuilder → Prop} {ψ : β → CircuitBuilder → Prop} (hm : Gives m b φ)
    (hf : ∀ a b', b.Extends b' → φ a b' → Gives (f a) b' ψ) : Gives (m >>= f) b ψ := by
  obtain ⟨a, b', hrun, hext, ha⟩ := hm
  obtain ⟨c, b'', hrun', hext', hc⟩ := hf a b' hext ha
  refine ⟨c, b'', ?_, hext.trans hext', hc⟩
  rw [Method.bind_apply_of_ok hrun, hrun']

theorem Gives.mono {m : Method CircuitBuilder ε α} {φ ψ : α → CircuitBuilder → Prop}
    (hm : Gives m b φ) (h : ∀ a b', b.Extends b' → φ a b' → ψ a b') : Gives m b ψ := by
  obtain ⟨a, b', hrun, hext, ha⟩ := hm
  exact ⟨a, b', hrun, hext, h a b' hext ha⟩

/-- What is said of every assignment at once. -/
theorem Gives.forall {m : Method CircuitBuilder ε α} {φ : (ℕ → Bool) → α → CircuitBuilder → Prop}
    (h : ∀ v, Gives m b (φ v)) : Gives m b fun a b' => ∀ v, φ v a b' := by
  obtain ⟨a, b', hrun, hext, -⟩ := h fun _ => false
  refine ⟨a, b', hrun, hext, fun v => ?_⟩
  obtain ⟨a', b'', hrun', -, ha⟩ := h v
  obtain ⟨heq, rfl⟩ := Prod.mk.inj (hrun'.symm.trans hrun)
  obtain rfl := Outcome.ok.inj heq
  exact ha

/-- **A gate is added**, and its output is what the gate makes of the nodes. -/
theorem gives_addGate {gate : ℕ → Gate} (hz : ∀ z, (gate z).z = z) :
    Gives (addGate gate hz : Method CircuitBuilder ε ℕ) b fun z b' =>
      ∀ v, b'.Holds v z ((gate z).write (b.value v) z) := by
  refine ⟨b.feedId, (addGate (ε := ε) gate hz b).2, rfl, ⟨Nat.le_succ _, fun v i hi => ?_⟩,
    fun v => ⟨Nat.lt_succ_self _, ?_⟩⟩
  · show (b.gates ++ [gate b.feedId]).foldl Gate.write (constants v) i = b.value v i
    rw [List.foldl_append, List.foldl_cons, List.foldl_nil,
      Gate.write_of_ne _ _ (by rw [hz]; omega), CircuitBuilder.value]
  · show (b.gates ++ [gate b.feedId]).foldl Gate.write (constants v) b.feedId = _
    rw [List.foldl_append, List.foldl_cons, List.foldl_nil, ← CircuitBuilder.value]

theorem gives_addInv (hx : b.Holds v x p) :
    Gives (addGate (.inv x) fun _ => rfl : Method CircuitBuilder ε ℕ) b fun z b' =>
      b'.Holds v z !p := by
  refine (gives_addGate (fun _ => rfl)).mono fun z b' _ hz => ?_
  have h := hz v
  rwa [Gate.write, Function.update_self, hx.value] at h

/-- A counter of the builder says nothing about its feeds. -/
theorem gives_count {f : CircuitBuilder → CircuitBuilder}
    (hf : ∀ b, (f b).feedId = b.feedId ∧ (f b).gates = b.gates) {z : ℕ} (hz : b.Holds v z p) :
    Gives (do Method.modify f; return z : Method CircuitBuilder ε ℕ) b fun z b' =>
      b'.Holds v z p := by
  have hvalue : ∀ v, (f b).value v = b.value v := fun v => by
    rw [CircuitBuilder.value, (hf b).2, CircuitBuilder.value]
  have hext : b.Extends (f b) := ⟨(hf b).1.ge, fun v i _ => congrFun (hvalue v) i⟩
  exact ⟨z, f b, rfl, hext, hz.of_extends hext⟩

theorem gives_addXorGate (hx : b.Holds v x p) (hy : b.Holds v y q) :
    Gives (addXorGate x y : Method CircuitBuilder ε ℕ) b fun z b' => b'.Holds v z (p ^^ q) := by
  unfold addXorGate
  split
  case isTrue h =>
    refine .pure ?_
    rcases h with ⟨rfl, rfl⟩ | ⟨rfl, rfl⟩
    · rw [hx.eq_of_zero, hy.eq_of_zero]
      exact .zero b v
    · rw [hx.eq_of_one, hy.eq_of_one]
      exact .zero b v
  split
  case isTrue h =>
    subst h
    rw [hx.eq_of_zero, Bool.false_xor]
    exact .pure hy
  split
  case isTrue h =>
    subst h
    rw [hy.eq_of_zero, Bool.xor_false]
    exact .pure hx
  split
  case isTrue h =>
    subst h
    rw [hx.eq_of_one, Bool.true_xor]
    exact gives_addInv hy
  split
  case isTrue h =>
    subst h
    rw [hy.eq_of_one, Bool.xor_true]
    exact gives_addInv hx
  refine (gives_addGate (fun _ => rfl)).bind fun z b' _ hz => gives_count ?_ ?_
  · exact fun _ => ⟨rfl, rfl⟩
  · have h := hz v
    rwa [Gate.write, Function.update_self, hx.value, hy.value] at h

theorem gives_addAndGate (hx : b.Holds v x p) (hy : b.Holds v y q) :
    Gives (addAndGate x y : Method CircuitBuilder ε ℕ) b fun z b' => b'.Holds v z (p && q) := by
  unfold addAndGate
  split
  case isTrue h =>
    refine .pure ?_
    rcases h with rfl | rfl
    · rw [hx.eq_of_zero, Bool.false_and]
      exact .zero b v
    · rw [hy.eq_of_zero, Bool.and_false]
      exact .zero b v
  split
  case isTrue h =>
    subst h
    rw [hx.eq_of_one, Bool.true_and]
    exact .pure hy
  split
  case isTrue h =>
    subst h
    rw [hy.eq_of_one, Bool.and_true]
    exact .pure hx
  refine (gives_addGate (fun _ => rfl)).bind fun z b' _ hz => gives_count ?_ ?_
  · exact fun _ => ⟨rfl, rfl⟩
  · have h := hz v
    rwa [Gate.write, Function.update_self, hx.value, hy.value] at h

theorem gives_addInvGate (hx : b.Holds v x p) :
    Gives (addInvGate x : Method CircuitBuilder ε ℕ) b fun z b' => b'.Holds v z !p := by
  unfold addInvGate
  split
  case isTrue h =>
    subst h
    rw [hx.eq_of_zero]
    exact .pure (.one b v)
  split
  case isTrue h =>
    subst h
    rw [hx.eq_of_one]
    exact .pure (.zero b v)
  exact gives_addInv hx

theorem gives_addIdGate (hx : b.Holds v x p) :
    Gives (addIdGate x : Method CircuitBuilder ε ℕ) b fun z b' => b'.Holds v z p := by
  unfold addIdGate
  split
  case isTrue h =>
    subst h
    rw [hx.eq_of_zero]
    exact .pure (.zero b v)
  split
  case isTrue h =>
    subst h
    rw [hx.eq_of_one]
    exact .pure (.one b v)
  refine (gives_addGate (fun _ => rfl)).mono fun z b' _ hz => ?_
  have h := hz v
  rwa [Gate.write, Function.update_self, hx.value] at h

end CircuitBuilder

end Mpz
