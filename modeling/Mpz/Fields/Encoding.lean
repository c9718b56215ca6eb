import Mathlib
import Mpz.Lib.Bytes

/-!
# The encodings of the fields

An element of a field is encoded as bytes, as bits, and as a sum of powers of two. The three fields
of the crate implement each of the views on their own.

## Main definitions

* `Encodings` — the views of an element that the field trait has
* `Encodings.gf2_64`, `Encodings.gf2_128`, `Encodings.p256` — the fields
* `Consistent` — what it means that the views of an element agree

## Main results

* `consistent_iff` — they agree, but for bytes that `Gf2_64` reads the other way round
-/

namespace Mpz.Fields

/-- `ErrorRepr` -/
inductive FieldError where
  | notCanonical

/-- The encodings of a field. -/
structure Encodings where
  Elem : Type
  zero : Elem
  add : Elem → Elem → Elem
  bitSize : ℕ
  byteSize : ℕ
  /-- `None` is the panic of a shift that overflows. -/
  twoPow : ℕ → Option Elem
  toLeBytes : Elem → List (BitVec 8)
  toBeBytes : Elem → List (BitVec 8)
  tryFrom : List (BitVec 8) → Except FieldError Elem
  getBitLsb0 : Elem → ℕ → Bool
  getBitMsb0 : Elem → ℕ → Bool
  fromLsb0Iter : List Bool → Elem
  fromMsb0Iter : List Bool → Elem

/-! ### Bits of integers -/

/-- `from_lsb0_iter` of an integer: the first bits, missing ones being zero. -/
def fromLsb0Iter (w : ℕ) (bits : List Bool) : BitVec w := BitVec.ofFnLE fun i => bits.getD i false

/-- `from_msb0_iter` of an integer. -/
def fromMsb0Iter (w : ℕ) (bits : List Bool) :
    BitVec w := BitVec.ofFnLE fun i => bits.getD (w - 1 - i) false

/-- An array of bytes, each of which takes the next bits. -/
def bytesFromIter (fromIter : List Bool → BitVec 8) (n : ℕ) (bits : List Bool) : List (BitVec 8) :=
  (List.range n).map fun k => fromIter (bits.drop (8 * k))

/-! ### The fields -/

/-- A field of characteristic two, of an integer of a number of bytes, that is read from bytes in
some order. -/
def binary (byteSize : ℕ) (fromBytes : List (BitVec 8) → ℕ) : Encodings where
  Elem := BitVec (8 * byteSize)
  zero := 0#_
  add x y := x ^^^ y
  bitSize := 8 * byteSize
  byteSize
  twoPow rhs := if rhs < 8 * byteSize then some (1#_ <<< rhs) else none
  toLeBytes x := leBytes byteSize x.toNat
  toBeBytes x := beBytes byteSize x.toNat
  tryFrom value := .ok (BitVec.ofNat _ (fromBytes value))
  getBitLsb0 x index := x.getLsbD index
  getBitMsb0 x index := x.getMsbD index
  fromLsb0Iter bits := fromLsb0Iter _ bits
  fromMsb0Iter bits := fromMsb0Iter _ bits

/-- `Gf2_64`, which is read with `u64::from_be_bytes`. -/
def Encodings.gf2_64 : Encodings := binary 8 ofBeBytes

/-- `Gf2_128`, which is read with `u128::from_le_bytes`. -/
def Encodings.gf2_128 : Encodings := binary 16 ofLeBytes

/-- The modulus of `P256`. -/
def p256Modulus : ℕ := 0xffffffff00000001000000000000000000000000ffffffffffffffffffffffff

/-- `Fq` -/
abbrev Fq : Type := ZMod p256Modulus

namespace P256

/-- `P256::canonical` -/
def canonical (x : Fq) : ℕ := x.val

/-- `P256::two_pow` -/
def twoPow (rhs : ℕ) : Fq := (List.range rhs).foldl (fun out _ => out + out) 1

/-- Converts little-endian bytes into a field element. -/
def tryFrom (value : List (BitVec 8)) : Except FieldError Fq :=
  let int := ofLeBytes value
  if p256Modulus ≤ int then .error .notCanonical else .ok (int : Fq)

end P256

/-- `P256` -/
def Encodings.p256 : Encodings where
  Elem := Fq
  zero := 0
  add x y := x + y
  bitSize := 256
  byteSize := 32
  twoPow rhs := some (P256.twoPow rhs)
  toLeBytes x := leBytes 32 (P256.canonical x)
  toBeBytes x := beBytes 32 (P256.canonical x)
  tryFrom := P256.tryFrom
  getBitLsb0 x index := (P256.canonical x).testBit index
  getBitMsb0 x index := (P256.canonical x).testBit (255 - index)
  fromLsb0Iter bits := (ofLeBytes (bytesFromIter (Fields.fromLsb0Iter 8) 32 bits) : Fq)
  fromMsb0Iter bits := (ofBeBytes (bytesFromIter (Fields.fromMsb0Iter 8) 32 bits) : Fq)

/-! ### Consistency -/

namespace Encodings

variable (F : Encodings)

/-- `iter_lsb0` -/
def iterLsb0 (x : F.Elem) : List Bool := (List.range F.bitSize).map (F.getBitLsb0 x)

/-- `iter_msb0` -/
def iterMsb0 (x : F.Elem) : List Bool := (List.range F.bitSize).map (F.getBitMsb0 x)

/-- The sum of the powers of two of the bits that are set. -/
def weights (x : F.Elem) : Option F.Elem :=
  ((List.range F.bitSize).filter (F.getBitLsb0 x)).foldlM
    (fun acc i => (F.twoPow i).map (F.add acc)) F.zero

end Encodings

/-- The views of an element agree. -/
structure Views (F : Encodings) (x : F.Elem) : Prop where
  bitSize : F.bitSize = 8 * F.byteSize
  toBeBytes : F.toBeBytes x = (F.toLeBytes x).reverse
  length_toLeBytes : (F.toLeBytes x).length = F.byteSize
  bit : ∀ i < F.bitSize, F.getBitLsb0 x i = ((F.toLeBytes x).getD (i / 8) 0#8).getLsbD (i % 8)
  weights : F.weights x = some x
  fromLsb0Iter : F.fromLsb0Iter (F.iterLsb0 x) = x
  fromMsb0Iter : F.fromMsb0Iter (F.iterMsb0 x) = x

/-- The views of an element of a field with a number of elements agree, and it is read back from its
bytes, and from no others. -/
structure Consistent (F : Encodings) (order : ℕ) (x : F.Elem) : Prop extends Views F x where
  tryFrom_toLeBytes : F.tryFrom (F.toLeBytes x) = .ok x
  toLeBytes_of_tryFrom : ∀ value : List (BitVec 8), value.length = F.byteSize →
    F.tryFrom value = .ok x →
    F.toLeBytes x = value
  rejects : ∀ value : List (BitVec 8), value.length = F.byteSize →
    (F.tryFrom value = .error .notCanonical ↔ order ≤ ofLeBytes value)

/-- The fields with byte encodings. -/
inductive Name where
  | gf2_64
  | gf2_128
  | p256

namespace Name

/-- The encodings of a field. -/
def encodings : Name → Encodings
  | .gf2_64 => .gf2_64
  | .gf2_128 => .gf2_128
  | .p256 => .p256

/-- The number of elements of a field. -/
def order : Name → ℕ
  | .gf2_64 => 2 ^ 64
  | .gf2_128 => 2 ^ 128
  | .p256 => p256Modulus

/-- The bytes of an element of `Gf2_64` are the same both ways. -/
def SameBothWays : (name : Name) → name.encodings.Elem → Prop
  | .gf2_64, x => ∀ k < 8, BitVec.extractLsb' (8 * k) 8 x = BitVec.extractLsb' (8 * (7 - k)) 8 x
  | .gf2_128, _ => True
  | .p256, _ => True

end Name

variable {w n : ℕ}

theorem getLsbD_fromLsb0Iter (bits : List Bool) {i : ℕ} (h : i < w) :
    (fromLsb0Iter w bits).getLsbD i = bits.getD i false := by
  rw [fromLsb0Iter, BitVec.getLsbD_ofFnLE, dif_pos h]

theorem getLsbD_fromMsb0Iter (bits : List Bool) {i : ℕ} (h : i < w) :
    (fromMsb0Iter w bits).getLsbD i = bits.getD (w - 1 - i) false := by
  rw [fromMsb0Iter, BitVec.getLsbD_ofFnLE, dif_pos h]

theorem getD_map_range {α : Type} (f : ℕ → α) (a : α) {i : ℕ} (h : i < n) :
    ((List.range n).map f).getD i a = f i := by
  rw [List.getD_eq_getElem?_getD, List.getElem?_map, List.getElem?_range h, Option.map_some,
    Option.getD_some]

/-- Powers of two that are all there are added without a panic. -/
theorem foldlM_map_some {α : Type} (add : α → α → α) {twoPow : ℕ → Option α} {pow : ℕ → α}
    {is : List ℕ} (h : ∀ i ∈ is, twoPow i = some (pow i)) (acc : α) :
    is.foldlM (fun acc i => (twoPow i).map (add acc)) acc =
      some (is.foldl (fun acc i => add acc (pow i)) acc) := by
  induction is generalizing acc with
  | nil => rfl
  | cons i is ih =>
    rw [List.foldlM_cons, h i (List.mem_cons_self ..), Option.map_some, Option.bind_eq_bind,
      Option.bind_some, ih (fun j hj => h j (List.mem_cons_of_mem _ hj)), List.foldl_cons]

/-! ### Fields of characteristic two -/

theorem getLsbD_one_shiftLeft {i j : ℕ} (h : i < w) : (1#w <<< j).getLsbD i = decide (i = j) := by
  rw [← BitVec.twoPow_eq, BitVec.getLsbD_twoPow]
  by_cases hij : i = j
  · rw [hij, decide_eq_true (hij ▸ h), decide_eq_true rfl]
    rfl
  · rw [decide_eq_false hij, decide_eq_false (Ne.symm hij), Bool.and_false]

/-- The bits that are set so far. -/
theorem getLsbD_foldl_xor (x : BitVec w) (n : ℕ) {i : ℕ} (h : i < w) :
    (((List.range n).filter x.getLsbD).foldl (fun acc j => acc ^^^ 1#w <<< j) 0#w).getLsbD i =
      (decide (i < n) && x.getLsbD i) := by
  induction n with
  | zero => rw [List.range_zero, List.filter_nil, List.foldl_nil, BitVec.getLsbD_zero]; rfl
  | succ n ih =>
    rw [List.range_succ, List.filter_append, List.foldl_append]
    cases hn : x.getLsbD n with
    | false =>
      rw [List.filter_cons_of_neg (by rw [hn]; decide), List.filter_nil, List.foldl_nil, ih]
      rcases Nat.lt_trichotomy i n with hlt | rfl | hgt
      · rw [decide_eq_true hlt, decide_eq_true (Nat.lt_succ_of_lt hlt)]
      · rw [hn, Bool.and_false, Bool.and_false]
      · rw [decide_eq_false (Nat.not_lt_of_lt hgt), decide_eq_false (Nat.not_lt_of_le hgt)]
    | true =>
      rw [List.filter_cons_of_pos hn, List.filter_nil, List.foldl_cons, List.foldl_nil,
        BitVec.getLsbD_xor, ih, getLsbD_one_shiftLeft h]
      rcases Nat.lt_trichotomy i n with hlt | rfl | hgt
      · rw [decide_eq_true hlt, decide_eq_true (Nat.lt_succ_of_lt hlt), decide_eq_false hlt.ne,
          Bool.xor_false]
      · rw [hn, decide_eq_false (Nat.lt_irrefl i), decide_eq_true rfl,
          decide_eq_true (Nat.lt_succ_self i)]
        rfl
      · rw [decide_eq_false (Nat.not_lt_of_lt hgt), decide_eq_false hgt.ne',
          decide_eq_false (Nat.not_lt_of_le hgt)]
        rfl

/-- **The views of an element of a field of characteristic two agree**, whatever the order that it
is read in. -/
theorem views_binary (n : ℕ) (fromBytes : List (BitVec 8) → ℕ) (x : BitVec (8 * n)) :
    Views (binary n fromBytes) x where
  bitSize := rfl
  toBeBytes := beBytes_eq n x.toNat
  length_toLeBytes := length_leBytes n x.toNat
  bit i hi := (BitVec.testBit_toNat x).symm.trans (testBit_eq_leBytes hi)
  weights := by
    have hpow : ∀ i ∈ (List.range (8 * n)).filter x.getLsbD,
        (binary n fromBytes).twoPow i = some (1#_ <<< i) := fun i hi =>
      if_pos (List.mem_range.mp (List.mem_of_mem_filter hi))
    refine (foldlM_map_some _ hpow _).trans (congrArg some (BitVec.eq_of_getLsbD_eq fun i hi => ?_))
    refine (getLsbD_foldl_xor x (8 * n) hi).trans ?_
    rw [decide_eq_true hi, Bool.true_and]
  fromLsb0Iter := by
    refine BitVec.eq_of_getLsbD_eq fun i hi => (getLsbD_fromLsb0Iter _ hi).trans ?_
    exact getD_map_range _ _ hi
  fromMsb0Iter := by
    refine BitVec.eq_of_getLsbD_eq fun i hi => (getLsbD_fromMsb0Iter _ hi).trans ?_
    have hlt : 8 * n - 1 - i < 8 * n := by omega
    refine (getD_map_range (fun j => x.getMsbD j) false hlt).trans ?_
    rw [BitVec.getMsbD, decide_eq_true hlt, Bool.true_and]
    congr 1
    omega

theorem tryFrom_binary_iff {fromBytes : List (BitVec 8) → ℕ} {value : List (BitVec 8)}
    {x : BitVec (8 * n)} (h : fromBytes value < 2 ^ (8 * n)) :
    (binary n fromBytes).tryFrom value = .ok x ↔ fromBytes value = x.toNat := by
  have hok : (binary n fromBytes).tryFrom value = .ok x ↔
      BitVec.ofNat (8 * n) (fromBytes value) = x :=
    ⟨Except.ok.inj, congrArg Except.ok⟩
  rw [hok, ← BitVec.toNat_inj, BitVec.toNat_ofNat, Nat.mod_eq_of_lt h]

/-- Bytes that are as many as an element has are never rejected. -/
theorem rejects_binary {fromBytes : List (BitVec 8) → ℕ} {value : List (BitVec 8)}
    (h : value.length = n) :
    (binary n fromBytes).tryFrom value = .error .notCanonical ↔ 2 ^ (8 * n) ≤ ofLeBytes value :=
  ⟨fun herr => (nomatch herr), fun hle => absurd (h ▸ ofLeBytes_lt value) (Nat.not_lt_of_le hle)⟩

/-- **What is read from little-endian bytes is consistent.** -/
theorem consistent_binary (x : BitVec (8 * n)) :
    Consistent (binary n ofLeBytes) (2 ^ (8 * n)) x where
  toViews := views_binary n ofLeBytes x
  tryFrom_toLeBytes := by
    have hx := ofLeBytes_leBytes x.isLt
    exact (tryFrom_binary_iff (hx ▸ x.isLt)).mpr hx
  toLeBytes_of_tryFrom value hlen h := by
    change value.length = n at hlen
    have hlt : ofLeBytes value < 2 ^ (8 * n) := hlen ▸ ofLeBytes_lt value
    have hx := (tryFrom_binary_iff hlt).mp h
    change leBytes n x.toNat = value
    rw [← hx, ← hlen]
    exact leBytes_ofLeBytes value
  rejects _ hlen := rejects_binary hlen

/-- Bytes that are the same both ways are the same, most and least significant first. -/
theorem reverse_leBytes_iff (x : BitVec (8 * n)) : (leBytes n x.toNat).reverse = leBytes n x.toNat ↔
    ∀ k < n, x.extractLsb' (8 * k) 8 = x.extractLsb' (8 * (n - 1 - k)) 8 := by
  have hbyte : ∀ k, BitVec.ofNat 8 (x.toNat >>> (8 * k)) = x.extractLsb' (8 * k) 8 := fun k => rfl
  have hget : ∀ k < n, (leBytes n x.toNat)[k]? = some (x.extractLsb' (8 * k) 8) := fun k hk => by
    rw [leBytes_eq_map, List.getElem?_map, List.getElem?_range hk, Option.map_some, hbyte]
  have hrev : ∀ k < n, (leBytes n x.toNat).reverse[k]? = some (x.extractLsb' (8 * (n - 1 - k)) 8) :=
    fun k hk => by
    rw [List.getElem?_reverse (by rwa [length_leBytes]), length_leBytes, hget _ (by omega)]
  constructor
  · intro h k hk
    have hbytes := hrev k hk
    rw [h, hget k hk] at hbytes
    exact Option.some.inj hbytes
  · intro h
    refine List.ext_getElem? fun k => ?_
    by_cases hk : k < n
    · rw [hrev k hk, hget k hk, h k hk]
    · rw [List.getElem?_eq_none
        (by rw [List.length_reverse, length_leBytes]; exact Nat.le_of_not_lt hk),
        List.getElem?_eq_none (by rw [length_leBytes]; exact Nat.le_of_not_lt hk)]

/-- **What is read from big-endian bytes is consistent where the bytes are the same both ways.** -/
theorem consistent_binary_ofBeBytes (x : BitVec (8 * n)) :
    Consistent (binary n ofBeBytes) (2 ^ (8 * n)) x ↔
    ∀ k < n, x.extractLsb' (8 * k) 8 = x.extractLsb' (8 * (n - 1 - k)) 8 := by
  have hlt : ∀ value : List (BitVec 8), value.length = n → ofBeBytes value < 2 ^ (8 * n) :=
    fun value hlen => by
    rw [ofBeBytes_eq, ← hlen, ← List.length_reverse]
    exact ofLeBytes_lt _
  rw [← reverse_leBytes_iff]
  constructor
  · intro h
    have hx := (tryFrom_binary_iff (hlt _ (length_leBytes n x.toNat))).mp h.tryFrom_toLeBytes
    rw [ofBeBytes_eq] at hx
    calc (leBytes n x.toNat).reverse
        = leBytes (leBytes n x.toNat).reverse.length (ofLeBytes (leBytes n x.toNat).reverse) :=
          (leBytes_ofLeBytes _).symm
      _ = leBytes n x.toNat := by rw [List.length_reverse, length_leBytes, hx]
  · intro hrev
    refine ⟨views_binary n ofBeBytes x, ?_, fun value hlen h => ?_, fun _ hlen =>
      rejects_binary hlen⟩
    · refine (tryFrom_binary_iff (hlt _ (length_leBytes n x.toNat))).mpr ?_
      rw [ofBeBytes_eq, hrev]
      exact ofLeBytes_leBytes x.isLt
    · change value.length = n at hlen
      have hx := (tryFrom_binary_iff (hlt value hlen)).mp h
      rw [ofBeBytes_eq] at hx
      have hvalue : value.reverse = leBytes n x.toNat := by
        rw [← hx, ← hlen, ← List.length_reverse]
        exact (leBytes_ofLeBytes _).symm
      change leBytes n x.toNat = value
      rw [← hrev, ← hvalue, List.reverse_reverse]

/-! ### The prime field -/

instance neZero_p256Modulus : NeZero p256Modulus := ⟨by decide⟩

theorem canonical_lt (x : Fq) : P256.canonical x < 2 ^ (8 * 32) :=
  (ZMod.val_lt x).trans_le (by decide)

theorem natCast_canonical (x : Fq) : (P256.canonical x : Fq) = x := ZMod.natCast_zmod_val x

theorem twoPow_eq (rhs : ℕ) : P256.twoPow rhs = ((2 ^ rhs : ℕ) : Fq) := by
  induction rhs with
  | zero => exact Nat.cast_one.symm
  | succ rhs ih =>
    rw [P256.twoPow] at ih ⊢
    rw [List.range_succ, List.foldl_append, ih, List.foldl_cons, List.foldl_nil, pow_succ, mul_two,
      Nat.cast_add]

/-- The sum of the bits that are set so far. -/
theorem foldl_add_twoPow (v n : ℕ) :
    ((List.range n).filter v.testBit).foldl (fun acc i => acc + P256.twoPow i) 0 =
      ((v % 2 ^ n : ℕ) : Fq) := by
  induction n with
  | zero => rw [pow_zero, Nat.mod_one]; exact Nat.cast_zero.symm
  | succ n ih =>
    have hmod : v % 2 ^ (n + 1) = v % 2 ^ n + 2 ^ n * (v.testBit n).toNat := by
      rw [Nat.mod_pow_succ, Nat.toNat_testBit]
    rw [List.range_succ, List.filter_append, List.foldl_append, ih, hmod]
    cases hn : v.testBit n with
    | false =>
      rw [List.filter_cons_of_neg (by rw [hn]; decide), List.filter_nil, List.foldl_nil]
      rfl
    | true =>
      rw [List.filter_cons_of_pos hn, List.filter_nil, List.foldl_cons, List.foldl_nil, twoPow_eq,
        Bool.toNat_true, mul_one, Nat.cast_add]

/-- The bits of a number, eight at a time, are its bytes. -/
theorem bytesFromIter_fromLsb0Iter (n v : ℕ) :
    bytesFromIter (fromLsb0Iter 8) n ((List.range (8 * n)).map v.testBit) = leBytes n v := by
  rw [leBytes_eq_map, bytesFromIter]
  refine List.map_congr_left fun k hk => BitVec.eq_of_getLsbD_eq fun i hi => ?_
  have hlt : 8 * k + i < 8 * n := by
    have := List.mem_range.mp hk
    omega
  rw [getLsbD_fromLsb0Iter _ hi, List.getD_eq_getElem?_getD, List.getElem?_drop,
    ← List.getD_eq_getElem?_getD, getD_map_range _ _ hlt, BitVec.getLsbD_ofNat, decide_eq_true hi,
    Bool.true_and, Nat.testBit_shiftRight]

theorem bytesFromIter_fromMsb0Iter (n v : ℕ) :
    bytesFromIter (fromMsb0Iter 8) n ((List.range (8 * n)).map fun i => v.testBit (8 * n - 1 - i)) =
      beBytes n v := by
  rw [beBytes_eq, leBytes_eq_map, bytesFromIter]
  refine List.ext_getElem? fun k => ?_
  by_cases hk : k < n
  · rw [List.getElem?_map, List.getElem?_range hk, List.getElem?_reverse (by simpa using hk),
      List.getElem?_map, List.length_map, List.length_range, List.getElem?_range (by omega),
      Option.map_some, Option.map_some]
    refine congrArg some (BitVec.eq_of_getLsbD_eq fun i hi => ?_)
    have hlt : 8 * k + (8 - 1 - i) < 8 * n := by omega
    rw [getLsbD_fromMsb0Iter _ hi, List.getD_eq_getElem?_getD, List.getElem?_drop,
      ← List.getD_eq_getElem?_getD, getD_map_range _ _ hlt, BitVec.getLsbD_ofNat, decide_eq_true hi,
      Bool.true_and, Nat.testBit_shiftRight]
    congr 1
    omega
  · rw [List.getElem?_eq_none (by simpa using hk), List.getElem?_eq_none (by simpa using hk)]

/-- **The views of an element of the prime field agree.** -/
theorem views_p256 (x : Fq) : Views .p256 x where
  bitSize := rfl
  toBeBytes := beBytes_eq 32 (P256.canonical x)
  length_toLeBytes := length_leBytes 32 (P256.canonical x)
  bit i hi := testBit_eq_leBytes hi
  weights := by
    refine (foldlM_map_some Encodings.p256.add (fun i _ => rfl) (0 : Fq)).trans (congrArg some ?_)
    refine (foldl_add_twoPow (P256.canonical x) 256).trans ?_
    rw [Nat.mod_eq_of_lt (canonical_lt x), natCast_canonical]
  fromLsb0Iter := by
    have hbytes := bytesFromIter_fromLsb0Iter 32 (P256.canonical x)
    refine (congrArg (fun bytes => ((ofLeBytes bytes : ℕ) : Fq)) hbytes).trans ?_
    rw [ofLeBytes_leBytes (canonical_lt x), natCast_canonical]
  fromMsb0Iter := by
    have hbytes := bytesFromIter_fromMsb0Iter 32 (P256.canonical x)
    refine (congrArg (fun bytes => ((ofBeBytes bytes : ℕ) : Fq)) hbytes).trans ?_
    rw [ofBeBytes_eq, beBytes_eq, List.reverse_reverse, ofLeBytes_leBytes (canonical_lt x),
      natCast_canonical]

theorem tryFrom_p256_iff {value : List (BitVec 8)} {x : Fq} :
    P256.tryFrom value = .ok x ↔ ofLeBytes value = P256.canonical x := by
  rw [P256.tryFrom]
  split
  case isTrue hle =>
    refine ⟨fun h => (nomatch h), fun h => ?_⟩
    rw [h] at hle
    exact absurd hle (Nat.not_le_of_lt (ZMod.val_lt x))
  case isFalse hlt =>
    constructor
    · intro h
      rw [← Except.ok.inj h, P256.canonical, ZMod.val_natCast_of_lt (Nat.lt_of_not_le hlt)]
    · intro h
      rw [h, natCast_canonical]

theorem tryFrom_p256_error_iff {value : List (BitVec 8)} :
    P256.tryFrom value = .error .notCanonical ↔ p256Modulus ≤ ofLeBytes value := by
  rw [P256.tryFrom]
  split
  case isTrue hle => exact ⟨fun _ => hle, fun _ => rfl⟩
  case isFalse hlt => exact ⟨fun h => (nomatch h), fun h => absurd h hlt⟩

theorem leBytes_canonical_of_tryFrom {value : List (BitVec 8)} {x : Fq} (hlen : value.length = 32)
    (h : P256.tryFrom value = .ok x) : leBytes 32 (P256.canonical x) = value := by
  rw [← tryFrom_p256_iff.mp h, ← hlen]
  exact leBytes_ofLeBytes value

theorem tryFrom_toLeBytes_p256 (x : Fq) : Encodings.p256.tryFrom (Encodings.p256.toLeBytes x) =
    .ok x := by
  have hvalue : ∀ value, value = leBytes 32 (P256.canonical x) → Encodings.p256.tryFrom value =
      .ok x := by
    intro value h
    refine tryFrom_p256_iff.mpr ?_
    rw [h, ofLeBytes_leBytes (canonical_lt x)]
  exact hvalue _ rfl

/-- **The encodings of the prime field are consistent.** -/
theorem consistent_p256 (x : Fq) : Consistent .p256 p256Modulus x where
  toViews := views_p256 x
  tryFrom_toLeBytes := tryFrom_toLeBytes_p256 x
  toLeBytes_of_tryFrom _ hlen h := leBytes_canonical_of_tryFrom hlen h
  rejects _ _ := tryFrom_p256_error_iff

/-! ### The three fields -/

/-- **The views of an element agree, exactly where no bytes are read the other way round.** -/
theorem consistent_iff (name : Name) (x : name.encodings.Elem) :
    Consistent name.encodings name.order x ↔ name.SameBothWays x := by
  cases name with
  | gf2_64 => exact consistent_binary_ofBeBytes (n := 8) x
  | gf2_128 => exact iff_of_true (consistent_binary (n := 16) x) trivial
  | p256 => exact iff_of_true (consistent_p256 x) trivial

/-- One of `Gf2_64` is not read back. -/
theorem not_consistent : ¬ ∀ (name : Name) (x : name.encodings.Elem),
    Consistent name.encodings name.order x := by
  intro h
  have hone : Encodings.gf2_64.tryFrom (Encodings.gf2_64.toLeBytes (1#64)) = .ok (1#64) :=
    (h .gf2_64 (1#64)).tryFrom_toLeBytes
  have hother : Encodings.gf2_64.tryFrom (Encodings.gf2_64.toLeBytes (1#64)) =
      .ok (0x0100000000000000#64) := rfl
  exact absurd (Except.ok.inj (hone.symm.trans hother))
    (by decide : (1#64 : BitVec 64) ≠ 0x0100000000000000#64)

end Mpz.Fields
