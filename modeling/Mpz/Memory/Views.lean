import Mpz.Hash.Words
import Mpz.Lib.Requests
import Mpz.Memory.Store

/-!
# Typed references

A typed reference is a pointer and a number of elements. References are taken from an allocation,
cut into parts, converted between arrays and vectors, and grouped into tuples. The memory of a tuple
is that of its first component, to which the sizes of all components are added, the one of the first
component too.

Index arithmetic that overflows is a panic in a build with overflow checks, and wraps around in one
without.

Which cells the elements of a reference have is not read off the reference. The elements of an
allocation lie one behind the other in its slice, and each step says which elements it keeps.

## Main definitions

* `Ty`, `Ref` — types and references
* `Ref.toRaw`, `Ty.fromRaw` — the slice of a reference, and the reference of a slice
* `Op` — what is done with a reference
* `Ty.elements`, `Op.elements` — the elements of an allocation, and those that an operation keeps
* `Derived` — the references that come from some allocations, with the cells of their elements
* `Ref.Exact` — a reference addresses its elements, and nothing else

## Main results

* `Derived.exact` — references do, where no index wraps around and tuples begin with an empty
  component that the cells of the others follow
* `not_exact_of_first`, `not_exact` — other tuples do not, and so no pair that is allocated does
-/

namespace Mpz

/-- What a calculation with `usize` gives. -/
def usize (checks : Bool) (n : ℕ) : Option ℕ :=
  if n < 2 ^ 64 then some n else if checks then none else some (n % 2 ^ 64)

/-- The types of references: an item of an array or a vector is a number of cells. -/
inductive Ty where
  | uint (size : ℕ)
  | array (item n : ℕ)
  | vector (item : ℕ)
  | tuple (first : Ty) (rest : List Ty)

/-- The references. -/
inductive Ref where
  | uint (size ptr : ℕ)
  | array (item n : ℕ) (slice : Slice)
  | vector (item ptr itemSize len : ℕ)
  | tuple (first : Ref) (rest : List Ref)

/-- The values. -/
inductive Clear where
  | uint {w : ℕ} (x : BitVec w)
  | items {w : ℕ} (xs : List (BitVec w))
  | tuple (first : Clear) (rest : List Clear)

mutual

/-- `StaticSize::SIZE`, for the types that have one. -/
def Ty.size : Ty → Option ℕ
  | .uint size => some size
  | .array item n => some (n * item)
  | .vector _ => none
  | .tuple first rest => do
    let size ← first.size
    let sizes ← Ty.sizes rest
    return size + sizes

/-- The sum of some sizes. -/
def Ty.sizes : List Ty → Option ℕ
  | [] => some 0
  | ty :: rest => do
    let size ← ty.size
    let sizes ← Ty.sizes rest
    return size + sizes

end

mutual

/-- The type of a reference. -/
def Ref.ty : Ref → Ty
  | .uint size _ => .uint size
  | .array item n _ => .array item n
  | .vector item _ _ _ => .vector item
  | .tuple first rest => .tuple first.ty (Ref.tys rest)

/-- The types of some references. -/
def Ref.tys : List Ref → List Ty
  | [] => []
  | r :: rest => r.ty :: Ref.tys rest

end

mutual

/-- `ToRaw::to_raw` -/
def Ref.toRaw (checks : Bool) : Ref → Option Slice
  | .uint size ptr => some ⟨ptr, size⟩
  | .array _ _ slice => some slice
  | .vector _ ptr itemSize len => do
    let size ← usize checks (itemSize * len)
    return ⟨ptr, size⟩
  | .tuple first rest => do
    let slice ← first.toRaw checks
    -- the first component is one of those that are added
    let size ← usize checks (slice.size + slice.size)
    Ref.addSizes checks ⟨slice.ptr, size⟩ rest

/-- Adds the sizes of components. -/
def Ref.addSizes (checks : Bool) (slice : Slice) : List Ref → Option Slice
  | [] => some slice
  | r :: rest => do
    let nextSlice ← r.toRaw checks
    let size ← usize checks (slice.size + nextSlice.size)
    Ref.addSizes checks ⟨slice.ptr, size⟩ rest

end

mutual

/-- `FromRaw::from_raw`, where the type has it: the components of a tuple have a static size. -/
def Ty.fromRaw (checks : Bool) (slice : Slice) : Ty → Option Ref
  | .uint size => some (.uint size slice.ptr)
  | .array item n => if 0 < n ∧ slice.size % n = 0 then some (.array item n slice) else none
  | .vector item =>
    if item = 0 ∨ checks ∧ slice.size % item ≠ 0 then none
    else some (.vector item slice.ptr item (slice.size / item))
  | .tuple first rest => do
    let size ← first.size
    let first ← first.fromRaw checks ⟨slice.ptr, size⟩
    let rest ← Ty.fromRawAll checks (slice.ptr + size) rest
    return .tuple first rest

/-- The components of a tuple, one behind the other. -/
def Ty.fromRawAll (checks : Bool) (ptr : ℕ) : List Ty → Option (List Ref)
  | [] => some []
  | ty :: rest => do
    let size ← ty.size
    let r ← ty.fromRaw checks ⟨ptr, size⟩
    let rest ← Ty.fromRawAll checks (ptr + size) rest
    return r :: rest

end

/-- The pointer of a reference, which is the one of its first component. -/
def Ref.ptr : Ref → ℕ
  | .uint _ ptr => ptr
  | .array _ _ slice => slice.ptr
  | .vector _ ptr _ _ => ptr
  | .tuple first _ => first.ptr

/-! ### Operations -/

/-- What is done with a reference. -/
inductive Op where
  | arrayGet (m start : ℕ)
  | vectorGet (start stop : ℕ)
  | splitOff (at' : ℕ)
  | truncate (len : ℕ)
  | tryIntoArray (n : ℕ)
  | intoVector

/-- `Array::get` -/
def Ref.arrayGet (checks : Bool) (m start : ℕ) : Ref → Option Ref
  | .array item n slice => do
    let tSize := slice.size / n
    let offset ← usize checks (start * tSize)
    let newStart ← usize checks (slice.ptr + offset)
    let stop ← usize checks (start + m)
    let offset ← usize checks (stop * tSize)
    let newEnd ← usize checks (slice.ptr + offset)
    if newEnd ≤ newStart ∨ slice.ptr + slice.size < newEnd then none
    else some (.array item m ⟨newStart, newEnd - newStart⟩)
  | _ => none

/-- `Vector::get` -/
def Ref.vectorGet (checks : Bool) (start stop : ℕ) : Ref → Option Ref
  | .vector item ptr itemSize len =>
    if len < stop then none
    else do
      let offset ← usize checks (start * itemSize)
      let ptr ← usize checks (ptr + offset)
      return .vector item ptr itemSize (stop - start)
  | _ => none

/-- `Vector::split_off`, which returns one part and leaves the other. -/
def Ref.splitOff (checks : Bool) (at' : ℕ) : Ref → Option (List Ref)
  | .vector item ptr itemSize len =>
    if len < at' then none
    else do
      let offset ← usize checks (at' * itemSize)
      let newPtr ← usize checks (ptr + offset)
      return [.vector item newPtr itemSize (len - at'), .vector item ptr itemSize at']
  | _ => none

/-- `Vector::truncate` -/
def Ref.truncate (newLen : ℕ) : Ref → Option Ref
  | .vector item ptr itemSize len =>
      some (.vector item ptr itemSize (if newLen < len then newLen else len))
  | _ => none

/-- `TryFrom<Vector<T>> for Array<T, N>` -/
def Ref.tryIntoArray (checks : Bool) (n : ℕ) : Ref → Option Ref
  | .vector item ptr itemSize len =>
    if len ≠ n then none
    else do
      let size ← usize checks (itemSize * n)
      if 0 < n ∧ size % n = 0 then some (.array item n ⟨ptr, size⟩) else none
  | _ => none

/-- `From<Array<T, N>> for Vector<T>` -/
def Ref.intoVector : Ref → Option Ref
  | .array item n slice => some (.vector item slice.ptr (slice.size / n) n)
  | _ => none

/-- What an operation gives. `None` is a failure or a panic. -/
def Op.apply (checks : Bool) (r : Ref) : Op → Option (List Ref)
  | .arrayGet m start => (r.arrayGet checks m start).map ([·])
  | .vectorGet start stop => (r.vectorGet checks start stop).map ([·])
  | .splitOff at' => r.splitOff checks at'
  | .truncate len => (r.truncate len).map ([·])
  | .tryIntoArray n => (r.tryIntoArray checks n).map ([·])
  | .intoVector => r.intoVector.map ([·])

mutual

/-- The integers and the items of a type have a size. -/
def Ty.Positive : Ty → Prop
  | .uint size => 0 < size
  | .array item _ => 0 < item
  | .vector item => 0 < item
  | .tuple first rest => first.Positive ∧ Ty.PositiveAll rest

/-- The integers and the items of some types have a size. -/
def Ty.PositiveAll : List Ty → Prop
  | [] => True
  | ty :: rest => ty.Positive ∧ Ty.PositiveAll rest

end

/-- A type is allocated with a number of cells: its size, or a multiple of that of the items of a
vector. -/
def Ty.Allocates (size : ℕ) : Ty → Prop
  | .vector item => ∃ len, size = item * len
  | ty => ty.size = some size

/-! ### Elements -/

/-- The sizes of the elements of a type, of which a number of cells is allocated. The elements of a
tuple are its components. -/
def Ty.elementSizes (size : ℕ) : Ty → List ℕ
  | .uint w => [w]
  | .array item n => List.replicate n item
  | .vector item => List.replicate (size / item) item
  | .tuple first rest => (first :: rest).map fun ty => ty.size.getD 0

/-- The cells of each element of an allocation: they lie one behind the other. -/
def Ty.elements (slice : Slice) (ty : Ty) : List (List ℕ) :=
  (ty.elementSizes slice.size).splitLengths (List.range' slice.ptr slice.size)

/-- The elements of what an operation gives. -/
def Op.elements (elements : List (List ℕ)) : Op → List (List (List ℕ))
  | .arrayGet m start => [(elements.drop start).take m]
  | .vectorGet start stop => [(elements.drop start).take (stop - start)]
  | .splitOff at' => [elements.drop at', elements.take at']
  | .truncate len => [elements.take len]
  | .tryIntoArray _ => [elements]
  | .intoVector => [elements]

/-- A step of a derivation. A tuple is built of a first component with some cells, and of others. -/
inductive Derived.Step where
  | alloc (ty : Ty)
  | op (o : Op) (r : Ref)
  | tuple (first : Ref) (cells : List ℕ) (rest : List (List ℕ))

/-- The references that are derived from some allocations, in steps that are allowed, and the cells
of each of their elements. -/
inductive Derived (checks : Bool) (A : List Slice) (allowed : Derived.Step → Prop) :
    Ref → List (List ℕ) → Prop where
  /-- `MemoryExt::alloc` and `MemoryExt::alloc_vec` -/
  | alloc {ty : Ty} {slice : Slice} {r : Ref} (hpos : ty.Positive) (hty : ty.Allocates slice.size)
    (hmem : slice ∈ A) (hlt : slice.ptr + slice.size < 2 ^ 64) (hallowed : allowed (.alloc ty))
    (hr : ty.fromRaw checks slice = some r) : Derived checks A allowed r (ty.elements slice)
  | op {o : Op} {r r' : Ref} {elements elements' : List (List ℕ)} {rs : List Ref}
    (h : Derived checks A allowed r elements) (hallowed : allowed (.op o r))
    (hrs : o.apply checks r = some rs) (hr' : (r', elements') ∈ rs.zip (o.elements elements)) :
    Derived checks A allowed r' elements'
  | tuple {first : Ref} {elements : List (List ℕ)} {rest : List (Ref × List (List ℕ))}
    (hfirst : Derived checks A allowed first elements)
    (hrest : ∀ p ∈ rest, Derived checks A allowed p.1 p.2)
    (hallowed : allowed (.tuple first elements.flatten (rest.map fun p => p.2.flatten))) :
    Derived checks A allowed (.tuple first (rest.map Prod.fst))
      (elements.flatten :: rest.map fun p => p.2.flatten)

/-! ### Values -/

/-- The content of the memory. -/
abbrev Mem : Type := ℕ → Bool

mutual

/-- `ClearValue::into_clear` -/
def Clear.bits : Clear → List Bool
  | .uint x => intoClear [x]
  | .items xs => intoClear xs
  | .tuple first rest => first.bits ++ Clear.bitsAll rest

/-- The bits of some values. -/
def Clear.bitsAll : List Clear → List Bool
  | [] => []
  | c :: rest => c.bits ++ Clear.bitsAll rest

end

mutual

/-- `ClearValue::from_clear`, for the type of a reference. -/
def Ref.fromClear (bits : List Bool) : Ref → Clear
  | .uint size _ => .uint (word size bits)
  | .array item n _ => .items ((List.range n).map fun i => word item (bits.drop (item * i)))
  | .vector item _ _ len => .items ((List.range len).map fun i => word item (bits.drop (item * i)))
  | .tuple first rest =>
    let size := first.ty.size.getD 0
    .tuple (first.fromClear (bits.take size)) (Ref.fromClearAll (bits.drop size) rest)

/-- The values of the components of a tuple. -/
def Ref.fromClearAll (bits : List Bool) : List Ref → List Clear
  | [] => []
  | r :: rest =>
    let size := r.ty.size.getD 0
    r.fromClear (bits.take size) :: Ref.fromClearAll (bits.drop size) rest

end

mutual

/-- A value of the type of a reference, of as many elements. -/
def Clear.Fits : Clear → Ref → Prop
  | @Clear.uint w _, .uint size _ => size = w
  | @Clear.items w xs, .array item n _ => item = w ∧ xs.length = n
  | @Clear.items w xs, .vector item _ _ len => item = w ∧ xs.length = len
  | .tuple first rest, .tuple r rs => r.ty.size.isSome ∧ first.Fits r ∧ Clear.FitsAll rest rs
  | _, _ => False

/-- Values of the types of some references. -/
def Clear.FitsAll : List Clear → List Ref → Prop
  | [], [] => True
  | c :: rest, r :: rs => r.ty.size.isSome ∧ c.Fits r ∧ Clear.FitsAll rest rs
  | _, _ => False

end

/-- `MemoryExt::assign`: data that has not the length of the slice is not assigned. -/
def Ref.assign (checks : Bool) (mem : Mem) (r : Ref) (clear : Clear) : Option Mem := do
  let slice ← r.toRaw checks
  if clear.bits.length = slice.size then
    some fun i => if slice.ptr ≤ i ∧ i < slice.ptr + slice.size then clear.bits.getD
      (i - slice.ptr) false else mem i
  else none

/-- `MemoryExt::get` -/
def Ref.get (checks : Bool) (mem : Mem) (r : Ref) : Option Clear := do
  let slice ← r.toRaw checks
  return r.fromClear ((List.range' slice.ptr slice.size).map mem)

/-- The number of elements. -/
def Ref.count : Ref → ℕ
  | .uint _ _ => 1
  | .array _ n _ => n
  | .vector _ _ _ len => len
  | .tuple _ rest => rest.length + 1

/-- A reference to an element, and the element of a value. -/
def Ref.element (checks : Bool) (i : ℕ) : Ref → Clear → Option (Ref × Clear)
  | .uint size ptr, clear => some (.uint size ptr, clear)
  | .array item n slice, .items xs => do
    let r ← (Ref.array item n slice).arrayGet checks 1 i
    let x ← xs[i]?
    return (r, .items [x])
  | .vector item ptr itemSize len, .items xs => do
    let r ← (Ref.vector item ptr itemSize len).vectorGet checks i (i + 1)
    let x ← xs[i]?
    return (r, .items [x])
  | .tuple first rest, .tuple c cs => do
    let r ← (first :: rest)[i]?
    let c ← (c :: cs)[i]?
    return (r, c)
  | _, _ => none

/-- The types that have `from_raw`: a tuple has it where the sizes of its components are static. -/
def Ty.HasFromRaw : Ty → Prop
  | .tuple first rest => (Ty.tuple first rest).size.isSome
  | _ => True

/-- The slice of a reference are some cells, in their order. -/
def Ref.IsOf (checks : Bool) (r : Ref) (cells : List ℕ) : Prop :=
  ∃ slice, r.toRaw checks = some slice ∧ List.range' slice.ptr slice.size = cells

/-- A reference addresses its elements, and nothing else. -/
structure Ref.Exact (checks : Bool) (A : List Slice) (r : Ref) (elements : List (List ℕ)) :
    Prop where
  /-- Its slice are the cells of its elements. -/
  raw : r.IsOf checks elements.flatten
  /-- They are cells of an allocation. -/
  inside : ∀ i ∈ elements.flatten, ∃ a ∈ A, a.ptr ≤ i ∧ i < a.ptr + a.size
  /-- The slice gives the reference. -/
  fromRaw : r.ty.HasFromRaw → ∀ slice, r.toRaw checks = some slice →
    r.ty.fromRaw checks slice = some r
  /-- A value that is written is read from the elements, each of which has its own cells. -/
  reads : ∀ (mem : Mem) (clear : Clear), clear.Fits r → ∃ mem', r.assign checks mem clear =
    some mem' ∧
    ∀ i < r.count, ∃ e c cells, r.element checks i clear = some (e, c) ∧ elements[i]? = some cells ∧
      e.IsOf checks cells ∧ e.get checks mem' = some c

/-- No tuple is allocated, no index of an array wraps around, and the first component of a tuple is
empty, and the cells of the others lie one behind the other from its pointer on. -/
def Derived.Step.Meets (checks : Bool) : Derived.Step → Prop
  | .alloc (.tuple _ _) => False
  | .alloc _ => True
  | .op (.arrayGet m start) (.array _ n slice) =>
    checks = true ∨ slice.ptr + (start + m) * (slice.size / n) < 2 ^ 64
  | .op _ _ => True
  | .tuple first cells rest =>
    cells = [] ∧ rest.flatten = List.range' first.ptr rest.flatten.length

/-! ### Cells -/

variable {checks : Bool} {A : List Slice} {n m : ℕ} {r first : Ref}
  {elements : List (List ℕ)} {rest : List (Ref × List (List ℕ))}

theorem usize_of_lt (h : n < 2 ^ 64) : usize checks n = some n := if_pos h

theorem lt_of_usize (h : usize true n = some m) : n < 2 ^ 64 ∧ m = n := by
  rw [usize] at h
  split at h
  case isTrue hlt => exact ⟨hlt, (Option.some.inj h).symm⟩
  case isFalse => cases h

/-- The cells of some items that lie one behind the other. -/
def items (ptr item n : ℕ) : List (List ℕ) :=
  (List.range n).map fun i => List.range' (ptr + i * item) item

theorem length_items (ptr item n : ℕ) : (items ptr item n).length = n := by
  rw [items, List.length_map, List.length_range]

theorem getElem?_items {ptr item i : ℕ} (hi : i < n) :
    (items ptr item n)[i]? = some (List.range' (ptr + i * item) item) := by
  rw [items, List.getElem?_map, List.getElem?_range hi, Option.map_some]

/-- Items that lie one behind the other are a range of cells. -/
theorem flatten_items (ptr item n : ℕ) :
    (items ptr item n).flatten = List.range' ptr (n * item) := by
  induction n with
  | zero => rw [Nat.zero_mul]; rfl
  | succ n ih =>
    rw [items, List.range_succ, List.map_append, List.flatten_append, ← items, ih,
      List.map_singleton, List.flatten_singleton, Nat.succ_mul]
    exact List.range'_append_1 ..

theorem splitLengths_range (ptr item n : ℕ) :
    (List.replicate n item).splitLengths (List.range' ptr (n * item)) = items ptr item n := by
  have hlen : (items ptr item n).map List.length = List.replicate n item := by
    refine List.eq_replicate_iff.mpr ⟨by rw [List.length_map, length_items], fun k hk => ?_⟩
    obtain ⟨cells, hcells, rfl⟩ := List.mem_map.mp hk
    obtain ⟨i, -, rfl⟩ := List.mem_map.mp hcells
    exact List.length_range'
  rw [← hlen, ← flatten_items]
  exact List.splitLengths_flatten _

/-- A part of some items are the items from its first one on. -/
theorem take_drop_items (ptr item : ℕ) {start k : ℕ} (h : start + k ≤ n) :
    ((items ptr item n).drop start).take k = items (ptr + start * item) item k := by
  refine List.ext_getElem? fun i => ?_
  by_cases hi : i < k
  · rw [List.getElem?_take_of_lt hi, List.getElem?_drop, getElem?_items (by omega),
      getElem?_items hi, Nat.add_assoc, Nat.add_mul]
  · rw [List.getElem?_eq_none (by rw [List.length_take]; omega),
      List.getElem?_eq_none (by rw [length_items]; omega)]

theorem take_items (ptr item : ℕ) {k : ℕ} (h : k ≤ n) :
    (items ptr item n).take k = items ptr item k := by
  have htake := take_drop_items ptr item (by rwa [Nat.zero_add] : 0 + k ≤ n)
  rwa [List.drop_zero, Nat.zero_mul, Nat.add_zero] at htake

/-- A part of the memory lies in an allocation. -/
def Within (A : List Slice) (ptr size : ℕ) : Prop :=
  ∃ a ∈ A, a.ptr ≤ ptr ∧ ptr + size ≤ a.ptr + a.size ∧ a.ptr + a.size < 2 ^ 64

theorem Within.part {ptr size ptr' size' : ℕ} (h : Within A ptr size) (hle : ptr ≤ ptr')
    (hle' : ptr' + size' ≤ ptr + size) : Within A ptr' size' := by
  obtain ⟨a, ha, hptr, hend, hlt⟩ := h
  exact ⟨a, ha, hptr.trans hle, hle'.trans hend, hlt⟩

theorem Within.lt {ptr size : ℕ} (h : Within A ptr size) : ptr + size < 2 ^ 64 := by
  obtain ⟨a, -, -, hend, hlt⟩ := h
  exact hend.trans_lt hlt

/-- A reference addresses the cells of its elements, and these are cells of allocations. -/
def Ref.Addresses (checks : Bool) (A : List Slice) (r : Ref) (elements : List (List ℕ)) : Prop :=
  (∃ size, r.toRaw checks = some ⟨r.ptr, size⟩ ∧ List.range' r.ptr size = elements.flatten) ∧
    ∀ i ∈ elements.flatten, Within A i 1

/-- What is kept of a reference and of its elements. -/
def Ref.Sound (checks : Bool) (A : List Slice) (r : Ref) (elements : List (List ℕ)) : Prop :=
  match r with
  | .uint size ptr => elements = [List.range' ptr size] ∧ 0 < size ∧ Within A ptr size
  | .array item n slice => elements = items slice.ptr item n ∧ 0 < item ∧ 0 < n ∧
      slice.size = n * item ∧ Within A slice.ptr slice.size
  | .vector item ptr itemSize len => elements = items ptr item len ∧ 0 < item ∧ itemSize = item ∧
      (0 < len → Within A ptr (len * item))
  | .tuple first rest => first.ty.size = none ∧ (Ref.tuple first rest).Addresses checks A elements

theorem within_of_range {ptr size i : ℕ} (h : Within A ptr size) (hi : i ∈ List.range' ptr size) :
    Within A i 1 := by
  have hrange := List.mem_range'_1.mp hi
  exact h.part hrange.1 hrange.2

/-- **What is sound addresses its cells.** -/
theorem Ref.Sound.addresses (h : r.Sound checks A elements) : r.Addresses checks A elements := by
  cases r with
  | uint size ptr =>
    obtain ⟨rfl, -, hwithin⟩ := h
    refine ⟨⟨size, rfl, (List.flatten_singleton ..).symm⟩, fun i hi => within_of_range hwithin ?_⟩
    rwa [List.flatten_singleton] at hi
  | array item n slice =>
    obtain ⟨rfl, -, -, hsize, hwithin⟩ := h
    have hcells : (items slice.ptr item n).flatten = List.range' slice.ptr slice.size := by
      rw [flatten_items, hsize]
    refine ⟨⟨slice.size, rfl, hcells.symm⟩, fun i hi => ?_⟩
    rw [hcells] at hi
    exact within_of_range hwithin hi
  | vector item ptr itemSize len =>
    obtain ⟨rfl, -, hitem, hwithin⟩ := h
    have hlt : itemSize * len < 2 ^ 64 := by
      rcases Nat.eq_zero_or_pos len with rfl | hpos
      · exact Nat.two_pow_pos 64
      · rw [hitem, Nat.mul_comm]
        exact (Nat.le_add_left _ _).trans_lt (hwithin hpos).lt
    refine ⟨⟨itemSize * len, ?_, ?_⟩, fun i hi => ?_⟩
    · rw [Ref.toRaw, usize_of_lt hlt]
      rfl
    · rw [flatten_items, hitem, Nat.mul_comm]
      rfl
    · rw [flatten_items] at hi
      have hpos : 0 < len := by
        by_contra hzero
        rw [Nat.eq_zero_of_not_pos hzero, Nat.zero_mul] at hi
        cases hi
      exact within_of_range (hwithin hpos) hi
  | tuple first rest => exact h.2

/-- A type without cells has no static size. -/
theorem Ref.Sound.size_eq_none (h : r.Sound checks A elements) (hcells : elements.flatten = []) :
    r.ty.size = none := by
  cases r with
  | uint size ptr =>
    obtain ⟨rfl, hpos, -⟩ := h
    rw [List.flatten_singleton, List.range'_eq_nil_iff] at hcells
    exact absurd hcells hpos.ne'
  | array item n slice =>
    obtain ⟨rfl, hitem, hn, -⟩ := h
    rw [flatten_items, List.range'_eq_nil_iff] at hcells
    exact absurd hcells (Nat.mul_pos hn hitem).ne'
  | vector item ptr itemSize len => rfl
  | tuple first rest =>
    rw [Ref.ty, Ty.size, h.1]
    rfl

/-! ### Steps -/

theorem sound_of_fromRaw {ty : Ty} {slice : Slice} (hpos : ty.Positive)
    (hty : ty.Allocates slice.size) (hwithin : Within A slice.ptr slice.size)
    (hmeets : Derived.Step.Meets checks (.alloc ty)) (h : ty.fromRaw checks slice = some r) :
    r.Sound checks A (ty.elements slice) := by
  cases ty with
  | uint size =>
    cases h
    have hsize : size = slice.size := Option.some.inj hty
    rw [← hsize] at hwithin
    refine ⟨?_, hpos, hwithin⟩
    rw [Ty.elements, Ty.elementSizes, ← hsize, List.splitLengths_cons,
      List.take_of_length_le List.length_range'.le, List.splitLengths]
  | array item n =>
    rw [Ty.fromRaw] at h
    split at h
    case isTrue hn =>
      cases h
      have hsize : n * item = slice.size := Option.some.inj hty
      refine ⟨?_, hpos, hn.1, hsize.symm, hwithin⟩
      rw [Ty.elements, Ty.elementSizes, ← hsize, splitLengths_range]
    case isFalse => cases h
  | vector item =>
    obtain ⟨len, hlen⟩ := hty
    rw [Ty.fromRaw] at h
    split at h
    case isTrue => cases h
    case isFalse =>
      cases h
      have hdiv : slice.size / item = len := by rw [hlen, Nat.mul_div_cancel_left len hpos]
      refine ⟨?_, hpos, rfl, fun _ => ?_⟩
      · rw [Ty.elements, Ty.elementSizes, hdiv, hlen, Nat.mul_comm, splitLengths_range]
      · rwa [hdiv, Nat.mul_comm, ← hlen]
  | tuple first rest => exact hmeets.elim

theorem eq_of_usize (hlt : n < 2 ^ 64) (h : usize checks n = some m) : m = n := by
  rw [usize_of_lt hlt] at h
  exact (Option.some.inj h).symm

/-- An array that is got is a part of the array. -/
theorem Ref.Sound.arrayGet {start : ℕ} {r' : Ref} (hr : r.Sound checks A elements)
    (hmeets : Derived.Step.Meets checks (.op (.arrayGet m start) r))
    (h : r.arrayGet checks m start = some r') :
    r'.Sound checks A ((elements.drop start).take m) := by
  cases r with
  | array item n slice =>
    obtain ⟨rfl, hitem, hn, hsize, hwithin⟩ := hr
    have htSize : slice.size / n = item := by rw [hsize, Nat.mul_div_cancel_left item hn]
    simp only [Ref.arrayGet, htSize, Option.bind_eq_bind, Option.bind_eq_some_iff] at h
    obtain ⟨offset, hoffset, newStart, hstart, stop, hstop, offset', hoffset', newEnd, hend, h⟩ := h
    have hlt : slice.ptr + (start + m) * item < 2 ^ 64 := by
      rcases hmeets with rfl | hlt
      · obtain ⟨-, rfl⟩ := lt_of_usize hstop
        obtain ⟨-, rfl⟩ := lt_of_usize hoffset'
        exact (lt_of_usize hend).1
      · rwa [htSize] at hlt
    have hle : start * item ≤ (start + m) * item := Nat.mul_le_mul_right item (Nat.le_add_right _ _)
    have hle' : start + m ≤ (start + m) * item := Nat.le_mul_of_pos_right _ hitem
    obtain rfl := eq_of_usize (by omega) hoffset
    obtain rfl := eq_of_usize (by omega) hstart
    obtain rfl := eq_of_usize (by omega) hstop
    obtain rfl := eq_of_usize (by omega) hoffset'
    obtain rfl := eq_of_usize hlt hend
    split at h
    case isTrue => cases h
    case isFalse hbounds =>
      cases h
      have hadd : (start + m) * item = start * item + m * item := Nat.add_mul start m item
      have hm : 0 < m := by
        rcases Nat.eq_zero_or_pos m with rfl | hpos
        · rw [Nat.zero_mul] at hadd
          omega
        · exact hpos
      have hlen : slice.ptr + (start + m) * item - (slice.ptr + start * item) = m * item := by omega
      have hparts : start + m ≤ n := Nat.le_of_mul_le_mul_right (by omega) hitem
      rw [hlen]
      exact ⟨take_drop_items _ _ hparts, hitem, hm, rfl,
        hwithin.part (Nat.le_add_right _ _) (by dsimp only; omega)⟩
  | uint => cases h
  | vector => cases h
  | tuple => cases h

/-- A part of a vector. -/
theorem sound_vector {item ptr len start stop : ℕ} {offset newPtr : ℕ}
    (hr : (Ref.vector item ptr item len).Sound checks A elements) (hle : stop ≤ len)
    (hoffset : usize checks (start * item) = some offset)
    (hptr : usize checks (ptr + offset) = some newPtr) :
    (Ref.vector item newPtr item (stop - start)).Sound checks A
      ((elements.drop start).take (stop - start)) := by
  obtain ⟨rfl, hitem, -, hwithin⟩ := hr
  rcases Nat.eq_zero_or_pos (stop - start) with hzero | hpos
  · rw [hzero, List.take_zero]
    exact ⟨rfl, hitem, rfl, fun hpos => absurd hpos (Nat.lt_irrefl 0)⟩
  have hwithin := hwithin (by omega)
  have hmul : start * item + (stop - start) * item ≤ len * item := by
    rw [← Nat.add_mul]
    exact Nat.mul_le_mul_right item (by omega)
  have hlt := hwithin.lt
  obtain rfl := eq_of_usize (by omega) hoffset
  obtain rfl := eq_of_usize (by omega) hptr
  exact ⟨take_drop_items _ _ (by omega), hitem, rfl,
    fun _ => hwithin.part (Nat.le_add_right _ _) (by omega)⟩

theorem Ref.Sound.vectorGet {start stop : ℕ} {r' : Ref} (hr : r.Sound checks A elements)
    (h : r.vectorGet checks start stop = some r') :
    r'.Sound checks A ((elements.drop start).take (stop - start)) := by
  cases r with
  | vector item ptr itemSize len =>
    obtain rfl := hr.2.2.1
    rw [Ref.vectorGet] at h
    split at h
    case isTrue => cases h
    case isFalse hle =>
      simp only [Option.bind_eq_bind, Option.bind_eq_some_iff] at h
      obtain ⟨offset, hoffset, newPtr, hptr, h⟩ := h
      cases h
      exact sound_vector hr (Nat.le_of_not_lt hle) hoffset hptr
  | uint => cases h
  | array => cases h
  | tuple => cases h

/-- A vector that is shortened. -/
theorem sound_shorter {item ptr itemSize len newLen : ℕ}
    (hr : (Ref.vector item ptr itemSize len).Sound checks A elements) (hle : newLen ≤ len) :
    (Ref.vector item ptr itemSize newLen).Sound checks A (elements.take newLen) := by
  obtain ⟨rfl, hitem, heq, hwithin⟩ := hr
  refine ⟨take_items _ _ hle, hitem, heq, fun hpos => (hwithin (hpos.trans_le hle)).part le_rfl ?_⟩
  exact Nat.add_le_add_left (Nat.mul_le_mul_right item hle) ptr

/-- The part that is split off has the elements from the index on, and the other one those
before. -/
theorem Ref.Sound.splitOff {at' : ℕ} {rs : List Ref} (hr : r.Sound checks A elements)
    (h : r.splitOff checks at' = some rs) :
    ∀ p ∈ rs.zip [elements.drop at', elements.take at'], p.1.Sound checks A p.2 := by
  cases r with
  | vector item ptr itemSize len =>
    obtain rfl := hr.2.2.1
    have hlen : elements.length = len := by rw [hr.1, length_items]
    rw [Ref.splitOff] at h
    split at h
    case isTrue => cases h
    case isFalse hle =>
      simp only [Option.bind_eq_bind, Option.bind_eq_some_iff] at h
      obtain ⟨offset, hoffset, newPtr, hptr, h⟩ := h
      cases h
      intro p hp
      rcases List.mem_cons.mp hp with rfl | hp
      · have hpart := sound_vector hr le_rfl hoffset hptr
        rwa [List.take_of_length_le (by rw [List.length_drop, hlen])] at hpart
      · rw [List.mem_singleton.mp hp]
        exact sound_shorter hr (Nat.le_of_not_lt hle)
  | uint => cases h
  | array => cases h
  | tuple => cases h

theorem Ref.Sound.truncate {newLen : ℕ} {r' : Ref} (hr : r.Sound checks A elements)
    (h : r.truncate newLen = some r') : r'.Sound checks A (elements.take newLen) := by
  cases r with
  | vector item ptr itemSize len =>
    cases h
    split
    case isTrue hlt => exact sound_shorter hr hlt.le
    case isFalse hle =>
      have hlen : elements.length = len := by rw [hr.1, length_items]
      rw [List.take_of_length_le (by omega)]
      exact hr
  | uint => cases h
  | array => cases h
  | tuple => cases h

theorem Ref.Sound.tryIntoArray {r' : Ref} (hr : r.Sound checks A elements)
    (h : r.tryIntoArray checks n = some r') : r'.Sound checks A elements := by
  cases r with
  | vector item ptr itemSize len =>
    obtain ⟨rfl, hitem, rfl, hwithin⟩ := hr
    rw [Ref.tryIntoArray] at h
    split at h
    case isTrue => cases h
    case isFalse hlen =>
      obtain rfl := not_not.mp hlen
      rw [Option.bind_eq_bind, Option.bind_eq_some_iff] at h
      obtain ⟨size, hsize, h⟩ := h
      split at h
      case isFalse => cases h
      case isTrue hpos =>
        cases h
        have hwithin := hwithin hpos.1
        rw [Nat.mul_comm] at hsize
        obtain rfl := eq_of_usize ((Nat.le_add_left _ _).trans_lt hwithin.lt) hsize
        exact ⟨rfl, hitem, hpos.1, rfl, hwithin⟩
  | uint => cases h
  | array => cases h
  | tuple => cases h

theorem Ref.Sound.intoVector {r' : Ref} (hr : r.Sound checks A elements)
    (h : r.intoVector = some r') : r'.Sound checks A elements := by
  cases r with
  | array item n slice =>
    obtain ⟨rfl, hitem, hn, hsize, hwithin⟩ := hr
    cases h
    refine ⟨rfl, hitem, by rw [hsize, Nat.mul_div_cancel_left item hn], fun _ => ?_⟩
    rwa [← hsize]
  | uint => cases h
  | vector => cases h
  | tuple => cases h

theorem eq_some_of_mem_zip {o : Option Ref} {rs : List Ref} {r' : Ref} {elements' : List (List ℕ)}
    (h : o.map ([·]) = some rs) (hr' : (r', elements') ∈ rs.zip [elements]) :
    o = some r' ∧ elements' = elements := by
  obtain ⟨r₁, h₁, rfl⟩ := Option.map_eq_some_iff.mp h
  obtain ⟨rfl, rfl⟩ := Prod.mk.inj (List.mem_singleton.mp hr')
  exact ⟨h₁, rfl⟩

/-- **What is done with a sound reference gives sound references**, of the elements that it
keeps. -/
theorem Ref.Sound.apply {o : Op} {rs : List Ref} {r' : Ref} {elements' : List (List ℕ)}
    (hr : r.Sound checks A elements) (hmeets : Derived.Step.Meets checks (.op o r))
    (h : o.apply checks r = some rs) (hr' : (r', elements') ∈ rs.zip (o.elements elements)) :
    r'.Sound checks A elements' := by
  cases o with
  | splitOff at' => exact hr.splitOff h _ hr'
  | arrayGet m start =>
    obtain ⟨h, rfl⟩ := eq_some_of_mem_zip h hr'
    exact hr.arrayGet hmeets h
  | vectorGet start stop =>
    obtain ⟨h, rfl⟩ := eq_some_of_mem_zip h hr'
    exact hr.vectorGet h
  | truncate len =>
    obtain ⟨h, rfl⟩ := eq_some_of_mem_zip h hr'
    exact hr.truncate h
  | tryIntoArray n =>
    obtain ⟨h, rfl⟩ := eq_some_of_mem_zip h hr'
    exact hr.tryIntoArray h
  | intoVector =>
    obtain ⟨h, rfl⟩ := eq_some_of_mem_zip h hr'
    exact hr.intoVector h

/-- The cells of some components. -/
def cellsAll (rest : List (Ref × List (List ℕ))) : List ℕ := (rest.map fun p => p.2.flatten).flatten

theorem cellsAll_cons (p : Ref × List (List ℕ)) (rest : List (Ref × List (List ℕ))) :
    cellsAll (p :: rest) = p.2.flatten ++ cellsAll rest := rfl

/-- Adding the sizes of components that are sound gives the number of their cells. -/
theorem addSizes_eq {slice : Slice} (hrest : ∀ p ∈ rest, p.1.Addresses checks A p.2)
    (hlt : slice.size + (cellsAll rest).length < 2 ^ 64) :
    Ref.addSizes checks slice (rest.map Prod.fst) =
      some ⟨slice.ptr, slice.size + (cellsAll rest).length⟩ := by
  induction rest generalizing slice with
  | nil => rfl
  | cons p rest ih =>
    obtain ⟨⟨size, hraw, hcells⟩, -⟩ := hrest p (List.mem_cons_self ..)
    have hlen : p.2.flatten.length = size := by rw [← hcells, List.length_range']
    rw [cellsAll_cons, List.length_append, hlen] at hlt ⊢
    rw [List.map_cons, Ref.addSizes, hraw, Option.bind_eq_bind, Option.bind_some,
      usize_of_lt (by dsimp only; omega), Option.bind_eq_bind, Option.bind_some,
      ih (fun p' hp' => hrest p' (List.mem_cons_of_mem _ hp')) (by dsimp only; omega),
      Nat.add_assoc]

theorem mem_cellsAll {i : ℕ} : i ∈ cellsAll rest ↔ ∃ p ∈ rest, i ∈ p.2.flatten := by
  induction rest with
  | nil => simp [cellsAll]
  | cons p rest ih => rw [cellsAll_cons, List.mem_append, ih, List.exists_mem_cons_iff]

/-- **A tuple whose first component is empty and whose cells lie one behind the other addresses
them.** -/
theorem sound_tuple (hfirst : first.Sound checks A elements)
    (hrest : ∀ p ∈ rest, p.1.Sound checks A p.2) (hmeets : Derived.Step.Meets checks
      (.tuple first elements.flatten (rest.map fun p => p.2.flatten))) :
    (Ref.tuple first (rest.map Prod.fst)).Sound checks A
      (elements.flatten :: rest.map fun p => p.2.flatten) := by
  obtain ⟨hempty, hcells⟩ := hmeets
  rw [← cellsAll] at hcells
  obtain ⟨⟨size, hraw, hrange⟩, -⟩ := hfirst.addresses
  have hsize : size = 0 := by rwa [hempty, List.range'_eq_nil_iff] at hrange
  have hall : (elements.flatten :: rest.map fun p => p.2.flatten).flatten = cellsAll rest := by
    rw [List.flatten_cons, hempty, List.nil_append, cellsAll]
  have hinside : ∀ i ∈ cellsAll rest, Within A i 1 := fun i hi => by
    obtain ⟨p, hp, hi⟩ := mem_cellsAll.mp hi
    exact (hrest p hp).addresses.2 i hi
  have hlt : (cellsAll rest).length < 2 ^ 64 := by
    rcases Nat.eq_zero_or_pos (cellsAll rest).length with hzero | hpos
    · rw [hzero]
      exact Nat.two_pow_pos 64
    · have hlast : first.ptr + ((cellsAll rest).length - 1) ∈ cellsAll rest := by
        rw [hcells, List.length_range']
        exact List.mem_range'_1.mpr ⟨Nat.le_add_right _ _, by omega⟩
      have := (hinside _ hlast).lt
      omega
  refine ⟨hfirst.size_eq_none hempty, ⟨(cellsAll rest).length, ?_, ?_⟩, ?_⟩
  · rw [Ref.toRaw, hraw, hsize, Option.bind_eq_bind, Option.bind_some,
      usize_of_lt (by dsimp only; omega), Option.bind_eq_bind, Option.bind_some,
      addSizes_eq (fun p hp => (hrest p hp).addresses) (by dsimp only; omega)]
    dsimp only
    rw [Nat.zero_add]
    rfl
  · rw [hall]
    exact hcells.symm
  · rw [hall]
    exact hinside

/-- **What is derived is sound.** -/
theorem Derived.sound (h : Derived checks A (Derived.Step.Meets checks) r elements) :
    r.Sound checks A elements := by
  induction h with
  | alloc hpos hty hmem hlt hmeets hr =>
    exact sound_of_fromRaw hpos hty ⟨_, hmem, le_rfl, le_rfl, hlt⟩ hmeets hr
  | op _ hmeets hrs hr' ih => exact ih.apply hmeets hrs hr'
  | tuple _ _ hmeets ihfirst ihrest => exact sound_tuple ihfirst ihrest hmeets

/-! ### Values -/

theorem Ref.Sound.fromRaw (h : r.Sound checks A elements) (hty : r.ty.HasFromRaw) {slice : Slice}
    (hraw : r.toRaw checks = some slice) : r.ty.fromRaw checks slice = some r := by
  cases r with
  | uint size ptr =>
    cases hraw
    rfl
  | array item n slice' =>
    cases hraw
    obtain ⟨-, -, hn, hsize, -⟩ := h
    rw [Ref.ty, Ty.fromRaw, if_pos ⟨hn, by rw [hsize, Nat.mul_mod_right]⟩]
  | vector item ptr itemSize len =>
    obtain ⟨⟨size, hsize, hcells⟩, -⟩ := h.addresses
    obtain ⟨rfl, hitem, rfl, -⟩ := h
    have hlen : size = itemSize * len := by
      rw [flatten_items] at hcells
      have := congrArg List.length hcells
      rwa [List.length_range', List.length_range', Nat.mul_comm] at this
    obtain rfl := Option.some.inj (hraw.symm.trans hsize)
    rw [Ref.ty, Ty.fromRaw, hlen, if_neg, Nat.mul_div_cancel_left len hitem]
    · rfl
    · rintro (hzero | ⟨-, hmod⟩)
      · exact hitem.ne' hzero
      · exact hmod (Nat.mul_mod_right itemSize len)
  | tuple first rest =>
    have hnone : (Ty.tuple first.ty (Ref.tys rest)).size = none := by
      rw [Ty.size, h.1]
      rfl
    rw [Ref.ty, Ty.HasFromRaw, hnone] at hty
    cases hty

/-- The memory behind a write. -/
def written (mem : Mem) (ptr : ℕ) (bits : List Bool) : Mem :=
  fun i => if ptr ≤ i ∧ i < ptr + bits.length then bits.getD (i - ptr) false else mem i

theorem assign_of_length {mem : Mem} {clear : Clear} {size : ℕ}
    (hraw : r.toRaw checks = some ⟨r.ptr, size⟩) (hlen : clear.bits.length = size) :
    r.assign checks mem clear = some (written mem r.ptr clear.bits) := by
  rw [Ref.assign, hraw, Option.bind_eq_bind, Option.bind_some, if_pos hlen, ← hlen]
  rfl

/-- What is read of a part of what was written. -/
theorem map_written (mem : Mem) (ptr offset k : ℕ) (bits : List Bool)
    (h : offset + k ≤ bits.length) :
    (List.range' (ptr + offset) k).map (written mem ptr bits) = (bits.drop offset).take k := by
  refine List.ext_getElem ?_ fun i hi hi' => ?_
  · rw [List.length_map, List.length_range', List.length_take, List.length_drop]
    omega
  · rw [List.length_map, List.length_range'] at hi
    rw [List.getElem_map, List.getElem_range', List.getElem_take, List.getElem_drop, written,
      if_pos (by omega), List.getD_eq_getElem?_getD, List.getElem?_eq_getElem (by omega),
      Option.getD_some]
    congr 1
    omega

theorem word_intoClear {w : ℕ} (x : BitVec w) : word w (intoClear [x]) = x := by
  refine BitVec.eq_of_getLsbD_eq fun i hi => ?_
  rw [intoClear_singleton, word, BitVec.getLsbD_setWidth, decide_eq_true hi, Bool.true_and,
    BitVec.getLsbD_ofBoolListLE, List.getD_eq_getElem?_getD, List.getElem?_ofFn, dif_pos hi,
    Option.getD_some]
  exact (BitVec.getLsbD_eq_getElem hi).symm

/-- The bits of one word are those of the words at its place. -/
theorem take_drop_intoClear {w i : ℕ} {xs : List (BitVec w)} (hi : i < xs.length) :
    ((intoClear xs).drop (i * w)).take w = intoClear [xs[i]] := by
  have hsplit : intoClear xs = intoClear (xs.take i) ++
      (intoClear [xs[i]] ++ intoClear (xs.drop (i + 1))) := by
    rw [← intoClear_append, ← intoClear_append, List.singleton_append,
      ← List.drop_eq_getElem_cons hi, List.take_append_drop]
  have hlen : (intoClear (xs.take i)).length = i * w := by
    rw [length_intoClear, List.length_take, Nat.min_eq_left hi.le, Nat.mul_comm]
  rw [hsplit, List.drop_left' hlen, List.take_left']
  rw [length_intoClear, List.length_singleton, Nat.mul_one]

/-- A word is read at its place. -/
theorem word_written {w i : ℕ} {xs : List (BitVec w)} (mem : Mem) (ptr : ℕ) (hi : i < xs.length) :
    word w ((List.range' (ptr + i * w) w).map (written mem ptr (intoClear xs))) = xs[i] := by
  have hle : i * w + w ≤ (intoClear xs).length := by
    rw [length_intoClear, ← Nat.succ_mul, Nat.mul_comm w]
    exact Nat.mul_le_mul_right w hi
  rw [map_written mem ptr _ _ _ hle, take_drop_intoClear hi, word_intoClear]

theorem map_range_one {α : Type} (f : ℕ → α) : (List.range 1).map f = [f 0] := rfl

/-- **An element of an array is read back.** -/
theorem reads_array {item n : ℕ} {slice : Slice} {xs : List (BitVec item)} (mem : Mem)
    (h : (Ref.array item n slice).Sound checks A elements) (hxs : xs.length = n) {i : ℕ}
    (hi : i < n) :
    ∃ e c cells, (Ref.array item n slice).element checks i (.items xs) = some (e, c) ∧
      elements[i]? = some cells ∧ e.IsOf checks cells ∧
      e.get checks (written mem slice.ptr (intoClear xs)) = some c := by
  obtain ⟨rfl, hitem, hn, hsize, hwithin⟩ := h
  have hmul : i * item + item ≤ n * item := by
    rw [← Nat.succ_mul]
    exact Nat.mul_le_mul_right item hi
  have hlt := hwithin.lt
  have hle : i + 1 ≤ (i + 1) * item := Nat.le_mul_of_pos_right _ hitem
  have hsucc : (i + 1) * item = i * item + item := Nat.succ_mul i item
  have hget : (Ref.array item n slice).arrayGet checks 1 i =
      some (.array item 1 ⟨slice.ptr + i * item, item⟩) := by
    rw [Ref.arrayGet]
    simp only [hsize, Nat.mul_div_cancel_left item hn, Option.bind_eq_bind]
    rw [usize_of_lt (by omega), Option.bind_some, usize_of_lt (by omega), Option.bind_some,
      usize_of_lt (by omega), Option.bind_some, usize_of_lt (by omega), Option.bind_some,
      usize_of_lt (by omega), Option.bind_some,
      if_neg (by omega), hsucc]
    have hlen : slice.ptr + (i * item + item) - (slice.ptr + i * item) = item := by omega
    rw [hlen]
  have hi' : i < xs.length := hxs ▸ hi
  refine ⟨.array item 1 ⟨slice.ptr + i * item, item⟩, .items [xs[i]], _, ?_, getElem?_items hi,
    ⟨_, rfl, rfl⟩, ?_⟩
  · rw [Ref.element, hget, Option.bind_eq_bind, Option.bind_some, List.getElem?_eq_getElem hi']
    rfl
  · rw [Ref.get, Ref.toRaw, Option.bind_eq_bind, Option.bind_some, Ref.fromClear, map_range_one,
      Nat.mul_zero, List.drop_zero, word_written mem _ hi']
    rfl

/-- **An element of a vector is read back.** -/
theorem reads_vector {item ptr len : ℕ} {xs : List (BitVec item)} (mem : Mem)
    (h : (Ref.vector item ptr item len).Sound checks A elements) (hxs : xs.length = len) {i : ℕ}
    (hi : i < len) :
    ∃ e c cells, (Ref.vector item ptr item len).element checks i (.items xs) = some (e, c) ∧
      elements[i]? = some cells ∧ e.IsOf checks cells ∧
      e.get checks (written mem ptr (intoClear xs)) = some c := by
  obtain ⟨rfl, hitem, -, hwithin⟩ := h
  have hmul : i * item + item ≤ len * item := by
    rw [← Nat.succ_mul]
    exact Nat.mul_le_mul_right item hi
  have hlt := (hwithin (Nat.zero_lt_of_lt hi)).lt
  have hget : (Ref.vector item ptr item len).vectorGet checks i (i + 1) =
      some (.vector item (ptr + i * item) item 1) := by
    rw [Ref.vectorGet, if_neg (by omega), usize_of_lt (by omega), Option.bind_eq_bind,
      Option.bind_some, usize_of_lt (by omega), Option.bind_some, Nat.add_sub_cancel_left]
    rfl
  have hi' : i < xs.length := hxs ▸ hi
  have hraw : (Ref.vector item (ptr + i * item) item 1).toRaw checks =
      some ⟨ptr + i * item, item⟩ := by
    rw [Ref.toRaw, Nat.mul_one, usize_of_lt (by omega)]
    rfl
  refine ⟨.vector item (ptr + i * item) item 1, .items [xs[i]], _, ?_, getElem?_items hi,
    ⟨_, hraw, rfl⟩, ?_⟩
  · rw [Ref.element, hget, Option.bind_eq_bind, Option.bind_some, List.getElem?_eq_getElem hi']
    rfl
  · rw [Ref.get, hraw, Option.bind_eq_bind, Option.bind_some, Ref.fromClear, map_range_one,
      Nat.mul_zero, List.drop_zero, word_written mem _ hi']
    rfl

/-- **A value that is written is read from the elements.** -/
theorem Ref.Sound.reads (h : r.Sound checks A elements) (mem : Mem) {clear : Clear}
    (hfits : clear.Fits r) : ∃ mem', r.assign checks mem clear = some mem' ∧
      ∀ i < r.count, ∃ e c cells, r.element checks i clear = some (e, c) ∧
        elements[i]? = some cells ∧ e.IsOf checks cells ∧ e.get checks mem' = some c := by
  obtain ⟨⟨size, hraw, hcells⟩, -⟩ := h.addresses
  have hsize : size = elements.flatten.length := by rw [← hcells, List.length_range']
  cases r with
  | uint w ptr =>
    cases clear with
    | uint x =>
      obtain rfl : w = _ := hfits
      obtain ⟨rfl, -⟩ := h
      refine ⟨_, assign_of_length hraw ?_, fun i hi => ⟨.uint w ptr, .uint x, _, rfl, ?_,
        ⟨_, rfl, rfl⟩, ?_⟩⟩
      · rw [hsize, Clear.bits, length_intoClear, List.length_singleton, Nat.mul_one,
          List.flatten_singleton, List.length_range']
      · rw [Nat.lt_one_iff.mp hi]
        rfl
      · have hread := map_written mem ptr 0 w (intoClear [x])
          (by rw [length_intoClear, List.length_singleton, Nat.mul_one, Nat.zero_add])
        rw [Nat.add_zero, List.drop_zero] at hread
        have hlen : (intoClear [x]).length = w := by
          rw [length_intoClear, List.length_singleton, Nat.mul_one]
        rw [Ref.get, Ref.toRaw, Option.bind_eq_bind, Option.bind_some, Ref.fromClear, Clear.bits]
        dsimp only [Ref.ptr]
        rw [hread, List.take_of_length_le hlen.le, word_intoClear]
        rfl
    | items xs => exact hfits.elim
    | tuple c cs => exact hfits.elim
  | array item n slice =>
    cases clear with
    | items xs =>
      obtain ⟨rfl, hxs⟩ := hfits
      refine ⟨_, assign_of_length hraw ?_, fun i hi => reads_array mem h hxs hi⟩
      rw [hsize, h.1, Clear.bits, length_intoClear, flatten_items, List.length_range', hxs,
        Nat.mul_comm]
    | uint x => exact hfits.elim
    | tuple c cs => exact hfits.elim
  | vector item ptr itemSize len =>
    obtain rfl := h.2.2.1
    cases clear with
    | items xs =>
      obtain ⟨rfl, hxs⟩ := hfits
      refine ⟨_, assign_of_length hraw ?_, fun i hi => reads_vector mem h hxs hi⟩
      rw [hsize, h.1, Clear.bits, length_intoClear, flatten_items, List.length_range', hxs,
        Nat.mul_comm]
    | uint x => exact hfits.elim
    | tuple c cs => exact hfits.elim
  | tuple first rest =>
    cases clear with
    | tuple c cs =>
      rw [Clear.Fits, h.1] at hfits
      exact absurd hfits.1 (by decide)
    | uint x => exact hfits.elim
    | items xs => exact hfits.elim

/-- **References address their elements, and nothing else**, where each step of their derivation
meets the condition. -/
theorem Derived.exact (h : Derived checks A (Derived.Step.Meets checks) r elements) :
    r.Exact checks A elements := by
  have hsound := h.sound
  obtain ⟨⟨size, hraw, hcells⟩, hinside⟩ := hsound.addresses
  refine ⟨⟨_, hraw, hcells⟩, fun i hi => ?_, fun hty slice hslice => hsound.fromRaw hty hslice,
    fun mem clear hfits => hsound.reads mem hfits⟩
  obtain ⟨a, ha, hle, hlt, -⟩ := hinside i hi
  exact ⟨a, ha, hle, hlt⟩

/-- The last of the two bytes that were split off four ones. -/
theorem Derived.exact_array :
    Derived true [⟨0, 32⟩] (Derived.Step.Meets true) (.array 8 1 ⟨24, 8⟩) [List.range' 24 8] ∧
      (Ref.array 8 1 ⟨24, 8⟩).Exact true [⟨0, 32⟩] [List.range' 24 8] := by
  have halloc : Derived true [⟨0, 32⟩] (Derived.Step.Meets true) (.vector 8 0 8 4)
      [List.range' 0 8, List.range' 8 8, List.range' 16 8, List.range' 24 8] := by
    have hpos : (Ty.vector 8).Positive := show 0 < 8 by decide
    have hty : (Ty.vector 8).Allocates 32 := ⟨4, rfl⟩
    exact Derived.alloc hpos hty (List.mem_singleton_self _) (by decide) trivial rfl
  have hget : Derived true [⟨0, 32⟩] (Derived.Step.Meets true) (.vector 8 8 8 3)
      [List.range' 8 8, List.range' 16 8, List.range' 24 8] :=
    halloc.op (o := .vectorGet 1 4) trivial rfl (List.mem_singleton_self _)
  have hsplit : Derived true [⟨0, 32⟩] (Derived.Step.Meets true) (.vector 8 16 8 2)
      [List.range' 16 8, List.range' 24 8] :=
    hget.op (o := .splitOff 1) trivial rfl (List.mem_cons_self ..)
  have harray : Derived true [⟨0, 32⟩] (Derived.Step.Meets true) (.array 8 2 ⟨16, 16⟩)
      [List.range' 16 8, List.range' 24 8] :=
    hsplit.op (o := .tryIntoArray 2) trivial rfl (List.mem_singleton_self _)
  have hpart : Derived true [⟨0, 32⟩] (Derived.Step.Meets true) (.array 8 1 ⟨24, 8⟩)
      [List.range' 24 8] :=
    harray.op (o := .arrayGet 1 1) (.inl rfl) rfl (List.mem_singleton_self _)
  exact ⟨hpart, hpart.exact⟩

/-! ### Tuples -/

/-- A build with overflow checks adds the sizes of components that are exact to the number of their
cells. -/
theorem size_of_addSizes {slice slice' : Slice} (hrest : ∀ p ∈ rest, p.1.Exact true A p.2)
    (h : Ref.addSizes true slice (rest.map Prod.fst) = some slice') :
    slice'.size = slice.size + (cellsAll rest).length := by
  induction rest generalizing slice with
  | nil =>
    cases h
    rfl
  | cons p rest ih =>
    obtain ⟨nextSlice, hraw, hcells⟩ := (hrest p (List.mem_cons_self ..)).raw
    rw [List.map_cons, Ref.addSizes, hraw, Option.bind_eq_bind, Option.bind_some,
      Option.bind_eq_bind, Option.bind_eq_some_iff] at h
    obtain ⟨size, hsize, h⟩ := h
    obtain ⟨-, rfl⟩ := lt_of_usize hsize
    rw [ih (fun p' hp' => hrest p' (List.mem_cons_of_mem _ hp')) h, cellsAll_cons,
      List.length_append, ← hcells, List.length_range', Nat.add_assoc]

/-- **A tuple with a first component that is not empty never addresses its elements only.** -/
theorem not_exact_of_first (hfirst : first.Exact true A elements)
    (hrest : ∀ p ∈ rest, p.1.Exact true A p.2) (hne : elements.flatten ≠ []) :
    ¬ (Ref.tuple first (rest.map Prod.fst)).Exact true A
      (elements.flatten :: rest.map fun p => p.2.flatten) := by
  intro h
  obtain ⟨slice, hraw, hcells⟩ := h.raw
  obtain ⟨firstSlice, hfirstRaw, hfirstCells⟩ := hfirst.raw
  rw [Ref.toRaw, hfirstRaw, Option.bind_eq_bind, Option.bind_some, Option.bind_eq_bind,
    Option.bind_eq_some_iff] at hraw
  obtain ⟨size, hsize, hraw⟩ := hraw
  obtain ⟨-, rfl⟩ := lt_of_usize hsize
  have hlen := congrArg List.length hcells
  have hfirstLen := congrArg List.length hfirstCells
  have hpos : 0 < elements.flatten.length := List.length_pos_iff.mpr hne
  rw [List.flatten_cons, List.length_append, ← cellsAll, List.length_range',
    size_of_addSizes hrest hraw] at hlen
  rw [List.length_range'] at hfirstLen
  dsimp only at hlen
  omega

/-- A pair of bytes that is allocated is taken for three bytes. -/
theorem not_exact : ¬ ∀ (checks : Bool) (A : List Slice) (r : Ref) (elements : List (List ℕ)),
    Derived checks A (fun _ => True) r elements → r.Exact checks A elements := by
  intro h
  have hpair : Derived true [⟨0, 16⟩] (fun _ => True) (.tuple (.uint 8 0) [.uint 8 8])
      [List.range' 0 8, List.range' 8 8] := by
    have hbyte : (Ty.uint 8).Positive := show 0 < 8 by decide
    have hpos : (Ty.tuple (.uint 8) [.uint 8]).Positive := ⟨hbyte, hbyte, trivial⟩
    have hty : (Ty.tuple (.uint 8) [.uint 8]).Allocates 16 := rfl
    exact Derived.alloc hpos hty (List.mem_singleton_self _) (by decide) trivial rfl
  obtain ⟨slice, hraw, hcells⟩ := (h true _ _ _ hpair).raw
  have hslice : slice = ⟨0, 24⟩ := (Option.some.inj hraw).symm
  rw [hslice] at hcells
  exact absurd hcells (by decide)

/-- An index that wraps around in a build without overflow checks gives an array in front of the
array. -/
example : (Ref.array 8 2 ⟨8, 16⟩).arrayGet false 2 (2 ^ 64 - 1) = some (.array 8 2 ⟨0, 16⟩) := rfl

end Mpz
