import Mathlib.Data.List.Basic
import Mathlib.Order.Lattice

/-!
# Serialization of Vector

A vector is the memory that it has allocated, its size and the capacity that it records.
Whatever would read or write outside the memory fails. Sizes are natural numbers: no
allocation is large enough for the growth of a capacity to overflow.
-/
namespace Zpc
structure Vector (T : Type*) where
  onHost : Bool
  /-- The allocated slots. -/
  base : List T
  size : ℕ
  capacity : ℕ

namespace Vector
variable {T : Type*}

def elements (v : Vector T) : List T := v.base.take v.size

/-- Allocation of `count` slots of memory in which `junk` is left. -/
def allocate (junk : T) (onHost : Bool) (count : ℕ) : Vector T := ⟨onHost, List.replicate count junk, count, count⟩

def geometricSizeGrowth (v : Vector T) (newSize : ℕ) : ℕ :=
  let geometricSize := v.capacity + v.capacity / 2
  if geometricSize < newSize then newSize else geometricSize

/-- `Resource::copy` of elements to the front of another memory. -/
def copyTo (v tmp : Vector T) : Option (Vector T) :=
  if v.size ≤ v.base.length ∧ v.size ≤ tmp.base.length then
    some { tmp with base := v.elements ++ tmp.base.drop v.size }
  else none

def clone (junk : T) (v : Vector T) (onHost : Bool) : Option (Vector T) := v.copyTo (allocate junk onHost v.size)

/-- The common part of `resize` and `resizeBuffer`, which differ in where they allocate. -/
def grow (junk : T) (v : Vector T) (onHost : Bool) (newSize : ℕ) : Option (Vector T) :=
  if newSize < v.size then some { v with size := newSize }
  else if v.size < newSize then
    if v.capacity < newSize then
      (v.copyTo (allocate junk onHost (v.geometricSizeGrowth newSize))).map fun tmp => { tmp with size := newSize }
    else some { v with size := newSize }
  else some v

def resize (junk : T) (v : Vector T) (newSize : ℕ) : Option (Vector T) := v.grow junk v.onHost newSize

def resizeBuffer (junk : T) (v : Vector T) (newSize : ℕ) : Option (Vector T) := v.grow junk true newSize

def pushBack (junk : T) (v : Vector T) (val : T) : Option (Vector T) :=
  (v.resize junk (v.size + 1)).bind fun w =>
    if v.size < w.base.length then some { w with base := w.base.set v.size val } else none

structure Archive (T : Type*) where
  container : List T
  size : ℕ
  capacity : ℕ

/-- The vector that `serialize` works on. -/
def toHost (junk : T) (v : Vector T) : Option (Vector T) := if v.onHost then some v else v.clone junk true

def serialize (junk : T) (v : Vector T) : Option (Archive T) :=
  (v.toHost junk).map fun c => ⟨c.elements, c.size, c.capacity⟩

def readElements (v : Vector T) (elems : List T) : Option (Vector T) :=
  if elems.length ≤ v.base.length then some { v with base := elems ++ v.base.drop elems.length } else none

def deserialize (junk : T) (s : Archive T) (v : Vector T) : Option (Vector T) :=
  (v.toHost junk).bind fun c => (c.resizeBuffer junk s.container.length).bind fun c =>
    (c.readElements s.container).map fun c => { c with size := s.size, capacity := s.capacity }

inductive Op (T : Type*)
  | pushBack (val : T)
  | resize (newSize : ℕ)

def Op.apply (junk : T) (v : Vector T) : Op T → Option (Vector T)
  | .pushBack val => v.pushBack junk val
  | .resize newSize => v.resize junk newSize

/-- The elements fit the recorded capacity, and this the memory. -/
structure Valid (v : Vector T) : Prop where
  size_le : v.size ≤ v.capacity
  capacity_le : v.capacity ≤ v.base.length

section Operations
variable {junk : T} {v w : Vector T} {onHost : Bool} {newSize : ℕ}

theorem le_geometricSizeGrowth (v : Vector T) (newSize : ℕ) : newSize ≤ v.geometricSizeGrowth newSize := by
  unfold geometricSizeGrowth
  simp only
  split <;> omega

theorem copyTo_spec (h : v.size ≤ v.base.length) {tmp : Vector T} (hle : v.size ≤ tmp.base.length) :
    ∃ w, v.copyTo tmp = some w ∧ w.onHost = tmp.onHost ∧ w.size = tmp.size ∧ w.capacity = tmp.capacity ∧
      w.base.length = tmp.base.length ∧ w.base.take v.size = v.elements := by
  have hlen : v.elements.length = v.size := by rw [elements, List.length_take, min_eq_left h]
  refine ⟨_, if_pos ⟨h, hle⟩, rfl, rfl, rfl, ?_, ?_⟩
  · rw [List.length_append, hlen, List.length_drop]
    omega
  · rw [List.take_append_of_le_length hlen.ge, List.take_of_length_le hlen.le]

theorem Valid.size_le_length (h : v.Valid) : v.size ≤ v.base.length := h.size_le.trans h.capacity_le

/-- Growing keeps a vector valid, and its elements up to the new size. -/
theorem grow_spec (h : v.Valid) (junk : T) (onHost : Bool) (newSize : ℕ) :
    ∃ w, v.grow junk onHost newSize = some w ∧ w.Valid ∧ w.size = newSize ∧
      w.elements.take v.size = v.elements.take newSize ∧
      w.base.length = if v.capacity < newSize then v.geometricSizeGrowth newSize else v.base.length := by
  unfold grow
  split
  next hlt =>
    have hcap := h.size_le
    refine ⟨_, rfl, ⟨hlt.le.trans hcap, h.capacity_le⟩, rfl, ?_, ?_⟩
    · rw [elements, elements, List.take_take, List.take_take, min_comm]
    · rw [if_neg (by omega)]
  next hge =>
    split
    next hlt =>
      split
      next hcap =>
        have hle := le_geometricSizeGrowth v newSize
        have hfit : v.size ≤ (allocate junk onHost (v.geometricSizeGrowth newSize)).base.length := by
          rw [allocate, List.length_replicate]
          omega
        obtain ⟨w, hw, -, -, hc, hlen, htake⟩ := copyTo_spec h.size_le_length hfit
        rw [allocate, List.length_replicate] at hlen
        refine ⟨{ w with size := newSize }, by rw [hw]; rfl, ⟨hc ▸ hle, by rw [hlen, hc]; exact le_rfl⟩, rfl, ?_, hlen⟩
        rw [elements, List.take_take, min_eq_left hlt.le, htake, elements, List.take_take, min_eq_right hlt.le]
      next hcap =>
        refine ⟨_, rfl, ⟨Nat.le_of_not_lt hcap, h.capacity_le⟩, rfl, ?_, rfl⟩
        rw [elements, elements, List.take_take, List.take_take, min_comm]
    next hle =>
      have heq : v.size = newSize := by omega
      refine ⟨v, rfl, h, heq, by rw [heq], ?_⟩
      rw [if_neg (by have := h.size_le; omega)]

theorem Op.apply_spec (h : v.Valid) (junk : T) (op : Op T) : ∃ w, op.apply junk v = some w ∧ w.Valid := by
  cases op with
  | resize newSize =>
    obtain ⟨w, hw, hvalid, -⟩ := grow_spec h junk v.onHost newSize
    exact ⟨w, hw, hvalid⟩
  | pushBack val =>
    obtain ⟨w, hw, hvalid, hsize, -⟩ := grow_spec h junk v.onHost (v.size + 1)
    have hlt : v.size < w.base.length := by
      have := hvalid.size_le_length
      omega
    refine ⟨{ w with base := w.base.set v.size val }, ?_, ⟨hvalid.size_le, ?_⟩⟩
    · show (v.grow junk v.onHost (v.size + 1)).bind _ = _
      rw [hw, Option.bind_some, if_pos hlt]
    · rw [List.length_set]
      exact hvalid.capacity_le

theorem Op.foldlM_spec (h : v.Valid) (junk : T) (ops : List (Op T)) :
    ∃ w, ops.foldlM (Op.apply junk) v = some w ∧ w.Valid := by
  induction ops generalizing v with
  | nil => exact ⟨v, rfl, h⟩
  | cons op ops ih =>
    obtain ⟨w, hw, hvalid⟩ := op.apply_spec h junk
    obtain ⟨z, hz, hz'⟩ := ih hvalid
    refine ⟨z, ?_, hz'⟩
    rw [List.foldlM_cons, hw]
    exact hz

end Operations

section RoundTrip
/-- A vector as the operations leave it. -/
structure Sound (T : Type*) extends Vector T where
  valid : toVector.Valid

variable (junk : T)

/-- The capacity that the source records when it is written, on the host. -/
def writtenCapacity (v : Vector T) : ℕ := if v.onHost then v.capacity else v.size

/-- The slots that the destination has for `count` elements, on the host. -/
def slotsFor (v : Vector T) (count : ℕ) : ℕ :=
  if v.onHost then (if v.capacity < count then v.geometricSizeGrowth count else v.base.length)
  else if v.size < count then max count (v.size + v.size / 2) else v.size

theorem toHost_spec (v : Sound T) : ∃ c, v.toVector.toHost junk = some c ∧ c.Valid ∧ c.elements = v.elements ∧
    c.size = v.size ∧ c.capacity = v.writtenCapacity ∧
    ∀ count, (if c.capacity < count then c.geometricSizeGrowth count else c.base.length) = v.slotsFor count := by
  unfold toHost
  cases hh : v.onHost with
  | true =>
    refine ⟨v.toVector, if_pos rfl, v.valid, rfl, rfl, ?_, fun count => ?_⟩
    · rw [writtenCapacity, if_pos hh]
    · rw [slotsFor, if_pos hh]
  | false =>
    have hfit : v.size ≤ (allocate junk true v.size).base.length := by
      rw [allocate, List.length_replicate]
    obtain ⟨w, hw, -, hsize, hcap, hlen, htake⟩ := copyTo_spec v.valid.size_le_length hfit
    rw [allocate, List.length_replicate] at hlen
    refine ⟨w, (if_neg Bool.false_ne_true).trans hw, ⟨?_, ?_⟩, ?_, hsize, ?_, fun count => ?_⟩
    · exact (hsize.trans hcap.symm).le
    · exact (hcap.trans hlen.symm).le
    · rw [elements, hsize]
      exact htake
    · rw [writtenCapacity, hh, if_neg Bool.false_ne_true]
      exact hcap
    · have hc : w.capacity = v.size := hcap
      rw [slotsFor, hh, if_neg Bool.false_ne_true, hc, hlen]
      split
      · unfold geometricSizeGrowth
        rw [hc]
        simp only
        split <;> omega
      · rfl

/-- The vector read back has the elements of the source; its capacity lies within its memory,
and whatever comes later stays there, just when the capacity of the source fits the slots that
the destination has for the elements. -/
theorem deserialize_serialize_iff (src dst : Sound T) :
    (∃ s v, src.toVector.serialize junk = some s ∧ dst.toVector.deserialize junk s = some v ∧
      v.elements = src.elements ∧ v.capacity ≤ v.base.length ∧
      ∀ ops : List (Op T), (ops.foldlM (Op.apply junk) v).isSome) ↔
    src.writtenCapacity ≤ dst.slotsFor src.size := by
  obtain ⟨c, hc, -, helems, hsize, hcap, -⟩ := toHost_spec junk src
  obtain ⟨d, hd, hdv, -, -, -, hslots⟩ := toHost_spec junk dst
  have hlen : c.elements.length = src.size := by
    rw [helems, elements, List.length_take, min_eq_left src.valid.size_le_length]
  obtain ⟨w, hw, hwv, hwsize, -, hwlen⟩ := grow_spec hdv junk true src.size
  rw [hslots] at hwlen
  have hfit : c.elements.length ≤ w.base.length := by
    rw [hlen, ← hwsize]
    exact hwv.size_le_length
  -- the vector that is read back
  let v : Vector T := ⟨w.onHost, c.elements ++ w.base.drop c.elements.length, c.size, c.capacity⟩
  have hs : src.toVector.serialize junk = some ⟨c.elements, c.size, c.capacity⟩ := by
    rw [serialize, hc]
    rfl
  have hv : dst.toVector.deserialize junk ⟨c.elements, c.size, c.capacity⟩ = some v := by
    rw [deserialize, hd, Option.bind_some, resizeBuffer, hlen, hw, Option.bind_some, readElements, if_pos hfit]
    rfl
  have hvlen : v.base.length = dst.slotsFor src.size := by
    rw [← hwlen, List.length_append, List.length_drop]
    omega
  have hvelems : v.elements = src.elements := by
    rw [elements, ← helems]
    have hcs : c.size = c.elements.length := hsize.trans hlen.symm
    show (c.elements ++ w.base.drop c.elements.length).take c.size = c.elements
    rw [hcs, List.take_left]
  rw [← hcap, ← hvlen]
  constructor
  · rintro ⟨s, v', hs', hv', -, hle, -⟩
    rw [hs] at hs'
    cases hs'
    rw [hv] at hv'
    cases hv'
    exact hle
  · intro hle
    have hvalid : v.Valid := ⟨?_, hle⟩
    · refine ⟨_, v, hs, hv, hvelems, hle, fun ops => ?_⟩
      obtain ⟨z, hz, -⟩ := Op.foldlM_spec hvalid junk ops
      rw [hz]
      rfl
    · show c.size ≤ c.capacity
      rw [hsize, hcap, writtenCapacity]
      split
      · exact src.valid.size_le
      · exact le_rfl

end RoundTrip

section Example
/-- Three elements in a buffer for ten, read into an empty vector: it records room for ten. -/
theorem deserialize_overstates : ¬ ∀ src dst : Sound ℕ,
    ∃ s v, src.toVector.serialize 0 = some s ∧ dst.toVector.deserialize 0 s = some v ∧
      v.elements = src.elements ∧ v.capacity ≤ v.base.length ∧
      ∀ ops : List (Op ℕ), (ops.foldlM (Op.apply 0) v).isSome := by
  intro h
  obtain ⟨s, v, hs, hv, -, hle, -⟩ := h ⟨⟨true, [1, 2, 3, 0, 0, 0, 0, 0, 0, 0], 3, 10⟩, by decide, by decide⟩
    ⟨⟨true, [], 0, 0⟩, by decide, by decide⟩
  have hs' : some ⟨[1, 2, 3], 3, 10⟩ = some s := hs
  cases hs'
  have hv' : some ⟨true, [1, 2, 3], 3, 10⟩ = some v := hv
  cases hv'
  exact absurd hle (by decide)

end Example

end Vector

end Zpc
