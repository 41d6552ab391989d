import Mathlib.Algebra.Order.Ring.Int
import Mathlib.Data.Nat.Size
import Zpc.BhtQuery

/-!
# Compressed sparse matrices

`SparseMatrix` of `SparseMatrix.hpp` and its `build` from triplets: a pass that hashes the positions and counts the
entries of each line, a scan, and a pass that scatters the entries. Both passes run on any number of threads.
-/
namespace Zpc
/-- `Vector`: the positions from the size on do not exist. -/
structure ZsVector (α : Type*) where
  size : ℕ
  get : ℕ → α

structure SparseMatrix (V : Type*) where
  rowMajor : Bool
  nrows : ℕ
  ncols : ℕ
  ptrs : ZsVector ℕ
  inds : ZsVector ℕ
  vals : ZsVector V

namespace SparseMatrix
open Interleaving

/-- `bit_count`: the digits required to express the numbers below. -/
def bitCount (n : ℕ) : ℕ := if 0 < n then Nat.size (n - 1) else 0

def next2pow (n : ℕ) : ℕ := 2 ^ bitCount n

def exclusiveScan (f : ℕ → ℕ) : ℕ → ℕ
  | 0 => 0
  | k + 1 => exclusiveScan f k + f k

section Build
structure Triplet (S : Type*) where
  row : ℕ
  col : ℕ
  value : ℕ → S

def Triplet.position {S : Type*} (e : Triplet S) : ℕ × ℕ := (e.row, e.col)

/-- `evaluateTableSize` of a table with buckets of 32 slots. -/
def evaluateTableSize (entryCnt : ℕ) : ℕ :=
  if entryCnt = 0 then 0 else next2pow entryCnt * 2 + (32 - next2pow entryCnt * 2 % 32)

/-- A call of `build`. The hash functions are those of the table, and a value has one component unless it is a `vec`.
The index type can count the table. -/
structure Build (S : Type*) where
  rowMajor : Bool
  nrows : ℕ
  ncols : ℕ
  extent : ℕ
  triplets : List (Triplet S)
  bits : ℕ
  hf0 : ℕ × ℕ → ℕ
  hf1 : ℕ × ℕ → ℕ
  hf2 : ℕ × ℕ → ℕ
  inRange : ∀ e ∈ triplets, e.row < nrows ∧ e.col < ncols
  fits : 2 * evaluateTableSize triplets.length ≤ 2 ^ bits

/-- `universal_hash_base` of a number. -/
def subhash (hashx hashy key : ℕ) : ℕ := ((hashx ^^^ key) + hashy) % 2 ^ 32 % 4294967291

/-- `hash_combine` of 32 bits. -/
def hashCombine (seed val : ℕ) : ℕ := seed ^^^ ((val + 0x9e3779b9 + seed <<< 6 + seed >>> 2) % 2 ^ 32)

def universalHash (hashx hashy : ℕ) (key : ℕ × ℕ) : ℕ :=
  hashCombine (subhash hashx hashy key.1) (subhash hashx hashy key.2)

/-- The given number of bytes `0x3f`. -/
def keyFill : ℕ → ℕ
  | 0 => 0
  | n + 1 => keyFill n * 256 + 0x3f

namespace Build
variable {S : Type*} (b : Build S)

def nsegs : ℕ := if b.rowMajor then b.nrows else b.ncols

/-- The line of an entry. -/
def outer (ij : ℕ × ℕ) : ℕ := if b.rowMajor then ij.1 else ij.2

/-- The index of an entry in its line. -/
def inner (ij : ℕ × ℕ) : ℕ := if b.rowMajor then ij.2 else ij.1

def keySentinel : ℕ × ℕ := (keyFill (b.bits / 8), keyFill (b.bits / 8))

theorem evaluateTableSize_mod (n : ℕ) : evaluateTableSize n % 32 = 0 := by
  unfold evaluateTableSize
  split <;> omega

/-- `bht<Ti, 2, index_type>` made for so many entries. -/
def table (tabSize : ℕ) (h : 2 * evaluateTableSize tabSize ≤ 2 ^ b.bits) : Bht (ℕ × ℕ) where
  bucketSize := 32
  numBuckets := evaluateTableSize tabSize / 32
  bits := b.bits
  wide := !(b.bits == 16 || b.bits == 32)
  keySentinel := b.keySentinel
  hf0 := b.hf0
  hf1 := b.hf1
  hf2 := b.hf2
  threshold_pos := by decide
  fits := by
    have hmod := evaluateTableSize_mod tabSize
    omega

/-- What the hashing pass works on, and a record of its writes to the offsets. -/
structure HashMemory where
  tab : Bht.Memory (ℕ × ℕ)
  cnts : ℕ → ℕ
  localOffsets : ℕ → ℕ
  recorded : List ((ℕ × ℕ) × ℤ × ℕ)
  outOfRange : Bool

inductive HashFrame
  | inserting (ij : ℕ × ℕ) (f : Bht.Frame (ℕ × ℕ))
  | inserted (ij : ℕ × ℕ) (id : ℤ)
  | record (ij : ℕ × ℕ) (id : ℤ) (offset : ℕ)

def HashMemory.write (m : HashMemory) (ij : ℕ × ℕ) (id : ℤ) (offset : ℕ) : HashMemory where
  tab := m.tab
  cnts := m.cnts
  localOffsets := Function.update m.localOffsets id.toNat offset
  recorded := (ij, id, offset) :: m.recorded
  outOfRange := m.outOfRange

/-- The frame of the caller after an action of `insert`. -/
def HashFrame.resume (t : Bht (ℕ × ℕ)) (ij : ℕ × ℕ) (tab : Bht.Memory (ℕ × ℕ)) : List (Bht.Frame (ℕ × ℕ)) → HashFrame
  | f :: _ => .inserting ij f
  | [] => .inserted ij ((tab.returned.head?.map fun r => r.2.value t).getD Bht.sentinel)

/-- `_build_hash_entry`. -/
def hashEntry (t : Bht (ℕ × ℕ)) (m : HashMemory) : HashFrame → Unit → Option (HashMemory × List HashFrame)
  | .inserting ij f, x => (t.code m.tab f x).map fun r => ({m with tab := r.1}, [.resume t ij r.1 r.2])
  | .inserted ij id, _ =>
      if id ≠ Bht.sentinel then
        if b.outer ij < b.nsegs + 1 then
          some ({m with cnts := Function.update m.cnts (b.outer ij) (m.cnts (b.outer ij) + 1)},
            [.record ij id (m.cnts (b.outer ij))])
        else some ({m with outOfRange := true}, [])
      else some (m, [])
  | .record ij id offset, _ =>
      if 0 ≤ id ∧ id < b.triplets.length then
        some (m.write ij id offset, [])
      else some ({m with outOfRange := true}, [])

/-- The pass over a fresh table: each thread takes some of the positions. -/
def hashStart (t : Bht (ℕ × ℕ)) (indices : ℕ → ℤ) (activeKeys : ℤ → ℕ × ℕ) (localOffsets : ℕ → ℕ) (outOfRange : Bool)
    (schedule : List (List (ℕ × ℕ))) : Config HashMemory HashFrame :=
  ⟨⟨t.empty indices activeKeys, fun _ => 0, localOffsets, [], outOfRange⟩,
    schedule.map (·.map fun ij => .inserting ij (.call {key := ij}))⟩

structure EntryMemory (S : Type*) where
  inds : ℕ → ℕ
  vals : ℕ → ℕ → S
  outOfRange : Bool

inductive EntryFrame (S : Type*)
  | entry (e : Triplet S)
  | add (e : Triplet S) (offset c : ℕ)

/-- `_build_update_entry_with_value`, for the table, the offsets and the scan of the hashing pass. -/
def updateEntry [Add S] (t : Bht (ℕ × ℕ)) (h : HashMemory) (m : EntryMemory S) :
    EntryFrame S → Unit → Option (EntryMemory S × List (EntryFrame S))
  | .entry e, _ =>
      let id := t.query h.tab e.position
      if 0 ≤ id ∧ id < b.triplets.length then
        let offset := exclusiveScan h.cnts (b.outer e.position) + h.localOffsets id.toNat
        if offset < exclusiveScan h.cnts b.nsegs then
          some ({m with inds := Function.update m.inds offset (b.inner e.position)}, [.add e offset 0])
        else some ({m with outOfRange := true}, [])
      else some ({m with outOfRange := true}, [])
  | .add e offset c, _ =>
      if c < b.extent then
        some ({m with vals := Function.update m.vals offset (Function.update (m.vals offset) c
          (m.vals offset c + e.value c))}, [.add e offset (c + 1)])
      else some (m, [])

/-- The pass over fresh indices and values that are zero: each thread takes some of the triplets. -/
def entryStart [Zero S] (inds : ℕ → ℕ) (outOfRange : Bool) (schedule : List (List (Triplet S))) :
    Config (EntryMemory S) (EntryFrame S) :=
  ⟨⟨inds, fun _ _ => 0, outOfRange⟩, schedule.map (·.map .entry)⟩

/-- The loop around the hashing pass: it ends with the memory of the first pass without a failure, after passes over
tables that were too small. -/
inductive Hashed (guard : Guard HashMemory HashFrame) : ℕ → (ℕ → ℕ) → Bool → Bht (ℕ × ℕ) → HashMemory → Prop
  | done {tabSize : ℕ} {localOffsets : ℕ → ℕ} {outOfRange : Bool} {indices : ℕ → ℤ} {activeKeys : ℤ → ℕ × ℕ}
      {schedule : List (List (ℕ × ℕ))} {c : Config HashMemory HashFrame}
      (hf : 2 * evaluateTableSize tabSize ≤ 2 ^ b.bits)
      (hs : schedule.flatten.Perm (b.triplets.map Triplet.position))
      (h : Reaches (b.hashEntry (b.table tabSize hf)) guard
        (hashStart (b.table tabSize hf) indices activeKeys localOffsets outOfRange schedule) c)
      (hq : Quiescent (b.hashEntry (b.table tabSize hf)) c) (hok : c.mem.tab.success = true) :
      Hashed guard tabSize localOffsets outOfRange (b.table tabSize hf) c.mem
  | retry {tabSize : ℕ} {localOffsets : ℕ → ℕ} {outOfRange : Bool} {indices : ℕ → ℤ} {activeKeys : ℤ → ℕ × ℕ}
      {schedule : List (List (ℕ × ℕ))} {c : Config HashMemory HashFrame} {t : Bht (ℕ × ℕ)} {m : HashMemory}
      (hf : 2 * evaluateTableSize tabSize ≤ 2 ^ b.bits)
      (hs : schedule.flatten.Perm (b.triplets.map Triplet.position))
      (h : Reaches (b.hashEntry (b.table tabSize hf)) guard
        (hashStart (b.table tabSize hf) indices activeKeys localOffsets outOfRange schedule) c)
      (hq : Quiescent (b.hashEntry (b.table tabSize hf)) c) (hno : c.mem.tab.success = false)
      (hr : Hashed guard (tabSize * 2) c.mem.localOffsets c.mem.outOfRange t m) :
      Hashed guard tabSize localOffsets outOfRange t m

/-- The matrix that the passes leave. -/
def result (h : HashMemory) (m : EntryMemory S) : SparseMatrix (ℕ → S) where
  rowMajor := b.rowMajor
  nrows := b.nrows
  ncols := b.ncols
  ptrs := ⟨b.nsegs + 1, exclusiveScan h.cnts⟩
  inds := ⟨exclusiveScan h.cnts b.nsegs, m.inds⟩
  vals := ⟨exclusiveScan h.cnts b.nsegs, m.vals⟩

/-- A whole run of `build`, which returns only if the table has as many entries as the scan counts. -/
inductive Built [Add S] [Zero S] (guard : Guard HashMemory HashFrame) : Option (SparseMatrix (ℕ → S)) → Bool → Prop
  | thrown {localOffsets : ℕ → ℕ} {t : Bht (ℕ × ℕ)} {m : HashMemory}
      (h : b.Hashed guard b.triplets.length localOffsets false t m) (hn : exclusiveScan m.cnts b.nsegs ≠ m.tab.cnt) :
      Built guard none m.outOfRange
  | returned {localOffsets : ℕ → ℕ} {t : Bht (ℕ × ℕ)} {m : HashMemory} {inds : ℕ → ℕ}
      {schedule : List (List (Triplet S))} {c : Config (EntryMemory S) (EntryFrame S)}
      (h : b.Hashed guard b.triplets.length localOffsets false t m) (hn : exclusiveScan m.cnts b.nsegs = m.tab.cnt)
      (hs : schedule.flatten.Perm b.triplets)
      (hr : Reaches (b.updateEntry t m) free (entryStart inds m.outOfRange schedule) c)
      (hq : Quiescent (b.updateEntry t m) c) : Built guard (some (b.result m c.mem)) c.mem.outOfRange

end Build

end Build

end SparseMatrix

end Zpc
