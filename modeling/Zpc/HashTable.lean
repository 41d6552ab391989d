import Zpc.SparseMatrix
import Zpc.StridedProbe

/-!
# The hash table with a stride of 127

`HashTable` of `HashTable.hpp` on the host: `insert`, `query` and `entry` search from the slot of the hash, 127 slots
further each time. The words that lock single slots are free between calls and are left out.
-/
namespace Zpc
/-- A table made for a number of entries, with the hash function and the key that marks a free slot. The index type can
count its slots. -/
structure HashTable (K : Type*) where
  numExpectedEntries : ℕ
  keySentinel : K
  doHash : K → ℤ

namespace HashTable
def evaluateTableSize (entryCnt : ℕ) : ℕ :=
  if entryCnt = 0 then 0 else SparseMatrix.next2pow entryCnt * 16

/-- `sentinel_v` -/
def sentinel : ℤ := -1

structure Memory (K : Type*) where
  keys : ℕ → K
  indices : ℕ → ℤ
  activeKeys : ℕ → K
  cnt : ℕ

/-- How a search ends: with a value, or by reading a slot that does not exist. -/
inductive Found
  | value (v : ℤ)
  | outside
deriving DecidableEq

section Search
variable {K : Type*} [DecidableEq K] (t : HashTable K)

def tableSize : ℕ := evaluateTableSize t.numExpectedEntries

/-- `reset` with the counter: the list of active keys is left as it is. -/
def reset (activeKeys : ℕ → K) : Memory K where
  keys _ := t.keySentinel
  indices _ := sentinel
  activeKeys := activeKeys
  cnt := 0

/-- Where a search starts: the remainder of the hash, brought above zero. -/
def start (key : K) : ℕ := (((t.doHash key).tmod t.tableSize + t.tableSize).tmod t.tableSize).toNat

/-- `atomicKeyCAS`: the key is stored where the slot is free, and what the slot held is returned. -/
def atomicKeyCAS (m : Memory K) (hashedentry : ℕ) (key : K) : Memory K × K :=
  if m.keys hashedentry = t.keySentinel then
    ({m with keys := Function.update m.keys hashedentry key}, m.keys hashedentry)
  else (m, m.keys hashedentry)

/-- The key in a slot gets the next number. -/
def Memory.record (m : Memory K) (hashedentry : ℕ) (key : K) : Memory K where
  keys := m.keys
  indices := Function.update m.indices hashedentry m.cnt
  activeKeys := Function.update m.activeKeys m.cnt key
  cnt := m.cnt + 1

/-- The loop of `insert`, with the slots it visits. -/
def insertFrom (key : K) : ℕ → Memory K → ℕ → Option (Memory K × ℤ × List ℕ)
  | 0, _, _ => none
  | fuel + 1, m, hashedentry =>
      let (m', storedKey) := t.atomicKeyCAS m hashedentry key
      if storedKey = t.keySentinel then some (m'.record hashedentry key, m'.cnt, [hashedentry])
      else if storedKey = key then some (m', sentinel, [hashedentry])
      else (insertFrom key fuel m' ((hashedentry + 127) % t.tableSize)).map fun r => (r.1, r.2.1, hashedentry :: r.2.2)

def insert (fuel : ℕ) (m : Memory K) (key : K) : Option (Memory K × ℤ × List ℕ) :=
  t.insertFrom key fuel m (t.start key)

/-- One insertion after another. -/
def insertAll (fuel : ℕ) (m : Memory K) (keys : List K) : Option (Memory K) :=
  keys.foldlM (fun m key => (t.insert fuel m key).map Prod.fst) m

/-- How `query` and `entry` go on to the next slot. -/
def nextEntry (hashedentry : ℕ) : ℕ :=
  if t.tableSize < hashedentry + 127 then (hashedentry + 127) % t.tableSize else hashedentry + 127

/-- The loop that `query` and `entry` share, with the slots it visits. -/
def searchFrom (m : Memory K) (key : K) (answer : ℕ → ℤ) : ℕ → ℕ → Option (Found × List ℕ)
  | 0, _ => none
  | fuel + 1, hashedentry =>
      if t.tableSize ≤ hashedentry then some (.outside, [hashedentry])
      else if key = m.keys hashedentry then some (.value (answer hashedentry), [hashedentry])
      else if m.indices hashedentry = sentinel then some (.value sentinel, [hashedentry])
      else (searchFrom m key answer fuel (t.nextEntry hashedentry)).map fun r => (r.1, hashedentry :: r.2)

def query (fuel : ℕ) (m : Memory K) (key : K) : Option (Found × List ℕ) :=
  t.searchFrom m key m.indices fuel (t.start key)

def entry (fuel : ℕ) (m : Memory K) (key : K) : Option (Found × List ℕ) :=
  t.searchFrom m key (fun hashedentry => hashedentry) fuel (t.start key)

end Search

end HashTable

end Zpc

/-!
## Where the searches of a hash table lead

All searches for a key probe the same slots until one holds the key or is free. Those of `query` and `entry` leave the
table where a probe lands on its size exactly.
-/
namespace Zpc.HashTable
open StridedProbe

variable {K : Type*} {t : HashTable K} {m : Memory K} {key : K} {i j n fuel : ℕ}

theorem coprime_tableSize (h : 0 < t.tableSize) : Nat.Coprime t.tableSize 127 := by
  unfold tableSize evaluateTableSize at h ⊢
  split_ifs at h ⊢ with h0
  · cases h
  · have hpow : Nat.Coprime (2 ^ SparseMatrix.bitCount t.numExpectedEntries) 127 := Nat.Coprime.pow_left _ (by decide)
    exact hpow.mul_left (by decide)

theorem start_lt (h : 0 < t.tableSize) (key : K) : t.start key < t.tableSize := by
  have hT : (0 : ℤ) < t.tableSize := Int.natCast_pos.mpr h
  have hlow := Int.lt_tmod_of_pos (t.doHash key) hT
  have hhigh := Int.tmod_lt_of_pos ((t.doHash key).tmod t.tableSize + t.tableSize) hT
  have hpos := Int.tmod_nonneg (t.tableSize : ℤ) (show 0 ≤ (t.doHash key).tmod t.tableSize + t.tableSize by omega)
  unfold start
  omega

def slot (t : HashTable K) (key : K) (j : ℕ) : ℕ := probe t.tableSize 127 (t.start key) j

theorem slot_zero (h : 0 < t.tableSize) (key : K) : t.slot key 0 = t.start key := probe_zero (start_lt h key)

theorem slot_succ (t : HashTable K) (key : K) (j : ℕ) : t.slot key (j + 1) = (t.slot key j + 127) % t.tableSize :=
  probe_succ ..

theorem slot_lt (h : 0 < t.tableSize) (key : K) (j : ℕ) : t.slot key j < t.tableSize := probe_lt h

/-- A slot where a search for the key ends. -/
def Stops (t : HashTable K) (m : Memory K) (key : K) (s : ℕ) : Prop := m.keys s = key ∨ m.keys s = t.keySentinel

/-- The search for a key ends with probe `j`. -/
structure StopsFirst (t : HashTable K) (m : Memory K) (key : K) (j : ℕ) : Prop where
  stops : t.Stops m key (t.slot key j)
  before : ∀ i < j, ¬ t.Stops m key (t.slot key i)

theorem exists_stopsFirst {s : ℕ} (hs : s < t.tableSize) (h : t.Stops m key s) :
    ∃ j < t.tableSize, t.StopsFirst m key j := by
  obtain ⟨j, hj, hstop, hbefore⟩ :=
    exists_stop (coprime_tableSize (Nat.zero_lt_of_lt hs)) (t.start key) (P := t.Stops m key) hs h
  exact ⟨j, hj, hstop, hbefore⟩

def visits (t : HashTable K) (key : K) (i n : ℕ) : List ℕ := (List.range' i n).map (t.slot key)

theorem visits_lt (h : 0 < t.tableSize) {s : ℕ} (hs : s ∈ t.visits key i n) : s < t.tableSize := by
  obtain ⟨j, _, rfl⟩ := List.mem_map.mp hs
  exact slot_lt h key j

/-- No probe that the search goes on from lands 127 slots before the end of the table. -/
def Clear (t : HashTable K) (m : Memory K) (key : K) : Prop :=
  ∀ j, t.slot key j + 127 = t.tableSize → ∃ i ≤ j, t.Stops m key (t.slot key i)

section Search
variable [DecidableEq K] {s : ℕ}

theorem atomicKeyCAS_snd (t : HashTable K) (m : Memory K) (s : ℕ) (key : K) :
    (t.atomicKeyCAS m s key).2 = m.keys s := by
  unfold atomicKeyCAS
  split_ifs <;> rfl

theorem atomicKeyCAS_cnt (t : HashTable K) (m : Memory K) (s : ℕ) (key : K) :
    (t.atomicKeyCAS m s key).1.cnt = m.cnt := by
  unfold atomicKeyCAS
  split_ifs <;> rfl

theorem atomicKeyCAS_of_ne (h : m.keys s ≠ t.keySentinel) : (t.atomicKeyCAS m s key).1 = m := by
  unfold atomicKeyCAS
  rw [if_neg h]

def put (t : HashTable K) (m : Memory K) (s : ℕ) (key : K) : Memory K := (t.atomicKeyCAS m s key).1.record s key

theorem insertFrom_free (h : m.keys s = t.keySentinel) :
    t.insertFrom key (fuel + 1) m s = some (t.put m s key, (m.cnt : ℤ), [s]) := by
  simp only [insertFrom, atomicKeyCAS_snd, atomicKeyCAS_cnt, h, if_true]
  rfl

theorem insertFrom_held (h : m.keys s = key) (hne : m.keys s ≠ t.keySentinel) :
    t.insertFrom key (fuel + 1) m s = some (m, sentinel, [s]) := by
  simp only [insertFrom, atomicKeyCAS_snd, atomicKeyCAS_of_ne hne, hne, if_false]
  rw [if_pos h]

theorem insertFrom_go (h : ¬ t.Stops m key s) : t.insertFrom key (fuel + 1) m s =
    (t.insertFrom key fuel m ((s + 127) % t.tableSize)).map fun r => (r.1, r.2.1, s :: r.2.2) := by
  obtain ⟨hkey, hne⟩ := not_or.mp h
  simp only [insertFrom, atomicKeyCAS_snd, atomicKeyCAS_of_ne hne, hne, hkey, if_false]

/-- An insertion visits the slots up to the one where the search ends, and changes nothing on the way. -/
theorem insertFrom_eq (hstop : t.StopsFirst m key (i + n)) (hf : n < fuel) :
    t.insertFrom key fuel m (t.slot key i) = some (
      if m.keys (t.slot key (i + n)) = t.keySentinel then
        (t.put m (t.slot key (i + n)) key, (m.cnt : ℤ), t.visits key i (n + 1))
      else (m, sentinel, t.visits key i (n + 1))) := by
  obtain ⟨fuel, rfl⟩ := Nat.exists_eq_succ_of_ne_zero (Nat.ne_of_gt (Nat.zero_lt_of_lt hf))
  induction n generalizing i fuel with
  | zero =>
    rw [Nat.add_zero] at hstop ⊢
    split_ifs with hfree
    · exact insertFrom_free hfree
    · exact insertFrom_held (hstop.stops.resolve_right hfree) hfree
  | succ n ih =>
    have hlt := Nat.lt_of_succ_lt_succ hf
    obtain ⟨fuel, rfl⟩ := Nat.exists_eq_succ_of_ne_zero (Nat.ne_of_gt (Nat.zero_lt_of_lt hlt))
    have hadd : i + (n + 1) = i + 1 + n := by omega
    rw [insertFrom_go (hstop.before i (by omega)), ← slot_succ]
    rw [hadd] at hstop ⊢
    rw [ih hstop fuel hlt]
    split_ifs <;> rfl

section Answers
variable {answer : ℕ → ℤ} (h : 0 < t.tableSize)
  (hfree : ∀ s < t.tableSize, m.indices s = sentinel ↔ m.keys s = t.keySentinel)
include h hfree

theorem searchFrom_go (hgo : ¬ t.Stops m key (t.slot key i)) :
    t.searchFrom m key answer (fuel + 1) (t.slot key i) =
      (t.searchFrom m key answer fuel (t.nextEntry (t.slot key i))).map fun r => (r.1, t.slot key i :: r.2) := by
  obtain ⟨hkey, hne⟩ := not_or.mp hgo
  have hin := slot_lt h key i
  have hind : m.indices (t.slot key i) ≠ sentinel := fun he => hne ((hfree _ hin).mp he)
  simp only [searchFrom, Nat.not_le.mpr hin, Ne.symm hkey, hind, if_false]

theorem searchFrom_stop (hstop : t.Stops m key (t.slot key i)) :
    t.searchFrom m key answer (fuel + 1) (t.slot key i) = some (
      .value (if key = m.keys (t.slot key i) then answer (t.slot key i) else sentinel), [t.slot key i]) := by
  have hin := slot_lt h key i
  simp only [searchFrom, Nat.not_le.mpr hin, if_false]
  split_ifs with hkey hind
  · rfl
  · rfl
  · exact absurd ((hfree _ hin).mpr (hstop.resolve_left (Ne.symm hkey))) hind

omit hfree h [DecidableEq K] in
theorem nextEntry_slot (hne : t.slot key i + 127 ≠ t.tableSize) :
    t.nextEntry (t.slot key i) = t.slot key (i + 1) := by
  unfold nextEntry
  rw [slot_succ]
  split_ifs with hlt
  · rfl
  · exact (Nat.mod_eq_of_lt (by omega)).symm

/-- A search that does not leave the table visits the slots of an insertion. -/
theorem searchFrom_eq (answer : ℕ → ℤ) (hstop : t.StopsFirst m key (i + n))
    (hclear : ∀ k, i ≤ k → k < i + n → t.slot key k + 127 ≠ t.tableSize) (hf : n < fuel) :
    t.searchFrom m key answer fuel (t.slot key i) = some (
      .value (if key = m.keys (t.slot key (i + n)) then answer (t.slot key (i + n)) else sentinel),
      t.visits key i (n + 1)) := by
  obtain ⟨fuel, rfl⟩ := Nat.exists_eq_succ_of_ne_zero (Nat.ne_of_gt (Nat.zero_lt_of_lt hf))
  induction n generalizing i fuel with
  | zero => exact searchFrom_stop h hfree hstop.stops
  | succ n ih =>
    have hlt := Nat.lt_of_succ_lt_succ hf
    obtain ⟨fuel, rfl⟩ := Nat.exists_eq_succ_of_ne_zero (Nat.ne_of_gt (Nat.zero_lt_of_lt hlt))
    have hadd : i + (n + 1) = i + 1 + n := by omega
    rw [searchFrom_go h hfree (hstop.before i (by omega)), nextEntry_slot (hclear i (Nat.le_refl i) (by omega))]
    rw [hadd] at hstop ⊢
    rw [ih hstop (fun k hk hlt => hclear k (by omega) (by omega)) fuel hlt]
    rfl

/-- A search that stays clear of the end of the table ends where an insertion does. -/
theorem searchFrom_of_clear {j : ℕ} (answer : ℕ → ℤ) (hstop : t.StopsFirst m key j) (hclear : t.Clear m key) (hf : j < fuel) :
    t.searchFrom m key answer fuel (t.start key) = some (
      .value (if key = m.keys (t.slot key j) then answer (t.slot key j) else sentinel), t.visits key 0 (j + 1)) := by
  have hpass : ∀ k, 0 ≤ k → k < 0 + j → t.slot key k + 127 ≠ t.tableSize := by
    intro k _ hk hend
    obtain ⟨i, hik, hstops⟩ := hclear k hend
    exact hstop.before i (by omega) hstops
  have heq := searchFrom_eq h hfree answer ((Nat.zero_add j).symm ▸ hstop) hpass hf
  rw [Nat.zero_add, slot_zero h] at heq
  exact heq

theorem searchFrom_leave (hgo : ¬ t.Stops m key (t.slot key i)) (hend : t.slot key i + 127 = t.tableSize) :
    t.searchFrom m key answer (fuel + 2) (t.slot key i) = some (.outside, [t.slot key i, t.tableSize]) := by
  have hnext : t.nextEntry (t.slot key i) = t.tableSize := by
    unfold nextEntry
    rw [hend, if_neg (Nat.lt_irrefl _)]
  rw [searchFrom_go h hfree hgo, hnext]
  simp only [searchFrom, Nat.le_refl, if_true, Option.map_some]

/-- A search that goes on from 127 slots before the end reads behind the table. -/
theorem searchFrom_outside (answer : ℕ → ℤ) (fuel : ℕ) (hgo : ∀ k, i ≤ k → k ≤ i + n → ¬ t.Stops m key (t.slot key k))
    (hend : t.slot key (i + n) + 127 = t.tableSize) :
    ∃ visited, t.searchFrom m key answer (fuel + n + 2) (t.slot key i) = some (.outside, visited) := by
  induction n generalizing i with
  | zero => exact ⟨_, searchFrom_leave h hfree (hgo i (Nat.le_refl i) (Nat.le_refl i)) hend⟩
  | succ n ih =>
    have hfirst := hgo i (Nat.le_refl i) (Nat.le_add_right i _)
    by_cases hlast : t.slot key i + 127 = t.tableSize
    · exact ⟨_, searchFrom_leave h hfree hfirst hlast⟩
    · have hadd : i + (n + 1) = i + 1 + n := by omega
      rw [hadd] at hend hgo
      obtain ⟨visited, hrest⟩ := ih (fun k hk hle => hgo k (by omega) hle) hend
      refine ⟨t.slot key i :: visited, ?_⟩
      rw [show fuel + (n + 1) + 2 = fuel + n + 2 + 1 from rfl, searchFrom_go h hfree hfirst,
        nextEntry_slot hlast, hrest]
      rfl

end Answers

end Search

end Zpc.HashTable
