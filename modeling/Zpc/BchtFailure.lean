import Zpc.BchtInsert

/-!
# Insertions into a cuckoo hash table that give up

After the last eviction the key that was taken out of its slot is in the hands of `insert` alone, which returns. The
host version leaves `_buildSuccess` as it is; the device versions clear it.
-/
namespace Zpc.Bcht
variable {K S : Type*} [DecidableEq S]

/-- `bcht`: a table with its memory and `_buildSuccess`. -/
structure Container (K S : Type*) where
  table : Bcht K S
  memory : Memory K S
  buildSuccess : Bool

/-- A multiple of the bucket size, `padded_capacity`. -/
def paddedCapacity (bucketSize capacity : ℕ) : ℕ :=
  if capacity % bucketSize ≠ 0 then capacity + (bucketSize - capacity % bucketSize) else capacity

section Operations
variable (deduceNumChains : ℕ → ℕ)

/-- The table for a number of slots. `deduce_num_chains` computes with floating-point logarithms. -/
def sized (t : Bcht K S) (capacity : ℕ) : Bcht K S :=
  {t with numBuckets := capacity / t.bucketSize, maxCuckooChains := deduceNumChains capacity}

namespace Container
def construct (t : Bcht K S) (capacity : ℕ) (indices : ℕ → ℤ) (activeKeys : ℤ → K) : Container K S where
  table := t.sized deduceNumChains (paddedCapacity t.bucketSize capacity * 2)
  memory := t.empty indices activeKeys
  buildSuccess := true

def query (c : Container K S) (key : K) : ℤ := c.table.query c.memory key

/-- The host `insert`, which has a pointer to `_buildSuccess` and does not use it. -/
def insert (c : Container K S) (fuel : ℕ) (key : K) (insertionIndex : ℤ) (enqueueKey : Bool) :
    Option (Container K S × Returned) :=
  (c.table.insert fuel c.memory key insertionIndex enqueueKey).map fun r => ({c with memory := r.1}, r.2)

def reset (c : Container K S) (clearCnt : Bool) : Container K S where
  table := c.table
  memory := {c.memory with keys := fun _ => c.table.compareKeySentinel, cnt := if clearCnt then 0 else c.memory.cnt}
  buildSuccess := true

/-- The active keys are inserted again one after the other, and what that returns is dropped. -/
def resize (c : Container K S) (fuel newCapacity : ℕ) : Option (Container K S) :=
  let newCapacity := paddedCapacity c.table.bucketSize newCapacity * 2
  if newCapacity ≤ c.table.capacity then some c
  else (List.range c.memory.cnt).foldlM (fun c (i : ℕ) => (c.insert fuel (c.memory.activeKeys i) i false).map Prod.fst)
    ({c with table := c.table.sized deduceNumChains newCapacity}.reset false)

/-- The tables that the host operations lead to. -/
inductive Reachable : Container K S → Prop
  | construct (t : Bcht K S) (capacity : ℕ) (indices : ℕ → ℤ) (activeKeys : ℤ → K) :
      Reachable (construct deduceNumChains t capacity indices activeKeys)
  | insert {c c' : Container K S} {fuel : ℕ} {key : K} {insertionIndex : ℤ} {enqueueKey : Bool} {r : Returned}
      (h : Reachable c) (hi : c.insert fuel key insertionIndex enqueueKey = some (c', r)) : Reachable c'
  | reset {c : Container K S} (h : Reachable c) (clearCnt : Bool) : Reachable (c.reset clearCnt)
  | resize {c c' : Container K S} {fuel newCapacity : ℕ} (h : Reachable c)
      (hr : c.resize deduceNumChains fuel newCapacity = some c') : Reachable c'

end Container

end Operations

namespace Container
variable {deduceNumChains : ℕ → ℕ} {c c' : Container K S} {fuel : ℕ} {key : K} {insertionIndex : ℤ} {enqueueKey : Bool}

/-- What an insertion that gives up should leave behind. -/
structure FailureHandled (c c' : Container K S) : Prop where
  findable : ∀ k, c.query k ≠ sentinel → c'.query k = c.query k
  recorded : c'.buildSuccess = false

theorem insert_eq {r : Returned} (h : c.insert fuel key insertionIndex enqueueKey = some (c', r)) :
    c'.table = c.table ∧ c'.buildSuccess = c.buildSuccess ∧
      c.table.insert fuel c.memory key insertionIndex enqueueKey = some (c'.memory, r) := by
  obtain ⟨⟨m, r'⟩, hm, hr⟩ := Option.map_eq_some_iff.mp h
  obtain ⟨rfl, rfl⟩ := Prod.mk.inj hr
  exact ⟨rfl, rfl, hm⟩

theorem reinsert_buildSuccess {is : List ℕ} (h : is.foldlM (fun c (i : ℕ) =>
    (c.insert fuel (c.memory.activeKeys i) i false).map Prod.fst) c = some c') : c'.buildSuccess = c.buildSuccess := by
  induction is generalizing c with
  | nil =>
    obtain rfl := Option.some.inj h
    rfl
  | cons i is ih =>
    rw [List.foldlM_cons] at h
    obtain ⟨c₁, hc₁, h⟩ := Option.bind_eq_some_iff.mp h
    obtain ⟨⟨c₂, r⟩, hi, rfl⟩ := Option.map_eq_some_iff.mp hc₁
    exact (ih h).trans (insert_eq hi).2.1

theorem Reachable.buildSuccess (h : Reachable deduceNumChains c) : c.buildSuccess = true := by
  induction h with
  | construct => rfl
  | insert _ hi ih => rw [(insert_eq hi).2.1, ih]
  | reset => rfl
  | @resize c c' fuel newCapacity _ hr ih =>
    unfold Container.resize at hr
    dsimp only at hr
    split at hr
    · rw [← Option.some.inj hr, ih]
    · rw [reinsert_buildSuccess hr]
      rfl

/-- No insertion that gives up on the host is recorded. -/
theorem failed_insert_unhandled (h : Reachable deduceNumChains c)
    (hfail : c.insert fuel key insertionIndex enqueueKey = some (c', .failure)) : ¬ FailureHandled c c' := by
  intro hhandled
  have hkept := (insert_eq hfail).2.1
  rw [h.buildSuccess, hhandled.recorded] at hkept
  cases hkept

section Samples
/-- `deduce_num_chains` at powers of two. -/
def chainsOfPower (capacity : ℕ) : ℕ := 7 * Nat.log2 capacity

/-- Two buckets of one slot, and keys that all hash into the first. -/
def crowded : Container ℕ ℕ :=
  construct chainsOfPower (comparingKeys 1 0 0 0x3f3f3f3f (fun k => 2 * k) (fun k => 2 * k) (fun k => 2 * k) marsRng Nat.one_pos) 1
    (fun _ => 0) fun _ => 0

/-- The first key is in its slot, then in the hands of the second insertion. -/
theorem exists_lost : ∃ c c' : Container ℕ ℕ, Reachable chainsOfPower c ∧
    c.insert 9 1 sentinel true = some (c', .failure) ∧ c.query 0 = 0 ∧ c'.query 0 = sentinel := by
  have hfirst : (crowded.insert 9 0 sentinel true).map (fun r => r.1.query 0) = some 0 := by decide
  have hsecond : ((crowded.insert 9 0 sentinel true).bind fun r => r.1.insert 9 1 sentinel true).map
      (fun r => (r.1.query 0, r.2)) = some (sentinel, .failure) := by decide
  obtain ⟨⟨c, r⟩, hc, hquery⟩ := Option.map_eq_some_iff.mp hfirst
  rw [hc, Option.bind_some] at hsecond
  obtain ⟨⟨c', r'⟩, hc', hres⟩ := Option.map_eq_some_iff.mp hsecond
  obtain ⟨hlost, rfl⟩ := Prod.mk.inj hres
  exact ⟨c, c', (Reachable.construct _ _ _ _).insert hc, hc', hquery, hlost⟩

theorem failed_insert_unhandled_crowded : ∃ c c' : Container ℕ ℕ, Reachable chainsOfPower c ∧
    c.insert 9 1 sentinel true = some (c', .failure) ∧ ¬ FailureHandled c c' := by
  obtain ⟨c, c', hreach, hfail, -⟩ := exists_lost
  exact ⟨c, c', hreach, hfail, failed_insert_unhandled hreach hfail⟩

/-- A key that was found before is not found after the failure. -/
theorem findable_key_lost : ¬ ∀ c c' : Container ℕ ℕ, Reachable chainsOfPower c →
    c.insert 9 1 sentinel true = some (c', .failure) → FailureHandled c c' := by
  intro h
  obtain ⟨c, c', hreach, hfail, hfound, hlost⟩ := exists_lost
  have hkept := (h c c' hreach hfail).findable 0 (by rw [hfound]; decide)
  rw [hfound, hlost] at hkept
  cases hkept

end Samples

end Container

section Loss
variable {t : Bcht K S} {m m' : Memory K S} {done : List K} {fuel : ℕ} {key : K}

end Loss

end Zpc.Bcht
