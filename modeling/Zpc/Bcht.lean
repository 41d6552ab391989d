import Zpc.SparseMatrix

/-!
# The bucketed cuckoo hash table on the host

`insert` and `query` of the view of `bcht` in `Bcht.hpp`, one call at a time. A key waits in its first bucket until a
key that finds the bucket full takes its slot; it then moves on to its next bucket. The device versions and `resize`
are left out.
-/
namespace Zpc
/-- A table of keys `K` that are stored as `S`, its hash functions, and what a fresh generator draws. The hash functions
are also called with stored keys. -/
structure Bcht (K S : Type*) where
  bucketSize : ℕ
  numBuckets : ℕ
  maxCuckooChains : ℕ
  transKey : K → S
  asKey : S → K
  compareKeySentinel : S
  hf0 : K → ℕ
  hf1 : K → ℕ
  hf2 : K → ℕ
  rng : ℕ → ℕ
  bucketSize_pos : 0 < bucketSize

namespace Bcht
/-- A table that compares keys stores the keys themselves. -/
def comparingKeys {K : Type*} (bucketSize numBuckets maxCuckooChains : ℕ) (sentinel : K) (hf0 hf1 hf2 : K → ℕ)
    (rng : ℕ → ℕ) (h : 0 < bucketSize) : Bcht K K where
  bucketSize := bucketSize
  numBuckets := numBuckets
  maxCuckooChains := maxCuckooChains
  transKey key := key
  asKey key := key
  compareKeySentinel := sentinel
  hf0 := hf0
  hf1 := hf1
  hf2 := hf2
  rng := rng
  bucketSize_pos := h

/-- A table that compares hashes stores the first hash, a number that the hash functions take for a key. -/
def comparingHashes {K : Type*} (bucketSize numBuckets maxCuckooChains sentinel : ℕ) (asKey : ℕ → K)
    (hf0 hf1 hf2 : K → ℕ) (rng : ℕ → ℕ) (h : 0 < bucketSize) : Bcht K ℕ where
  bucketSize := bucketSize
  numBuckets := numBuckets
  maxCuckooChains := maxCuckooChains
  transKey := hf0
  asKey := asKey
  compareKeySentinel := sentinel
  hf0 := hf0
  hf1 := hf1
  hf2 := hf2
  rng := rng
  bucketSize_pos := h

/-- A draw of `mars_rng_32` from its state. -/
def marsStep (y : ℕ) : ℕ :=
  let y₁ := (y ^^^ (y <<< 13 % 2 ^ 32)) >>> 17
  y₁ ^^^ (y₁ <<< 5 % 2 ^ 32)

/-- `mars_rng_32` -/
def marsRng : ℕ → ℕ
  | 0 => marsStep 2463534242
  | n + 1 => marsStep (marsRng n)

/-- `sentinel_v` -/
def sentinel : ℤ := -1

structure Memory (K S : Type*) where
  keys : ℕ → S
  indices : ℕ → ℤ
  activeKeys : ℤ → K
  cnt : ℕ

/-- What an insertion returns: an index or the sentinel, or `failure_token_v`. -/
inductive Returned
  | value (no : ℤ)
  | failure
deriving DecidableEq

section View
variable {K S : Type*} [DecidableEq S] (t : Bcht K S)

def capacity : ℕ := t.numBuckets * t.bucketSize

def bucketOf (hf : K → ℕ) (key : K) : ℕ := hf key % t.numBuckets

/-- The table after `reset` with the counter. -/
def empty (indices : ℕ → ℤ) (activeKeys : ℤ → K) : Memory K S where
  keys _ := t.compareKeySentinel
  indices := indices
  activeKeys := activeKeys
  cnt := 0

def holds (m : Memory K S) (bucketOffset : ℕ) (key : S) : Bool :=
  (List.range t.bucketSize).any fun i => m.keys (bucketOffset + i) = key

/-- The number of occupied slots of a bucket. -/
def load (m : Memory K S) (bucketOffset : ℕ) : ℕ :=
  (List.range t.bucketSize).countP fun i => m.keys (bucketOffset + i) ≠ t.compareKeySentinel

/-- The state of the loop of `insert`. -/
structure Chain (S : Type*) where
  bucketOffset : ℕ
  insertionKey : S
  insertionIndex : ℤ
  no : ℤ
  cuckooCounter : ℕ

/-- A key without an index gets the next one. -/
def number (m : Memory K S) (c : Chain S) : Memory K S × Chain S :=
  if c.insertionIndex = sentinel then ({m with cnt := m.cnt + 1}, {c with insertionIndex := m.cnt, no := m.cnt})
  else (m, c)

def Memory.store (m : Memory K S) (slot : ℕ) (key : S) (index : ℤ) : Memory K S :=
  {m with keys := Function.update m.keys slot key, indices := Function.update m.indices slot index}

def nextBucket (bucketOffset : ℕ) (oldKey : S) : ℕ :=
  if bucketOffset = t.bucketOf t.hf0 (t.asKey oldKey) * t.bucketSize then t.bucketOf t.hf1 (t.asKey oldKey)
  else if bucketOffset = t.bucketOf t.hf1 (t.asKey oldKey) * t.bucketSize then t.bucketOf t.hf2 (t.asKey oldKey)
  else t.bucketOf t.hf0 (t.asKey oldKey)

/-- The key of the chain takes the slot of another, which goes on. -/
def evict (m : Memory K S) (c : Chain S) : Memory K S × Chain S :=
  let slot := c.bucketOffset + t.rng c.cuckooCounter % t.bucketSize
  let (m', c') := number m c
  (m'.store slot c'.insertionKey c'.insertionIndex,
    {c' with
      bucketOffset := t.nextBucket c.bucketOffset (m.keys slot) * t.bucketSize
      insertionKey := m.keys slot
      insertionIndex := m.indices slot
      cuckooCounter := c.cuckooCounter + 1})

/-- The loop of `insert`: a slot that is not free although the bucket has room is tried again. -/
def insertFrom (key : K) (enqueueKey : Bool) : ℕ → Memory K S → Chain S → Option (Memory K S × Returned)
  | 0, _, _ => none
  | fuel + 1, m, c =>
      if t.holds m c.bucketOffset c.insertionKey then some (m, .value sentinel)
      else if t.load m c.bucketOffset ≠ t.bucketSize then
        let slot := c.bucketOffset + t.load m c.bucketOffset
        if m.keys slot = t.compareKeySentinel then
          let (m', c') := number m c
          let m'' := m'.store slot c'.insertionKey c'.insertionIndex
          some (if enqueueKey then {m'' with activeKeys := Function.update m''.activeKeys c'.no key} else m'',
            .value c'.no)
        else if c.cuckooCounter < t.maxCuckooChains then insertFrom key enqueueKey fuel m c
        else some (m, .failure)
      else
        let (m', c') := t.evict m c
        if c'.cuckooCounter < t.maxCuckooChains then insertFrom key enqueueKey fuel m' c'
        else some (m', .failure)

def insert (fuel : ℕ) (m : Memory K S) (key : K) (insertionIndex : ℤ) (enqueueKey : Bool) :
    Option (Memory K S × Returned) :=
  if t.numBuckets = 0 then some (m, .failure)
  else t.insertFrom key enqueueKey fuel m
    ⟨t.bucketOf t.hf0 key * t.bucketSize, t.transKey key, insertionIndex, insertionIndex, 0⟩

def find (m : Memory K S) (bucketOffset : ℕ) (key : S) : Option ℕ :=
  (List.range t.bucketSize).find? fun i => m.keys (bucketOffset + i) = key

/-- The rounds of `query` from the given one on. -/
def queryFrom (m : Memory K S) (key : K) : ℕ → ℕ → ℕ → ℤ
  | 0, _, _ => sentinel
  | left + 1, iter, bucketOffset => match t.find m bucketOffset (t.transKey key) with
    | some location => m.indices (bucketOffset + location)
    | none =>
        if t.load m bucketOffset < t.bucketSize then sentinel
        else queryFrom m key left (iter + 1) (t.bucketOf (if iter = 0 then t.hf1 else t.hf2) key * t.bucketSize)

def query (m : Memory K S) (key : K) : ℤ :=
  if t.numBuckets = 0 then sentinel else t.queryFrom m key 3 0 (t.bucketOf t.hf0 key * t.bucketSize)

end View

end Bcht

end Zpc

/-!
## What the slots of a cuckoo hash table hold

A key is in one of its three buckets, and those before it are full, which they stay. The occupied slots of a bucket are
the first ones.
-/
namespace Zpc.Bcht
variable {K S : Type*} {t : Bcht K S} {m m' : Memory K S} {b b' i i' : ℕ} {key : K}

theorem slot_inj (hi : i < t.bucketSize) (hi' : i' < t.bucketSize)
    (h : b * t.bucketSize + i = b' * t.bucketSize + i') : b = b' ∧ i = i' := by
  have hdiv := congrArg (· / t.bucketSize) h
  have hmod := congrArg (· % t.bucketSize) h
  simp only [Nat.add_comm (_ * _), Nat.add_mul_div_right _ _ t.bucketSize_pos, Nat.add_mul_mod_self_right,
    Nat.div_eq_of_lt, Nat.mod_eq_of_lt, hi, hi', Nat.zero_add] at hdiv hmod
  exact ⟨hdiv, hmod⟩

/-- All slots of a bucket are occupied. -/
def Full (t : Bcht K S) (m : Memory K S) (b : ℕ) : Prop :=
  ∀ i < t.bucketSize, m.keys (b * t.bucketSize + i) ≠ t.compareKeySentinel

/-- A bucket where a key may wait: one of its three, with those before it full. -/
def Home (t : Bcht K S) (m : Memory K S) (key : K) (b : ℕ) : Prop :=
  b = t.bucketOf t.hf0 key ∨ t.Full m (t.bucketOf t.hf0 key) ∧
    (b = t.bucketOf t.hf1 key ∨ t.Full m (t.bucketOf t.hf1 key) ∧ b = t.bucketOf t.hf2 key)

theorem Home.mono (h : t.Home m key b) (hfull : ∀ b, t.Full m b → t.Full m' b) : t.Home m' key b :=
  h.imp_right fun ⟨h0, h⟩ => ⟨hfull _ h0, h.imp_right fun ⟨h1, h2⟩ => ⟨hfull _ h1, h2⟩⟩

/-- The stored form of a key hashes into the buckets of the key. -/
def Rehashes (t : Bcht K S) (key : K) : Prop :=
  t.bucketOf t.hf0 (t.asKey (t.transKey key)) = t.bucketOf t.hf0 key ∧
    t.bucketOf t.hf1 (t.asKey (t.transKey key)) = t.bucketOf t.hf1 key ∧
    t.bucketOf t.hf2 (t.asKey (t.transKey key)) = t.bucketOf t.hf2 key

/-- A key that is taken out of a full bucket goes on to one where it may wait. -/
theorem Home.next (h : t.Home m key b) (hfull : t.Full m b) (hr : t.Rehashes key) :
    t.Home m key (t.nextBucket (b * t.bucketSize) (t.transKey key)) := by
  obtain ⟨h0, h1, h2⟩ := hr
  have hcancel : ∀ b', b * t.bucketSize = b' * t.bucketSize ↔ b = b' := fun b' =>
    Nat.mul_left_inj (Nat.ne_of_gt t.bucketSize_pos)
  unfold nextBucket
  simp only [hcancel, h0, h1, h2]
  split_ifs with hb0 hb1
  · exact .inr ⟨hb0 ▸ hfull, .inl rfl⟩
  · have hfull0 := (h.resolve_left hb0).1
    exact .inr ⟨hfull0, .inr ⟨hb1 ▸ hfull, rfl⟩⟩
  · exact .inl rfl

/-- The table holds these keys with these indices, each once. -/
structure Occupied (t : Bcht K S) (entries : Set (K × ℤ)) (m : Memory K S) : Prop where
  stored : ∀ e ∈ entries, ∃ b < t.numBuckets, ∃ i < t.bucketSize, t.Home m e.1 b ∧
    m.keys (b * t.bucketSize + i) = t.transKey e.1 ∧ m.indices (b * t.bucketSize + i) = e.2
  known : ∀ b < t.numBuckets, ∀ i < t.bucketSize, m.keys (b * t.bucketSize + i) ≠ t.compareKeySentinel →
    ∃ e ∈ entries, m.keys (b * t.bucketSize + i) = t.transKey e.1 ∧ m.indices (b * t.bucketSize + i) = e.2
  unique : ∀ b < t.numBuckets, ∀ i < t.bucketSize, ∀ b' < t.numBuckets, ∀ i' < t.bucketSize,
    m.keys (b * t.bucketSize + i) ≠ t.compareKeySentinel →
    m.keys (b * t.bucketSize + i) = m.keys (b' * t.bucketSize + i') → b = b' ∧ i = i'
  packed : ∀ b < t.numBuckets, ∀ i < t.bucketSize, m.keys (b * t.bucketSize + i) ≠ t.compareKeySentinel →
    ∀ j < i, m.keys (b * t.bucketSize + j) ≠ t.compareKeySentinel

section Store
variable {entries : Set (K × ℤ)} {s : S} {index : ℤ}

theorem store_full (hs : s ≠ t.compareKeySentinel) {slot : ℕ} (h : t.Full m b) : t.Full (m.store slot s index) b := by
  intro i hi
  show Function.update m.keys slot s _ ≠ _
  rcases eq_or_ne (b * t.bucketSize + i) slot with he | he
  · rwa [he, Function.update_self]
  · rw [Function.update_of_ne he]
    exact h i hi

/-- A key takes a slot: the first free one of its bucket, or that of another key, which is not in the table any more. -/
theorem Occupied.store (ho : Occupied t entries m) (hb : b < t.numBuckets) (hi : i < t.bucketSize)
    (hpre : ∀ j < i, m.keys (b * t.bucketSize + j) ≠ t.compareKeySentinel) (hhome : t.Home m key b)
    (hne : t.transKey key ≠ t.compareKeySentinel) (hnew : ∀ e ∈ entries, t.transKey e.1 ≠ t.transKey key) :
    Occupied t {e | e = (key, index) ∨ e ∈ entries ∧ t.transKey e.1 ≠ m.keys (b * t.bucketSize + i)}
      (m.store (b * t.bucketSize + i) (t.transKey key) index) := by
  have hfull : ∀ b', t.Full m b' → t.Full (m.store (b * t.bucketSize + i) (t.transKey key) index) b' :=
    fun b' => store_full hne
  have hself : (m.store (b * t.bucketSize + i) (t.transKey key) index).keys (b * t.bucketSize + i) = t.transKey key ∧
      (m.store (b * t.bucketSize + i) (t.transKey key) index).indices (b * t.bucketSize + i) = index :=
    ⟨Function.update_self .., Function.update_self ..⟩
  have hother : ∀ {s}, s ≠ b * t.bucketSize + i →
      (m.store (b * t.bucketSize + i) (t.transKey key) index).keys s = m.keys s ∧
      (m.store (b * t.bucketSize + i) (t.transKey key) index).indices s = m.indices s :=
    fun h => ⟨Function.update_of_ne h .., Function.update_of_ne h ..⟩
  generalize m.store (b * t.bucketSize + i) (t.transKey key) index = m' at hfull hself hother ⊢
  -- the key is nowhere else
  have habsent : ∀ b' < t.numBuckets, ∀ i' < t.bucketSize, m.keys (b' * t.bucketSize + i') ≠ t.transKey key := by
    intro b' hb' i' hi' he
    obtain ⟨e, hmem, hk, _⟩ := ho.known b' hb' i' hi' (he ▸ hne)
    exact hnew e hmem (hk.symm.trans he)
  constructor
  case stored =>
    intro e he
    rcases he with rfl | ⟨hmem, hk⟩
    · exact ⟨b, hb, i, hi, hhome.mono hfull, hself⟩
    · obtain ⟨b', hb', i', hi', hhome', hk', hind⟩ := ho.stored e hmem
      have hslot : b' * t.bucketSize + i' ≠ b * t.bucketSize + i := fun h => hk (h ▸ hk'.symm)
      exact ⟨b', hb', i', hi', hhome'.mono hfull, (hother hslot).1.trans hk', (hother hslot).2.trans hind⟩
  case known =>
    intro b' hb' i' hi' hk
    rcases eq_or_ne (b' * t.bucketSize + i') (b * t.bucketSize + i) with h | h
    · rw [h]
      exact ⟨(key, index), .inl rfl, hself⟩
    · rw [(hother h).1] at hk ⊢
      rw [(hother h).2]
      obtain ⟨e, hmem, hk', hind⟩ := ho.known b' hb' i' hi' hk
      refine ⟨e, .inr ⟨hmem, fun he => h ?_⟩, hk', hind⟩
      obtain ⟨rfl, rfl⟩ := ho.unique b' hb' i' hi' b hb i hi hk (hk'.trans he)
      rfl
  case unique =>
    intro b₁ hb₁ i₁ hi₁ b₂ hb₂ i₂ hi₂ hk he
    rcases eq_or_ne (b₁ * t.bucketSize + i₁) (b * t.bucketSize + i) with h₁ | h₁ <;>
      rcases eq_or_ne (b₂ * t.bucketSize + i₂) (b * t.bucketSize + i) with h₂ | h₂
    · exact slot_inj hi₁ hi₂ (h₁.trans h₂.symm)
    · rw [h₁, hself.1, (hother h₂).1] at he
      exact absurd he.symm (habsent b₂ hb₂ i₂ hi₂)
    · rw [h₂, hself.1, (hother h₁).1] at he
      exact absurd he (habsent b₁ hb₁ i₁ hi₁)
    · rw [(hother h₁).1] at hk he
      rw [(hother h₂).1] at he
      exact ho.unique b₁ hb₁ i₁ hi₁ b₂ hb₂ i₂ hi₂ hk he
  case packed =>
    intro b' hb' i' hi' hk j hj
    have hj' := hj.trans hi'
    rcases eq_or_ne (b' * t.bucketSize + j) (b * t.bucketSize + i) with h | h
    · rw [h, hself.1]
      exact hne
    · rw [(hother h).1]
      rcases eq_or_ne (b' * t.bucketSize + i') (b * t.bucketSize + i) with h' | h'
      · obtain ⟨rfl, rfl⟩ := slot_inj hi' hi h'
        exact hpre j hj
      · rw [(hother h').1] at hk
        exact ho.packed b' hb' i' hi' hk j hj

end Store

section Load
variable [DecidableEq S] {entries : Set (K × ℤ)}

/-- How many positions have a property that the positions before them have too. -/
theorem lt_countP_range {P : ℕ → Prop} [DecidablePred P] {n : ℕ} (hP : ∀ i < n, P i → ∀ j < i, P j) :
    ∀ i < n, P i ↔ i < (List.range n).countP fun i => P i := by
  induction n with
  | zero => exact fun i hi => absurd hi (Nat.not_lt_zero i)
  | succ n ih =>
    intro i hi
    by_cases hn : P n
    · have hall : ∀ j < n + 1, P j := fun j hj => by
        rcases Nat.lt_succ_iff_lt_or_eq.mp hj with hj | rfl
        · exact hP n (Nat.lt_succ_self n) hn j hj
        · exact hn
      have hcount : (List.range (n + 1)).countP (fun i => P i) = n + 1 := by
        rw [List.countP_eq_length.mpr, List.length_range]
        intro j hj
        exact decide_eq_true (hall j (List.mem_range.mp hj))
      rw [hcount]
      exact ⟨fun _ => hi, fun _ => hall i hi⟩
    · have hcount : (List.range (n + 1)).countP (fun i => P i) = (List.range n).countP fun i => P i := by
        rw [List.range_succ, List.countP_append, List.countP_singleton, if_neg (by simpa using hn), Nat.add_zero]
      have hle := List.countP_le_length (p := fun i => decide (P i)) (l := List.range n)
      rw [List.length_range] at hle
      rw [hcount]
      rcases Nat.lt_succ_iff_lt_or_eq.mp hi with hlt | rfl
      · exact ih (fun i hi => hP i (Nat.lt_succ_of_lt hi)) i hlt
      · exact ⟨fun h => absurd h hn, fun h => absurd h (Nat.not_lt.mpr hle)⟩

theorem load_le (t : Bcht K S) (m : Memory K S) (off : ℕ) : t.load m off ≤ t.bucketSize := by
  have hle := List.countP_le_length (p := fun i => decide (m.keys (off + i) ≠ t.compareKeySentinel))
    (l := List.range t.bucketSize)
  rwa [List.length_range] at hle

theorem Occupied.lt_load (ho : Occupied t entries m) (hb : b < t.numBuckets) (hi : i < t.bucketSize) :
    m.keys (b * t.bucketSize + i) ≠ t.compareKeySentinel ↔ i < t.load m (b * t.bucketSize) :=
  lt_countP_range (P := fun i => m.keys (b * t.bucketSize + i) ≠ t.compareKeySentinel) (ho.packed b hb) i hi

/-- The load of a bucket that is not full is the position of its first free slot. -/
theorem Occupied.first_free (ho : Occupied t entries m) (hb : b < t.numBuckets)
    (hload : t.load m (b * t.bucketSize) ≠ t.bucketSize) :
    t.load m (b * t.bucketSize) < t.bucketSize ∧
      m.keys (b * t.bucketSize + t.load m (b * t.bucketSize)) = t.compareKeySentinel ∧
      ∀ j < t.load m (b * t.bucketSize), m.keys (b * t.bucketSize + j) ≠ t.compareKeySentinel := by
  have hlt := Nat.lt_of_le_of_ne (load_le t m _) hload
  refine ⟨hlt, ?_, fun j hj => (ho.lt_load hb (hj.trans hlt)).mpr hj⟩
  by_contra hne
  exact Nat.lt_irrefl _ ((ho.lt_load hb hlt).mp hne)

theorem Occupied.full_iff (ho : Occupied t entries m) (hb : b < t.numBuckets) :
    t.Full m b ↔ t.load m (b * t.bucketSize) = t.bucketSize := by
  constructor
  · intro hfull
    by_contra hload
    obtain ⟨hlt, hfree, _⟩ := ho.first_free hb hload
    exact hfull _ hlt hfree
  · intro hload i hi
    exact (ho.lt_load hb hi).mpr (hload.symm ▸ hi)

end Load

section Query
variable [DecidableEq S] {entries : Set (K × ℤ)}

theorem find_some {off : ℕ} {s : S} (h : t.find m off s = some i) : i < t.bucketSize ∧ m.keys (off + i) = s := by
  have hmem := List.mem_range.mp (List.mem_of_find?_eq_some h)
  have hk := List.find?_some (p := fun i => decide (m.keys (off + i) = s)) h
  exact ⟨hmem, of_decide_eq_true hk⟩

theorem find_none {off : ℕ} {s : S} (h : t.find m off s = none) : ∀ i < t.bucketSize, m.keys (off + i) ≠ s :=
  fun i hi he => List.find?_eq_none.mp h i (List.mem_range.mpr hi) (decide_eq_true he)

/-- The bucket that `query` looks into in a round. -/
def round (t : Bcht K S) (key : K) : ℕ → ℕ
  | 0 => t.bucketOf t.hf0 key
  | 1 => t.bucketOf t.hf1 key
  | _ => t.bucketOf t.hf2 key

/-- The rounds end at a slot of the key, at a bucket that is not full, or after the third. -/
theorem queryFrom_cases (t : Bcht K S) (m : Memory K S) (key : K) (left iter : ℕ) :
    (∃ r, iter ≤ r ∧ r < iter + left ∧ ∃ i < t.bucketSize, m.keys (t.round key r * t.bucketSize + i) = t.transKey key ∧
      t.queryFrom m key left iter (t.round key iter * t.bucketSize) = m.indices (t.round key r * t.bucketSize + i)) ∨
    t.queryFrom m key left iter (t.round key iter * t.bucketSize) = sentinel ∧
      ∃ r, iter ≤ r ∧ (r = iter + left ∨ r < iter + left ∧ t.load m (t.round key r * t.bucketSize) < t.bucketSize ∧
        ∀ i < t.bucketSize, m.keys (t.round key r * t.bucketSize + i) ≠ t.transKey key) ∧
      ∀ q, iter ≤ q → q < r → ∀ i < t.bucketSize, m.keys (t.round key q * t.bucketSize + i) ≠ t.transKey key := by
  induction left generalizing iter with
  | zero => exact .inr ⟨rfl, iter, Nat.le_refl _, .inl rfl, fun q hq hlt => absurd hlt (Nat.not_lt.mpr hq)⟩
  | succ left ih =>
    have hnext : t.bucketOf (if iter = 0 then t.hf1 else t.hf2) key = t.round key (iter + 1) := by
      cases iter <;> rfl
    unfold queryFrom
    rw [hnext]
    cases hf : t.find m (t.round key iter * t.bucketSize) (t.transKey key) with
    | some i =>
      obtain ⟨hi, hk⟩ := find_some hf
      exact .inl ⟨iter, Nat.le_refl _, by omega, i, hi, hk, rfl⟩
    | none =>
      have hnone := find_none hf
      dsimp only
      split_ifs with hload
      · exact .inr ⟨rfl, iter, Nat.le_refl _, .inr ⟨by omega, hload, hnone⟩,
          fun q hq hlt => absurd hlt (Nat.not_lt.mpr hq)⟩
      · rcases ih (iter + 1) with ⟨r, hle, hlt, hrest⟩ | ⟨hq, r, hle, hend, hbefore⟩
        · exact .inl ⟨r, by omega, by omega, hrest⟩
        · refine .inr ⟨hq, r, by omega, hend.imp (fun h => by omega) (fun h => ⟨by omega, h.2⟩), fun q hiq hlt => ?_⟩
          rcases Nat.eq_or_lt_of_le hiq with rfl | hiq
          · exact hnone
          · exact hbefore q hiq hlt

end Query

end Zpc.Bcht
