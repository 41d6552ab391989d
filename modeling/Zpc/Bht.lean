import Zpc.Interleaving

/-!
# The host insertions of the bucketed hash table

`insert` and `query` of the view of `bht` in `Bht.hpp`. A load or a compare-and-swap of a key is one action when the
key is a word, and otherwise happens under the lock of its slot. The device versions are left out.
-/
namespace Zpc
/-- A table: its constants, its hash functions, and its size, a multiple of `bucket_size` that `value_type` can count. -/
structure Bht (K : Type*) where
  bucketSize : ℕ
  numBuckets : ℕ
  bits : ℕ
  /-- The key takes neither four nor eight bytes. -/
  wide : Bool
  keySentinel : K
  hf0 : K → ℕ
  hf1 : K → ℕ
  hf2 : K → ℕ
  threshold_pos : 2 < bucketSize
  fits : 2 * (numBuckets * bucketSize) ≤ 2 ^ bits

namespace Bht
variable {K : Type*}

def tableSize (t : Bht K) : ℕ := t.numBuckets * t.bucketSize

def threshold (t : Bht K) : ℕ := t.bucketSize - 2

def sentinel : ℤ := -1

/-- The least `value_type`. -/
def failureToken (t : Bht K) : ℤ := -2 ^ (t.bits - 1)

/-- `bucketOffset` in the given round. -/
def bucketOffset (t : Bht K) (iter : ℕ) (key : K) : ℕ :=
  (match iter with
    | 0 => t.hf0 key
    | 1 => t.hf1 key
    | _ => t.hf2 key) % t.numBuckets * t.bucketSize

/-- The arguments of an insertion. -/
structure Call (K : Type*) where
  key : K
  insertionIndex : ℤ := sentinel
  enqueueKey : Bool := true

/-- How an insertion ends: with an index, with the key there already, with an index too close to the table size, with
no slot, or without buckets. -/
inductive Outcome
  | index (n : ℤ)
  | present
  | near (n : ℤ)
  | full
  | noBuckets

/-- The value returned. -/
def Outcome.value (t : Bht K) : Outcome → ℤ
  | .index n => n
  | .present => sentinel
  | _ => t.failureToken

/-- The number that an insertion has put into the table. -/
def Outcome.number : Outcome → Option ℤ
  | .index n => some n
  | .near n => some n
  | _ => none

/-- The arrays of the table, and a record of the insertions that have returned. -/
structure Memory (K : Type*) where
  keys : ℕ → K
  indices : ℕ → ℤ
  locked : ℕ → Bool
  activeKeys : ℤ → K
  cnt : ℕ
  success : Bool
  returned : List (Call K × Outcome)

/-- Where an insertion looks: the round and the position in the bucket. -/
structure Place (K : Type*) where
  call : Call K
  iter : ℕ
  load : ℕ

inductive Frame (K : Type*)
  | call (a : Call K)
  | lockLoad (p : Place K)
  | load (p : Place K)
  | unlockLoad (p : Place K) (curKey : K)
  | examine (p : Place K) (curKey : K)
  | lockSwap (p : Place K)
  | swap (p : Place K)
  | unlockSwap (p : Place K) (eqn : Bool)
  | switched (p : Place K) (eqn : Bool)
  | number (p : Place K)
  | store (p : Place K) (localno : ℤ)
  | enqueue (p : Place K) (localno : ℤ)
  | finish (p : Place K) (localno : ℤ)
  | fail (a : Call K)

def slot (t : Bht K) (p : Place K) : ℕ := t.bucketOffset p.iter p.call.key + p.load

/-- `atomicLoad`, from its first action on. -/
def atomicLoad (t : Bht K) (p : Place K) : Frame K := if t.wide then .lockLoad p else .load p

/-- `atomicSwitchIfEqual`, from its first action on. -/
def atomicSwitchIfEqual (t : Bht K) (p : Place K) : Frame K := if t.wide then .lockSwap p else .swap p

def nextBucket (t : Bht K) (p : Place K) : Frame K :=
  if p.iter + 1 < 3 then t.atomicLoad ⟨p.call, p.iter + 1, 0⟩ else .fail p.call

/-- `localno >= _tableSize - 20`, where both sides are promoted to `int` or are unsigned. -/
def proximity (t : Bht K) (localno : ℤ) : Prop :=
  if t.bits < 32 then (t.tableSize : ℤ) - 20 ≤ localno
  else ((t.tableSize : ℤ) - 20) % 2 ^ t.bits ≤ localno % 2 ^ t.bits

instance (t : Bht K) (localno : ℤ) : Decidable (t.proximity localno) := by
  unfold proximity
  infer_instance

def Memory.done (m : Memory K) (a : Call K) (o : Outcome) : Memory K := {m with returned := (a, o) :: m.returned}

variable [DecidableEq K]

/-- The actions of `insert`. -/
def code (t : Bht K) (m : Memory K) : Frame K → Unit → Option (Memory K × List (Frame K))
  | .call a, _ => if t.numBuckets = 0 then some (m.done a .noBuckets, []) else some (m, [t.atomicLoad ⟨a, 0, 0⟩])
  | .lockLoad p, _ => if m.locked (t.slot p) then none
      else some ({m with locked := Function.update m.locked (t.slot p) true}, [.load p])
  | .load p, _ => some (m, [if t.wide then .unlockLoad p (m.keys (t.slot p)) else .examine p (m.keys (t.slot p))])
  | .unlockLoad p curKey, _ =>
      some ({m with locked := Function.update m.locked (t.slot p) false}, [.examine p curKey])
  | .examine p curKey, _ =>
      if curKey = p.call.key then some (m.done p.call .present, [])
      else if curKey = t.keySentinel then
        if p.load ≤ t.threshold then some (m, [t.atomicSwitchIfEqual p]) else some (m, [t.nextBucket p])
      else if p.load + 1 = t.bucketSize then some (m, [t.nextBucket p])
      else some (m, [t.atomicLoad ⟨p.call, p.iter, p.load + 1⟩])
  | .lockSwap p, _ => if m.locked (t.slot p) then none
      else some ({m with locked := Function.update m.locked (t.slot p) true}, [.swap p])
  | .swap p, _ =>
      if m.keys (t.slot p) = t.keySentinel then
        some ({m with keys := Function.update m.keys (t.slot p) p.call.key},
          [if t.wide then .unlockSwap p true else .switched p true])
      else some (m, [if t.wide then .unlockSwap p false else .switched p false])
  | .unlockSwap p eqn, _ => some ({m with locked := Function.update m.locked (t.slot p) false}, [.switched p eqn])
  | .switched p eqn, _ => if eqn then some (m, [.number p]) else some (m, [t.atomicLoad p])
  | .number p, _ =>
      if p.call.insertionIndex = sentinel then
        some ({m with cnt := (m.cnt + 1) % 2 ^ t.bits}, [.store p ((m.cnt : ℤ).bmod (2 ^ t.bits))])
      else some (m, [.store p p.call.insertionIndex])
  | .store p localno, _ =>
      some ({m with indices := Function.update m.indices (t.slot p) localno},
        [if p.call.enqueueKey then .enqueue p localno else .finish p localno])
  | .enqueue p localno, _ =>
      some ({m with activeKeys := Function.update m.activeKeys localno p.call.key}, [.finish p localno])
  | .finish p localno, _ =>
      if t.proximity localno then some ({m with success := false}.done p.call (.near localno), [])
      else some (m.done p.call (.index localno), [])
  | .fail a, _ => some ({m with success := false}.done a .full, [])

/-- An empty table, whose indices are not initialised. -/
def empty (t : Bht K) (indices : ℕ → ℤ) (activeKeys : ℤ → K) : Memory K where
  keys := fun _ => t.keySentinel
  indices := indices
  locked := fun _ => false
  activeKeys := activeKeys
  cnt := 0
  success := true
  returned := []

def find (m : Memory K) (key : K) (offset : ℕ) : ℕ → ℕ → Option ℕ
  | _, 0 => none
  | loc, left + 1 => if m.keys (offset + loc) = key then some loc else find m key offset (loc + 1) left

/-- The rounds of `query`. -/
def queryFrom (t : Bht K) (m : Memory K) (key : K) : ℕ → ℕ → ℤ
  | _, 0 => sentinel
  | iter, left + 1 => match find m key (t.bucketOffset iter key) 0 t.bucketSize with
    | some loc => m.indices (t.bucketOffset iter key + loc)
    | none => queryFrom t m key (iter + 1) left

def query (t : Bht K) (m : Memory K) (key : K) : ℤ := if t.numBuckets = 0 then sentinel else t.queryFrom m key 0 3

/-- The rounds of `query` with `retrieve_index` off; `none` is the greatest `value_type`. -/
def entryFrom (t : Bht K) (m : Memory K) (key : K) : ℕ → ℕ → Option ℕ
  | _, 0 => none
  | iter, left + 1 => match find m key (t.bucketOffset iter key) 0 t.bucketSize with
    | some loc => some (t.bucketOffset iter key + loc)
    | none => entryFrom t m key (iter + 1) left

def entry (t : Bht K) (m : Memory K) (key : K) : Option ℕ := if t.numBuckets = 0 then none else t.entryFrom m key 0 3

end Bht

end Zpc

/-!
## Invariants of the concurrent insertions

A key is put only where an empty slot is found after everything before it in its buckets has been found taken by other
keys, and a taken slot never changes.
-/
namespace Zpc.Bht
open Interleaving

variable {K : Type*} {t : Bht K} {p : Place K}

section Table
variable {keys keys' : ℕ → K}

/-- The places of a round are taken, up to the threshold, and none of them by the key. -/
def Full (t : Bht K) (keys : ℕ → K) (key : K) (iter : ℕ) : Prop :=
  ∀ l < t.bucketSize, keys (t.bucketOffset iter key + l) ≠ key ∧
    (l ≤ t.threshold → keys (t.bucketOffset iter key + l) ≠ t.keySentinel)

/-- Everything before the place has been found taken by other keys. -/
structure Passed (t : Bht K) (keys : ℕ → K) (p : Place K) : Prop where
  buckets : t.numBuckets ≠ 0
  round : p.iter < 3
  full : ∀ i < p.iter, Full t keys p.call.key i
  load : p.load < t.bucketSize
  before : ∀ l < p.load, keys (t.bucketOffset p.iter p.call.key + l) ≠ p.call.key ∧
    keys (t.bucketOffset p.iter p.call.key + l) ≠ t.keySentinel

/-- The place holds the key of the call. -/
structure Claims (t : Bht K) (keys : ℕ → K) (p : Place K) : Prop where
  buckets : t.numBuckets ≠ 0
  round : p.iter < 3
  full : ∀ i < p.iter, Full t keys p.call.key i
  load : p.load ≤ t.threshold
  held : keys (t.slot p) = p.call.key

/-- Nothing is put past the threshold. -/
def Reserved (t : Bht K) (keys : ℕ → K) : Prop :=
  ∀ b l, t.threshold < l → l < t.bucketSize → keys (b * t.bucketSize + l) = t.keySentinel

/-- The taken places are a prefix of their bucket and leave the places past the threshold, each key is in one place,
and that is past the full rounds of the key. -/
structure Table (t : Bht K) (keys : ℕ → K) : Prop where
  fromStart : ∀ b l l', l < l' → l' < t.bucketSize → keys (b * t.bucketSize + l') ≠ t.keySentinel →
    keys (b * t.bucketSize + l) ≠ t.keySentinel
  reserved : Reserved t keys
  home : ∀ s, keys s ≠ t.keySentinel → ∃ p : Place K, p.call.key = keys s ∧ t.slot p = s ∧ Claims t keys p
  unique : ∀ s s', keys s ≠ t.keySentinel → keys s = keys s' → s = s'

/-- Taken places keep their keys. -/
def Extends (t : Bht K) (keys keys' : ℕ → K) : Prop := ∀ s, keys s ≠ t.keySentinel → keys' s = keys s

theorem Full.extend {key : K} {iter : ℕ} (h : Full t keys key iter) (he : Extends t keys keys')
    (hr : Reserved t keys') (hk : key ≠ t.keySentinel) : Full t keys' key iter := by
  intro l hl
  by_cases hle : l ≤ t.threshold
  · have ho := (h l hl).2 hle
    rw [he _ ho]
    exact ⟨(h l hl).1, fun _ => ho⟩
  · unfold bucketOffset
    rw [hr _ l (Nat.lt_of_not_le hle) hl]
    exact ⟨hk.symm, fun h => absurd h hle⟩

theorem Passed.extend (h : Passed t keys p) (he : Extends t keys keys') (hr : Reserved t keys')
    (hk : p.call.key ≠ t.keySentinel) : Passed t keys' p := by
  refine ⟨h.buckets, h.round, fun i hi => (h.full i hi).extend he hr hk, h.load, fun l hl => ?_⟩
  rw [he _ (h.before l hl).2]
  exact h.before l hl

theorem Claims.extend (h : Claims t keys p) (he : Extends t keys keys') (hr : Reserved t keys')
    (hk : p.call.key ≠ t.keySentinel) : Claims t keys' p :=
  ⟨h.buckets, h.round, fun i hi => (h.full i hi).extend he hr hk, h.load, (he _ (by rwa [h.held])).trans h.held⟩

theorem threshold_lt (t : Bht K) : t.threshold < t.bucketSize := by
  have h := t.threshold_pos
  unfold threshold
  omega

theorem bucketOffset_eq (hn : t.numBuckets ≠ 0) (iter : ℕ) (key : K) :
    ∃ b < t.numBuckets, t.bucketOffset iter key = b * t.bucketSize :=
  ⟨_, Nat.mod_lt _ (Nat.pos_of_ne_zero hn), rfl⟩

theorem slot_lt (hn : t.numBuckets ≠ 0) (hl : p.load < t.bucketSize) : t.slot p < t.tableSize := by
  obtain ⟨b, hb, ho⟩ := bucketOffset_eq hn p.iter p.call.key
  have hmul : (b + 1) * t.bucketSize ≤ t.numBuckets * t.bucketSize := Nat.mul_le_mul_right _ hb
  rw [Nat.add_mul] at hmul
  unfold slot tableSize
  omega

theorem Passed.slot_lt (h : Passed t keys p) : t.slot p < t.tableSize := Bht.slot_lt h.buckets h.load

theorem Claims.slot_lt (h : Claims t keys p) : t.slot p < t.tableSize :=
  Bht.slot_lt h.buckets (Nat.lt_of_le_of_lt h.load t.threshold_lt)

/-- A bucket and a position in it are determined by the place. -/
theorem position_eq {b b' l l' : ℕ} (hl : l < t.bucketSize) (hl' : l' < t.bucketSize)
    (h : b * t.bucketSize + l = b' * t.bucketSize + l') : b = b' ∧ l = l' := by
  have hpos : 0 < t.bucketSize := Nat.lt_of_le_of_lt (Nat.zero_le _) hl
  have hb : b = b' := by
    have hd := congrArg (· / t.bucketSize) h
    simpa [Nat.mul_comm _ t.bucketSize, Nat.mul_add_div hpos, Nat.div_eq_of_lt hl, Nat.div_eq_of_lt hl'] using hd
  subst hb
  exact ⟨rfl, Nat.add_left_cancel h⟩

/-- A key that a call is about to put into an empty place is nowhere else. -/
theorem Passed.absent (h : Passed t keys p) (ht : Table t keys) (hl : p.load ≤ t.threshold)
    (he : keys (t.slot p) = t.keySentinel) (hk : p.call.key ≠ t.keySentinel) (s : ℕ) : keys s ≠ p.call.key := by
  intro hs
  obtain ⟨q, hq, hqs, hc⟩ := ht.home s (by rwa [hs])
  rw [hs] at hq
  subst hqs
  have hlt := Nat.lt_of_le_of_lt hc.load t.threshold_lt
  rcases Nat.lt_trichotomy q.iter p.iter with hi | hi | hi
  · -- an earlier round holds only other keys
    have hf := (h.full q.iter hi q.load hlt).1
    rw [← hq] at hf
    exact hf hc.held
  · have hoff : t.bucketOffset p.iter p.call.key = t.bucketOffset q.iter q.call.key := by rw [hi, hq]
    rcases Nat.lt_trichotomy q.load p.load with hql | hql | hql
    · have hb := (h.before q.load hql).1
      rw [hoff] at hb
      exact hb hs
    · unfold slot at he hs
      rw [hoff, ← hql] at he
      exact hk (hs.symm.trans he)
    · -- the places before a taken one are taken
      have hpre := ht.fromStart _ p.load q.load hql hlt (show keys (t.bucketOffset q.iter q.call.key + q.load) ≠ _ by
        rw [show keys (t.bucketOffset q.iter q.call.key + q.load) = p.call.key from hs]
        exact hk)
      unfold slot at he
      rw [hoff] at he
      exact hpre he
  · -- the round of the place would be full
    have hf := (hc.full p.iter hi p.load h.load).2 hl
    rw [hq] at hf
    exact hf he

theorem extends_update {s : ℕ} (he : keys s = t.keySentinel) (k : K) : Extends t keys (Function.update keys s k) :=
  fun s' hs => Function.update_of_ne (fun h : s' = s => hs (by rw [h, he])) k keys

/-- The place that a call takes comes after taken ones, and no other place holds the key. -/
theorem Passed.table (h : Passed t keys p) (ht : Table t keys) (hl : p.load ≤ t.threshold)
    (he : keys (t.slot p) = t.keySentinel) (hk : p.call.key ≠ t.keySentinel) :
    Table t (Function.update keys (t.slot p) p.call.key) ∧
      Claims t (Function.update keys (t.slot p) p.call.key) p := by
  have hext := extends_update he p.call.key
  have habs := h.absent ht hl he hk
  have hres : Reserved t (Function.update keys (t.slot p) p.call.key) := by
    intro b l hb hlt
    rw [Function.update_of_ne]
    · exact ht.reserved b l hb hlt
    · intro hs
      obtain ⟨_, rfl⟩ := position_eq hlt h.load hs
      omega
  have hclaims : Claims t (Function.update keys (t.slot p) p.call.key) p :=
    ⟨h.buckets, h.round, fun i hi => (h.full i hi).extend hext hres hk, hl, Function.update_self ..⟩
  refine ⟨⟨fun b l l' hll hl' hs => ?_, hres, fun s hs => ?_, fun s s' hs hss => ?_⟩, hclaims⟩
  · by_cases hb : b * t.bucketSize + l' = t.slot p
    · obtain ⟨rfl, rfl⟩ := position_eq hl' h.load hb
      have hbefore := (h.before l hll).2
      exact (hext _ hbefore).symm ▸ hbefore
    · rw [Function.update_of_ne hb] at hs
      have hbefore := ht.fromStart b l l' hll hl' hs
      exact (hext _ hbefore).symm ▸ hbefore
  · by_cases hsp : s = t.slot p
    · subst hsp
      exact ⟨p, hclaims.held.symm, rfl, hclaims⟩
    · rw [Function.update_of_ne hsp] at hs ⊢
      obtain ⟨q, hq, hqs, hc⟩ := ht.home s hs
      exact ⟨q, hq, hqs, hc.extend hext hres (hq ▸ hs)⟩
  · by_cases hsp : s = t.slot p <;> by_cases hsp' : s' = t.slot p
    · rw [hsp, hsp']
    · rw [hsp, Function.update_self, Function.update_of_ne hsp'] at hss
      exact absurd hss.symm (habs s')
    · rw [hsp', Function.update_self, Function.update_of_ne hsp] at hss
      exact absurd hss (habs s)
    · rw [Function.update_of_ne hsp] at hs hss
      rw [Function.update_of_ne hsp'] at hss
      exact ht.unique s s' hs hss

theorem table_empty (t : Bht K) : Table t fun _ => t.keySentinel :=
  ⟨fun _ _ _ _ _ h => absurd rfl h, fun _ _ _ _ => rfl, fun _ h => absurd rfl h, fun _ _ h => absurd rfl h⟩

end Table

section Actions
variable [DecidableEq K] {m m' : Memory K}

/-- What one action does, branch by branch. -/
inductive Acts (t : Bht K) (m : Memory K) : Frame K → Memory K → List (Frame K) → Prop
  | noBuckets (a : Call K) (hn : t.numBuckets = 0) : Acts t m (.call a) (m.done a .noBuckets) []
  | begin (a : Call K) (hn : t.numBuckets ≠ 0) : Acts t m (.call a) m [t.atomicLoad ⟨a, 0, 0⟩]
  | lockLoad (p : Place K) (hl : m.locked (t.slot p) = false) : Acts t m (.lockLoad p)
      {m with locked := Function.update m.locked (t.slot p) true} [.load p]
  | loadWide (p : Place K) (hw : t.wide = true) : Acts t m (.load p) m [.unlockLoad p (m.keys (t.slot p))]
  | load (p : Place K) (hw : t.wide = false) : Acts t m (.load p) m [.examine p (m.keys (t.slot p))]
  | unlockLoad (p : Place K) (k : K) : Acts t m (.unlockLoad p k)
      {m with locked := Function.update m.locked (t.slot p) false} [.examine p k]
  | present (p : Place K) : Acts t m (.examine p p.call.key) (m.done p.call .present) []
  | vacant (p : Place K) (hk : t.keySentinel ≠ p.call.key) (hl : p.load ≤ t.threshold) :
      Acts t m (.examine p t.keySentinel) m [t.atomicSwitchIfEqual p]
  | reserved (p : Place K) (hk : t.keySentinel ≠ p.call.key) (hl : t.threshold < p.load) :
      Acts t m (.examine p t.keySentinel) m [t.nextBucket p]
  | last (p : Place K) (k : K) (hk : k ≠ p.call.key) (hs : k ≠ t.keySentinel) (hl : p.load + 1 = t.bucketSize) :
      Acts t m (.examine p k) m [t.nextBucket p]
  | further (p : Place K) (k : K) (hk : k ≠ p.call.key) (hs : k ≠ t.keySentinel) (hl : p.load + 1 ≠ t.bucketSize) :
      Acts t m (.examine p k) m [t.atomicLoad ⟨p.call, p.iter, p.load + 1⟩]
  | lockSwap (p : Place K) (hl : m.locked (t.slot p) = false) : Acts t m (.lockSwap p)
      {m with locked := Function.update m.locked (t.slot p) true} [.swap p]
  | swap (p : Place K) (hk : m.keys (t.slot p) = t.keySentinel) : Acts t m (.swap p)
      {m with keys := Function.update m.keys (t.slot p) p.call.key}
      [if t.wide then .unlockSwap p true else .switched p true]
  | taken (p : Place K) (hk : m.keys (t.slot p) ≠ t.keySentinel) : Acts t m (.swap p) m
      [if t.wide then .unlockSwap p false else .switched p false]
  | unlockSwap (p : Place K) (b : Bool) : Acts t m (.unlockSwap p b)
      {m with locked := Function.update m.locked (t.slot p) false} [.switched p b]
  | switched (p : Place K) : Acts t m (.switched p true) m [.number p]
  | again (p : Place K) : Acts t m (.switched p false) m [t.atomicLoad p]
  | number (p : Place K) (hi : p.call.insertionIndex = sentinel) : Acts t m (.number p)
      {m with cnt := (m.cnt + 1) % 2 ^ t.bits} [.store p ((m.cnt : ℤ).bmod (2 ^ t.bits))]
  | given (p : Place K) (hi : p.call.insertionIndex ≠ sentinel) : Acts t m (.number p) m
      [.store p p.call.insertionIndex]
  | storeQueued (p : Place K) (n : ℤ) (hq : p.call.enqueueKey = true) : Acts t m (.store p n)
      {m with indices := Function.update m.indices (t.slot p) n} [.enqueue p n]
  | store (p : Place K) (n : ℤ) (hq : p.call.enqueueKey = false) : Acts t m (.store p n)
      {m with indices := Function.update m.indices (t.slot p) n} [.finish p n]
  | enqueue (p : Place K) (n : ℤ) : Acts t m (.enqueue p n)
      {m with activeKeys := Function.update m.activeKeys n p.call.key} [.finish p n]
  | near (p : Place K) (n : ℤ) (hn : t.proximity n) : Acts t m (.finish p n)
      ({m with success := false}.done p.call (.near n)) []
  | finish (p : Place K) (n : ℤ) (hn : ¬ t.proximity n) : Acts t m (.finish p n) (m.done p.call (.index n)) []
  | fail (a : Call K) : Acts t m (.fail a) ({m with success := false}.done a .full) []

theorem acts_of_code {f : Frame K} {x : Unit} {fs : List (Frame K)} (h : code t m f x = some (m', fs)) :
    Acts t m f m' fs := by
  cases f with
  | examine p k =>
    simp only [code] at h
    split_ifs at h with h1 h2 h3 h3 <;> simp only [Option.some.injEq, Prod.mk.injEq] at h <;> obtain ⟨rfl, rfl⟩ := h
    · exact h1 ▸ .present p
    · subst h2
      exact .vacant p h1 h3
    · subst h2
      exact .reserved p h1 (Nat.lt_of_not_le h3)
    · exact .last p k h1 h2 h3
    · exact .further p k h1 h2 h3
  | load p =>
    simp only [code, Option.some.injEq, Prod.mk.injEq] at h
    obtain ⟨rfl, rfl⟩ := h
    by_cases hw : t.wide = true
    · rw [if_pos hw]
      exact .loadWide p hw
    · rw [if_neg hw]
      exact .load p (by simpa using hw)
  | switched p b =>
    cases b <;> simp only [code, Option.some.injEq, Prod.mk.injEq, if_true, Bool.false_eq_true, if_false] at h <;>
      obtain ⟨rfl, rfl⟩ := h
    · exact .again p
    · exact .switched p
  | _ =>
    simp only [code] at h
    (try split at h) <;> simp only [Option.some.injEq, Prod.mk.injEq, reduceCtorEq] at h <;> obtain ⟨rfl, rfl⟩ := h <;>
      constructor <;> simp_all

/-- Any number of threads, each about to insert any sequence of keys into an empty table. -/
def start (t : Bht K) (indices : ℕ → ℤ) (activeKeys : ℤ → K) (programs : List (List K)) :
    Config (Memory K) (Frame K) :=
  ⟨t.empty indices activeKeys, (programs.map (·.map fun k => ({key := k} : Call K))).map (·.map .call)⟩

/-- The arguments of the call that a frame belongs to. -/
def Frame.args : Frame K → Call K
  | .call a => a
  | .fail a => a
  | .lockLoad p | .load p | .unlockLoad p _ | .examine p _ | .lockSwap p | .swap p | .unlockSwap p _
  | .switched p _ | .number p | .store p _ | .enqueue p _ | .finish p _ => p.call

def Frame.claim : Frame K → Option (Place K)
  | .unlockSwap p true | .switched p true | .number p | .store p _ | .enqueue p _ | .finish p _ => some p
  | _ => none

def Frame.taken : Frame K → Option ℤ
  | .store _ n | .enqueue _ n | .finish _ n => some n
  | _ => none

end Actions

end Zpc.Bht
