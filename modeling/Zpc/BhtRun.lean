import Zpc.Bht
import Mathlib.Algebra.Order.BigOperators.Group.Finset

/-!
# Runs of concurrent insertions

What a call knows of the table from the places it has looked at, and how the places that hold a key and the numbers
given out are shared among the calls.
-/
namespace Zpc.Bht
open Interleaving

variable {K : Type*} {t : Bht K} {m m' : Memory K} {p : Place K} {a : Call K} {f g : Frame K}
  {fs : List (Frame K)}

/-- The arguments of `insert(key)`, for a key that is not the sentinel. -/
structure Plain (t : Bht K) (a : Call K) : Prop where
  key : a.key ≠ t.keySentinel
  index : a.insertionIndex = sentinel
  queued : a.enqueueKey = true

/-- What a call has found. -/
def Known (t : Bht K) (m : Memory K) : Frame K → Prop
  | .call _ => True
  | .lockLoad p | .load p => Passed t m.keys p
  | .unlockLoad p k | .examine p k => Passed t m.keys p ∧ (k ≠ t.keySentinel → m.keys (t.slot p) = k)
  | .lockSwap p | .swap p => Passed t m.keys p ∧ p.load ≤ t.threshold
  | .unlockSwap p false | .switched p false => Passed t m.keys p
  | .unlockSwap p true | .switched p true | .number p | .store p _ => Claims t m.keys p
  | .enqueue p n => Claims t m.keys p ∧ m.indices (t.slot p) = n
  | .finish p n => Claims t m.keys p ∧ m.indices (t.slot p) = n ∧ m.activeKeys n = p.call.key
  | .fail a => ∀ i < 3, Full t m.keys a.key i

/-- Only wide keys are loaded and swapped under a lock. -/
def Guarded (t : Bht K) : Frame K → Prop
  | .lockLoad _ | .unlockLoad _ _ | .lockSwap _ | .unlockSwap _ _ => t.wide = true
  | _ => True

theorem known_atomicLoad (h : Passed t m.keys p) : Known t m (t.atomicLoad p) := by
  unfold atomicLoad
  split <;> exact h

theorem known_atomicSwitchIfEqual (h : Passed t m.keys p) (hl : p.load ≤ t.threshold) :
    Known t m (t.atomicSwitchIfEqual p) := by
  unfold atomicSwitchIfEqual
  split <;> exact ⟨h, hl⟩

theorem known_nextBucket (h : Passed t m.keys p) (hf : Full t m.keys p.call.key p.iter) :
    Known t m (t.nextBucket p) := by
  have hfull : ∀ i < p.iter + 1, Full t m.keys p.call.key i := by
    intro i hi
    rcases Nat.lt_succ_iff_lt_or_eq.mp hi with hi | rfl
    · exact h.full i hi
    · exact hf
  unfold nextBucket
  split
  · rename_i hlt
    refine known_atomicLoad ⟨h.buckets, hlt, hfull, ?_, fun l hl => absurd hl (Nat.not_lt_zero l)⟩
    exact Nat.lt_of_le_of_lt (Nat.zero_le _) h.load
  · exact fun i hi => hfull i (by omega)

/-- The round of a place found taken at its end, or past the threshold, is full. -/
theorem Passed.round_full (h : Passed t m.keys p) (ht : Table t m.keys) (hk : p.call.key ≠ t.keySentinel)
    (hl : p.load + 1 = t.bucketSize ∧ m.keys (t.slot p) ≠ p.call.key ∧ m.keys (t.slot p) ≠ t.keySentinel ∨
      t.threshold < p.load) : Full t m.keys p.call.key p.iter := by
  intro l hlt
  rcases Nat.lt_or_ge l p.load with hlp | hlp
  · exact ⟨(h.before l hlp).1, fun _ => (h.before l hlp).2⟩
  rcases hl with ⟨hlast, hne, hns⟩ | hpast
  · obtain rfl : l = p.load := by omega
    exact ⟨hne, fun _ => hns⟩
  · obtain ⟨b, _, ho⟩ := bucketOffset_eq h.buckets p.iter p.call.key
    rw [ho, ht.reserved b l (by omega) hlt]
    exact ⟨hk.symm, fun hle => absurd hle (by omega)⟩

theorem guarded_atomicLoad (t : Bht K) (p : Place K) : Guarded t (t.atomicLoad p) := by
  unfold atomicLoad
  split
  · assumption
  · trivial

theorem guarded_atomicSwitchIfEqual (t : Bht K) (p : Place K) : Guarded t (t.atomicSwitchIfEqual p) := by
  unfold atomicSwitchIfEqual
  split
  · assumption
  · trivial

theorem guarded_nextBucket (t : Bht K) (p : Place K) : Guarded t (t.nextBucket p) := by
  unfold nextBucket
  split
  · exact guarded_atomicLoad t _
  · trivial

theorem Acts.guarded (h : Acts t m f m' fs) : ∀ g ∈ fs, Guarded t g := by
  cases h with
  | noBuckets | present | near | finish | fail => exact List.forall_mem_nil _
  | begin | further | again => exact List.forall_mem_singleton.mpr (guarded_atomicLoad t _)
  | vacant => exact List.forall_mem_singleton.mpr (guarded_atomicSwitchIfEqual t _)
  | reserved | last => exact List.forall_mem_singleton.mpr (guarded_nextBucket t _)
  | loadWide p hw => exact List.forall_mem_singleton.mpr hw
  | swap | taken =>
    refine List.forall_mem_singleton.mpr ?_
    split
    · assumption
    · trivial
  | _ => exact List.forall_mem_singleton.mpr trivial

@[simp] theorem args_atomicLoad (t : Bht K) (p : Place K) : (t.atomicLoad p).args = p.call := by
  unfold atomicLoad
  split <;> rfl

@[simp] theorem args_atomicSwitchIfEqual (t : Bht K) (p : Place K) : (t.atomicSwitchIfEqual p).args = p.call := by
  unfold atomicSwitchIfEqual
  split <;> rfl

@[simp] theorem args_nextBucket (t : Bht K) (p : Place K) : (t.nextBucket p).args = p.call := by
  unfold nextBucket
  split
  · exact args_atomicLoad t _
  · rfl

/-- A call continues, or it returns. -/
theorem Acts.args (h : Acts t m f m' fs) : (∃ g, fs = [g] ∧ g.args = f.args ∧ m'.returned = m.returned) ∨
    fs = [] ∧ ∃ o, m'.returned = (f.args, o) :: m.returned := by
  cases h with
  | noBuckets | present | near | finish | fail => exact .inr ⟨rfl, _, rfl⟩
  | begin | further | again => exact .inl ⟨_, rfl, args_atomicLoad t _, rfl⟩
  | vacant => exact .inl ⟨_, rfl, args_atomicSwitchIfEqual t _, rfl⟩
  | reserved | last => exact .inl ⟨_, rfl, args_nextBucket t _, rfl⟩
  | swap | taken => exact .inl ⟨_, rfl, by split <;> rfl, rfl⟩
  | _ => exact .inl ⟨_, rfl, rfl, rfl⟩

theorem Acts.keys_eq (h : Acts t m f m' fs) : m'.keys = m.keys ∨
    ∃ p, f = .swap p ∧ m.keys (t.slot p) = t.keySentinel ∧
      m'.keys = Function.update m.keys (t.slot p) p.call.key := by
  cases h with
  | swap p hk => exact .inr ⟨p, rfl, hk, rfl⟩
  | _ => exact .inl rfl

theorem Acts.extends (h : Acts t m f m' fs) : Extends t m.keys m'.keys := by
  rcases h.keys_eq with he | ⟨p, _, hs, he⟩
  · exact fun s _ => by rw [he]
  · rw [he]
    exact extends_update hs _

theorem Acts.table (h : Acts t m f m' fs) (ht : Table t m.keys) (hk : Known t m f)
    (hp : f.args.key ≠ t.keySentinel) : Table t m'.keys := by
  rcases h.keys_eq with he | ⟨p, rfl, hs, he⟩
  · rwa [he]
  · rw [he]
    exact (hk.1.table ht hk.2 hs hp).1

/-- The call that acts knows what it has found, if a key that it does not enqueue is under its number already. -/
theorem Acts.known (h : Acts t m f m' fs) (ht : Table t m.keys) (hk : Known t m f) (hp : f.args.key ≠ t.keySentinel)
    (hq : ∀ p n, f = .store p n → p.call.enqueueKey = false → m.activeKeys n = p.call.key) :
    ∀ g ∈ fs, Known t m' g := by
  cases h with
  | noBuckets | present | near | finish | fail => exact List.forall_mem_nil _
  | begin a hn =>
    refine List.forall_mem_singleton.mpr (known_atomicLoad ⟨hn, Nat.zero_lt_succ 2, ?_, ?_, ?_⟩)
    · exact fun i hi => absurd hi (Nat.not_lt_zero i)
    · exact Nat.lt_of_le_of_lt (Nat.zero_le _) t.threshold_lt
    · exact fun l hl => absurd hl (Nat.not_lt_zero l)
  | lockLoad p => exact List.forall_mem_singleton.mpr hk
  | loadWide p | load p => exact List.forall_mem_singleton.mpr ⟨hk, fun _ => rfl⟩
  | unlockLoad p k => exact List.forall_mem_singleton.mpr hk
  | vacant p _ hl => exact List.forall_mem_singleton.mpr (known_atomicSwitchIfEqual hk.1 hl)
  | reserved p _ hl => exact List.forall_mem_singleton.mpr (known_nextBucket hk.1 (hk.1.round_full ht hp (.inr hl)))
  | last p k hne hs hl =>
    have hheld := hk.2 hs
    refine List.forall_mem_singleton.mpr (known_nextBucket hk.1 (hk.1.round_full ht hp (.inl ⟨hl, ?_, ?_⟩))) <;>
      rwa [hheld]
  | further p k hne hs hl =>
    have hheld := hk.2 hs
    have hload := hk.1.load
    refine List.forall_mem_singleton.mpr (known_atomicLoad ⟨hk.1.buckets, hk.1.round, hk.1.full, ?_, fun l hlt => ?_⟩)
    · show p.load + 1 < t.bucketSize
      omega
    · rcases Nat.lt_succ_iff_lt_or_eq.mp hlt with hlt | rfl
      · exact hk.1.before l hlt
      · rw [show m.keys (t.bucketOffset p.iter p.call.key + p.load) = k from hheld]
        exact ⟨hne, hs⟩
  | lockSwap p => exact List.forall_mem_singleton.mpr hk
  | swap p hs =>
    have hc := (hk.1.table ht hk.2 hs hp).2
    refine List.forall_mem_singleton.mpr ?_
    split <;> exact hc
  | taken p =>
    refine List.forall_mem_singleton.mpr ?_
    split <;> exact hk.1
  | unlockSwap p b => cases b <;> exact List.forall_mem_singleton.mpr hk
  | switched p => exact List.forall_mem_singleton.mpr hk
  | again p => exact List.forall_mem_singleton.mpr (known_atomicLoad hk)
  | number p => exact List.forall_mem_singleton.mpr hk
  | given p => exact List.forall_mem_singleton.mpr hk
  | storeQueued p n => exact List.forall_mem_singleton.mpr ⟨hk, Function.update_self ..⟩
  | store p n hf => exact List.forall_mem_singleton.mpr ⟨hk, Function.update_self .., hq p n rfl hf⟩
  | enqueue p n => exact List.forall_mem_singleton.mpr ⟨hk.1, hk.2, Function.update_self ..⟩

section Sharing
variable {q : Place K} {n n' : ℤ} {r : Call K × Outcome}

def stored [DecidableEq K] (t : Bht K) (keys : ℕ → K) : Multiset K :=
  ∑ s ∈ Finset.range t.tableSize, if keys s = t.keySentinel then 0 else {keys s}

def Frame.placed (f : Frame K) : Multiset K := (f.claim.map (·.call.key)).elim 0 singleton

def Frame.numbered (f : Frame K) : Multiset ℤ := f.taken.elim 0 singleton

/-- The insertions that have put their key into the table and returned, each with its number. -/
def Memory.won (m : Memory K) : List (K × ℤ) := m.returned.filterMap fun r => r.2.number.map (r.1.key, ·)

theorem mem_stored [DecidableEq K] {keys : ℕ → K} {k : K} :
    k ∈ stored t keys ↔ k ≠ t.keySentinel ∧ ∃ s < t.tableSize, keys s = k := by
  unfold stored
  rw [Multiset.mem_sum]
  constructor
  · rintro ⟨s, hs, hk⟩
    split_ifs at hk with hv
    · cases hk
    · obtain rfl := Multiset.mem_singleton.mp hk
      exact ⟨hv, s, Finset.mem_range.mp hs, rfl⟩
  · rintro ⟨hk, s, hs, rfl⟩
    exact ⟨s, Finset.mem_range.mpr hs, by rw [if_neg hk]; exact Multiset.mem_singleton_self _⟩

theorem stored_update [DecidableEq K] {keys : ℕ → K} {s : ℕ} {k : K} (hs : s < t.tableSize)
    (he : keys s = t.keySentinel) (hk : k ≠ t.keySentinel) :
    stored t (Function.update keys s k) = k ::ₘ stored t keys := by
  have hmem := Finset.mem_range.mpr hs
  unfold stored
  rw [← Finset.add_sum_erase _ _ hmem, ← Finset.add_sum_erase _ _ hmem, Function.update_self, if_neg hk, if_pos he,
    zero_add, Multiset.singleton_add]
  refine congrArg (k ::ₘ ·) (Finset.sum_congr rfl fun s' hs' => ?_)
  rw [Function.update_of_ne (Finset.ne_of_mem_erase hs')]

theorem card_stored_le [DecidableEq K] (t : Bht K) (keys : ℕ → K) : (stored t keys).card ≤ t.tableSize := by
  unfold stored
  rw [Multiset.card_sum]
  calc _ ≤ ∑ _ ∈ Finset.range t.tableSize, 1 := Finset.sum_le_sum fun s _ => by split <;> simp
    _ = t.tableSize := by simp

def holds (t : Bht K) (s : ℕ) : Frame K → ℕ
  | .load p | .swap p => if t.wide ∧ t.slot p = s then 1 else 0
  | .unlockLoad p _ | .unlockSwap p _ => if t.slot p = s then 1 else 0
  | _ => 0

def Held (t : Bht K) (m : Memory K) (a : Call K) (n : ℤ) : Prop :=
  ∃ p : Place K, p.call = a ∧ Claims t m.keys p ∧ m.indices (t.slot p) = n ∧ m.activeKeys n = a.key

/-- What holds once an insertion has returned. -/
def Recorded [DecidableEq K] (t : Bht K) (m : Memory K) (a : Call K) : Outcome → Prop
  | .index n => Held t m a n ∧ ¬ t.proximity n
  | .present => a.key ∈ stored t m.keys
  | .near n => Held t m a n ∧ t.proximity n ∧ m.success = false
  | .full => (∀ i < 3, Full t m.keys a.key i) ∧ m.success = false
  | .noBuckets => t.numBuckets = 0

theorem placed_atomicLoad (t : Bht K) (p : Place K) : (t.atomicLoad p).placed = 0 := by
  unfold atomicLoad
  split <;> rfl

theorem placed_atomicSwitchIfEqual (t : Bht K) (p : Place K) : (t.atomicSwitchIfEqual p).placed = 0 := by
  unfold atomicSwitchIfEqual
  split <;> rfl

theorem placed_nextBucket (t : Bht K) (p : Place K) : (t.nextBucket p).placed = 0 := by
  unfold nextBucket
  split
  · exact placed_atomicLoad t _
  · rfl

theorem placed_swapped (t : Bht K) (p : Place K) (b : Bool) :
    (if t.wide then Frame.unlockSwap p b else .switched p b).placed = if b then {p.call.key} else 0 := by
  cases b <;> split <;> rfl

theorem numbered_atomicLoad (t : Bht K) (p : Place K) : (t.atomicLoad p).numbered = 0 := by
  unfold atomicLoad
  split <;> rfl

theorem numbered_atomicSwitchIfEqual (t : Bht K) (p : Place K) : (t.atomicSwitchIfEqual p).numbered = 0 := by
  unfold atomicSwitchIfEqual
  split <;> rfl

theorem numbered_nextBucket (t : Bht K) (p : Place K) : (t.nextBucket p).numbered = 0 := by
  unfold nextBucket
  split
  · exact numbered_atomicLoad t _
  · rfl

theorem numbered_swapped (t : Bht K) (p : Place K) (b : Bool) :
    (if t.wide then Frame.unlockSwap p b else .switched p b).numbered = 0 := by
  split <;> rfl

theorem holds_atomicLoad (t : Bht K) (s : ℕ) (p : Place K) : holds t s (t.atomicLoad p) = 0 := by
  unfold atomicLoad
  split <;> simp_all [holds]

theorem holds_atomicSwitchIfEqual (t : Bht K) (s : ℕ) (p : Place K) : holds t s (t.atomicSwitchIfEqual p) = 0 := by
  unfold atomicSwitchIfEqual
  split <;> simp_all [holds]

theorem holds_nextBucket (t : Bht K) (s : ℕ) (p : Place K) : holds t s (t.nextBucket p) = 0 := by
  unfold nextBucket
  split
  · exact holds_atomicLoad t s _
  · rfl

theorem holds_swapped (t : Bht K) (s : ℕ) (p : Place K) (b : Bool) :
    holds t s (if t.wide then .unlockSwap p b else .switched p b) = if t.wide ∧ t.slot p = s then 1 else 0 := by
  split <;> simp_all [holds]

def unnumbered (f : Frame K) : ℕ := f.placed.card - f.numbered.card

theorem card_placed (f : Frame K) : f.placed.card = f.numbered.card + unnumbered f := by
  have hle : f.numbered.card ≤ f.placed.card := by
    unfold Frame.numbered Frame.placed
    cases f <;> simp [Frame.claim, Frame.taken]
  unfold unnumbered
  omega

theorem mem_won (hr : r ∈ m.returned) (hn : r.2.number = some n) : (r.1.key, n) ∈ m.won :=
  List.mem_filterMap.mpr ⟨r, hr, by rw [hn]; rfl⟩

/-- Only the store of a call writes the index of its place, and only its enqueue the key of its number. -/
theorem Acts.writes (h : Acts t m f m' fs) :
    (m'.indices = m.indices ∨ ∃ p n, f = .store p n ∧ m'.indices = Function.update m.indices (t.slot p) n) ∧
    (m'.activeKeys = m.activeKeys ∨
      ∃ p n, f = .enqueue p n ∧ m'.activeKeys = Function.update m.activeKeys n p.call.key) := by
  cases h with
  | storeQueued p n | store p n => exact ⟨.inr ⟨p, n, rfl, rfl⟩, .inl rfl⟩
  | enqueue p n => exact ⟨.inl rfl, .inr ⟨p, n, rfl, rfl⟩⟩
  | _ => exact ⟨.inl rfl, .inl rfl⟩

theorem Acts.indices_eq (h : Acts t m f m' fs) (hk : Known t m f) (hq : m.keys (t.slot q) = q.call.key)
    (hp : ∀ p, f.claim = some p → p.call.key ≠ q.call.key) : m'.indices (t.slot q) = m.indices (t.slot q) := by
  rcases h.writes.1 with he | ⟨p, n', rfl, he⟩
  · rw [he]
  · rw [he, Function.update_of_ne]
    intro hs
    refine hp p rfl ?_
    rw [← hq, hs]
    exact hk.held.symm

theorem Acts.activeKeys_eq (h : Acts t m f m' fs) (hn : ∀ n', f.taken = some n' → n' ≠ n) :
    m'.activeKeys n = m.activeKeys n := by
  rcases h.writes.2 with he | ⟨p, n', rfl, he⟩
  · rw [he]
  · rw [he, Function.update_of_ne (hn n' rfl).symm]

/-- What a call has found stays so while others act. -/
theorem Known.extend (hk : Known t m g) (he : Extends t m.keys m'.keys) (hr : Reserved t m'.keys)
    (hp : g.args.key ≠ t.keySentinel)
    (hw : ∀ p n, g.claim = some p → g.taken = some n →
      m'.indices (t.slot p) = m.indices (t.slot p) ∧ m'.activeKeys n = m.activeKeys n) : Known t m' g := by
  cases g with
  | call a => trivial
  | lockLoad p | load p => exact Passed.extend hk he hr hp
  | unlockLoad p k | examine p k =>
    refine ⟨hk.1.extend he hr hp, fun hs => ?_⟩
    have hheld := hk.2 hs
    rw [he _ (hheld ▸ hs), hheld]
  | lockSwap p | swap p => exact ⟨hk.1.extend he hr hp, hk.2⟩
  | unlockSwap p b | switched p b =>
    cases b
    · exact Passed.extend hk he hr hp
    · exact Claims.extend hk he hr hp
  | number p | store p n => exact Claims.extend hk he hr hp
  | enqueue p n => exact ⟨hk.1.extend he hr hp, (hw p n rfl rfl).1.trans hk.2⟩
  | finish p n =>
    obtain ⟨hidx, hact⟩ := hw p n rfl rfl
    exact ⟨hk.1.extend he hr hp, hidx.trans hk.2.1, hact.trans hk.2.2⟩
  | fail a => exact fun i hi => (hk i hi).extend he hr hp

theorem Known.held (hk : Known t m g) (hg : g.claim = some q) : Claims t m.keys q := by
  cases g with
  | unlockSwap p b | switched p b =>
    cases b with
    | false => cases hg
    | true => exact Option.some.inj hg ▸ hk
  | number p | store p n => exact Option.some.inj hg ▸ hk
  | enqueue p n | finish p n => exact Option.some.inj hg ▸ hk.1
  | _ => cases hg

theorem Held.extend (hh : Held t m a n) (h : Acts t m f m' fs) (hk : Known t m f) (hr : Reserved t m'.keys)
    (ha : a.key ≠ t.keySentinel) (hp : ∀ p, f.claim = some p → p.call.key ≠ a.key)
    (hn : m'.activeKeys n = m.activeKeys n) : Held t m' a n := by
  obtain ⟨q, rfl, hc, hidx, hact⟩ := hh
  exact ⟨q, rfl, hc.extend h.extends hr ha, (h.indices_eq hk hc.held hp).trans hidx, hn.trans hact⟩

theorem Acts.success (h : Acts t m f m' fs) (hs : m.success = false) : m'.success = false := by
  cases h with
  | near | fail => rfl
  | _ => exact hs

variable [DecidableEq K] {c c' : Config (Memory K) (Frame K)} {x : Unit}

structure Invariant (t : Bht K) (programs : List (List K)) (c : Config (Memory K) (Frame K)) : Prop where
  plain : ∀ f ∈ c.frames, Plain t f.args
  guarded : ∀ f ∈ c.frames, Guarded t f
  table : Table t c.mem.keys
  known : ∀ f ∈ c.frames, Known t c.mem f
  placed : c.total Frame.placed + (c.mem.won.map Prod.fst : Multiset K) = stored t c.mem.keys
  nodup : (stored t c.mem.keys).Nodup
  numbered : c.total Frame.numbered + (c.mem.won.map Prod.snd : Multiset ℤ) =
    (Multiset.range c.mem.cnt).map Nat.cast
  mutex : ∀ s, c.total (holds t s) = (c.mem.locked s).toNat
  onTop : c.OnlyTop fun f => ∃ s, 0 < holds t s f
  recorded : ∀ r ∈ c.mem.returned, Plain t r.1 ∧ Recorded t c.mem r.1 r.2
  calls : c.total (fun f => ({f.args.key} : Multiset K)) + (c.mem.returned.map fun r => r.1.key : Multiset K) =
    (programs.flatten : Multiset K)

variable {programs : List (List K)}

/-- Every key in the table has been put there by exactly one call. -/
theorem placed_step (h : Step (code t) c f x c') (hk : Known t c.mem f) (hp : f.args.key ≠ t.keySentinel)
    (hi : c.total Frame.placed + (c.mem.won.map Prod.fst : Multiset K) = stored t c.mem.keys) :
    c'.total Frame.placed + (c'.mem.won.map Prod.fst : Multiset K) = stored t c'.mem.keys := by
  obtain ⟨fs, r, ha, hr, hr'⟩ := h.measure acts_of_code (Frame.placed (K := K))
  rw [hr] at hi
  rw [hr']
  generalize c.mem = m, c'.mem = m' at ha hi hk ⊢
  clear h hr hr'
  cases ha with
  | swap p hs =>
    rw [show stored t (Function.update m.keys (t.slot p) p.call.key) = _ from
      stored_update hk.1.slot_lt hs hp, ← hi, List.map_singleton, List.sum_singleton, placed_swapped]
    simp [Frame.placed, Frame.claim, Memory.won]
  | unlockSwap p b => cases b <;> simpa [Frame.placed, Frame.claim, Memory.won] using hi
  | _ =>
    simp only [List.map_cons, List.map_nil, List.sum_cons, List.sum_nil, placed_atomicLoad, placed_atomicSwitchIfEqual,
      placed_nextBucket, placed_swapped]
    simpa [Frame.placed, Frame.claim, Memory.won, Memory.done, Outcome.number, ← Multiset.cons_coe,
      Multiset.singleton_add, add_assoc] using hi

/-- The keys in the table without a number are those of the calls about to take one. -/
theorem Invariant.cnt_add (hi : Invariant t programs c) :
    c.mem.cnt + c.total unnumbered = (stored t c.mem.keys).card := by
  have hplaced := congrArg Multiset.card hi.placed
  have hnumbered := congrArg Multiset.card hi.numbered
  have htotal : (c.total Frame.placed).card = (c.total Frame.numbered).card + c.total unnumbered := by
    calc (c.total Frame.placed).card = c.total fun g => g.placed.card := map_total Multiset.cardHom _
      _ = c.total fun g => g.numbered.card + unnumbered g := by simp only [card_placed]
      _ = (c.total fun g => g.numbered.card) + c.total unnumbered := total_add c _ _
      _ = (c.total Frame.numbered).card + c.total unnumbered :=
        congrArg (· + _) (map_total Multiset.cardHom _).symm
  simp only [Multiset.card_add, Multiset.coe_card, List.length_map, Multiset.card_map, Multiset.card_range]
    at hplaced hnumbered
  omega

theorem Invariant.cnt_lt (hi : Invariant t programs c) (hf : Frame.number p ∈ c.frames) :
    c.mem.cnt < t.tableSize := by
  have hcnt := hi.cnt_add
  have hstored := card_stored_le t c.mem.keys
  have hone : 1 ≤ c.total unnumbered := le_total unnumbered hf
  omega

/-- Every number below the counter has been given to exactly one call. -/
theorem numbered_step (h : Step (code t) c f x c') (hi : Invariant t programs c) :
    c'.total Frame.numbered + (c'.mem.won.map Prod.snd : Multiset ℤ) =
      (Multiset.range c'.mem.cnt).map Nat.cast := by
  have hp := hi.plain f h.mem_frame
  have hcnt : ∀ p, f = .number p → c.mem.cnt < t.tableSize := fun p hf => hi.cnt_lt (hf ▸ h.mem_frame)
  have hn := hi.numbered
  obtain ⟨fs, r, ha, hr, hr'⟩ := h.measure acts_of_code (Frame.numbered (K := K))
  rw [hr] at hn
  rw [hr']
  generalize c.mem = m, c'.mem = m' at ha hn hcnt ⊢
  clear h hr hr' hi
  cases ha with
  | number p =>
    have hlt := hcnt p rfl
    have hfits : 2 * t.tableSize ≤ 2 ^ t.bits := t.fits
    rw [show (m.cnt + 1) % 2 ^ t.bits = m.cnt + 1 from Nat.mod_eq_of_lt (by omega),
      show (m.cnt : ℤ).bmod (2 ^ t.bits) = m.cnt from Int.bmod_eq_of_le (by omega) (by omega),
      Multiset.range_succ, Multiset.map_cons, ← hn]
    simp [Frame.numbered, Frame.taken, Memory.won]
  | given p hne => exact absurd hp.index hne
  | unlockSwap p b => simpa [Frame.numbered, Frame.taken, Memory.won] using hn
  | _ =>
    simp only [List.map_cons, List.map_nil, List.sum_cons, List.sum_nil, numbered_atomicLoad,
      numbered_atomicSwitchIfEqual, numbered_nextBucket, numbered_swapped]
    simpa [Frame.numbered, Frame.taken, Memory.won, Memory.done, Outcome.number, ← Multiset.cons_coe,
      Multiset.singleton_add, add_assoc] using hn

/-- Two calls have put different keys into the table. -/
theorem placed_apart (hplaced : c.total Frame.placed + (c.mem.won.map Prod.fst : Multiset K) = stored t c.mem.keys)
    (hn : (stored t c.mem.keys).Nodup) (hb : Beside c f g) (hf : f.claim = some p) (hg : g.claim = some q) :
    p.call.key ≠ q.call.key := by
  rw [← hplaced] at hn
  obtain ⟨r, hr⟩ := hb.total (Frame.placed (K := K))
  simp only [hr, Frame.placed, hf, hg, Option.map_some, Option.elim_some, Multiset.singleton_add, Multiset.cons_add,
    Multiset.nodup_cons, Multiset.mem_cons, not_or] at hn
  exact hn.1.1

theorem placed_won (hplaced : c.total Frame.placed + (c.mem.won.map Prod.fst : Multiset K) = stored t c.mem.keys)
    (hnd : (stored t c.mem.keys).Nodup) (hm : f ∈ c.frames) (hf : f.claim = some p) (hr : r ∈ c.mem.returned)
    (hn : r.2.number = some n) : p.call.key ≠ r.1.key := by
  rw [← hplaced] at hnd
  obtain ⟨s, hs⟩ := total_of_mem hm (Frame.placed (K := K))
  simp only [hs, Frame.placed, hf, Option.map_some, Option.elim_some, Multiset.singleton_add, Multiset.cons_add,
    Multiset.nodup_cons, Multiset.mem_add, not_or] at hnd
  rintro he
  exact hnd.1.2 (Multiset.mem_coe.mpr (he ▸ List.mem_map_of_mem (f := Prod.fst) (mem_won hr hn)))

theorem Invariant.numbers_nodup (hi : Invariant t programs c) :
    (c.total Frame.numbered + (c.mem.won.map Prod.snd : Multiset ℤ)).Nodup := by
  rw [hi.numbered]
  exact (Multiset.nodup_range _).map fun _ _ h => Int.ofNat_inj.mp h

theorem Invariant.numbered_apart (hi : Invariant t programs c) (hb : Beside c f g) (hf : f.taken = some n)
    (hg : g.taken = some n') : n ≠ n' := by
  have hn := hi.numbers_nodup
  obtain ⟨r, hr⟩ := hb.total (Frame.numbered (K := K))
  simp only [hr, Frame.numbered, hf, hg, Option.elim_some, Multiset.singleton_add, Multiset.cons_add,
    Multiset.nodup_cons, Multiset.mem_cons, not_or] at hn
  exact hn.1.1

theorem Invariant.numbered_won (hi : Invariant t programs c) (hm : f ∈ c.frames) (hf : f.taken = some n)
    (hr : r ∈ c.mem.returned) (hn : r.2.number = some n') : n ≠ n' := by
  have hnd := hi.numbers_nodup
  obtain ⟨s, hs⟩ := total_of_mem hm (Frame.numbered (K := K))
  simp only [hs, Frame.numbered, hf, Option.elim_some, Multiset.singleton_add, Multiset.cons_add,
    Multiset.nodup_cons, Multiset.mem_add, not_or] at hnd
  rintro rfl
  exact hnd.1.2 (Multiset.mem_coe.mpr (List.mem_map_of_mem (f := Prod.snd) (mem_won hr hn)))

theorem known_step (h : Step (code t) c f x c') (hi : Invariant t programs c) : ∀ g ∈ c'.frames, Known t c'.mem g := by
  have hk := hi.known f h.mem_frame
  have hp := hi.plain f h.mem_frame
  have hqueued : ∀ p n, f = .store p n → p.call.enqueueKey = false → c.mem.activeKeys n = p.call.key := by
    rintro p n rfl hq
    exact absurd (hp.queued.symm.trans hq) nofun
  refine h.all hi.known (fun fs he => (acts_of_code he).known hi.table hk hp.key hqueued) fun g hb hg => ?_
  obtain ⟨fs, he⟩ := h.runs_code
  have ha := acts_of_code he
  refine hg.extend ha.extends (ha.table hi.table hk hp.key).reserved (hi.plain g hb.mem).key fun q n hq hn => ?_
  exact ⟨ha.indices_eq hk (hg.held hq).held fun p hf => placed_apart hi.placed hi.nodup hb hf hq,
    ha.activeKeys_eq fun n' hf => hi.numbered_apart hb hf hn⟩

theorem mem_stored_extend {k : K} (hk : k ∈ stored t m.keys) (he : Extends t m.keys m'.keys) :
    k ∈ stored t m'.keys := by
  obtain ⟨hs, s, hlt, rfl⟩ := mem_stored.mp hk
  exact mem_stored.mpr ⟨hs, s, hlt, he s hs⟩

/-- What a call has found by the time it returns. -/
theorem Acts.recorded {o : Outcome} (h : Acts t m f m' fs) (hk : Known t m f) (hp : f.args.key ≠ t.keySentinel)
    (ho : m'.returned = (f.args, o) :: m.returned) : Recorded t m' f.args o := by
  cases h with
  | noBuckets a hn =>
    obtain rfl := (Prod.ext_iff.mp (List.cons_eq_cons.mp ho).1).2
    exact hn
  | present p =>
    obtain rfl := (Prod.ext_iff.mp (List.cons_eq_cons.mp ho).1).2
    exact mem_stored.mpr ⟨hp, _, hk.1.slot_lt, hk.2 hp⟩
  | near p n hn =>
    obtain rfl := (Prod.ext_iff.mp (List.cons_eq_cons.mp ho).1).2
    exact ⟨⟨p, rfl, hk⟩, hn, rfl⟩
  | finish p n hn =>
    obtain rfl := (Prod.ext_iff.mp (List.cons_eq_cons.mp ho).1).2
    exact ⟨⟨p, rfl, hk⟩, hn⟩
  | fail a =>
    obtain rfl := (Prod.ext_iff.mp (List.cons_eq_cons.mp ho).1).2
    exact ⟨hk, rfl⟩
  | _ => exact absurd ho (List.cons_ne_self _ _).symm

/-- What a call has found stays so if its number does. -/
theorem Recorded.extend {o : Outcome} (hra : Recorded t m a o) (h : Acts t m f m' fs) (hr : Reserved t m'.keys)
    (ha : a.key ≠ t.keySentinel) (hheld : ∀ n, o.number = some n → Held t m a n → Held t m' a n) :
    Recorded t m' a o := by
  cases o with
  | index n => exact ⟨hheld n rfl hra.1, hra.2⟩
  | present => exact mem_stored_extend hra h.extends
  | near n => exact ⟨hheld n rfl hra.1, hra.2.1, h.success hra.2.2⟩
  | full => exact ⟨fun i hlt => (hra.1 i hlt).extend h.extends hr ha, h.success hra.2⟩
  | noBuckets => exact hra

theorem recorded_step (h : Step (code t) c f x c') (hi : Invariant t programs c) :
    ∀ r ∈ c'.mem.returned, Plain t r.1 ∧ Recorded t c'.mem r.1 r.2 := by
  have hk := hi.known f h.mem_frame
  have hp := hi.plain f h.mem_frame
  obtain ⟨fs, he⟩ := h.runs_code
  have ha := acts_of_code he
  have hr := (ha.table hi.table hk hp.key).reserved
  have hold : ∀ r ∈ c.mem.returned, Plain t r.1 ∧ Recorded t c'.mem r.1 r.2 := by
    rintro ⟨a, o⟩ hm
    obtain ⟨hpa, hra⟩ := hi.recorded _ hm
    exact ⟨hpa, hra.extend ha hr hpa.key fun n hn hh =>
      hh.extend ha hk hr hpa.key (fun p hf => placed_won hi.placed hi.nodup h.mem_frame hf hm hn)
        (ha.activeKeys_eq fun n' hf => hi.numbered_won h.mem_frame hf hm hn)⟩
  rcases ha.args with ⟨_, _, _, hret⟩ | ⟨_, o, hret⟩
  · rwa [hret]
  · rw [hret]
    exact List.forall_mem_cons.mpr ⟨⟨hp, ha.recorded hk hp.key hret⟩, hold⟩

/-- The lock of a slot is held by at most one call, and by one exactly while it is locked. -/
theorem mutex_step (h : Step (code t) c f x c') (hg : Guarded t f) (s : ℕ)
    (hi : c.total (holds t s) = (c.mem.locked s).toNat) : c'.total (holds t s) = (c'.mem.locked s).toNat := by
  obtain ⟨fs, r, ha, hr, hr'⟩ := h.measure acts_of_code (holds t s)
  rw [hr] at hi
  rw [hr']
  have hb := Bool.toNat_le (c.mem.locked s)
  generalize c.mem = m, c'.mem = m' at ha hi hb ⊢
  clear h hr hr'
  cases ha with
  | lockLoad p hl | lockSwap p hl =>
    have hw : t.wide = true := hg
    by_cases hs : t.slot p = s
    · subst hs
      simp_all [holds]
    · simp_all [holds, Function.update_of_ne (Ne.symm hs)]
  | unlockLoad p | unlockSwap p =>
    by_cases hs : t.slot p = s
    · subst hs
      simp only [holds, if_true] at hi
      simp [holds]
      omega
    · simp_all [holds, Function.update_of_ne (Ne.symm hs)]
  | loadWide p hw | load p hw => simp_all [holds]
  | _ =>
    simp only [List.map_cons, List.map_nil, List.sum_cons, List.sum_nil, holds_atomicLoad, holds_atomicSwitchIfEqual,
      holds_nextBucket, holds_swapped]
    simpa [holds, Memory.done] using hi

theorem blocked {m : Memory K} (h : code t m f x = none) :
    (∃ s, m.locked s = true) ∧ ∀ s, holds t s f = 0 := by
  cases f with
  | lockLoad p | lockSwap p =>
    simp only [code] at h
    split at h
    · exact ⟨⟨_, by assumption⟩, fun _ => rfl⟩
    · cases h
  | _ =>
    simp only [code] at h
    repeat' split at h
    all_goals cases h

theorem plain_step (h : Step (code t) c f x c') (hi : ∀ g ∈ c.frames, Plain t g.args) :
    ∀ g ∈ c'.frames, Plain t g.args := by
  refine h.all hi (fun fs he g hg => ?_) fun g _ hg => hg
  rcases (acts_of_code he).args with ⟨g', rfl, ha, _⟩ | ⟨rfl, _⟩
  · rw [List.mem_singleton.mp hg, ha]
    exact hi f h.mem_frame
  · cases hg

theorem onTop_step (h : Step (code t) c f x c') (hi : c.OnlyTop fun f => ∃ s, 0 < holds t s f) :
    c'.OnlyTop fun f => ∃ s, 0 < holds t s f := by
  refine h.onlyTop hi fun fs he g hg => ?_
  rcases (acts_of_code he).args with ⟨g', rfl, _⟩ | ⟨rfl, _⟩ <;> cases hg

/-- A call is under way or has returned. -/
theorem calls_step {A : Type*} (u : Call K → A) {calls : Multiset A} (h : Step (code t) c f x c')
    (hi : c.total (fun f => ({u f.args} : Multiset A)) + (c.mem.returned.map fun r => u r.1 : Multiset A) = calls) :
    c'.total (fun f => ({u f.args} : Multiset A)) + (c'.mem.returned.map fun r => u r.1 : Multiset A) = calls := by
  obtain ⟨fs, r, ha, hr, hr'⟩ := h.measure acts_of_code fun f => ({u f.args} : Multiset A)
  rw [hr] at hi
  rw [hr', ← hi]
  rcases ha.args with ⟨g, rfl, hargs, hret⟩ | ⟨rfl, o, hret⟩
  · rw [hret, List.map_singleton, List.sum_singleton, hargs]
  · rw [hret]
    simp [← Multiset.cons_coe]

theorem nodup_step (h : Step (code t) c f x c') (ht : Table t c.mem.keys) (hk : Known t c.mem f)
    (hp : f.args.key ≠ t.keySentinel) (hn : (stored t c.mem.keys).Nodup) : (stored t c'.mem.keys).Nodup := by
  obtain ⟨fs, he⟩ := h.runs_code
  rcases (acts_of_code he).keys_eq with hkeys | ⟨p, rfl, hs, hkeys⟩
  · rw [hkeys]
    exact hn
  · rw [hkeys, show stored t (Function.update c.mem.keys (t.slot p) p.call.key) = _ from
      stored_update hk.1.slot_lt hs hp]
    refine Multiset.nodup_cons.mpr ⟨fun hm => ?_, hn⟩
    obtain ⟨_, s, _, hsk⟩ := mem_stored.mp hm
    exact hk.1.absent ht hk.2 hs hp s hsk

theorem invariant_step (h : Step (code t) c f x c') (hi : Invariant t programs c) : Invariant t programs c' := by
  have hk := hi.known f h.mem_frame
  have hp := hi.plain f h.mem_frame
  obtain ⟨fs, he⟩ := h.runs_code
  exact ⟨plain_step h hi.plain, h.all hi.guarded (fun fs he => (acts_of_code he).guarded) fun _ _ hg => hg,
    (acts_of_code he).table hi.table hk hp.key, known_step h hi, placed_step h hk hp.key hi.placed,
    nodup_step h hi.table hk hp.key hi.nodup,
    numbered_step h hi, fun s => mutex_step h (hi.guarded f h.mem_frame) s (hi.mutex s), onTop_step h hi.onTop,
    recorded_step h hi, calls_step (·.key) h hi.calls⟩

section Start
variable {indices : ℕ → ℤ} {activeKeys : ℤ → K}

omit [DecidableEq K] in
theorem mem_start (h : f ∈ (start t indices activeKeys programs).frames) :
    ∃ k ∈ programs.flatten, f = .call {key := k} := by
  obtain ⟨_, hk, hf⟩ := List.mem_flatten.mp h
  obtain ⟨_, hc, rfl⟩ := List.mem_map.mp hk
  obtain ⟨keys, hkeys, rfl⟩ := List.mem_map.mp hc
  obtain ⟨_, hcall, rfl⟩ := List.mem_map.mp hf
  obtain ⟨k, hm, rfl⟩ := List.mem_map.mp hcall
  exact ⟨k, List.mem_flatten.mpr ⟨keys, hkeys, hm⟩, rfl⟩

omit [DecidableEq K] in
theorem total_start {A : Type*} [AddCommMonoid A] (u : Frame K → A) :
    (start t indices activeKeys programs).total u = (programs.flatten.map fun k => u (.call {key := k})).sum := by
  simp [start, Config.total, Config.frames, List.map_flatten, Function.comp_def]

theorem invariant_start (hk : ∀ k ∈ programs.flatten, k ≠ t.keySentinel) :
    Invariant t programs (start t indices activeKeys programs) := by
  have hempty : stored t (start t indices activeKeys programs).mem.keys = 0 := by simp [stored, start, empty]
  refine ⟨fun f hf => ?_, fun f hf => ?_, table_empty t, fun f hf => ?_, ?_, ?_, ?_, fun s => ?_, fun k hm f hf => ?_,
    fun r hr => ?_, ?_⟩
  · obtain ⟨k, hm, rfl⟩ := mem_start hf
    exact ⟨hk k hm, rfl, rfl⟩
  · obtain ⟨k, _, rfl⟩ := mem_start hf
    trivial
  · obtain ⟨k, _, rfl⟩ := mem_start hf
    trivial
  · rw [hempty, show (start t indices activeKeys programs).total Frame.placed = 0 from
      total_programs Frame.call (fun _ => rfl) _ _]
    rfl
  · rw [hempty]
    exact Multiset.nodup_zero
  · rw [show (start t indices activeKeys programs).total Frame.numbered = 0 from
      total_programs Frame.call (fun _ => rfl) _ _]
    rfl
  · exact total_programs Frame.call (fun _ => rfl) _ _
  · obtain ⟨k, _, rfl⟩ := mem_start (List.mem_flatten.mpr ⟨k, hm, List.mem_of_mem_tail hf⟩)
    rintro ⟨s, hs⟩
    cases hs
  · cases hr
  · rw [total_start]
    calc _ = ((programs.flatten : Multiset K).map fun k => ({k} : Multiset K)).sum + 0 := rfl
      _ = (programs.flatten : Multiset K) := by rw [add_zero, Multiset.sum_map_singleton]

theorem Invariant.reaches {guard : Guard (Memory K) (Frame K)} (hi : Invariant t programs c)
    (h : Reaches (code t) guard c c') : Invariant t programs c' := by
  induction h with
  | refl => exact hi
  | step _ _ hs ih => exact invariant_step hs ih

theorem invariant_reaches (hk : ∀ k ∈ programs.flatten, k ≠ t.keySentinel)
    (h : Reaches (code t) free (start t indices activeKeys programs) c) : Invariant t programs c :=
  (invariant_start hk).reaches h

/-- A thread that has nothing to do can begin another insertion. -/
theorem Invariant.spawn {before after : List (List (Frame K))} {key : K}
    (hi : Invariant t programs ⟨m, before ++ [] :: after⟩) (hk : key ≠ t.keySentinel) :
    Invariant t ([key] :: programs) ⟨m, before ++ [.call {key := key}] :: after⟩ := by
  refine ⟨forall_spawn ⟨hk, rfl, rfl⟩ hi.plain, forall_spawn trivial hi.guarded, hi.table,
    forall_spawn trivial hi.known, ?_, hi.nodup, ?_, fun s => ?_, fun k hm f hf => ?_, hi.recorded, ?_⟩
  · rw [total_spawn]
    exact (congrArg (· + _) (zero_add _)).trans hi.placed
  · rw [total_spawn]
    exact (congrArg (· + _) (zero_add _)).trans hi.numbered
  · rw [total_spawn]
    exact (zero_add _).trans (hi.mutex s)
  · rcases List.mem_append.mp hm with hm | hm
    · exact hi.onTop k (List.mem_append_left _ hm) f hf
    · rcases List.mem_cons.mp hm with rfl | hm
      · cases hf
      · exact hi.onTop k (List.mem_append_right _ (List.mem_cons_of_mem _ hm)) f hf
  · rw [total_spawn, add_assoc, hi.calls]
    rfl

theorem Invariant.returned (hi : Invariant t programs c) (hq : Quiescent (code t) c) : c.frames = [] :=
  hq.returned_of_locks hi.mutex hi.onTop fun _ hb => blocked (hb ())

end Start

end Sharing

end Zpc.Bht
