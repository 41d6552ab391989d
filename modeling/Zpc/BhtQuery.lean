import Zpc.BhtRun

/-!
# What insertions into a hash table leave behind

Every interleaving of insertions keeps the table searchable: a key that has been given a number is found under it, and
a key that is not there is not found.
-/
namespace Zpc.Bht
open Interleaving

variable {K : Type*} [DecidableEq K] {t : Bht K} {m m' : Memory K} {f : Frame K} {fs : List (Frame K)} {key : K}

theorem find_some {offset loc left l : ℕ} (h : find m key offset loc left = some l) :
    m.keys (offset + l) = key := by
  induction left generalizing loc with
  | zero => cases h
  | succ left ih =>
    unfold find at h
    split at h
    · obtain rfl := Option.some.inj h
      assumption
    · exact ih h

theorem find_none {offset loc left : ℕ} (h : find m key offset loc left = none) :
    ∀ l, loc ≤ l → l < loc + left → m.keys (offset + l) ≠ key := by
  induction left generalizing loc with
  | zero => intro l hl hlt; omega
  | succ left ih =>
    unfold find at h
    split at h
    · cases h
    · rename_i hne
      intro l hl hlt
      rcases Nat.eq_or_lt_of_le hl with rfl | hl
      · exact hne
      · exact ih h l hl (by omega)

/-- The search ends at a place of the key, or has looked through the remaining rounds in vain. -/
theorem entryFrom_cases (t : Bht K) (m : Memory K) (key : K) (iter left : ℕ) :
    (∃ s, m.keys s = key ∧ t.entryFrom m key iter left = some s) ∨
    t.entryFrom m key iter left = none ∧ ∀ i, iter ≤ i → i < iter + left → ∀ l < t.bucketSize,
      m.keys (t.bucketOffset i key + l) ≠ key := by
  induction left generalizing iter with
  | zero => exact .inr ⟨rfl, fun i hi hlt => by omega⟩
  | succ left ih =>
    unfold entryFrom
    cases hf : find m key (t.bucketOffset iter key) 0 t.bucketSize with
    | some loc => exact .inl ⟨_, find_some hf, rfl⟩
    | none =>
      rcases ih (iter + 1) with hfound | ⟨hq, hnone⟩
      · exact .inl hfound
      · refine .inr ⟨hq, fun i hi hlt => ?_⟩
        rcases Nat.eq_or_lt_of_le hi with rfl | hi
        · exact fun l hl => find_none hf l (Nat.zero_le l) (by omega)
        · exact hnone i hi (by omega)

theorem queryFrom_eq (t : Bht K) (m : Memory K) (key : K) (iter left : ℕ) :
    t.queryFrom m key iter left = (t.entryFrom m key iter left).elim sentinel m.indices := by
  induction left generalizing iter with
  | zero => rfl
  | succ left ih =>
    unfold queryFrom entryFrom
    cases find m key (t.bucketOffset iter key) 0 t.bucketSize with
    | some loc => rfl
    | none => exact ih (iter + 1)

theorem query_eq (t : Bht K) (m : Memory K) (key : K) : t.query m key = (t.entry m key).elim sentinel m.indices := by
  unfold query entry
  split
  · rfl
  · exact queryFrom_eq t m key 0 3

/-- A key is found at its place. -/
theorem entry_claimed {p : Place K} (ht : Table t m.keys) (hc : Claims t m.keys p) (hk : p.call.key ≠ t.keySentinel) :
    t.entry m p.call.key = some (t.slot p) := by
  unfold entry
  rw [if_neg hc.buckets]
  rcases entryFrom_cases t m p.call.key 0 3 with ⟨s, hs, hq⟩ | ⟨_, hnone⟩
  · rw [hq, ht.unique s (t.slot p) (hs ▸ hk) (hs.trans hc.held.symm)]
  · have hround := hc.round
    exact absurd hc.held (hnone p.iter (Nat.zero_le _) (by omega) p.load (Nat.lt_of_le_of_lt hc.load t.threshold_lt))

theorem query_claimed {p : Place K} (ht : Table t m.keys) (hc : Claims t m.keys p) (hk : p.call.key ≠ t.keySentinel) :
    t.query m p.call.key = m.indices (t.slot p) := by
  rw [query_eq, entry_claimed ht hc hk]
  rfl

theorem entry_absent (h : ∀ s, m.keys s ≠ key) : t.entry m key = none := by
  unfold entry
  split
  · rfl
  · rcases entryFrom_cases t m key 0 3 with ⟨s, hs, _⟩ | ⟨hq, _⟩
    · exact absurd hs (h s)
    · exact hq

theorem query_absent (h : ∀ s, m.keys s ≠ key) : t.query m key = sentinel := by
  rw [query_eq, entry_absent h]
  rfl

section Results
variable {programs : List (List K)} {indices : ℕ → ℤ} {activeKeys : ℤ → K} {c : Config (Memory K) (Frame K)}

/-- What every interleaving of insertions keeps true. -/
structure Consistent (t : Bht K) (programs : List (List K)) (m : Memory K) : Prop where
  fromStart : ∀ b l l', l < l' → l' < t.bucketSize → m.keys (b * t.bucketSize + l') ≠ t.keySentinel →
    m.keys (b * t.bucketSize + l) ≠ t.keySentinel
  unique : ∀ s s', m.keys s ≠ t.keySentinel → m.keys s = m.keys s' → s = s'
  inserted : ∀ s, m.keys s ≠ t.keySentinel → m.keys s ∈ programs.flatten
  /-- No two insertions of a key get a number, and no two insertions the same one. -/
  once : (m.won.map Prod.fst).Nodup ∧ (m.won.map Prod.snd).Nodup
  below : ∀ r ∈ m.won, 0 ≤ r.2 ∧ r.2 < m.cnt
  room : m.cnt ≤ t.tableSize
  entry : ∀ r ∈ m.won, m.activeKeys r.2 = r.1 ∧ t.query m r.1 = r.2
  absent : ∀ k ≠ t.keySentinel, (∀ s, m.keys s ≠ k) → t.query m k = sentinel
  index : ∀ a n, (a, .index n) ∈ m.returned → ¬ t.proximity n
  present : ∀ a, (a, .present) ∈ m.returned → ∃ s, m.keys s = a.key
  near : ∀ a n, (a, .near n) ∈ m.returned → t.proximity n ∧ m.success = false
  full : ∀ a, (a, .full) ∈ m.returned → (∀ i < 3, Full t m.keys a.key i) ∧ m.success = false
  noBuckets : ∀ a, (a, .noBuckets) ∈ m.returned → t.numBuckets = 0

/-- What holds besides when no insertion is under way. -/
structure Settled (t : Bht K) (programs : List (List K)) (m : Memory K) : Prop where
  returned : (m.returned.map fun r => r.1.key).Perm programs.flatten
  /-- Of the insertions of a key in the table one has got a number. -/
  won : ∀ k ≠ t.keySentinel, (∃ s, m.keys s = k) ↔ k ∈ m.won.map Prod.fst
  numbers : ∀ n, n ∈ m.won.map Prod.snd ↔ 0 ≤ n ∧ n < m.cnt

/-- One action: stored keys stay, only a call that has or gets a place for its key changes the arrays, and such a call
returns a number. -/
structure Effect (t : Bht K) (m : Memory K) (f : Frame K) (m' : Memory K) (fs : List (Frame K)) : Prop where
  stored : Extends t m.keys m'.keys
  unchanged : f.claim = none → (∀ g ∈ fs, g.claim = none) →
    m'.keys = m.keys ∧ m'.indices = m.indices ∧ m'.activeKeys = m.activeKeys ∧ m'.cnt = m.cnt
  claimed : ∀ p, f.claim = some p → (∃ g, fs = [g] ∧ g.claim = some p) ∨
    fs = [] ∧ ∃ o n, m'.returned = (p.call, o) :: m.returned ∧ o.number = some n

omit [DecidableEq K] in
theorem Acts.effect (h : Acts t m f m' fs) : Effect t m f m' fs := by
  refine ⟨h.extends, fun hf hfs => ?_, fun p hp => ?_⟩
  · cases h with
    | swap p => exact absurd (List.forall_mem_singleton.mp hfs) (by split <;> simp [Frame.claim])
    | number | given | storeQueued | store | enqueue | near | finish => cases hf
    | _ => exact ⟨rfl, rfl, rfl, rfl⟩
  · cases h with
    | unlockSwap q b =>
      cases b with
      | false => cases hp
      | true => exact .inl ⟨_, rfl, hp⟩
    | switched | number | given | storeQueued | store | enqueue => exact .inl ⟨_, rfl, hp⟩
    | near q n | finish q n => exact .inr ⟨rfl, _, n, by obtain rfl := Option.some.inj hp; rfl, rfl⟩
    | _ => cases hp

theorem Recorded.held {a : Call K} {o : Outcome} {n : ℤ} (h : Recorded t m a o) (hn : o.number = some n) :
    Held t m a n := by
  cases o with
  | index n' | near n' => exact Option.some.inj hn ▸ h.1
  | _ => cases hn

theorem Held.query {a : Call K} {n : ℤ} (h : Held t m a n) (ht : Table t m.keys) (hk : a.key ≠ t.keySentinel) :
    m.activeKeys n = a.key ∧ t.query m a.key = n := by
  obtain ⟨p, rfl, hc, hidx, hact⟩ := h
  exact ⟨hact, (query_claimed ht hc hk).trans hidx⟩

theorem Table.mem_stored (ht : Table t m.keys) {s : ℕ} (hs : m.keys s ≠ t.keySentinel) : m.keys s ∈ stored t m.keys := by
  obtain ⟨p, _, rfl, hc⟩ := ht.home s hs
  exact Bht.mem_stored.mpr ⟨hs, _, hc.slot_lt, rfl⟩

omit [DecidableEq K] in
theorem mem_placed (h : key ∈ f.placed) : key = f.args.key := by
  cases f with
  | unlockSwap p b | switched p b => cases b <;> simp_all [Frame.placed, Frame.claim, Frame.args]
  | _ => simp_all [Frame.placed, Frame.claim, Frame.args]

/-- A key in the table belongs to a call, under way or returned. -/
theorem Invariant.inserted (hi : Invariant t programs c) (hk : key ∈ stored t c.mem.keys) : key ∈ programs.flatten := by
  rw [← hi.placed, Multiset.mem_add, Multiset.mem_coe] at hk
  rw [← Multiset.mem_coe, ← hi.calls, Multiset.mem_add, Multiset.mem_coe]
  rcases hk with hk | hk
  · refine .inl ?_
    obtain ⟨f, hf, hk⟩ := mem_total.mp hk
    refine mem_total.mpr ⟨f, hf, ?_⟩
    rw [mem_placed hk]
    exact Multiset.mem_singleton_self _
  · obtain ⟨r, hr, rfl⟩ := List.mem_map.mp hk
    obtain ⟨e, he, hn⟩ := List.mem_filterMap.mp hr
    obtain ⟨n, _, rfl⟩ := Option.map_eq_some_iff.mp hn
    exact .inr (List.mem_map_of_mem (f := fun r => r.1.key) he)

theorem Invariant.number_lt (hi : Invariant t programs c) {n : ℤ}
    (hn : n ∈ c.total Frame.numbered + (c.mem.won.map Prod.snd : Multiset ℤ)) : 0 ≤ n ∧ n < c.mem.cnt := by
  rw [hi.numbered] at hn
  obtain ⟨i, hi, rfl⟩ := Multiset.mem_map.mp hn
  have hlt := Multiset.mem_range.mp hi
  omega

theorem Invariant.consistent (hi : Invariant t programs c) : Consistent t programs c.mem := by
  have hwon : ∀ r ∈ c.mem.won, ∃ e ∈ c.mem.returned, e.2.number = some r.2 ∧ e.1.key = r.1 := by
    intro r hr
    obtain ⟨e, he, hn⟩ := List.mem_filterMap.mp hr
    obtain ⟨n, ho, rfl⟩ := Option.map_eq_some_iff.mp hn
    exact ⟨e, he, ho, rfl⟩
  refine ⟨hi.table.fromStart, hi.table.unique, fun s hs => hi.inserted (hi.table.mem_stored hs), ⟨?_, ?_⟩, fun r hr => ?_,
    ?_, fun r hr => ?_, fun k _ hk => query_absent hk, fun a n hm => (hi.recorded _ hm).2.2, fun a hm => ?_,
    fun a n hm => (hi.recorded _ hm).2.2, fun a hm => (hi.recorded _ hm).2, fun a hm => (hi.recorded _ hm).2⟩
  · have hn := hi.nodup
    rw [← hi.placed] at hn
    exact Multiset.coe_nodup.mp (Multiset.nodup_add.mp hn).2.1
  · exact Multiset.coe_nodup.mp (Multiset.nodup_add.mp hi.numbers_nodup).2.1
  · exact hi.number_lt (Multiset.mem_add.mpr (.inr (List.mem_map_of_mem hr)))
  · have hcnt := hi.cnt_add
    have hstored := Bht.card_stored_le t c.mem.keys
    omega
  · obtain ⟨e, he, hn, hk⟩ := hwon r hr
    obtain ⟨hp, hrec⟩ := hi.recorded e he
    exact hk ▸ (hrec.held hn).query hi.table hp.key
  · obtain ⟨_, s, _, hs⟩ := Bht.mem_stored.mp (hi.recorded _ hm).2
    exact ⟨s, hs⟩

theorem Invariant.settled (hi : Invariant t programs c) (hq : Quiescent (code t) c) : Settled t programs c.mem := by
  have hf := hi.returned hq
  have hplaced := hi.placed
  have hnumbered := hi.numbered
  have hcalls := hi.calls
  simp only [Config.total, hf, List.map_nil, List.sum_nil, zero_add] at hplaced hnumbered hcalls
  refine ⟨Multiset.coe_eq_coe.mp hcalls, fun k hk => ?_, fun n => ?_⟩
  · rw [← Multiset.mem_coe, hplaced, Bht.mem_stored]
    constructor
    · rintro ⟨s, rfl⟩
      exact Bht.mem_stored.mp (hi.table.mem_stored hk)
    · rintro ⟨_, s, _, hs⟩
      exact ⟨s, hs⟩
  · rw [← Multiset.mem_coe, hnumbered, Multiset.mem_map]
    constructor
    · rintro ⟨i, hi, rfl⟩
      have hlt := Multiset.mem_range.mp hi
      omega
    · rintro ⟨hn, hlt⟩
      exact ⟨n.toNat, Multiset.mem_range.mpr (by omega), by omega⟩

/-- Whatever the hash functions and the order of the actions: each bucket is filled from its start, a key is in one
place and got one number there, under which it is found, and a call without a place changes nothing. -/
theorem insert_consistent (hk : ∀ k ∈ programs.flatten, k ≠ t.keySentinel)
    (h : Reaches (code t) free (start t indices activeKeys programs) c) :
    Consistent t programs c.mem ∧ (Quiescent (code t) c → Settled t programs c.mem) ∧
      ∀ f x m' fs, code t c.mem f x = some (m', fs) → Effect t c.mem f m' fs := by
  have hi := invariant_reaches hk h
  exact ⟨hi.consistent, hi.settled, fun f x m' fs he => (acts_of_code he).effect⟩

end Results

omit [DecidableEq K] in
theorem not_proximity {n : ℤ} (h0 : 0 ≤ n) (hn : n + 20 < t.tableSize) : ¬ t.proximity n := by
  unfold proximity
  split
  · omega
  · have hfits : 2 * t.tableSize ≤ 2 ^ t.bits := t.fits
    have hcast : (2 : ℤ) ^ t.bits = ((2 ^ t.bits : ℕ) : ℤ) := by norm_cast
    rw [hcast, Int.emod_eq_of_lt h0 (by omega), Int.emod_eq_of_lt (by omega) (by omega)]
    omega

/-- A table of words whose keys all begin in one bucket. -/
def sample (bucketSize numBuckets : ℕ) (hb : 2 < bucketSize) (hf : 2 * (numBuckets * bucketSize) ≤ 2 ^ 32) : Bht ℤ :=
  ⟨bucketSize, numBuckets, 32, false, 0x3f3f3f3f, fun _ => 0, fun _ => 1, fun _ => 2, hb, hf⟩

/-- Two threads insert one key, and one of them another: the key is found under the number it got. -/
theorem insert_consistent_race : ∃ c, Reaches (code (sample 32 1 (by decide) (by decide))) free
    (start (sample 32 1 (by decide) (by decide)) (fun _ => 0) (fun _ => 0) [[5, 7], [5]]) c ∧
    c.mem.won = [(7, 1), (5, 0)] ∧ (sample 32 1 (by decide) (by decide)).query c.mem 5 = 0 := by
  have he : (runs (code (sample 32 1 (by decide) (by decide))) free
      (start (sample 32 1 (by decide) (by decide)) (fun _ => 0) (fun _ => 0) [[5, 7], [5]])
      (([0, 1, 0, 1, 0, 1, 0, 1, 1, 1, 1] ++ List.replicate 16 0).map (·, ()))).map (fun c => c.mem.won) =
      some [(7, 1), (5, 0)] := rfl
  obtain ⟨c, hc, he⟩ := Option.map_eq_some_iff.mp he
  have h := (insert_consistent (t := sample 32 1 (by decide) (by decide)) (by decide) (reaches_of_runs hc)).1.entry
  exact ⟨c, reaches_of_runs hc, he, (h (5, 0) (by rw [he]; decide)).2⟩

/-- In a table of twenty slots no number is good enough: the key is in the table, but no insertion of it gets an index. -/
theorem insert_unobtained : ¬ ∀ c, Reaches (code (sample 10 2 (by decide) (by decide))) free
    (start (sample 10 2 (by decide) (by decide)) (fun _ => 0) (fun _ => 0) [[5, 5]]) c →
    Quiescent (code (sample 10 2 (by decide) (by decide))) c →
    ∀ a, (a, .present) ∈ c.mem.returned → ∃ n, (a, .index n) ∈ c.mem.returned := by
  have he : (runs (code (sample 10 2 (by decide) (by decide))) free
      (start (sample 10 2 (by decide) (by decide)) (fun _ => 0) (fun _ => 0) [[5, 5]])
      ((List.replicate 12 0).map (·, ()))).map (fun c => (c.threads.map List.length, c.mem.returned)) =
      some ([0], [({key := 5}, .present), ({key := 5}, .near 0)]) := rfl
  obtain ⟨c, hc, he⟩ := Option.map_eq_some_iff.mp he
  simp only [Prod.mk.injEq] at he
  intro h
  obtain ⟨n, hn⟩ := h c (reaches_of_runs hc) (quiescent_of_lengths (n := 1) he.1) {key := 5} (by simp [he.2])
  simp [he.2] at hn

end Zpc.Bht
