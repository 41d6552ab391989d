import Zpc.SparseMatrix

/-!
# Tables at rest and their rebuild

What holds of a table in which no insertion is under way, how it goes on through further insertions, and how `resize`
builds it again in a larger one from the active keys.
-/
namespace Zpc.Bht
open Interleaving

variable {K : Type*} [DecidableEq K] {t : Bht K} {m m' : Memory K} {a b : Call K} {n : ℤ} {f g : Frame K}
  {fs : List (Frame K)} {x : Unit} {c c' : Config (Memory K) (Frame K)} {programs : List (List K)}

section Sound
/-- A table at rest. Its keys are those under the numbers below the counter. -/
structure Sound (t : Bht K) (m : Memory K) : Prop where
  table : Table t m.keys
  unlocked : ∀ s, m.locked s = false
  stored : stored t m.keys = (Multiset.range m.cnt).map fun i : ℕ => m.activeKeys i
  nodup : (Bht.stored t m.keys).Nodup
  held : ∀ i : ℕ, i < m.cnt → Held t m {key := m.activeKeys i} i
  near : m.success = true → ∀ i : ℕ, i < m.cnt → ¬ t.proximity i

omit [DecidableEq K] in
/-- An entry depends on the call only through its key. -/
theorem Held.of_key (h : Held t m a n) (hk : b.key = a.key) : Held t m b n := by
  obtain ⟨p, rfl, hc, hidx, hact⟩ := h
  have hoffset : ∀ i, t.bucketOffset i b.key = t.bucketOffset i p.call.key := fun i => by rw [hk]
  have hslot : t.slot {p with call := b} = t.slot p := congrArg (· + p.load) (hoffset p.iter)
  refine ⟨{p with call := b}, rfl, ⟨hc.buckets, hc.round, fun i hi => ?_, hc.load, ?_⟩, ?_, hact.trans hk.symm⟩
  · rw [hk]
    exact hc.full i hi
  · rw [hslot, hk]
    exact hc.held
  · rw [hslot]
    exact hidx

/-- The insertions that a table at rest stands for. -/
def record (t : Bht K) (m : Memory K) : List (Call K × Outcome) :=
  (List.range m.cnt).map fun i : ℕ => ({key := m.activeKeys i}, if t.proximity i then .near i else .index i)

/-- Any number of threads, each about to insert any sequence of keys into a table at rest. -/
def insertStart (t : Bht K) (m : Memory K) (programs : List (List K)) : Config (Memory K) (Frame K) :=
  ⟨{m with returned := record t m}, (programs.map (·.map fun k => ({key := k} : Call K))).map (·.map .call)⟩

omit [DecidableEq K] in
theorem won_record (t : Bht K) (m : Memory K) : ({m with returned := record t m} : Memory K).won =
    (List.range m.cnt).map fun i : ℕ => (m.activeKeys i, (i : ℤ)) := by
  have hnumber : ∀ i : ℕ, (if t.proximity i then Outcome.near i else .index i).number = some (i : ℤ) := fun i => by
    split <;> rfl
  simp [Memory.won, record, List.filterMap_map, hnumber]

theorem Sound.mem_stored (h : Sound t m) {i : ℕ} (hi : i < m.cnt) : m.activeKeys i ∈ Bht.stored t m.keys := by
  rw [h.stored]
  exact Multiset.mem_map_of_mem _ (Multiset.mem_range.mpr hi)

theorem Sound.key_ne (h : Sound t m) {i : ℕ} (hi : i < m.cnt) : m.activeKeys i ≠ t.keySentinel :=
  (Bht.mem_stored.mp (h.mem_stored hi)).1

theorem Sound.query (h : Sound t m) {i : ℕ} (hi : i < m.cnt) : t.query m (m.activeKeys i) = i :=
  ((h.held i hi).query h.table (h.key_ne hi)).2

/-- A key is in the table under a number, or it is not found. -/
theorem Sound.query_cases (h : Sound t m) {k : K} (hk : k ≠ t.keySentinel) :
    (∃ i : ℕ, i < m.cnt ∧ m.activeKeys i = k ∧ t.query m k = i) ∨
      (∀ i : ℕ, i < m.cnt → m.activeKeys i ≠ k) ∧ t.query m k = sentinel := by
  by_cases hex : ∃ i : ℕ, i < m.cnt ∧ m.activeKeys i = k
  · obtain ⟨i, hi, rfl⟩ := hex
    exact .inl ⟨i, hi, rfl, h.query hi⟩
  · have hall : ∀ i : ℕ, i < m.cnt → m.activeKeys i ≠ k := fun i hi he => hex ⟨i, hi, he⟩
    refine .inr ⟨hall, query_absent fun s hs => ?_⟩
    have hmem := h.table.mem_stored (s := s) (hs ▸ hk)
    rw [h.stored] at hmem
    obtain ⟨i, hi, hik⟩ := Multiset.mem_map.mp hmem
    exact hall i (Multiset.mem_range.mp hi) (hik.trans hs)

theorem sound_empty (t : Bht K) (indices : ℕ → ℤ) (activeKeys : ℤ → K) : Sound t (t.empty indices activeKeys) := by
  have hempty : Bht.stored t (t.empty indices activeKeys).keys = 0 := by simp [Bht.stored, empty]
  refine ⟨table_empty t, fun _ => rfl, hempty, ?_, fun i hi => absurd hi (Nat.not_lt_zero i),
    fun _ i hi => absurd hi (Nat.not_lt_zero i)⟩
  rw [hempty]
  exact Multiset.nodup_zero

omit [DecidableEq K] in
theorem mem_insertStart (h : f ∈ (insertStart t m programs).frames) : ∃ k ∈ programs.flatten, f = .call {key := k} := by
  have hstart : f ∈ (start t m.indices m.activeKeys programs).frames := h
  exact mem_start hstart

omit [DecidableEq K] in
theorem total_insertStart {A : Type*} [AddCommMonoid A] (u : Frame K → A) (hu : ∀ a, u (.call a) = 0) :
    (insertStart t m programs).total u = 0 := total_programs Frame.call hu _ _

/-- The keys of the table and those to come. -/
theorem Sound.invariant (h : Sound t m) (hk : ∀ k ∈ programs.flatten, k ≠ t.keySentinel) :
    Invariant t (((List.range m.cnt).map fun i : ℕ => m.activeKeys i) :: programs) (insertStart t m programs) := by
  have hwon : (insertStart t m programs).mem.won = _ := won_record t m
  refine ⟨fun f hf => ?_, fun f hf => ?_, h.table, fun f hf => ?_, ?_, h.nodup, ?_, fun s => ?_, fun k hm f hf => ?_,
    fun r hr => ?_, ?_⟩
  · obtain ⟨k, hm, rfl⟩ := mem_insertStart hf
    exact ⟨hk k hm, rfl, rfl⟩
  · obtain ⟨k, _, rfl⟩ := mem_insertStart hf
    trivial
  · obtain ⟨k, _, rfl⟩ := mem_insertStart hf
    trivial
  · rw [total_insertStart _ fun _ => rfl, hwon, zero_add, List.map_map]
    exact h.stored.symm
  · rw [total_insertStart _ fun _ => rfl, hwon, zero_add, List.map_map]
    rfl
  · rw [total_insertStart _ fun _ => rfl]
    exact (congrArg Bool.toNat (h.unlocked s)).symm
  · obtain ⟨k, _, rfl⟩ := mem_insertStart (List.mem_flatten.mpr ⟨k, hm, List.mem_of_mem_tail hf⟩)
    rintro ⟨s, hs⟩
    cases hs
  · obtain ⟨i, hi, rfl⟩ := List.mem_map.mp hr
    have hi := List.mem_range.mp hi
    refine ⟨⟨h.key_ne hi, rfl, rfl⟩, ?_⟩
    have hheld : Held t (insertStart t m programs).mem {key := m.activeKeys i} i := h.held i hi
    by_cases hp : t.proximity i
    · have hs : m.success = false := Bool.eq_false_iff.mpr fun hs => h.near hs i hi hp
      simp only [if_pos hp]
      exact ⟨hheld, hp, hs⟩
    · simp only [if_neg hp]
      exact ⟨hheld, hp⟩
  · have htotal : (insertStart t m programs).total (fun f => ({f.args.key} : Multiset K)) =
        (programs.flatten : Multiset K) := by
      calc (insertStart t m programs).total (fun f => ({f.args.key} : Multiset K))
          = (start t m.indices m.activeKeys programs).total (fun f => ({f.args.key} : Multiset K)) := rfl
        _ = ((programs.flatten : Multiset K).map fun k => ({k} : Multiset K)).sum := total_start _
        _ = (programs.flatten : Multiset K) := Multiset.sum_map_singleton _
    rw [htotal, List.flatten_cons, ← Multiset.coe_add, add_comm]
    congr 1
    simp [insertStart, record, List.map_map, Function.comp_def]

/-- With nothing left to do, the table is at rest. -/
theorem Invariant.sound (hi : Invariant t programs c) (hq : Quiescent (code t) c) : Sound t c.mem := by
  have hf := hi.returned hq
  have hplaced := hi.placed
  have hnumbered := hi.numbered
  have hmutex := hi.mutex
  simp only [Config.total, hf, List.map_nil, List.sum_nil, zero_add] at hplaced hnumbered hmutex
  have hwon : ∀ r ∈ c.mem.won, ∃ e ∈ c.mem.returned, e.2.number = some r.2 ∧ e.1.key = r.1 := by
    intro r hr
    obtain ⟨e, he, hn⟩ := List.mem_filterMap.mp hr
    obtain ⟨n, ho, rfl⟩ := Option.map_eq_some_iff.mp hn
    exact ⟨e, he, ho, rfl⟩
  have hactive : ∀ r ∈ c.mem.won, c.mem.activeKeys r.2 = r.1 := fun r hr => by
    obtain ⟨e, he, hn, hk⟩ := hwon r hr
    obtain ⟨_, _, _, _, hact⟩ := (hi.recorded e he).2.held hn
    rw [hact, hk]
  have hnumber : ∀ i : ℕ, i < c.mem.cnt → ∃ e ∈ c.mem.returned, e.2.number = some (i : ℤ) := fun i hlt => by
    have hm : (i : ℤ) ∈ (c.mem.won.map Prod.snd : Multiset ℤ) := by
      rw [hnumbered]
      exact Multiset.mem_map_of_mem _ (Multiset.mem_range.mpr hlt)
    obtain ⟨r, hr, hri⟩ := List.mem_map.mp (Multiset.mem_coe.mp hm)
    obtain ⟨e, he, hn, -⟩ := hwon r hr
    exact ⟨e, he, hri ▸ hn⟩
  refine ⟨hi.table, fun s => ?_, ?_, hi.nodup, fun i hlt => ?_, fun hs i hlt => ?_⟩
  · cases hl : c.mem.locked s with
    | false => rfl
    | true => exact absurd (hmutex s) (by simp [hl])
  · rw [← hplaced]
    calc (c.mem.won.map Prod.fst : Multiset K)
        = (c.mem.won.map fun r => c.mem.activeKeys r.2 : Multiset K) :=
          congrArg _ (List.map_congr_left fun r hr => (hactive r hr).symm)
      _ = (c.mem.won.map Prod.snd : Multiset ℤ).map c.mem.activeKeys := by rw [Multiset.map_coe, List.map_map]; rfl
      _ = (Multiset.range c.mem.cnt).map fun i : ℕ => c.mem.activeKeys i := by rw [hnumbered, Multiset.map_map]; rfl
  · obtain ⟨e, he, hn⟩ := hnumber i hlt
    have hheld := (hi.recorded e he).2.held hn
    obtain ⟨_, _, _, _, hact⟩ := id hheld
    exact hheld.of_key hact
  · obtain ⟨⟨a, o⟩, he, hn⟩ := hnumber i hlt
    have hrec := (hi.recorded _ he).2
    cases o with
    | index n =>
      obtain rfl : n = i := Option.some.inj hn
      exact hrec.2
    | near n => cases hs.symm.trans hrec.2.2
    | _ => cases hn

theorem Sound.inserts (h : Sound t m) (hk : ∀ k ∈ programs.flatten, k ≠ t.keySentinel)
    (hr : Reaches (code t) free (insertStart t m programs) c) (hq : Quiescent (code t) c) : Sound t c.mem :=
  ((h.invariant hk).reaches hr).sound hq

end Sound

section Rebuild
/-- `evaluateTableSize`. -/
def evaluateTableSize (t : Bht K) (entryCnt : ℕ) : ℕ :=
  if entryCnt = 0 then 0
  else SparseMatrix.next2pow entryCnt * 2 + (t.bucketSize - SparseMatrix.next2pow entryCnt * 2 % t.bucketSize)

omit [DecidableEq K] in
theorem dvd_evaluateTableSize (t : Bht K) (entryCnt : ℕ) : t.bucketSize ∣ t.evaluateTableSize entryCnt := by
  unfold evaluateTableSize
  split_ifs
  · exact ⟨0, rfl⟩
  · have hpos : 0 < t.bucketSize := Nat.zero_lt_of_lt t.threshold_pos
    have hdiv := Nat.div_add_mod (SparseMatrix.next2pow entryCnt * 2) t.bucketSize
    have hlt := Nat.mod_lt (SparseMatrix.next2pow entryCnt * 2) hpos
    refine ⟨SparseMatrix.next2pow entryCnt * 2 / t.bucketSize + 1, ?_⟩
    rw [Nat.mul_add]
    omega

def resized (t : Bht K) (newCapacity : ℕ) (h : 2 * t.evaluateTableSize newCapacity ≤ 2 ^ t.bits) : Bht K :=
  {t with
    numBuckets := t.evaluateTableSize newCapacity / t.bucketSize
    fits := by rwa [Nat.div_mul_cancel (t.dvd_evaluateTableSize newCapacity)]}

/-- `BhtInsertionOp`. -/
def insertionOp (activeKeys : ℤ → K) (i : ℕ) : Call K :=
  {key := activeKeys i, insertionIndex := i, enqueueKey := false}

/-- The table after `reset(false)`, and the threads that insert its active keys again. -/
def rebuildStart (t : Bht K) (cnt : ℕ) (indices : ℕ → ℤ) (activeKeys : ℤ → K) (schedule : List (List ℕ)) :
    Config (Memory K) (Frame K) :=
  ⟨{t.empty indices activeKeys with cnt := cnt}, (schedule.map (·.map (insertionOp activeKeys))).map (·.map .call)⟩

/-- `resize`. Of the active keys only the former ones are preserved, and the indices are not initialised. -/
inductive Resizes (t : Bht K) (m : Memory K) (newCapacity : ℕ) : Bht K → Memory K → Prop
  | kept (h : t.evaluateTableSize newCapacity ≤ t.tableSize) : Resizes t m newCapacity t m
  | rebuilt (hlt : t.tableSize < t.evaluateTableSize newCapacity)
      (hfits : 2 * t.evaluateTableSize newCapacity ≤ 2 ^ t.bits) (indices : ℕ → ℤ) (activeKeys : ℤ → K)
      (hkept : ∀ i : ℕ, i < t.tableSize → activeKeys i = m.activeKeys i) (schedule : List (List ℕ))
      (hs : schedule.flatten.Perm (List.range m.cnt)) (c : Config (Memory K) (Frame K))
      (hr : Reaches (code (t.resized newCapacity hfits)) free
        (rebuildStart (t.resized newCapacity hfits) m.cnt indices activeKeys schedule) c)
      (hq : Quiescent (code (t.resized newCapacity hfits)) c) :
      Resizes t m newCapacity (t.resized newCapacity hfits) c.mem

variable {activeKeys : ℤ → K} {indices : ℕ → ℤ} {cnt : ℕ} {schedule : List (List ℕ)}

/-- A call of the rebuild: the key is under the number that it brings, and is not enqueued. -/
structure Given (t : Bht K) (activeKeys : ℤ → K) (f : Frame K) : Prop where
  key : f.args.key ≠ t.keySentinel
  index : f.args.insertionIndex ≠ sentinel
  queued : f.args.enqueueKey = false
  active : activeKeys f.args.insertionIndex = f.args.key
  numbered : ∀ n ∈ f.numbered, n = f.args.insertionIndex
  stored : ∀ p n, f ≠ .enqueue p n

structure RebuildInvariant (t : Bht K) (activeKeys : ℤ → K) (cnt : ℕ) (calls : List (Call K))
    (c : Config (Memory K) (Frame K)) : Prop where
  given : ∀ f ∈ c.frames, Given t activeKeys f
  guarded : ∀ f ∈ c.frames, Guarded t f
  active : c.mem.activeKeys = activeKeys
  cnt : c.mem.cnt = cnt
  table : Table t c.mem.keys
  known : ∀ f ∈ c.frames, Known t c.mem f
  placed : c.total Frame.placed + (c.mem.won.map Prod.fst : Multiset K) = stored t c.mem.keys
  nodup : (stored t c.mem.keys).Nodup
  mutex : ∀ s, c.total (holds t s) = (c.mem.locked s).toNat
  onTop : c.OnlyTop fun f => ∃ s, 0 < holds t s f
  recorded : ∀ r ∈ c.mem.returned, r.1.key ≠ t.keySentinel ∧ Recorded t c.mem r.1 r.2 ∧
    ∀ n, r.2.number = some n → n = r.1.insertionIndex
  calls : c.total (fun f => ({f.args} : Multiset (Call K))) + (c.mem.returned.map fun r => r.1 : Multiset (Call K)) =
    (calls : Multiset (Call K))

variable {calls : List (Call K)}

omit [DecidableEq K] in
theorem given_of_args (hf : Given t activeKeys f) (ha : g.args = f.args)
    (hn : ∀ n ∈ g.numbered, n = f.args.insertionIndex) (hs : ∀ p n, g ≠ .enqueue p n) : Given t activeKeys g := by
  obtain ⟨h1, h2, h3, h4, -, -⟩ := hf
  rw [← ha] at h1 h2 h3 h4 hn
  exact ⟨h1, h2, h3, h4, hn, hs⟩

omit [DecidableEq K] in
/-- A call of the rebuild takes the number that it brings. -/
theorem Acts.keepsGiven (h : Acts t m f m' fs) (hf : Given t activeKeys f) : ∀ g ∈ fs, Given t activeKeys g := by
  have hnone : ∀ g : Frame K, g.args = f.args → g.numbered = 0 → (∀ p n, g ≠ .enqueue p n) → Given t activeKeys g :=
    fun g ha hn hs => given_of_args hf ha (fun n hm => by rw [hn] at hm; cases hm) hs
  have hne : ∀ {g : Frame K}, g.numbered = 0 → ∀ p n, g ≠ .enqueue p n := by
    rintro g hg p n rfl
    exact Multiset.singleton_ne_zero n hg
  have hsome : ∀ g : Frame K, g.args = f.args → g.numbered = 0 → ∀ g' ∈ [g], Given t activeKeys g' := fun g ha hn =>
    List.forall_mem_singleton.mpr (hnone g ha hn (hne hn))
  cases h with
  | noBuckets | present | near | finish | fail => exact List.forall_mem_nil _
  | begin a | further p => exact hsome _ (args_atomicLoad t _) (numbered_atomicLoad t _)
  | again p => exact hsome _ (args_atomicLoad t _) (numbered_atomicLoad t _)
  | vacant p => exact hsome _ (args_atomicSwitchIfEqual t _) (numbered_atomicSwitchIfEqual t _)
  | reserved p | last p => exact hsome _ (args_nextBucket t _) (numbered_nextBucket t _)
  | swap p | taken p => exact hsome _ (by split <;> rfl) (numbered_swapped t p _)
  | number p hi => exact absurd hi hf.index
  | given p =>
    refine List.forall_mem_singleton.mpr (given_of_args hf rfl (fun n hn => ?_) nofun)
    exact Multiset.mem_singleton.mp hn
  | storeQueued p n hq => exact absurd (hf.queued.symm.trans hq) nofun
  | store p n =>
    refine List.forall_mem_singleton.mpr (given_of_args hf rfl (fun n' hn => ?_) nofun)
    exact hf.numbered n' hn
  | enqueue p n => exact absurd rfl (hf.stored p n)
  | _ => exact hsome _ rfl rfl

omit [DecidableEq K] in
theorem Acts.arrays_eq (h : Acts t m f m' fs) (hf : Given t activeKeys f) :
    m'.activeKeys = m.activeKeys ∧ m'.cnt = m.cnt := by
  cases h with
  | number p hi => exact absurd hi hf.index
  | enqueue p n => exact absurd rfl (hf.stored p n)
  | _ => exact ⟨rfl, rfl⟩

theorem rebuild_known (h : Step (code t) c f x c') (hi : RebuildInvariant t activeKeys cnt calls c) :
    ∀ g ∈ c'.frames, Known t c'.mem g := by
  have hk := hi.known f h.mem_frame
  have hg := hi.given f h.mem_frame
  have hqueued : ∀ p n, f = .store p n → p.call.enqueueKey = false → c.mem.activeKeys n = p.call.key := by
    rintro p n rfl -
    rw [hi.active, hg.numbered n (Multiset.mem_singleton_self n)]
    exact hg.active
  refine h.all hi.known (fun fs he => (acts_of_code he).known hi.table hk hg.key hqueued) fun g hb hkg => ?_
  obtain ⟨fs, he⟩ := h.runs_code
  have ha := acts_of_code he
  refine hkg.extend ha.extends (ha.table hi.table hk hg.key).reserved (hi.given g hb.mem).key fun q n hq _ => ?_
  exact ⟨ha.indices_eq hk (hkg.held hq).held fun p hf => placed_apart hi.placed hi.nodup hb hf hq,
    congrFun (ha.arrays_eq hg).1 n⟩

omit [DecidableEq K] in
/-- A call of the rebuild returns the number that it brings. -/
theorem Acts.returns_given {o : Outcome} (h : Acts t m f m' fs) (hf : Given t activeKeys f)
    (ho : m'.returned = (f.args, o) :: m.returned) : ∀ n, o.number = some n → n = f.args.insertionIndex := by
  intro n hn
  cases h with
  | noBuckets a | present p | fail a =>
    obtain rfl := (Prod.ext_iff.mp (List.cons_eq_cons.mp ho).1).2
    cases hn
  | near p n' | finish p n' =>
    obtain rfl := (Prod.ext_iff.mp (List.cons_eq_cons.mp ho).1).2
    obtain rfl : n' = n := Option.some.inj hn
    exact hf.numbered n' (Multiset.mem_singleton_self n')
  | _ => exact absurd ho (List.cons_ne_self _ _).symm

theorem rebuild_recorded (h : Step (code t) c f x c') (hi : RebuildInvariant t activeKeys cnt calls c) :
    ∀ r ∈ c'.mem.returned, r.1.key ≠ t.keySentinel ∧ Recorded t c'.mem r.1 r.2 ∧
      ∀ n, r.2.number = some n → n = r.1.insertionIndex := by
  have hk := hi.known f h.mem_frame
  have hg := hi.given f h.mem_frame
  obtain ⟨fs, he⟩ := h.runs_code
  have ha := acts_of_code he
  have hr := (ha.table hi.table hk hg.key).reserved
  have hold : ∀ r ∈ c.mem.returned, r.1.key ≠ t.keySentinel ∧ Recorded t c'.mem r.1 r.2 ∧
      ∀ n, r.2.number = some n → n = r.1.insertionIndex := by
    rintro ⟨a, o⟩ hm
    obtain ⟨hka, hra, hn⟩ := hi.recorded _ hm
    exact ⟨hka, hra.extend ha hr hka fun n hn hh => hh.extend ha hk hr hka
      (fun p hf => placed_won hi.placed hi.nodup h.mem_frame hf hm hn) (congrFun (ha.arrays_eq hg).1 n), hn⟩
  rcases ha.args with ⟨_, _, _, hret⟩ | ⟨_, o, hret⟩
  · rwa [hret]
  · rw [hret]
    exact List.forall_mem_cons.mpr ⟨⟨hg.key, ha.recorded hk hg.key hret, ha.returns_given hg hret⟩, hold⟩

theorem rebuild_step (h : Step (code t) c f x c') (hi : RebuildInvariant t activeKeys cnt calls c) :
    RebuildInvariant t activeKeys cnt calls c' := by
  have hk := hi.known f h.mem_frame
  have hg := hi.given f h.mem_frame
  obtain ⟨fs, he⟩ := h.runs_code
  obtain ⟨hactive, hcnt⟩ := (acts_of_code he).arrays_eq hg
  exact ⟨h.all hi.given (fun fs he => (acts_of_code he).keepsGiven hg) fun _ _ hg => hg,
    h.all hi.guarded (fun fs he => (acts_of_code he).guarded) fun _ _ hg => hg, hactive.trans hi.active,
    hcnt.trans hi.cnt, (acts_of_code he).table hi.table hk hg.key, rebuild_known h hi, placed_step h hk hg.key hi.placed,
    nodup_step h hi.table hk hg.key hi.nodup, fun s => mutex_step h (hi.guarded f h.mem_frame) s (hi.mutex s),
    onTop_step h hi.onTop, rebuild_recorded h hi, calls_step (fun a => a) h hi.calls⟩

omit [DecidableEq K] in
theorem frames_rebuildStart : (rebuildStart t cnt indices activeKeys schedule).frames =
    schedule.flatten.map fun i => .call (insertionOp activeKeys i) := by
  simp [rebuildStart, Config.frames, List.map_flatten, Function.comp_def]

omit [DecidableEq K] in
theorem mem_rebuildStart (h : f ∈ (rebuildStart t cnt indices activeKeys schedule).frames) :
    ∃ i ∈ schedule.flatten, f = .call (insertionOp activeKeys i) := by
  rw [frames_rebuildStart] at h
  obtain ⟨i, hi, rfl⟩ := List.mem_map.mp h
  exact ⟨i, hi, rfl⟩

theorem rebuild_start (hk : ∀ i ∈ schedule.flatten, activeKeys (i : ℕ) ≠ t.keySentinel) :
    RebuildInvariant t activeKeys cnt (schedule.flatten.map (insertionOp activeKeys))
      (rebuildStart t cnt indices activeKeys schedule) := by
  have hempty : stored t (rebuildStart t cnt indices activeKeys schedule).mem.keys = 0 := by
    simp [stored, rebuildStart, empty]
  refine ⟨fun f hf => ?_, fun f hf => ?_, rfl, rfl, table_empty t, fun f hf => ?_, ?_, ?_, fun s => ?_,
    fun k hm f hf => ?_, fun r hr => ?_, ?_⟩
  · obtain ⟨i, hm, rfl⟩ := mem_rebuildStart hf
    refine ⟨hk i hm, ?_, rfl, rfl, fun n hn => ?_, by rintro _ _ ⟨⟩⟩
    · show (i : ℤ) ≠ -1
      omega
    · cases hn
  · obtain ⟨i, _, rfl⟩ := mem_rebuildStart hf
    trivial
  · obtain ⟨i, _, rfl⟩ := mem_rebuildStart hf
    trivial
  · rw [hempty, show (rebuildStart t cnt indices activeKeys schedule).total Frame.placed = 0 from
      total_programs Frame.call (fun _ => rfl) _ _]
    rfl
  · rw [hempty]
    exact Multiset.nodup_zero
  · exact total_programs Frame.call (fun _ => rfl) _ _
  · obtain ⟨i, _, rfl⟩ := mem_rebuildStart (List.mem_flatten.mpr ⟨k, hm, List.mem_of_mem_tail hf⟩)
    rintro ⟨s, hs⟩
    cases hs
  · cases hr
  · rw [Config.total, frames_rebuildStart, List.map_map]
    calc _ = ((schedule.flatten.map (insertionOp activeKeys) : Multiset (Call K)).map fun a =>
            ({a} : Multiset (Call K))).sum + 0 := by simp [Function.comp_def, Frame.args]; rfl
      _ = (schedule.flatten.map (insertionOp activeKeys) : Multiset (Call K)) := by
        rw [add_zero, Multiset.sum_map_singleton]

theorem rebuild_reaches (hk : ∀ i ∈ schedule.flatten, activeKeys (i : ℕ) ≠ t.keySentinel)
    (h : Reaches (code t) free (rebuildStart t cnt indices activeKeys schedule) c) :
    RebuildInvariant t activeKeys cnt (schedule.flatten.map (insertionOp activeKeys)) c := by
  induction h with
  | refl => exact rebuild_start hk
  | step _ _ hs ih => exact rebuild_step hs ih

/-- A rebuild that succeeds has put every key under its number. -/
theorem RebuildInvariant.sound
    (hi : RebuildInvariant t activeKeys cnt (schedule.flatten.map (insertionOp activeKeys)) c)
    (hq : Quiescent (code t) c) (hs : schedule.flatten.Perm (List.range cnt))
    (hn : ((List.range cnt).map fun i : ℕ => activeKeys i).Nodup) (hb : t.numBuckets ≠ 0)
    (hsuccess : c.mem.success = true) : Sound t c.mem := by
  have hf : c.frames = [] := hq.returned_of_locks hi.mutex hi.onTop fun _ hb => blocked (hb ())
  have hplaced := hi.placed
  have hmutex := hi.mutex
  have hcalls := hi.calls
  simp only [Config.total, hf, List.map_nil, List.sum_nil, zero_add] at hplaced hmutex hcalls
  have hreturned : (c.mem.returned.map fun r => r.1).Perm ((List.range cnt).map (insertionOp activeKeys)) :=
    (Multiset.coe_eq_coe.mp hcalls).trans (hs.map _)
  have hkeys : (c.mem.returned.map fun r => r.1.key).Perm ((List.range cnt).map fun i : ℕ => activeKeys i) := by
    simpa [List.map_map, Function.comp_def, insertionOp] using hreturned.map Call.key
  have hinj : ∀ r ∈ c.mem.returned, ∀ r' ∈ c.mem.returned, r.1.key = r'.1.key → r = r' := fun r hr r' hr' he =>
    List.inj_on_of_nodup_map (hkeys.nodup_iff.mpr hn) hr hr' he
  have hindex : ∀ r ∈ c.mem.returned, r.2 = .index r.1.insertionIndex := by
    rintro ⟨a, o⟩ hr
    obtain ⟨-, hrec, hnum⟩ := hi.recorded _ hr
    cases o with
    | index n => rw [hnum n rfl]
    | near n => cases hsuccess.symm.trans hrec.2.2
    | full => cases hsuccess.symm.trans hrec.2
    | noBuckets => exact absurd hrec hb
    | present =>
      -- the call that has put the key into the table would be another one for it
      have hmem : a.key ∈ (c.mem.won.map Prod.fst : Multiset K) := hplaced ▸ hrec
      obtain ⟨w, hw, hwk⟩ := List.mem_map.mp (Multiset.mem_coe.mp hmem)
      obtain ⟨r, hr', hrw⟩ := List.mem_filterMap.mp hw
      obtain ⟨n, hno, rfl⟩ := Option.map_eq_some_iff.mp hrw
      obtain rfl := hinj r hr' _ hr hwk
      cases hno
  have hcall : ∀ i : ℕ, i < cnt → (insertionOp activeKeys i, Outcome.index i) ∈ c.mem.returned := fun i hlt => by
    have hm := hreturned.mem_iff.mpr (List.mem_map_of_mem (f := insertionOp activeKeys) (List.mem_range.mpr hlt))
    obtain ⟨⟨a, o⟩, hr, rfl⟩ := List.mem_map.mp hm
    have ho : o = .index i := hindex _ hr
    exact ho ▸ hr
  have hwon : c.mem.won.map Prod.fst = c.mem.returned.map fun r => r.1.key := by
    have heq : c.mem.won = c.mem.returned.map fun r => (r.1.key, r.1.insertionIndex) := by
      rw [Memory.won, ← List.filterMap_eq_map]
      refine List.filterMap_congr fun r hr => ?_
      rw [hindex r hr]
      rfl
    rw [heq, List.map_map]
    rfl
  refine ⟨hi.table, fun s => ?_, ?_, hi.nodup, fun i hlt => ?_, fun _ i hlt => ?_⟩
  · cases hl : c.mem.locked s with
    | false => rfl
    | true => exact absurd (hmutex s) (by simp [hl])
  · rw [← hplaced, hwon, hi.active, hi.cnt]
    exact Multiset.coe_eq_coe.mpr hkeys
  · rw [hi.cnt] at hlt
    have hheld := (hi.recorded _ (hcall i hlt)).2.1.1
    refine hheld.of_key ?_
    rw [hi.active]
    rfl
  · rw [hi.cnt] at hlt
    exact (hi.recorded _ (hcall i hlt)).2.1.2

theorem Sound.cnt_le (h : Sound t m) : m.cnt ≤ t.tableSize := by
  have hcard := card_stored_le t m.keys
  rwa [h.stored, Multiset.card_map, Multiset.card_range] at hcard

theorem Sound.active_nodup (h : Sound t m) : ((List.range m.cnt).map fun i : ℕ => m.activeKeys i).Nodup := by
  have hn := h.nodup
  rw [h.stored] at hn
  exact Multiset.coe_nodup.mp hn

/-- `resize` with a rebuild that succeeds keeps the numbers and the keys under them. -/
theorem Sound.resizes {t' : Bht K} {newCapacity : ℕ} (h : Sound t m) (hr : Resizes t m newCapacity t' m')
    (hs : m'.success = true) : Sound t' m' ∧ m'.cnt = m.cnt ∧ t'.keySentinel = t.keySentinel ∧
      ∀ i : ℕ, i < m.cnt → m'.activeKeys i = m.activeKeys i := by
  cases hr with
  | kept _ => exact ⟨h, rfl, rfl, fun _ _ => rfl⟩
  | rebuilt hlt hfits indices activeKeys hkept schedule hperm c hr hq =>
    have hactive : ∀ i : ℕ, i < m.cnt → activeKeys i = m.activeKeys i := fun i hi =>
      hkept i (hi.trans_le h.cnt_le)
    have hkeys : ((List.range m.cnt).map fun i : ℕ => activeKeys i) = (List.range m.cnt).map fun i : ℕ => m.activeKeys i :=
      List.map_congr_left fun i hi => hactive i (List.mem_range.mp hi)
    have hmem : ∀ i ∈ schedule.flatten, activeKeys (i : ℕ) ≠ (t.resized newCapacity hfits).keySentinel := fun i hi => by
      have hi := List.mem_range.mp (hperm.mem_iff.mp hi)
      rw [hactive i hi]
      exact h.key_ne hi
    have hi := rebuild_reaches hmem hr
    have hbuckets : (t.resized newCapacity hfits).numBuckets ≠ 0 := fun h0 => by
      have hsize : (t.resized newCapacity hfits).tableSize = t.evaluateTableSize newCapacity :=
        Nat.div_mul_cancel (t.dvd_evaluateTableSize newCapacity)
      rw [tableSize, h0, Nat.zero_mul] at hsize
      omega
    refine ⟨hi.sound hq hperm (hkeys ▸ h.active_nodup) hbuckets hs, hi.cnt, rfl, fun i hlt => ?_⟩
    rw [hi.active, hactive i hlt]

/-- The same keys under the same numbers are found alike. -/
theorem Sound.query_eq {t' : Bht K} (h : Sound t m) (h' : Sound t' m') (hk : t'.keySentinel = t.keySentinel)
    (hcnt : m'.cnt = m.cnt) (ha : ∀ i : ℕ, i < m.cnt → m'.activeKeys i = m.activeKeys i) {k : K}
    (hne : k ≠ t.keySentinel) : t'.query m' k = t.query m k := by
  rcases h.query_cases hne with ⟨i, hi, rfl, hq⟩ | ⟨hno, hq⟩
  · rw [hq, ← ha i hi]
    exact h'.query (hcnt ▸ hi)
  · rcases h'.query_cases (hk ▸ hne) with ⟨i, hi, hik, -⟩ | ⟨-, hq'⟩
    · rw [hcnt] at hi
      exact absurd ((ha i hi).symm.trans hik) (hno i hi)
    · rw [hq, hq']

end Rebuild

end Zpc.Bht
