import Zpc.BhtResize

/-!
# The reordering of the active keys

`reorder` writes the active keys in their new order and the new numbers of the keys into the table, in one pass over a
permutation that is read as a scatter or as a gather. Resizes and reorderings keep what a table reached by any
operations is to find.
-/
namespace Zpc.Bht
open Interleaving

variable {K : Type*} [DecidableEq K] {t t' : Bht K} {m m' : Memory K}

section Definitions
structure ReorderMemory (K : Type*) where
  tab : Memory K
  orderedKeys : ℤ → K

inductive ReorderFrame (K : Type*)
  | item (i : ℕ)
  | remap (key : K) (n : ℤ)

/-- `ReorderBht`: an item moves its key, and then the index in the table. -/
def reorderBht (t : Bht K) (scatter : Bool) (map : ℕ → ℕ) (m : ReorderMemory K) :
    ReorderFrame K → Unit → Option (ReorderMemory K × List (ReorderFrame K))
  | .item i, _ =>
    if scatter then some ({m with orderedKeys := Function.update m.orderedKeys (map i) (m.tab.activeKeys i)},
      [.remap (m.tab.activeKeys i) (map i)])
    else some ({m with orderedKeys := Function.update m.orderedKeys i (m.tab.activeKeys (map i))},
      [.remap (m.tab.activeKeys (map i)) i])
  | .remap key n, _ => match t.entry m.tab key with
    | some s => some ({m with tab := {m.tab with indices := Function.update m.tab.indices s n}}, [])
    | none => some ({m with tab := {m.tab with success := false}}, [])

def reorderStart (m : Memory K) (orderedKeys : ℤ → K) (schedule : List (List ℕ)) :
    Config (ReorderMemory K) (ReorderFrame K) := ⟨⟨m, orderedKeys⟩, schedule.map (·.map .item)⟩

/-- `reorder` on any number of threads; the ordered keys become the active ones. -/
inductive Reorders (t : Bht K) (m : Memory K) (scatter : Bool) (map : ℕ → ℕ) : Memory K → Prop
  | done (orderedKeys : ℤ → K) (schedule : List (List ℕ)) (hs : schedule.flatten.Perm (List.range m.cnt))
      (c : Config (ReorderMemory K) (ReorderFrame K))
      (hr : Reaches (reorderBht t scatter map) free (reorderStart m orderedKeys schedule) c)
      (hq : Quiescent (reorderBht t scatter map) c) :
      Reorders t m scatter map {c.mem.tab with activeKeys := c.mem.orderedKeys}

/-- A permutation of the numbers below the counter. -/
def Permutes (map : ℕ → ℕ) (cnt : ℕ) : Prop := ((List.range cnt).map map).Perm (List.range cnt)

instance (map : ℕ → ℕ) (cnt : ℕ) : Decidable (Permutes map cnt) :=
  inferInstanceAs (Decidable (((List.range cnt).map map).Perm (List.range cnt)))

/-- The tables reached through insertions, resizes whose rebuild succeeds, and reorderings; a reset table is a new
one. -/
inductive Reached : Bht K → Memory K → Prop
  | made (t : Bht K) (indices : ℕ → ℤ) (activeKeys : ℤ → K) : Reached t (t.empty indices activeKeys)
  | inserted {t : Bht K} {m : Memory K} {c : Config (Memory K) (Frame K)} (h : Reached t m) (programs : List (List K))
      (hk : ∀ k ∈ programs.flatten, k ≠ t.keySentinel) (hr : Reaches (code t) free (insertStart t m programs) c)
      (hq : Quiescent (code t) c) : Reached t c.mem
  | resized {t t' : Bht K} {m m' : Memory K} {newCapacity : ℕ} (h : Reached t m)
      (hr : Resizes t m newCapacity t' m') (hs : m'.success = true) : Reached t' m'
  | reordered {t : Bht K} {m m' : Memory K} {scatter : Bool} {map : ℕ → ℕ} (h : Reached t m)
      (hp : Permutes map m.cnt) (hr : Reorders t m scatter map m') : Reached t m'

end Definitions

section Reorder
variable {scatter : Bool} {map : ℕ → ℕ} {cnt i j : ℕ} {c c' : Config (ReorderMemory K) (ReorderFrame K)}
  {f : ReorderFrame K} {x : Unit}

/-- The number that an item reads a key under. -/
def source (scatter : Bool) (map : ℕ → ℕ) (i : ℕ) : ℕ := if scatter then i else map i

def target (scatter : Bool) (map : ℕ → ℕ) (i : ℕ) : ℕ := if scatter then map i else i

theorem Permutes.source (h : Permutes map cnt) (scatter : Bool) : Permutes (source scatter map) cnt := by
  cases scatter with
  | true =>
    show ((List.range cnt).map fun i => i).Perm _
    rw [List.map_id']
  | false => exact h

theorem Permutes.target (h : Permutes map cnt) (scatter : Bool) : Permutes (target scatter map) cnt := by
  cases scatter with
  | true => exact h
  | false =>
    show ((List.range cnt).map fun i => i).Perm _
    rw [List.map_id']

theorem Permutes.lt (h : Permutes map cnt) (hi : i < cnt) : map i < cnt :=
  List.mem_range.mp (h.mem_iff.mp (List.mem_map_of_mem (List.mem_range.mpr hi)))

theorem Permutes.exists_eq (h : Permutes map cnt) (hj : j < cnt) : ∃ i < cnt, map i = j := by
  obtain ⟨i, hi, he⟩ := List.mem_map.mp (h.mem_iff.mpr (List.mem_range.mpr hj))
  exact ⟨i, List.mem_range.mp hi, he⟩

theorem Permutes.inj (h : Permutes map cnt) (hi : i < cnt) (hj : j < cnt) (he : map i = map j) : i = j :=
  List.inj_on_of_nodup_map (h.nodup_iff.mpr List.nodup_range) (List.mem_range.mpr hi) (List.mem_range.mpr hj) he

theorem reorderBht_item (m : ReorderMemory K) (i : ℕ) (x : Unit) : reorderBht t scatter map m (.item i) x =
    some (⟨m.tab, Function.update m.orderedKeys (target scatter map i) (m.tab.activeKeys (source scatter map i))⟩,
      [.remap (m.tab.activeKeys (source scatter map i)) (target scatter map i)]) := by
  cases scatter <;> rfl

def Moved (t : Bht K) (m : Memory K) (tgt : ℕ) (key : K) (frames : List (ReorderFrame K)) (m' : ReorderMemory K) : Prop :=
  m'.orderedKeys tgt = key ∧ (.remap key tgt ∈ frames ∨
    ∀ p, Claims t m.keys p → p.call.key = key → m'.tab.indices (t.slot p) = tgt)

structure ReorderInvariant (t : Bht K) (m : Memory K) (scatter : Bool) (map : ℕ → ℕ)
    (c : Config (ReorderMemory K) (ReorderFrame K)) : Prop where
  tab : ∃ indices, c.mem.tab = {m with indices := indices}
  frames : ∀ f ∈ c.frames, (∃ i < m.cnt, f = .item i) ∨
    ∃ i < m.cnt, f = .remap (m.activeKeys (source scatter map i)) (target scatter map i)
  items : ∀ i < m.cnt, .item i ∈ c.frames ∨
    Moved t m (target scatter map i) (m.activeKeys (source scatter map i)) c.frames c.mem

theorem Sound.active_inj (h : Sound t m) (hi : i < m.cnt) (hj : j < m.cnt) (he : m.activeKeys i = m.activeKeys j) :
    i = j := List.inj_on_of_nodup_map h.active_nodup (List.mem_range.mpr hi) (List.mem_range.mpr hj) he

/-- An item moves its key to a number that no other item writes. -/
theorem item_step (hp : Permutes map m.cnt) (hi : ReorderInvariant t m scatter map c) (hj : j < m.cnt)
    (h : Step (reorderBht t scatter map) c (.item j) x c') : ReorderInvariant t m scatter map c' := by
  obtain ⟨fs, he⟩ := h.runs_code
  have hactive : c.mem.tab.activeKeys = m.activeKeys := by
    obtain ⟨_, htab⟩ := hi.tab
    rw [htab]
  have heq := he
  rw [reorderBht_item, hactive] at heq
  simp only [Option.some.injEq, Prod.mk.injEq] at heq
  obtain ⟨hmem, hfs⟩ := heq
  have hordered : c'.mem.orderedKeys = Function.update c.mem.orderedKeys (target scatter map j)
      (m.activeKeys (source scatter map j)) := by rw [← hmem]
  have htab : c'.mem.tab = c.mem.tab := by rw [← hmem]
  refine ⟨by rw [htab]; exact hi.tab, fun g hg => ?_, fun i hlt => ?_⟩
  · rcases h.new_or_old he hg with hg | hb
    · rw [← hfs, List.mem_singleton] at hg
      exact .inr ⟨j, hj, hg⟩
    · exact hi.frames g hb.mem
  · by_cases hij : i = j
    · subst hij
      refine .inr ⟨by rw [hordered, Function.update_self], .inl (h.mem_of_new he ?_)⟩
      rw [← hfs]
      exact List.mem_singleton_self _
    · rcases hi.items i hlt with hitem | ⟨hkey, hidx⟩
      · exact .inl (h.mem_of_ne hitem fun hc => hij (ReorderFrame.item.inj hc))
      · have hne : (target scatter map i : ℤ) ≠ target scatter map j := fun hc =>
          hij ((hp.target scatter).inj hlt hj (Int.ofNat_inj.mp hc))
        refine .inr ⟨by rw [hordered, Function.update_of_ne hne, hkey], ?_⟩
        rw [htab]
        exact hidx.imp (fun hm => h.mem_of_ne hm nofun) fun hp => hp

/-- The index of its key is in a place that no other item writes. -/
theorem remap_step (hs : Sound t m) (hp : Permutes map m.cnt) (hi : ReorderInvariant t m scatter map c) (hj : j < m.cnt)
    (h : Step (reorderBht t scatter map) c (.remap (m.activeKeys (source scatter map j)) (target scatter map j)) x c') :
    ReorderInvariant t m scatter map c' := by
  obtain ⟨fs, he⟩ := h.runs_code
  have hsource := (hp.source scatter).lt hj
  obtain ⟨q, hq, hclaim, -, -⟩ := hs.held _ hsource
  have hqk : q.call.key = m.activeKeys (source scatter map j) := by rw [hq]
  have hkeys : c.mem.tab.keys = m.keys := by
    obtain ⟨_, htab⟩ := hi.tab
    rw [htab]
  have hentry : t.entry c.mem.tab (m.activeKeys (source scatter map j)) = some (t.slot q) := by
    rw [← hqk]
    refine entry_claimed ?_ ?_ (hqk ▸ hs.key_ne hsource)
    · rw [hkeys]
      exact hs.table
    · rw [hkeys]
      exact hclaim
  have heq := he
  simp only [reorderBht, hentry, Option.some.injEq, Prod.mk.injEq] at heq
  obtain ⟨hmem, hfs⟩ := heq
  have hordered : c'.mem.orderedKeys = c.mem.orderedKeys := by rw [← hmem]
  have hindices : c'.mem.tab.indices = Function.update c.mem.tab.indices (t.slot q) (target scatter map j) := by
    rw [← hmem]
  refine ⟨?_, fun g hg => ?_, fun i hlt => ?_⟩
  · obtain ⟨indices, htab⟩ := hi.tab
    refine ⟨Function.update indices (t.slot q) (target scatter map j), ?_⟩
    rw [← hmem, htab]
  · rcases h.new_or_old he hg with hg | hb
    · rw [← hfs] at hg
      cases hg
    · exact hi.frames g hb.mem
  · rcases hi.items i hlt with hitem | ⟨hkey, hidx⟩
    · exact .inl (h.mem_of_ne hitem nofun)
    refine .inr ⟨by rw [hordered, hkey], ?_⟩
    by_cases hij : i = j
    · subst hij
      refine .inr fun p hc hpk => ?_
      have hslot : t.slot p = t.slot q := hs.table.unique _ _ (hc.held.trans hpk ▸ hs.key_ne hsource)
        ((hc.held.trans hpk).trans (hclaim.held.trans hqk).symm)
      rw [hindices, hslot, Function.update_self]
    · have hne : m.activeKeys (source scatter map i) ≠ m.activeKeys (source scatter map j) := fun hc =>
        hij ((hp.source scatter).inj hlt hj (hs.active_inj ((hp.source scatter).lt hlt) hsource hc))
      refine hidx.imp (fun hm => h.mem_of_ne hm fun hc => hne (ReorderFrame.remap.inj hc).1) fun hall p hc hpk => ?_
      have hslot : t.slot p ≠ t.slot q := fun hc' =>
        hne (hpk.symm.trans (hc.held.symm.trans (hc' ▸ hclaim.held.trans hqk)))
      rw [hindices, Function.update_of_ne hslot]
      exact hall p hc hpk

theorem reorder_step (hs : Sound t m) (hp : Permutes map m.cnt) (hi : ReorderInvariant t m scatter map c)
    (h : Step (reorderBht t scatter map) c f x c') : ReorderInvariant t m scatter map c' := by
  rcases hi.frames f h.mem_frame with ⟨j, hj, rfl⟩ | ⟨j, hj, rfl⟩
  · exact item_step hp hi hj h
  · exact remap_step hs hp hi hj h

theorem reorder_reaches {orderedKeys : ℤ → K} {schedule : List (List ℕ)} (hs : Sound t m) (hp : Permutes map m.cnt)
    (hperm : schedule.flatten.Perm (List.range m.cnt))
    (h : Reaches (reorderBht t scatter map) free (reorderStart m orderedKeys schedule) c) :
    ReorderInvariant t m scatter map c := by
  have hframes : (reorderStart m orderedKeys schedule).frames = schedule.flatten.map .item := List.map_flatten.symm
  induction h with
  | refl =>
    refine ⟨⟨_, rfl⟩, fun f hf => ?_, fun i hi => .inl ?_⟩
    · rw [hframes] at hf
      obtain ⟨i, hi, rfl⟩ := List.mem_map.mp hf
      exact .inl ⟨i, List.mem_range.mp (hperm.mem_iff.mp hi), rfl⟩
    · rw [hframes]
      exact List.mem_map_of_mem (hperm.mem_iff.mpr (List.mem_range.mpr hi))
  | step _ _ hst ih => exact reorder_step hs hp ih hst

theorem reorder_returned (hq : Quiescent (reorderBht t scatter map) c) : c.frames = [] := by
  refine hq.returned_of_acts fun f k _ hblocked => ?_
  have hblocked := hblocked ()
  cases f with
  | item i =>
    rw [reorderBht_item] at hblocked
    cases hblocked
  | remap key n =>
    simp only [reorderBht] at hblocked
    split at hblocked <;> cases hblocked

/-- After `reorder` every key is under its new number, in both readings of the permutation. -/
theorem Sound.reorders (hs : Sound t m) (hp : Permutes map m.cnt) (hr : Reorders t m scatter map m') : Sound t m' ∧
    m'.cnt = m.cnt ∧ ∀ i < m.cnt, m'.activeKeys (target scatter map i) = m.activeKeys (source scatter map i) := by
  obtain ⟨orderedKeys, schedule, hperm, c, hr, hq⟩ := hr
  have hi := reorder_reaches hs hp hperm hr
  have hf := reorder_returned hq
  have hmoved : ∀ i < m.cnt, c.mem.orderedKeys (target scatter map i) = m.activeKeys (source scatter map i) ∧
      ∀ p, Claims t m.keys p → p.call.key = m.activeKeys (source scatter map i) →
        c.mem.tab.indices (t.slot p) = target scatter map i := fun i hlt => by
    rcases hi.items i hlt with hm | ⟨hkey, hm | hidx⟩
    · rw [hf] at hm
      cases hm
    · rw [hf] at hm
      cases hm
    · exact ⟨hkey, hidx⟩
  have hkeys : c.mem.tab.keys = m.keys := by
    obtain ⟨_, htab⟩ := hi.tab
    rw [htab]
  have hcnt : c.mem.tab.cnt = m.cnt := by
    obtain ⟨_, htab⟩ := hi.tab
    rw [htab]
  have hlocked : c.mem.tab.locked = m.locked := by
    obtain ⟨_, htab⟩ := hi.tab
    rw [htab]
  have hsuccess : c.mem.tab.success = m.success := by
    obtain ⟨_, htab⟩ := hi.tab
    rw [htab]
  refine ⟨⟨?_, fun s => ?_, ?_, ?_, fun j hj => ?_, fun hok j hj => ?_⟩, hcnt, fun i hlt => (hmoved i hlt).1⟩
  · show Table t c.mem.tab.keys
    rw [hkeys]
    exact hs.table
  · exact (congrFun hlocked s).trans (hs.unlocked s)
  · show Bht.stored t c.mem.tab.keys = (Multiset.range c.mem.tab.cnt).map fun i : ℕ => c.mem.orderedKeys i
    rw [hkeys, hcnt, hs.stored]
    refine Multiset.coe_eq_coe.mpr ?_
    calc ((List.range m.cnt).map fun i : ℕ => m.activeKeys i).Perm
          (((List.range m.cnt).map (source scatter map)).map fun i : ℕ => m.activeKeys i) :=
          ((hp.source scatter).map _).symm
      _ = ((List.range m.cnt).map (target scatter map)).map fun i : ℕ => c.mem.orderedKeys i := by
          rw [List.map_map, List.map_map]
          exact List.map_congr_left fun i hi => ((hmoved i (List.mem_range.mp hi)).1).symm
      List.Perm _ ((List.range m.cnt).map fun i : ℕ => c.mem.orderedKeys i) := (hp.target scatter).map _
  · show (Bht.stored t c.mem.tab.keys).Nodup
    rw [hkeys]
    exact hs.nodup
  · obtain ⟨i, hlt, rfl⟩ := (hp.target scatter).exists_eq (hcnt ▸ hj)
    obtain ⟨p, hpc, hclaim, -, -⟩ := hs.held _ ((hp.source scatter).lt hlt)
    obtain ⟨hkey, hidx⟩ := hmoved i hlt
    have hpk : p.call.key = m.activeKeys (source scatter map i) := by rw [hpc]
    have hheld : Held t {c.mem.tab with activeKeys := c.mem.orderedKeys} p.call (target scatter map i) := by
      refine ⟨p, rfl, ?_, hidx p hclaim hpk, hkey.trans hpk.symm⟩
      show Claims t c.mem.tab.keys p
      rw [hkeys]
      exact hclaim
    exact hheld.of_key (hkey.trans hpk.symm)
  · exact hs.near (hsuccess ▸ hok) j (hcnt ▸ hj)

end Reorder

section Results
theorem Reached.sound (h : Reached t m) : Sound t m := by
  induction h with
  | made t indices activeKeys => exact sound_empty t indices activeKeys
  | inserted _ programs hk hr hq ih => exact ih.inserts hk hr hq
  | resized _ hr hs ih => exact (ih.resizes hr hs).1
  | reordered _ hp hr ih => exact (ih.reorders hp hr).1

/-- What a table finds goes through a resize whose rebuild succeeds, and through a reordering in which the permutation
gives each number its new one, or each new number its former one. -/
theorem reached_resize_reorder (h : Reached t m) : (∀ i < m.cnt, t.query m (m.activeKeys i) = i) ∧
    (∀ newCapacity t' m', Resizes t m newCapacity t' m' → m'.success = true →
      (∀ k ≠ t.keySentinel, t'.query m' k = t.query m k) ∧ ∀ i < m.cnt, m'.activeKeys i = m.activeKeys i) ∧
    ∀ map m', Permutes map m.cnt →
      (Reorders t m true map m' → ∀ i < m.cnt,
        t.query m' (m.activeKeys i) = map i ∧ m'.activeKeys (map i) = m.activeKeys i) ∧
      (Reorders t m false map m' → ∀ i < m.cnt,
        t.query m' (m.activeKeys (map i)) = i ∧ m'.activeKeys i = m.activeKeys (map i)) := by
  have hs := h.sound
  refine ⟨fun i hi => hs.query hi, fun newCapacity t' m' hr hok => ?_, fun map m' hp => ⟨fun hr i hi => ?_, fun hr i hi => ?_⟩⟩
  · obtain ⟨hs', hcnt, hkey, hactive⟩ := hs.resizes hr hok
    exact ⟨fun k hk => hs.query_eq hs' hkey hcnt hactive hk, hactive⟩
  · obtain ⟨hs', hcnt, hmoved⟩ := hs.reorders hp hr
    have hkey : m'.activeKeys (map i) = m.activeKeys i := hmoved i hi
    refine ⟨?_, hkey⟩
    rw [← hkey]
    exact hs'.query (hcnt ▸ hp.lt hi)
  · obtain ⟨hs', hcnt, hmoved⟩ := hs.reorders hp hr
    have hkey : m'.activeKeys i = m.activeKeys (map i) := hmoved i hi
    refine ⟨?_, hkey⟩
    rw [← hkey]
    exact hs'.query (hcnt ▸ hi)

/-- Pairs in buckets of three, under the hash functions that are drawn from `mt19937` with the seed 2. -/
def pairs (numBuckets : ℕ) (hf : 2 * (numBuckets * 3) ≤ 2 ^ 32) : Bht (ℕ × ℕ) where
  bucketSize := 3
  numBuckets := numBuckets
  bits := 32
  wide := false
  keySentinel := (0x3f3f3f3f, 0x3f3f3f3f)
  hf0 := SparseMatrix.universalHash 1872583848 794921487
  hf1 := SparseMatrix.universalHash 111352301 4000937544
  hf2 := SparseMatrix.universalHash 2360782358 4070471979
  threshold_pos := by decide
  fits := hf

def inserted : Option (Config (Memory (ℕ × ℕ)) (Frame (ℕ × ℕ))) :=
  runs (code (pairs 2 (by decide))) free (insertStart (pairs 2 (by decide))
    ((pairs 2 (by decide)).empty (fun _ => 0) fun _ => (0, 0)) [[(0, 21), (1, 24), (2, 6)]]) (List.replicate 29 (0, ()))

/-- Each of three keys gets the number of the next one. -/
theorem reached_rotated : ∃ m m', Reached (pairs 2 (by decide)) m ∧
    Reorders (pairs 2 (by decide)) m true (fun i => (i + 1) % 3) m' ∧ m.cnt = 3 ∧ m.activeKeys 2 = (2, 6) ∧
    (pairs 2 (by decide)).query m' (2, 6) = 0 := by
  have hh : inserted.map (fun c => (c.threads.map List.length, c.mem.cnt, c.mem.activeKeys 2)) =
      some ([0], 3, (2, 6)) := by decide +kernel
  have hd : (inserted.bind fun c => (runs (reorderBht (pairs 2 (by decide)) true fun i => (i + 1) % 3) free
      (reorderStart c.mem c.mem.activeKeys [[0, 1, 2]]) (List.replicate 6 (0, ()))).map
        fun d => d.threads.map List.length) = some [0] := by decide +kernel
  obtain ⟨c, hc, hh⟩ := Option.map_eq_some_iff.mp hh
  rw [hc] at hd
  obtain ⟨d, hd, hl⟩ := Option.map_eq_some_iff.mp hd
  simp only [Prod.mk.injEq] at hh
  obtain ⟨hcl, hcnt, hkey⟩ := hh
  have reached : Reached (pairs 2 (by decide)) c.mem := .inserted (.made _ _ _) [[(0, 21), (1, 24), (2, 6)]]
    (by decide) (reaches_of_runs hc) (quiescent_of_lengths (n := 1) hcl)
  have reordered := Reorders.done c.mem.activeKeys [[0, 1, 2]] (by rw [hcnt]; decide) d (reaches_of_runs hd)
    (quiescent_of_lengths (n := 1) hl)
  have hmoved := (((reached_resize_reorder reached).2.2 _ _ (by rw [hcnt]; decide)).1 reordered 2 (by omega)).1
  exact ⟨c.mem, _, reached, reordered, hcnt, hkey, (congrArg _ hkey).symm.trans hmoved⟩

/-- All three keys begin in the first of the buckets of the larger table, which has no slot for the last one. The
failed rebuild leaves it under its number, where a reordering finds it no more. -/
theorem reorder_unfound : ¬ ∀ c, Reaches (code (pairs 2 (by decide))) free (insertStart (pairs 2 (by decide))
      ((pairs 2 (by decide)).empty (fun _ => 0) fun _ => (0, 0)) [[(0, 21), (1, 24), (2, 6)]]) c →
    Quiescent (code (pairs 2 (by decide))) c → ∀ newCapacity t' m, Resizes (pairs 2 (by decide)) c.mem newCapacity t' m →
    ∀ scatter map m', Permutes map m.cnt → Reorders t' m scatter map m' →
    ∀ i < m.cnt, t'.query m' (m'.activeKeys i) = i := by
  have hh : inserted.map (fun c => (c.threads.map List.length, c.mem.cnt)) = some ([0], 3) := by decide +kernel
  have hd : (inserted.bind fun c => (runs (code ((pairs 2 (by decide)).resized 4 (by decide))) free
      (rebuildStart ((pairs 2 (by decide)).resized 4 (by decide)) c.mem.cnt (fun _ => 0) c.mem.activeKeys [[0, 1, 2]])
      (List.replicate 38 (0, ()))).map fun d => (d.threads.map List.length, d.mem.cnt)) = some ([0], 3) := by
    decide +kernel
  have hr : (inserted.bind fun c => (runs (code ((pairs 2 (by decide)).resized 4 (by decide))) free
      (rebuildStart ((pairs 2 (by decide)).resized 4 (by decide)) c.mem.cnt (fun _ => 0) c.mem.activeKeys [[0, 1, 2]])
      (List.replicate 38 (0, ()))).bind fun d =>
        (runs (reorderBht ((pairs 2 (by decide)).resized 4 (by decide)) true id) free
          (reorderStart d.mem d.mem.activeKeys [[0, 1, 2]]) (List.replicate 6 (0, ()))).map fun e =>
            (e.threads.map List.length, ((pairs 2 (by decide)).resized 4 (by decide)).query e.mem.tab
              (e.mem.orderedKeys 2))) = some ([0], -1) := by decide +kernel
  obtain ⟨c, hc, hh⟩ := Option.map_eq_some_iff.mp hh
  rw [hc] at hd hr
  obtain ⟨d, hd, hdl⟩ := Option.map_eq_some_iff.mp hd
  simp only [Option.bind_some, hd] at hr
  obtain ⟨e, he, hel⟩ := Option.map_eq_some_iff.mp hr
  simp only [Prod.mk.injEq] at hh hdl hel
  have resized := Resizes.rebuilt (m := c.mem) (by decide) (by decide) (fun _ => 0) c.mem.activeKeys (fun _ _ => rfl)
    [[0, 1, 2]] (by rw [hh.2]; decide) d (reaches_of_runs hd) (quiescent_of_lengths (n := 1) hdl.1)
  have reordered := Reorders.done d.mem.activeKeys [[0, 1, 2]] (by rw [hdl.2]; decide) e (reaches_of_runs he)
    (quiescent_of_lengths (n := 1) hel.1)
  intro h
  have hq := h c (reaches_of_runs hc) (quiescent_of_lengths (n := 1) hh.1) _ _ _ resized _ _ _
    (by rw [hdl.2]; decide) reordered 2 (by rw [hdl.2]; decide)
  exact absurd (hel.2.symm.trans hq) (by decide)

end Results

end Zpc.Bht
