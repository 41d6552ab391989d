import Zpc.SpatialHash

/-!
# The segments that `build` makes

Every cell of a primitive is activated, and each turn of the third pass takes the last free place in the segment of its
cell, so that in the end the segment holds the primitives of the cell.
-/
namespace Zpc.SpatialHash
open Interleaving LBvh SparseMatrix

variable {n : ℕ}

section Activation
variable {cells : ℕ → List (Cell n)} {t t' : Bht (Option (Cell n))} {m m' : Bht.Memory (Option (Cell n))}
  {cnt trials expected : ℕ} {c : Config (Bht.Memory (Option (Cell n))) (Bht.Frame (Option (Cell n)))}
  {schedule : List (List ℕ)}

theorem mem_programs {k : Option (Cell n)} : k ∈ (schedule.map (·.flatMap fun i => (cells i).map some)).flatten ↔
    ∃ i ∈ schedule.flatten, ∃ loc ∈ cells i, some loc = k := by
  simp only [List.mem_flatten, List.mem_map, List.mem_flatMap, exists_exists_and_eq_and]
  constructor
  · rintro ⟨is, his, i, hi, hloc⟩
    exact ⟨i, ⟨is, his, hi⟩, hloc⟩
  · rintro ⟨i, ⟨is, his, hi⟩, hloc⟩
    exact ⟨is, his, i, hi, hloc⟩

theorem key_ne (hkey : t.keySentinel = none) {k : Option (Cell n)}
    (h : k ∈ (schedule.map (·.flatMap fun i => (cells i).map some)).flatten) : k ≠ t.keySentinel := by
  obtain ⟨_, _, loc, _, rfl⟩ := mem_programs.mp h
  rw [hkey]
  exact Option.some_ne_none loc

theorem query_of_key (h : t.Sound m) {k : Option (Cell n)} (hk : k ≠ t.keySentinel) (hs : ∃ s, m.keys s = k) :
    ∃ i : ℕ, i < m.cnt ∧ t.query m k = i := by
  obtain ⟨s, rfl⟩ := hs
  have hmem := h.table.mem_stored hk
  rw [h.stored] at hmem
  obtain ⟨i, hi, hik⟩ := Multiset.mem_map.mp hmem
  have hi := Multiset.mem_range.mp hi
  exact ⟨i, hi, hik ▸ h.query hi⟩

/-- A trial that succeeds inserts every key. -/
theorem inserted_of_success (h : t.Sound m) (hkey : t.keySentinel = none) (hbuckets : t.numBuckets ≠ 0)
    (hr : Reaches t.code free (t.insertStart m (schedule.map (·.flatMap fun i => (cells i).map some))) c)
    (hq : Quiescent t.code c) (hsuccess : c.mem.success = true) {i : ℕ} (hi : i ∈ schedule.flatten) {loc : Cell n}
    (hloc : loc ∈ cells i) : ∃ cno : ℕ, cno < c.mem.cnt ∧ t.query c.mem (some loc) = cno := by
  have hkeys : ∀ k ∈ (schedule.map (·.flatMap fun i => (cells i).map some)).flatten, k ≠ t.keySentinel :=
    fun k => key_ne hkey
  have hinv := (h.invariant hkeys).reaches hr
  have hmem : some loc ∈ (schedule.map (·.flatMap fun i => (cells i).map some)).flatten :=
    mem_programs.mpr ⟨i, hi, loc, hloc, rfl⟩
  have hne := hkeys _ hmem
  have hcalled : some loc ∈ c.mem.returned.map fun r => r.1.key := by
    rw [(hinv.settled hq).returned.mem_iff, List.flatten_cons]
    exact List.mem_append_right _ hmem
  obtain ⟨⟨a, o⟩, ha, hak⟩ := List.mem_map.mp hcalled
  refine query_of_key (h.inserts hkeys hr hq) hne ?_
  have hcons := hinv.consistent
  cases o with
  | index num =>
    refine ((hinv.settled hq).won _ hne).mpr ?_
    refine List.mem_map.mpr ⟨(some loc, num), List.mem_filterMap.mpr ⟨(a, .index num), ha, ?_⟩, rfl⟩
    simp [Bht.Outcome.number, ← hak]
  | present =>
    obtain ⟨s, hs⟩ := hcons.present a ha
    exact ⟨s, hs.trans hak⟩
  | near num =>
    have hfalse := (hcons.near a num ha).2
    rw [hsuccess] at hfalse
    cases hfalse
  | full =>
    have hfalse := (hcons.full a ha).2
    rw [hsuccess] at hfalse
    cases hfalse
  | noBuckets => exact absurd (hcons.noBuckets a ha) hbuckets

theorem numBuckets_resized {t : Bht (Option (Cell n))} {newCapacity : ℕ} (hpos : 0 < t.evaluateTableSize newCapacity)
    (hfits : 2 * t.evaluateTableSize newCapacity ≤ 2 ^ t.bits) : (t.resized newCapacity hfits).numBuckets ≠ 0 := by
  intro h0
  have hsize : (t.resized newCapacity hfits).tableSize = t.evaluateTableSize newCapacity :=
    Nat.div_mul_cancel (t.dvd_evaluateTableSize newCapacity)
  rw [Bht.tableSize, h0, Nat.zero_mul] at hsize
  omega

theorem numBuckets_of_resizes {newCapacity : ℕ} (h : t.Resizes m newCapacity t' m') (hbuckets : t.numBuckets ≠ 0) :
    t'.numBuckets ≠ 0 := by
  cases h with
  | kept _ => exact hbuckets
  | rebuilt hlt hfits _ _ _ _ _ _ _ _ => exact numBuckets_resized (by omega) hfits

/-- After the trials every cell of a primitive is active. -/
theorem Activates.spec (h : Activates cells cnt trials expected t m t' m') (hm : t.Sound m)
    (hkey : t.keySentinel = none) (hbuckets : t.numBuckets ≠ 0) : t'.Sound m' ∧ t'.keySentinel = none ∧
    ∀ i < cnt, ∀ loc ∈ cells i, ∃ cno : ℕ, cno < m'.cnt ∧ t'.query m' (some loc) = cno := by
  induction h with
  | succeeded schedule hs c hr hq hsuccess =>
    refine ⟨hm.inserts (fun k => key_ne hkey) hr hq, hkey, fun i hi loc hloc => ?_⟩
    exact inserted_of_success hm hkey hbuckets hr hq hsuccess (hs.mem_iff.mpr (List.mem_range.mpr hi)) hloc
  | again schedule hs c hr hq _ hresize hrebuilt _ ih =>
    obtain ⟨hm', -, hkey', -⟩ := (hm.inserts (fun k => key_ne hkey) hr hq).resizes hresize hrebuilt
    exact ih hm' (hkey'.trans hkey) (numBuckets_of_resizes hresize hbuckets)

end Activation

section Passes
variable {t : Bht (Option (Cell n))} {m : Bht.Memory (Option (Cell n))}

def cellNo (t : Bht (Option (Cell n))) (m : Bht.Memory (Option (Cell n))) (item : ℕ × Cell n) : ℕ :=
  (t.query m (some item.2)).toNat

def Active (t : Bht (Option (Cell n))) (m : Bht.Memory (Option (Cell n))) (item : ℕ × Cell n) : Prop :=
  ∃ cno : ℕ, cno < m.cnt ∧ t.query m (some item.2) = cno

theorem Active.query {item : ℕ × Cell n} (h : Active t m item) :
    cellNo t m item < m.cnt ∧ t.query m (some item.2) = (cellNo t m item : ℤ) := by
  obtain ⟨cno, hlt, hq⟩ := h
  rw [cellNo, hq, Int.toNat_natCast]
  exact ⟨hlt, rfl⟩

theorem count_spec (l : List (ℕ × Cell n)) (hl : ∀ item ∈ l, Active t m item) (counts : ℕ → ℕ) :
    ∃ counts', l.foldlM (count t m) counts = some counts' ∧
      ∀ cno, counts' cno = counts cno + l.countP fun item => cellNo t m item = cno := by
  induction l generalizing counts with
  | nil => exact ⟨counts, rfl, fun _ => rfl⟩
  | cons item l ih =>
    obtain ⟨hlt, hq⟩ := (hl item List.mem_cons_self).query
    obtain ⟨counts', hc, hcounts⟩ := ih (fun x hx => hl x (List.mem_cons_of_mem _ hx))
      (Function.update counts (cellNo t m item) (counts (cellNo t m item) + 1))
    refine ⟨counts', ?_, fun cno => ?_⟩
    · have hturn : count t m counts item =
          some (Function.update counts (cellNo t m item) (counts (cellNo t m item) + 1)) := by
        have hif : 0 ≤ t.query m (some item.2) ∧ t.query m (some item.2) ≤ m.cnt := by
          rw [hq]
          omega
        exact if_pos hif
      rw [List.foldlM_cons, hturn]
      exact hc
    · rw [hcounts, List.countP_cons, Function.update_apply]
      by_cases heq : cno = cellNo t m item
      · rw [if_pos heq, heq, if_pos (decide_eq_true rfl)]
        omega
      · rw [if_neg heq, if_neg (by simpa using Ne.symm heq), Nat.add_zero]

/-- What the third pass has done, with the turns that are left. -/
structure Placing (t : Bht (Option (Cell n))) (m : Bht.Memory (Option (Cell n))) (total : ℕ → ℕ)
    (done todo : List (ℕ × Cell n)) (s : (ℕ → ℕ) × List ℕ) : Prop where
  left : ∀ cno, s.1 cno = todo.countP fun item => cellNo t m item = cno
  le : ∀ cno, s.1 cno ≤ total cno
  length : s.2.length = exclusiveScan total m.cnt
  placed : ∀ item ∈ done, ∃ j, s.1 (cellNo t m item) ≤ j ∧ j < total (cellNo t m item) ∧
    s.2[exclusiveScan total (cellNo t m item) + j]? = some item.1
  sound : ∀ cno < m.cnt, ∀ j, s.1 cno ≤ j → j < total cno → ∃ item ∈ done, cellNo t m item = cno ∧
    s.2[exclusiveScan total cno + j]? = some item.1

theorem scanned_getElem? (m : Bht.Memory (Option (Cell n))) (counts : ℕ → ℕ) {cno : ℕ} (h : cno ≤ m.cnt) :
    (scanned m counts)[cno]? = some (exclusiveScan counts cno) := by
  rw [scanned, List.getElem?_map, List.getElem?_range (by omega), Option.map_some]

theorem place_step {total : ℕ → ℕ} {done todo : List (ℕ × Cell n)} {s : (ℕ → ℕ) × List ℕ} {item : ℕ × Cell n}
    (h : Placing t m total done (item :: todo) s) (ha : Active t m item) :
    ∃ s', place t m (scanned m total) s item = some s' ∧ Placing t m total (item :: done) todo s' := by
  obtain ⟨hlt, hq⟩ := ha.query
  generalize hcno : cellNo t m item = cno at hlt hq
  have hleft : s.1 cno = todo.countP (fun item => cellNo t m item = cno) + 1 := by
    rw [h.left, List.countP_cons, if_pos (decide_eq_true hcno)]
  have hle := h.le cno
  have hend : exclusiveScan total cno + total cno ≤ exclusiveScan total m.cnt := exclusiveScan_mono total hlt
  have hroom : exclusiveScan total cno + (s.1 cno - 1) < s.2.length := by
    rw [h.length]
    omega
  refine ⟨(Function.update s.1 cno (s.1 cno - 1), s.2.set (exclusiveScan total cno + (s.1 cno - 1)) item.1), ?_, ?_⟩
  · rw [place, hq]
    simp only [Int.toNat_natCast, scanned_getElem? m total hlt.le, Option.bind_some]
    rw [if_pos (Int.natCast_nonneg cno), if_pos ⟨by omega, hroom⟩]
  have hkept : ∀ cno' j, (cno' = cno → s.1 cno ≤ j) → j < total cno' →
      (s.2.set (exclusiveScan total cno + (s.1 cno - 1)) item.1)[exclusiveScan total cno' + j]? =
        s.2[exclusiveScan total cno' + j]? := by
    intro cno' j hj hjt
    refine List.getElem?_set_ne fun heq => ?_
    obtain ⟨hc, hj'⟩ := segment_unique total (by omega) hjt heq
    have hsle := hj hc.symm
    omega
  have hset : (s.2.set (exclusiveScan total cno + (s.1 cno - 1)) item.1)[exclusiveScan total cno + (s.1 cno - 1)]? =
      some item.1 := List.getElem?_set_self hroom
  have hupdate : ∀ cno', Function.update s.1 cno (s.1 cno - 1) cno' ≤ s.1 cno' := fun cno' => by
    rw [Function.update_apply]
    split
    next heq => exact heq ▸ Nat.sub_le _ _
    next => exact le_rfl
  refine ⟨fun cno' => ?_, fun cno' => (hupdate cno').trans (h.le cno'), ?_, fun old hold => ?_,
    fun cno' hlt' j hj hjt => ?_⟩
  · show Function.update s.1 cno (s.1 cno - 1) cno' = _
    rw [Function.update_apply]
    split
    next heq =>
      rw [heq, hleft, Nat.add_sub_cancel]
    next hne =>
      rw [h.left, List.countP_cons, hcno, if_neg (by simpa using Ne.symm hne), Nat.add_zero]
  · show (s.2.set _ _).length = _
    rw [List.length_set, h.length]
  · rcases List.mem_cons.mp hold with rfl | hold
    · rw [hcno]
      refine ⟨s.1 cno - 1, ?_, by omega, hset⟩
      show Function.update s.1 cno (s.1 cno - 1) cno ≤ _
      rw [Function.update_self]
    · obtain ⟨j, hj, hjt, hget⟩ := h.placed old hold
      exact ⟨j, (hupdate _).trans hj, hjt, (hkept _ j (fun heq => heq ▸ hj) hjt).trans hget⟩
  · change Function.update s.1 cno (s.1 cno - 1) cno' ≤ j at hj
    by_cases hlast : cno' = cno ∧ j = s.1 cno - 1
    · obtain ⟨rfl, rfl⟩ := hlast
      exact ⟨item, List.mem_cons_self, hcno, hset⟩
    · have hj' : s.1 cno' ≤ j := by
        rw [Function.update_apply] at hj
        split at hj
        next heq =>
          have hne : j ≠ s.1 cno - 1 := fun hjl => hlast ⟨heq, hjl⟩
          rw [heq]
          omega
        next => exact hj
      obtain ⟨old, hold, hc, hget⟩ := h.sound cno' hlt' j hj' hjt
      exact ⟨old, List.mem_cons_of_mem _ hold, hc, (hkept cno' j (fun heq => heq ▸ hj') hjt).trans hget⟩

theorem place_spec {total : ℕ → ℕ} {done todo : List (ℕ × Cell n)} {s : (ℕ → ℕ) × List ℕ}
    (h : Placing t m total done todo s) (ha : ∀ item ∈ todo, Active t m item) :
    ∃ s', todo.foldlM (place t m (scanned m total)) s = some s' ∧ Placing t m total (todo.reverse ++ done) [] s' := by
  induction todo generalizing done s with
  | nil => exact ⟨s, rfl, h⟩
  | cons item todo ih =>
    obtain ⟨mid, hturn, hmid⟩ := place_step h (ha item List.mem_cons_self)
    obtain ⟨s', hfold, hs'⟩ := ih hmid fun x hx => ha x (List.mem_cons_of_mem _ hx)
    refine ⟨s', ?_, ?_⟩
    · rw [List.foldlM_cons, hturn]
      exact hfold
    · rwa [List.reverse_cons, List.append_assoc, List.singleton_append]

/-- What the second and the third pass leave behind. -/
theorem passes_spec {counted placed : List (ℕ × Cell n)} {counts left : ℕ → ℕ} {old grouped : List ℕ}
    (ha : ∀ item ∈ placed, Active t m item) (hperm : counted.Perm placed)
    (hcounts : counted.foldlM (count t m) (fun _ => 0) = some counts) (hold : old.length = exclusiveScan counts m.cnt)
    (hgrouped : placed.foldlM (place t m (scanned m counts)) (counts, old) = some (left, grouped)) :
    Placing t m counts placed.reverse [] (left, grouped) := by
  obtain ⟨counts', hc, hcount⟩ := count_spec counted (fun item hitem => ha item (hperm.mem_iff.mp hitem)) fun _ => 0
  cases hc.symm.trans hcounts
  have hstart : Placing t m counts [] placed (counts, old) := by
    refine ⟨fun cno => ?_, fun _ => le_rfl, hold, fun _ hmem => absurd hmem List.not_mem_nil, fun cno _ j hj hlt => ?_⟩
    · exact (hcount cno).trans ((Nat.zero_add _).trans (hperm.countP_eq _))
    · exact absurd hlt (Nat.not_lt.mpr hj)
  obtain ⟨s', hg, hend⟩ := place_spec hstart ha
  cases hg.symm.trans hgrouped
  rwa [List.append_nil] at hend

end Passes
end Zpc.SpatialHash
