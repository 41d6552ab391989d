import Zpc.HashTable

/-!
# Tables that insertions build

Every key that was inserted has one slot with a number under which the list of active keys has it, and its search meets
no free slot before. Insertions keep this up, so that searches which stay in the table give the numbers.
-/
namespace Zpc.HashTable
open StridedProbe

variable {K : Type*} [DecidableEq K] {t : HashTable K} {m : Memory K} {key : K} {keys : List K}

/-- What a table of these keys looks like. -/
structure Indexed (t : HashTable K) (keys : List K) (m : Memory K) : Prop where
  stored : ∀ k ∈ keys, ∃ s < t.tableSize, m.keys s = k
  known : ∀ s < t.tableSize, m.keys s ≠ t.keySentinel → m.keys s ∈ keys
  unique : ∀ s < t.tableSize, ∀ s' < t.tableSize, m.keys s ≠ t.keySentinel → m.keys s = m.keys s' → s = s'
  reached : ∀ k ∈ keys, ∀ j, m.keys (t.slot k j) = t.keySentinel → ∃ i < j, m.keys (t.slot k i) = k
  free : ∀ s < t.tableSize, m.indices s = sentinel ↔ m.keys s = t.keySentinel
  numbered : ∀ s < t.tableSize, m.keys s ≠ t.keySentinel →
    ∃ i < m.cnt, m.indices s = i ∧ m.activeKeys i = m.keys s
  active : ∀ i < m.cnt, ∃ s < t.tableSize, m.keys s ≠ t.keySentinel ∧ m.indices s = i
  counted : m.cnt = keys.toFinset.card

theorem indexed_reset (t : HashTable K) (activeKeys : ℕ → K) : Indexed t [] (t.reset activeKeys) where
  stored := fun _ hk => absurd hk List.not_mem_nil
  known := fun _ _ h => absurd rfl h
  unique := fun _ _ _ _ h => absurd rfl h
  reached := fun _ hk => absurd hk List.not_mem_nil
  free := fun _ _ => ⟨fun _ => rfl, fun _ => rfl⟩
  numbered := fun _ _ h => absurd rfl h
  active := fun _ h => absurd h (Nat.not_lt_zero _)
  counted := rfl

/-- A table with fewer keys than slots has a free slot. -/
theorem exists_free (hknown : ∀ s < t.tableSize, m.keys s ≠ t.keySentinel → m.keys s ∈ keys)
    (hunique : ∀ s < t.tableSize, ∀ s' < t.tableSize, m.keys s ≠ t.keySentinel → m.keys s = m.keys s' → s = s')
    (hcard : keys.toFinset.card < t.tableSize) : ∃ s < t.tableSize, m.keys s = t.keySentinel := by
  by_contra hnone
  push Not at hnone
  have hmaps : ∀ s ∈ Finset.range t.tableSize, m.keys s ∈ keys.toFinset := by
    intro s hs
    have hlt := Finset.mem_range.mp hs
    exact List.mem_toFinset.mpr (hknown s hlt (hnone s hlt))
  have hinj : Set.InjOn m.keys (Finset.range t.tableSize) := by
    intro s hs s' hs' h
    have hlt := Finset.mem_range.mp hs
    exact hunique s hlt s' (Finset.mem_range.mp hs') (hnone s hlt) h
  have hle := Finset.card_le_card_of_injOn m.keys hmaps hinj
  rw [Finset.card_range] at hle
  omega

section Step
variable (hi : Indexed t keys m)
include hi

theorem Indexed.exists_stopsFirst (key : K) (hcard : key ∈ keys ∨ keys.toFinset.card < t.tableSize) :
    ∃ j < t.tableSize, t.StopsFirst m key j := by
  rcases hcard with hmem | hcard
  · obtain ⟨s, hs, hk⟩ := hi.stored key hmem
    exact HashTable.exists_stopsFirst hs (.inl hk)
  · obtain ⟨s, hs, hk⟩ := exists_free hi.known hi.unique hcard
    exact HashTable.exists_stopsFirst hs (.inr hk)

theorem Indexed.held_of_mem (hmem : key ∈ keys) {j : ℕ} (hstop : t.StopsFirst m key j) :
    m.keys (t.slot key j) = key := by
  apply hstop.stops.resolve_right
  intro hfree
  obtain ⟨i, hlt, hk⟩ := hi.reached key hmem j hfree
  exact hstop.before i hlt (.inl hk)

omit hi in
theorem put_keys {s : ℕ} (h : m.keys s = t.keySentinel) : (t.put m s key).keys = Function.update m.keys s key := by
  unfold put atomicKeyCAS
  rw [if_pos h]
  rfl

omit hi in
theorem put_indices (t : HashTable K) (m : Memory K) (s : ℕ) (key : K) :
    (t.put m s key).indices = Function.update m.indices s m.cnt := by
  unfold put atomicKeyCAS
  split_ifs <;> rfl

omit hi in
theorem put_activeKeys (t : HashTable K) (m : Memory K) (s : ℕ) (key : K) :
    (t.put m s key).activeKeys = Function.update m.activeKeys m.cnt key := by
  unfold put atomicKeyCAS
  split_ifs <;> rfl

omit hi in
theorem put_cnt (t : HashTable K) (m : Memory K) (s : ℕ) (key : K) : (t.put m s key).cnt = m.cnt + 1 := by
  unfold put atomicKeyCAS
  split_ifs <;> rfl

/-- A key that is not in the table goes into the free slot that its search ends at. -/
theorem Indexed.put (hT : 0 < t.tableSize) (hkeys : ∀ k ∈ keys, k ≠ t.keySentinel) (hne : key ≠ t.keySentinel)
    (hmem : key ∉ keys) {j : ℕ} (hstop : t.StopsFirst m key j) (hfree : m.keys (t.slot key j) = t.keySentinel) :
    Indexed t (keys ++ [key]) (t.put m (t.slot key j) key) := by
  have hs := slot_lt hT key j
  generalize hslot : t.slot key j = s at hfree hs ⊢
  -- the slots in use are others
  have hother : ∀ {s'}, m.keys s' ≠ t.keySentinel → s' ≠ s := fun h he => h (he ▸ hfree)
  have hold : ∀ {s'}, s' ≠ s → (t.put m s key).keys s' = m.keys s' := fun h => by
    rw [put_keys hfree, Function.update_of_ne h]
  have hnew : (t.put m s key).keys s = key := by rw [put_keys hfree, Function.update_self]
  have hused : ∀ {s'}, s' ≠ s → (t.put m s key).keys s' ≠ t.keySentinel → m.keys s' ≠ t.keySentinel :=
    fun h hk => hold h ▸ hk
  constructor
  case stored =>
    intro k hk
    rcases List.mem_append.mp hk with hk | hk
    · obtain ⟨s', hs', rfl⟩ := hi.stored k hk
      exact ⟨s', hs', hold (hother (hkeys _ hk))⟩
    · exact ⟨s, hs, hnew.trans (List.mem_singleton.mp hk).symm⟩
  case known =>
    intro s' hs' hk
    rcases eq_or_ne s' s with rfl | h
    · rw [hnew]
      exact List.mem_append_right _ (List.mem_singleton_self key)
    · rw [hold h]
      exact List.mem_append_left _ (hi.known s' hs' (hused h hk))
  case unique =>
    intro s₁ h₁ s₂ h₂ hk heq
    rcases eq_or_ne s₁ s with he₁ | hne₁ <;> rcases eq_or_ne s₂ s with he₂ | hne₂
    · rw [he₁, he₂]
    · rw [he₁, hnew, hold hne₂] at heq
      exact absurd (heq ▸ hi.known s₂ h₂ (heq ▸ hne)) hmem
    · rw [he₂, hnew, hold hne₁] at heq
      exact absurd (heq ▸ hi.known s₁ h₁ (heq ▸ hne)) hmem
    · rw [hold hne₁, hold hne₂] at heq
      exact hi.unique s₁ h₁ s₂ h₂ (hused hne₁ hk) heq
  case reached =>
    intro k hk j' hj'
    have hslot' : t.slot k j' ≠ s := fun he => hne (hnew.symm.trans (he ▸ hj'))
    rw [hold hslot'] at hj'
    rcases List.mem_append.mp hk with hk | hk
    · obtain ⟨i, hlt, hki⟩ := hi.reached k hk j' hj'
      exact ⟨i, hlt, (hold (hother (ne_of_eq_of_ne hki (hkeys k hk)))).trans hki⟩
    · obtain rfl := List.mem_singleton.mp hk
      refine ⟨j, ?_, hslot ▸ hnew⟩
      have hle : j ≤ j' := Nat.le_of_not_lt fun hlt => hstop.before j' hlt (.inr hj')
      exact Nat.lt_of_le_of_ne hle fun he => hslot' (he ▸ hslot)
  case free =>
    intro s' hs'
    rw [put_indices]
    rcases eq_or_ne s' s with rfl | h
    · rw [hnew, Function.update_self]
      refine ⟨fun he => ?_, fun he => absurd he hne⟩
      unfold sentinel at he
      omega
    · rw [hold h, Function.update_of_ne h]
      exact hi.free s' hs'
  case numbered =>
    intro s' hs' hk
    rw [put_indices, put_activeKeys, put_cnt]
    rcases eq_or_ne s' s with rfl | h
    · exact ⟨m.cnt, Nat.lt_succ_self _, Function.update_self .., by rw [hnew, Function.update_self]⟩
    · obtain ⟨i, hlt, hind, hact⟩ := hi.numbered s' hs' (hused h hk)
      refine ⟨i, Nat.lt_succ_of_lt hlt, (Function.update_of_ne h ..).trans hind, ?_⟩
      rw [hold h, Function.update_of_ne (Nat.ne_of_lt hlt), hact]
  case active =>
    intro i hlt
    rw [put_cnt] at hlt
    rw [put_indices]
    rcases Nat.lt_succ_iff_lt_or_eq.mp hlt with hlt | rfl
    · obtain ⟨s', hs', hk, hind⟩ := hi.active i hlt
      have h := hother hk
      exact ⟨s', hs', (hold h).symm ▸ hk, (Function.update_of_ne h ..).trans hind⟩
    · exact ⟨s, hs, hnew.symm ▸ hne, Function.update_self ..⟩
  case counted =>
    rw [put_cnt, hi.counted, List.toFinset_append, List.toFinset_cons, List.toFinset_nil, insert_empty_eq,
      Finset.union_comm, ← Finset.insert_eq, Finset.card_insert_of_notMem (mt List.mem_toFinset.mp hmem)]

/-- What a table looks like depends on which keys it was given only. -/
theorem Indexed.of_mem_iff {keys' : List K} (h : ∀ k, k ∈ keys' ↔ k ∈ keys) : Indexed t keys' m where
  stored := fun k hk => hi.stored k ((h k).mp hk)
  known := fun s hs hk => (h _).mpr (hi.known s hs hk)
  unique := hi.unique
  reached := fun k hk => hi.reached k ((h k).mp hk)
  free := hi.free
  numbered := hi.numbered
  active := hi.active
  counted := by
    rw [hi.counted]
    congr 1
    ext k
    rw [List.mem_toFinset, List.mem_toFinset, h]

/-- An insertion ends, at the slot of the key or at a free one, and leaves a table with the key. -/
theorem Indexed.insert (hkeys : ∀ k ∈ keys, k ≠ t.keySentinel) (hne : key ≠ t.keySentinel)
    (hcard : (keys ++ [key]).toFinset.card < t.tableSize) :
    ∃ m' r, Indexed t (keys ++ [key]) m' ∧ ∀ fuel, t.tableSize ≤ fuel → t.insert fuel m key = some (m', r) := by
  have hT := Nat.zero_lt_of_lt hcard
  have hle : keys.toFinset.card ≤ (keys ++ [key]).toFinset.card := by
    apply Finset.card_le_card
    intro k hk
    exact List.mem_toFinset.mpr (List.mem_append_left _ (List.mem_toFinset.mp hk))
  obtain ⟨j, hj, hstop⟩ := hi.exists_stopsFirst key (.inr (hle.trans_lt hcard))
  have hins : ∀ fuel, t.tableSize ≤ fuel → t.insert fuel m key = some (
      if m.keys (t.slot key j) = t.keySentinel then
        (t.put m (t.slot key j) key, (m.cnt : ℤ), t.visits key 0 (j + 1))
      else (m, sentinel, t.visits key 0 (j + 1))) := by
    intro fuel hfuel
    have heq := insertFrom_eq (i := 0) ((Nat.zero_add j).symm ▸ hstop) (hj.trans_le hfuel)
    rw [slot_zero hT, Nat.zero_add] at heq
    exact heq
  by_cases hmem : key ∈ keys
  · have hheld := hi.held_of_mem hmem hstop
    rw [if_neg (hheld.symm ▸ hne)] at hins
    refine ⟨m, _, hi.of_mem_iff fun k => ?_, hins⟩
    rw [List.mem_append, List.mem_singleton]
    exact or_iff_left_of_imp fun h => h ▸ hmem
  · have hfree : m.keys (t.slot key j) = t.keySentinel := by
      apply hstop.stops.resolve_left
      intro hheld
      exact hmem (hheld ▸ hi.known _ (slot_lt hT key j) (hheld.symm ▸ hne))
    rw [if_pos hfree] at hins
    exact ⟨_, _, hi.put hT hkeys hne hmem hstop hfree, hins⟩

end Step

/-- The insertions of a run end while there is a free slot left. -/
theorem Indexed.insertAll (hi : Indexed t keys m) (rest : List K) (hne : ∀ k ∈ keys ++ rest, k ≠ t.keySentinel)
    (hcard : (keys ++ rest).toFinset.card < t.tableSize) :
    ∃ m', Indexed t (keys ++ rest) m' ∧ ∀ fuel, t.tableSize ≤ fuel → t.insertAll fuel m rest = some m' := by
  induction rest generalizing keys m with
  | nil => exact ⟨m, (List.append_nil keys).symm ▸ hi, fun _ _ => rfl⟩
  | cons key rest ih =>
    rw [List.append_cons] at hne hcard ⊢
    have hle : (keys ++ [key]).toFinset.card ≤ (keys ++ [key] ++ rest).toFinset.card := by
      apply Finset.card_le_card
      intro k hk
      exact List.mem_toFinset.mpr (List.mem_append_left _ (List.mem_toFinset.mp hk))
    obtain ⟨m₁, r, hi₁, hins⟩ := hi.insert
      (fun k hk => hne k (List.mem_append_left _ (List.mem_append_left _ hk))) (hne key (by simp)) (hle.trans_lt hcard)
    obtain ⟨m₂, hi₂, hrest⟩ := ih hi₁ hne hcard
    refine ⟨m₂, hi₂, fun fuel hfuel => ?_⟩
    have hstep : t.insertAll fuel m (key :: rest) =
        ((t.insert fuel m key).map Prod.fst).bind fun m => t.insertAll fuel m rest := rfl
    rw [hstep, hins fuel hfuel]
    exact hrest fuel hfuel

section Results
/-- What the searches for a key should do in a table of some keys: they end, visit the slots that an insertion of the
key would visit, all of them in the table, and `query` gives the number of the key, if it has one. -/
def Agrees (t : HashTable K) (keys : List K) (m : Memory K) (key : K) : Prop :=
  ∃ (visited : List ℕ) (v e : ℤ) (n : ℕ), (∀ s ∈ visited, s < t.tableSize) ∧
    (∀ fuel, n ≤ fuel → (t.insert fuel m key).map (fun r => r.2.2) = some visited ∧
      t.query fuel m key = some (.value v, visited) ∧ t.entry fuel m key = some (.value e, visited)) ∧
    (key ∈ keys → ∃ i < m.cnt, v = i ∧ m.activeKeys i = key) ∧ (key ∉ keys → v = sentinel)

theorem Indexed.agrees_iff_clear (hi : Indexed t keys m) (hne : ∀ k ∈ keys, k ≠ t.keySentinel)
    (hcard : keys.toFinset.card < t.tableSize) (key : K) : t.Agrees keys m key ↔ t.Clear m key := by
  have hT := Nat.zero_lt_of_lt hcard
  obtain ⟨j, hj, hstop⟩ := hi.exists_stopsFirst key (.inr hcard)
  have hzero : t.start key = t.slot key 0 := (slot_zero hT key).symm
  constructor
  · rintro ⟨visited, v, e, n, _, hrun, _⟩ k hk
    by_contra hgo
    push Not at hgo
    obtain ⟨outside, hq⟩ := searchFrom_outside hT hi.free m.indices n (i := 0) (n := k)
      (fun i _ hi => hgo i ((Nat.zero_add k) ▸ hi)) ((Nat.zero_add k).symm ▸ hk)
    have hquery := (hrun (n + k + 2) (by omega)).2.1
    unfold query at hquery
    rw [hzero, hq] at hquery
    cases hquery
  · intro hclear
    have hstop' : t.StopsFirst m key (0 + j) := (Nat.zero_add j).symm ▸ hstop
    have hins : ∀ fuel, t.tableSize ≤ fuel →
        (t.insert fuel m key).map (fun r => r.2.2) = some (t.visits key 0 (j + 1)) := by
      intro fuel hfuel
      unfold HashTable.insert
      rw [hzero, insertFrom_eq hstop' (hj.trans_le hfuel)]
      split_ifs <;> rfl
    have hsearch : ∀ (answer : ℕ → ℤ) (fuel : ℕ), t.tableSize ≤ fuel →
        t.searchFrom m key answer fuel (t.start key) = some (
          .value (if key = m.keys (t.slot key j) then answer (t.slot key j) else sentinel),
          t.visits key 0 (j + 1)) := fun answer fuel hfuel =>
      searchFrom_of_clear hT hi.free answer hstop hclear (hj.trans_le hfuel)
    refine ⟨t.visits key 0 (j + 1), _, _, t.tableSize, fun s hs => visits_lt hT hs,
      fun fuel hfuel => ⟨hins fuel hfuel, hsearch _ fuel hfuel, hsearch _ fuel hfuel⟩, ?_, ?_⟩
    · intro hmem
      have hheld := hi.held_of_mem hmem hstop
      rw [if_pos hheld.symm]
      obtain ⟨i, hlt, hind, hact⟩ := hi.numbered _ (slot_lt hT key j) (hheld.symm ▸ hne key hmem)
      exact ⟨i, hlt, hind, hact.trans hheld⟩
    · intro hmem
      split_ifs with hheld
      · -- the key that marks free slots
        have hfree : m.keys (t.slot key j) = t.keySentinel := by
          by_contra hfull
          exact hmem (hheld ▸ hi.known _ (slot_lt hT key j) hfull)
        exact (hi.free _ (slot_lt hT key j)).mpr hfree
      · rfl

/-- Whatever the hash function, insertions end and number the keys of a run that leaves a free slot. Then the searches
for a key agree with insertions exactly if they do not go on from 127 slots before the end of the table. -/
theorem searches_agree_iff (t : HashTable K) (activeKeys : ℕ → K) (keys : List K) (hne : ∀ k ∈ keys, k ≠ t.keySentinel)
    (hcard : keys.toFinset.card < t.tableSize) :
    ∃ m, (∃ n, ∀ fuel, n ≤ fuel → t.insertAll fuel (t.reset activeKeys) keys = some m) ∧ Indexed t keys m ∧
      ∀ key, t.Agrees keys m key ↔ t.Clear m key := by
  obtain ⟨m, hi, hrun⟩ := (indexed_reset t activeKeys).insertAll keys hne hcard
  exact ⟨m, ⟨t.tableSize, hrun⟩, hi, hi.agrees_iff_clear hne hcard⟩

/-- A table for eight keys of one number each, which are their own hashes. -/
def byNumber : HashTable ℤ where
  numExpectedEntries := 8
  keySentinel := 2 ^ 31 - 1
  doHash key := key

theorem searches_agree_iff_two : ∃ m, (∃ n, ∀ fuel, n ≤ fuel →
      byNumber.insertAll fuel (byNumber.reset fun _ => 0) [1, 129] = some m) ∧ Indexed byNumber [1, 129] m ∧
    ∀ key, byNumber.Agrees [1, 129] m key ↔ byNumber.Clear m key :=
  searches_agree_iff byNumber (fun _ => 0) [1, 129] (by decide) (by decide)

/-- The second key starts at the slot of the first and goes on from there, where the slot 128 does not exist. -/
theorem search_outside_two : ¬ ∃ m, byNumber.insertAll 128 (byNumber.reset fun _ => 0) [1, 129] = some m ∧
    ∀ key, byNumber.Agrees [1, 129] m key := by
  rintro ⟨m, hm, hall⟩
  obtain ⟨visited, v, e, n, _, hrun, _⟩ := hall 129
  have hslot : (byNumber.insertAll 128 (byNumber.reset fun _ => 0) [1, 129]).map (fun m => (m.keys 1, m.indices 1)) =
      some (1, 0) := by decide
  rw [hm, Option.map_some, Option.some.injEq, Prod.mk.injEq] at hslot
  have hquery := (hrun (n + 2) (Nat.le_add_right n 2)).2.1
  have hsize : byNumber.tableSize = 128 := by decide
  have hstart : byNumber.start 129 = 1 := by decide
  rw [query, hstart] at hquery
  simp [searchFrom, nextEntry, hsize, hslot, sentinel] at hquery

end Results

end Zpc.HashTable
