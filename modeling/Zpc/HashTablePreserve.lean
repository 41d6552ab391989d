import Zpc.HashTableInsert

/-!
# A hash table made for another number of entries

`resize` and `preserve` of `HashTable`, with a policy that runs its loops in order. Where a table grows its slots are
reset and active keys inserted again under their numbers; `preserve` otherwise takes the active keys out of their slots
one by one first.
-/
namespace Zpc.HashTable
variable {K : Type*} [DecidableEq K]

/-- What a loop over a table does: it touches a slot that does not exist, or ends. -/
inductive Outcome (α : Type*)
  | outside
  | done (a : α)

section Kernels
variable (t : HashTable K)

/-- `ResetHashTable` -/
def resetEntry (clearCnt : Bool) (m : Memory K) (entry : ℕ) : Memory K where
  keys := Function.update m.keys entry t.keySentinel
  indices := Function.update m.indices entry sentinel
  activeKeys := m.activeKeys
  cnt := if entry = 0 ∧ clearCnt then 0 else m.cnt

def resetEntries (clearCnt : Bool) (m : Memory K) : Memory K := (List.range t.tableSize).foldl (t.resetEntry clearCnt) m

/-- The loop of `insert` with a given number, which leaves the counter and the active keys alone. -/
def insertIdFrom (key : K) (id : ℤ) : ℕ → Memory K → ℕ → Option (Memory K × Bool)
  | 0, _, _ => none
  | fuel + 1, m, hashedentry =>
      let (m', storedKey) := t.atomicKeyCAS m hashedentry key
      if storedKey = t.keySentinel then some ({m' with indices := Function.update m'.indices hashedentry id}, true)
      else if storedKey = key then some (m', false)
      else insertIdFrom key id fuel m' ((hashedentry + 127) % t.tableSize)

def insertId (fuel : ℕ) (m : Memory K) (key : K) (id : ℤ) : Option (Memory K × Bool) :=
  t.insertIdFrom key id fuel m (t.start key)

/-- `ReinsertHashTable` -/
def reinsert (fuel : ℕ) (m : Memory K) (entry : ℕ) : Option (Memory K) :=
  (t.insertId fuel m (m.activeKeys entry) entry).map Prod.fst

def reinsertAll (fuel : ℕ) (m : Memory K) (count : ℕ) : Option (Memory K) := (List.range count).foldlM (t.reinsert fuel) m

/-- `RemoveHashTableEntries`: a key that `entry` does not find is reported, and slot -1 is cleared. -/
def remove (fuel : ℕ) (m : Memory K) (blockno : ℕ) : Option (Outcome (Memory K)) :=
  (t.entry fuel m (m.activeKeys blockno)).map fun r => match r.1 with
    | .outside => .outside
    | .value entry =>
        if entry < 0 then .outside
        else .done {m with
          keys := Function.update m.keys entry.toNat t.keySentinel
          indices := Function.update m.indices entry.toNat sentinel}

def removeAll (fuel : ℕ) : List ℕ → Memory K → Option (Outcome (Memory K))
  | [], m => some (.done m)
  | blockno :: rest, m => (t.remove fuel m blockno).bind fun
    | .outside => some .outside
    | .done m' => removeAll fuel rest m'

end Kernels

/-- `HashTable`: the table for its last number of entries, with its memory and the size of its list of active keys. -/
structure Container (K : Type*) where
  table : HashTable K
  memory : Memory K
  activeSize : ℕ

namespace Container
/-- The keys with numbers. -/
def active (c : Container K) : List K := (List.range c.memory.cnt).map c.memory.activeKeys

def construct (t : HashTable K) (activeKeys : ℕ → K) : Container K := ⟨t, t.reset activeKeys, t.tableSize⟩

/-- `_activeKeys.resize`: behind the old entries of a list that grows may be anything. -/
def resizeActiveKeys (c : Container K) (fresh : ℕ → K) (newSize : ℕ) : Memory K :=
  {c.memory with activeKeys := fun i => if i < c.activeSize ∨ newSize ≤ c.activeSize then c.memory.activeKeys i else fresh i}

def preserve (c : Container K) (fuel : ℕ) (fresh : ℕ → K) (numExpectedEntries : ℕ) : Option (Outcome (Container K)) :=
  let numEntries := c.memory.cnt
  if numExpectedEntries = numEntries then some (.done c)
  else
    let newTableSize := evaluateTableSize numExpectedEntries
    let m := {c.resizeActiveKeys fresh newTableSize with cnt := numExpectedEntries}
    let count := min numEntries numExpectedEntries
    if c.table.tableSize < newTableSize then
      let t := {c.table with numExpectedEntries := numExpectedEntries}
      (t.reinsertAll fuel (t.resetEntries false m) count).map fun m => .done ⟨t, m, newTableSize⟩
    else (c.table.removeAll fuel (List.range numEntries) m).bind fun
      | .outside => some .outside
      | .done m => (c.table.reinsertAll fuel m count).map fun m => .done ⟨c.table, m, newTableSize⟩

def resize (c : Container K) (fuel : ℕ) (fresh : ℕ → K) (numExpectedEntries : ℕ) : Option (Outcome (Container K)) :=
  let newTableSize := evaluateTableSize numExpectedEntries
  if newTableSize ≤ c.table.tableSize then some (.done c)
  else
    let t := {c.table with numExpectedEntries := numExpectedEntries}
    let m := t.resetEntries false (c.resizeActiveKeys fresh newTableSize)
    (t.reinsertAll fuel m m.cnt).map fun m => .done ⟨t, m, newTableSize⟩

end Container

end Zpc.HashTable

/-!
## Slots filled in the order of the numbers

The keys of a table are numbered in the order in which they came to their slots. On the way to its slot a key has met
keys with smaller numbers only, so that `preserve`, which takes the keys out in that order, does not find one that has
not got the slot where its search starts.
-/
namespace Zpc.HashTable
open StridedProbe

variable {K : Type*} [DecidableEq K] {t : HashTable K} {m m' : Memory K} {key : K} {keys : List K}

section Filled
/-- The slots hold these keys, numbered in this order, each behind keys with smaller numbers. -/
structure Filled (t : HashTable K) (keys : List K) (m : Memory K) : Prop where
  nodup : keys.Nodup
  stored : ∀ k ∈ keys, k ≠ t.keySentinel
  placed : ∀ (i : ℕ) (k : K), keys[i]? = some k → ∃ j, m.keys (t.slot k j) = k ∧ m.indices (t.slot k j) = i ∧
    ∀ j' < j, ∃ a < i, keys[a]? = some (m.keys (t.slot k j'))
  known : ∀ s < t.tableSize, m.keys s ≠ t.keySentinel → ∃ i : ℕ, keys[i]? = some (m.keys s) ∧ m.indices s = i
  unique : ∀ s < t.tableSize, ∀ s' < t.tableSize, m.keys s ≠ t.keySentinel → m.keys s = m.keys s' → s = s'
  free : ∀ s < t.tableSize, m.indices s = sentinel ↔ m.keys s = t.keySentinel

omit [DecidableEq K] in
theorem natCast_ne_sentinel (n : ℕ) : (n : ℤ) ≠ sentinel := by
  unfold sentinel
  omega

omit [DecidableEq K] in
/-- The slots alone say which keys there are. -/
theorem Filled.congr (h : Filled t keys m) (hT : 0 < t.tableSize) (hk : ∀ s < t.tableSize, m'.keys s = m.keys s)
    (hind : ∀ s < t.tableSize, m'.indices s = m.indices s) : Filled t keys m' where
  nodup := h.nodup
  stored := h.stored
  placed := by
    intro i k hi
    obtain ⟨j, hkey, hnumber, hbefore⟩ := h.placed i k hi
    refine ⟨j, (hk _ (slot_lt hT k j)).trans hkey, (hind _ (slot_lt hT k j)).trans hnumber, fun j' hj' => ?_⟩
    rw [hk _ (slot_lt hT k j')]
    exact hbefore j' hj'
  known := by
    intro s hs hne
    rw [hk s hs] at hne ⊢
    rw [hind s hs]
    exact h.known s hs hne
  unique := by
    intro s hs s' hs' hne heq
    rw [hk s hs] at hne heq
    rw [hk s' hs'] at heq
    exact h.unique s hs s' hs' hne heq
  free := by
    intro s hs
    rw [hk s hs, hind s hs]
    exact h.free s hs

omit [DecidableEq K] in
theorem filled_free (hk : ∀ s < t.tableSize, m.keys s = t.keySentinel) (hind : ∀ s < t.tableSize, m.indices s = sentinel) :
    Filled t [] m where
  nodup := List.nodup_nil
  stored := fun _ h => absurd h List.not_mem_nil
  placed := fun i k hi => absurd hi (by simp)
  known := fun s hs hne => absurd (hk s hs) hne
  unique := fun s hs _ _ hne => absurd (hk s hs) hne
  free := fun s hs => ⟨fun _ => hk s hs, fun _ => hind s hs⟩

section Place
variable (h : Filled t keys m)
include h

omit [DecidableEq K] in
theorem Filled.mem {s : ℕ} (hs : s < t.tableSize) (hne : m.keys s ≠ t.keySentinel) : m.keys s ∈ keys := by
  obtain ⟨i, hi, -⟩ := h.known s hs hne
  exact List.mem_of_getElem? hi

theorem Filled.exists_stopsFirst (key : K) (hroom : keys.length < t.tableSize) :
    ∃ j < t.tableSize, t.StopsFirst m key j := by
  obtain ⟨s, hs, hfree⟩ := exists_free (fun s hs hne => h.mem hs hne) h.unique
    ((List.toFinset_card_le keys).trans_lt hroom)
  exact HashTable.exists_stopsFirst hs (.inr hfree)

omit [DecidableEq K] in
/-- The search for a key ends at its slot. -/
theorem Filled.stopsFirst {i j : ℕ} (hi : keys[i]? = some key) (hk : m.keys (t.slot key j) = key)
    (hbefore : ∀ j' < j, ∃ a < i, keys[a]? = some (m.keys (t.slot key j'))) : t.StopsFirst m key j := by
  refine ⟨.inl hk, fun j' hj' hstop => ?_⟩
  obtain ⟨a, ha, hkey⟩ := hbefore j' hj'
  rcases hstop with hheld | hfree
  · rw [hheld] at hkey
    have hsame := (List.getElem?_inj (List.getElem?_eq_some_iff.mp hkey).1 h.nodup).mp (hkey.trans hi.symm)
    omega
  · exact h.stored _ (List.mem_of_getElem? hkey) hfree

omit [DecidableEq K] in
/-- A new key goes into the free slot where its search ends. -/
theorem Filled.place (hT : 0 < t.tableSize) (hne : key ≠ t.keySentinel) (hmem : key ∉ keys) {j : ℕ} (hstop : t.StopsFirst m key j)
    (hfree : m.keys (t.slot key j) = t.keySentinel) (hk : m'.keys = Function.update m.keys (t.slot key j) key)
    (hind : m'.indices = Function.update m.indices (t.slot key j) (keys.length : ℤ)) : Filled t (keys ++ [key]) m' := by
  have hbefore : ∀ j' < j, m.keys (t.slot key j') ≠ t.keySentinel := fun j' hj' hf => hstop.before j' hj' (.inr hf)
  have hslot : ∀ j', t.slot key j' < t.tableSize := slot_lt hT key
  generalize hs : t.slot key j = s at hfree hk hind
  -- a slot in use is another one
  have hother : ∀ {s'}, m.keys s' ≠ t.keySentinel → m'.keys s' = m.keys s' ∧ m'.indices s' = m.indices s' := by
    intro s' h'
    have hne' : s' ≠ s := fun he => h' (he ▸ hfree)
    rw [hk, hind, Function.update_of_ne hne', Function.update_of_ne hne']
    exact ⟨rfl, rfl⟩
  have hnew : m'.keys s = key ∧ m'.indices s = keys.length := by
    rw [hk, hind, Function.update_self, Function.update_self]
    exact ⟨rfl, rfl⟩
  have hcases : ∀ s' < t.tableSize, m'.keys s' ≠ t.keySentinel → s' = s ∨ m.keys s' ≠ t.keySentinel := by
    intro s' hs' hused
    rcases eq_or_ne s' s with he | he
    · exact .inl he
    · rw [hk, Function.update_of_ne he] at hused
      exact .inr hused
  constructor
  case nodup =>
    rw [List.nodup_append]
    refine ⟨h.nodup, List.nodup_singleton key, fun a ha b hb he => hmem ?_⟩
    rw [← List.mem_singleton.mp hb, ← he]
    exact ha
  case stored =>
    intro k hkeys
    rcases List.mem_append.mp hkeys with hold | hlast
    · exact h.stored k hold
    · rw [List.mem_singleton.mp hlast]
      exact hne
  case placed =>
    intro i k hi
    rcases Nat.lt_or_ge i keys.length with hlt | hge
    · rw [List.getElem?_append_left hlt] at hi
      obtain ⟨j₁, hkey, hnumber, hearlier⟩ := h.placed i k hi
      have hkept := @hother (t.slot k j₁) (by rw [hkey]; exact h.stored k (List.mem_of_getElem? hi))
      refine ⟨j₁, hkept.1.trans hkey, hkept.2.trans hnumber, fun j' hj' => ?_⟩
      obtain ⟨a, ha, hka⟩ := hearlier j' hj'
      refine ⟨a, ha, ?_⟩
      rw [(hother (h.stored _ (List.mem_of_getElem? hka))).1, List.getElem?_append_left (ha.trans hlt)]
      exact hka
    · rw [List.getElem?_append_right hge, List.getElem?_singleton] at hi
      split_ifs at hi with hz
      obtain rfl := Option.some.inj hi
      have hi' : i = keys.length := by omega
      refine ⟨j, ?_, ?_, fun j' hj' => ?_⟩
      · rw [hs]
        exact hnew.1
      · rw [hs, hi']
        exact hnew.2
      · obtain ⟨a, hka, -⟩ := h.known _ (hslot j') (hbefore j' hj')
        have ha := (List.getElem?_eq_some_iff.mp hka).1
        refine ⟨a, by omega, ?_⟩
        rw [(hother (hbefore j' hj')).1, List.getElem?_append_left ha]
        exact hka
  case known =>
    intro s' hs' hused
    rcases hcases s' hs' hused with rfl | hold
    · refine ⟨keys.length, ?_, hnew.2⟩
      rw [hnew.1, List.getElem?_concat_length]
    · obtain ⟨i, hi, hnumber⟩ := h.known s' hs' hold
      refine ⟨i, ?_, (hother hold).2.trans hnumber⟩
      rw [(hother hold).1, List.getElem?_append_left (List.getElem?_eq_some_iff.mp hi).1]
      exact hi
  case unique =>
    intro s₁ h₁ s₂ h₂ hused heq
    have hused₂ : m'.keys s₂ ≠ t.keySentinel := heq ▸ hused
    rcases hcases s₁ h₁ hused with rfl | hold₁ <;> rcases hcases s₂ h₂ hused₂ with rfl | hold₂
    · rfl
    · rw [hnew.1, (hother hold₂).1] at heq
      exact absurd (heq ▸ h.mem h₂ hold₂) hmem
    · rw [hnew.1, (hother hold₁).1] at heq
      exact absurd (heq ▸ h.mem h₁ hold₁) hmem
    · rw [(hother hold₁).1, (hother hold₂).1] at heq
      exact h.unique s₁ h₁ s₂ h₂ hold₁ heq
  case free =>
    intro s' hs'
    rcases eq_or_ne s' s with rfl | he
    · rw [hnew.1, hnew.2]
      exact ⟨fun hf => absurd hf (natCast_ne_sentinel _), fun hf => absurd hf hne⟩
    · rw [hk, hind, Function.update_of_ne he, Function.update_of_ne he]
      exact h.free s' hs'

end Place

end Filled

section Kernels
variable {fuel : ℕ}

omit [DecidableEq K] in
theorem resetEntries_spec (t : HashTable K) (m : Memory K) :
    (∀ s < t.tableSize, (t.resetEntries false m).keys s = t.keySentinel ∧ (t.resetEntries false m).indices s = sentinel) ∧
      (t.resetEntries false m).activeKeys = m.activeKeys ∧ (t.resetEntries false m).cnt = m.cnt := by
  have hloop : ∀ n, (∀ s < n, ((List.range n).foldl (t.resetEntry false) m).keys s = t.keySentinel ∧
      ((List.range n).foldl (t.resetEntry false) m).indices s = sentinel) ∧
      ((List.range n).foldl (t.resetEntry false) m).activeKeys = m.activeKeys ∧
      ((List.range n).foldl (t.resetEntry false) m).cnt = m.cnt := by
    intro n
    induction n with
    | zero => exact ⟨fun s hs => absurd hs (Nat.not_lt_zero s), rfl, rfl⟩
    | succ n ih =>
      obtain ⟨hslots, hactive, hcnt⟩ := ih
      rw [List.range_succ, List.foldl_append, List.foldl_cons, List.foldl_nil]
      refine ⟨fun s hs => ?_, hactive, ?_⟩
      · rcases Nat.lt_succ_iff_lt_or_eq.mp hs with hlt | rfl
        · have hold := hslots s hlt
          have hne := Nat.ne_of_lt hlt
          exact ⟨(Function.update_of_ne hne _ _).trans hold.1, (Function.update_of_ne hne _ _).trans hold.2⟩
        · exact ⟨Function.update_self _ _ _, Function.update_self _ _ _⟩
      · rw [← hcnt]
        exact if_neg (by simp)
  exact hloop t.tableSize

def putId (m : Memory K) (s : ℕ) (key : K) (id : ℤ) : Memory K :=
  {m with keys := Function.update m.keys s key, indices := Function.update m.indices s id}

theorem insertIdFrom_go {s : ℕ} {id : ℤ} (h : ¬ t.Stops m key s) :
    t.insertIdFrom key id (fuel + 1) m s = t.insertIdFrom key id fuel m ((s + 127) % t.tableSize) := by
  obtain ⟨hkey, hne⟩ := not_or.mp h
  simp only [insertIdFrom, atomicKeyCAS_snd, atomicKeyCAS_of_ne hne, hne, hkey, if_false]

/-- The insertion of a new key with a number writes the free slot where its search ends. -/
theorem insertIdFrom_eq (id : ℤ) {i n : ℕ} (hstop : t.StopsFirst m key (i + n))
    (hfree : m.keys (t.slot key (i + n)) = t.keySentinel) (hf : n < fuel) :
    t.insertIdFrom key id fuel m (t.slot key i) = some (putId m (t.slot key (i + n)) key id, true) := by
  obtain ⟨fuel, rfl⟩ := Nat.exists_eq_succ_of_ne_zero (Nat.ne_of_gt (Nat.zero_lt_of_lt hf))
  induction n generalizing i fuel with
  | zero =>
    rw [Nat.add_zero] at hfree ⊢
    simp only [insertIdFrom, atomicKeyCAS, hfree, if_true]
    rfl
  | succ n ih =>
    have hlt := Nat.lt_of_succ_lt_succ hf
    obtain ⟨fuel, rfl⟩ := Nat.exists_eq_succ_of_ne_zero (Nat.ne_of_gt (Nat.zero_lt_of_lt hlt))
    have hadd : i + (n + 1) = i + 1 + n := by omega
    rw [insertIdFrom_go (hstop.before i (by omega)), ← slot_succ]
    rw [hadd] at hstop hfree ⊢
    exact ih hstop hfree fuel hlt

theorem Filled.insertId (h : Filled t keys m) (hT : 0 < t.tableSize) (hne : key ≠ t.keySentinel) (hmem : key ∉ keys)
    (hroom : keys.length < t.tableSize) : ∃ s, Filled t (keys ++ [key]) (putId m s key keys.length) ∧
      ∀ fuel, t.tableSize ≤ fuel → t.insertId fuel m key keys.length = some (putId m s key keys.length, true) := by
  obtain ⟨j, hj, hstop⟩ := h.exists_stopsFirst key hroom
  have hfree : m.keys (t.slot key j) = t.keySentinel := by
    apply hstop.stops.resolve_left
    intro hheld
    exact hmem (hheld ▸ h.mem (slot_lt hT key j) (hheld.symm ▸ hne))
  refine ⟨t.slot key j, h.place hT hne hmem hstop hfree rfl rfl, fun fuel hfuel => ?_⟩
  have heq := insertIdFrom_eq keys.length (i := 0) ((Nat.zero_add j).symm ▸ hstop)
    ((Nat.zero_add j).symm ▸ hfree) (hj.trans_le hfuel)
  rw [slot_zero hT, Nat.zero_add] at heq
  exact heq

/-- Inserted again into a table of free slots, distinct keys get their numbers. -/
theorem reinsertAll_spec (hfilled : Filled t [] m) (count : ℕ) (hcount : count < t.tableSize)
    (hnodup : ((List.range count).map m.activeKeys).Nodup) (hne : ∀ i < count, m.activeKeys i ≠ t.keySentinel) :
    ∃ m', (∀ fuel, t.tableSize ≤ fuel → t.reinsertAll fuel m count = some m') ∧
      Filled t ((List.range count).map m.activeKeys) m' ∧ m'.activeKeys = m.activeKeys ∧ m'.cnt = m.cnt := by
  induction count with
  | zero => exact ⟨m, fun _ _ => rfl, hfilled, rfl, rfl⟩
  | succ count ih =>
    rw [List.range_succ, List.map_append, List.map_singleton] at hnodup ⊢
    obtain ⟨hold, -, hnew⟩ := List.nodup_append.mp hnodup
    obtain ⟨m₁, hrun, h₁, hactive, hcnt⟩ := ih (by omega) hold fun i hi => hne i (by omega)
    have hlen : ((List.range count).map m.activeKeys).length = count := by rw [List.length_map, List.length_range]
    obtain ⟨s, h₂, hins⟩ := h₁.insertId (by omega) (hne count (Nat.lt_succ_self count))
      (fun hmem => hnew _ hmem _ (List.mem_singleton_self _) rfl) (by rw [hlen]; omega)
    rw [hlen] at h₂ hins
    refine ⟨_, fun fuel hfuel => ?_, h₂, hactive, hcnt⟩
    have hfirst := hrun fuel hfuel
    rw [reinsertAll] at hfirst
    rw [reinsertAll, List.range_succ, List.foldlM_append, hfirst, Option.bind_eq_bind, Option.bind_some, List.foldlM_cons,
      reinsert, hactive, hins fuel hfuel]
    rfl

end Kernels

section Removal
variable {i n fuel : ℕ}

/-- What is left when the keys with numbers below `i` have been taken out. -/
structure Removed (t : HashTable K) (i : ℕ) (m m' : Memory K) : Prop where
  keys_eq : ∀ s < t.tableSize, m'.keys s = if m.indices s < i then t.keySentinel else m.keys s
  indices_eq : ∀ s < t.tableSize, m'.indices s = if m.indices s < i then sentinel else m.indices s
  activeKeys_eq : m'.activeKeys = m.activeKeys
  cnt_eq : m'.cnt = m.cnt

variable (h : Filled t keys m)
include h

omit [DecidableEq K] in
theorem Filled.removed_zero : Removed t 0 m m := by
  have hnone : ∀ s < t.tableSize, m.indices s < (0 : ℕ) → m.keys s = t.keySentinel := by
    intro s hs hlt
    by_contra hne
    obtain ⟨i, -, hi⟩ := h.known s hs hne
    omega
  refine ⟨fun s hs => ?_, fun s hs => ?_, rfl, rfl⟩ <;> split_ifs with hlt
  · exact hnone s hs hlt
  · rfl
  · exact (h.free s hs).mpr (hnone s hs hlt)
  · rfl

omit [DecidableEq K] in
theorem Filled.indices_of_held {s : ℕ} (hi : keys[i]? = some key) (hs : s < t.tableSize) (hk : m.keys s = key) :
    m.indices s = i := by
  obtain ⟨a, ha, hnumber⟩ := h.known s hs (hk ▸ h.stored key (List.mem_of_getElem? hi))
  rw [hk] at ha
  rw [hnumber, (List.getElem?_inj (List.getElem?_eq_some_iff.mp ha).1 h.nodup).mp (ha.trans hi.symm)]

variable (hT : 0 < t.tableSize)
include hT

/-- A key in its first slot is taken out. -/
theorem Removed.home (hr : Removed t i m m') (hi : keys[i]? = some key) (hactive : m.activeKeys i = key)
    (hhome : m.keys (t.start key) = key) :
    ∃ m'', (∀ fuel, 0 < fuel → t.remove fuel m' i = some (.done m'')) ∧ Removed t (i + 1) m m'' := by
  have hs := start_lt hT key
  have hnumber := h.indices_of_held hi hs hhome
  have hheld : m'.keys (t.start key) = key := by
    rw [hr.keys_eq _ hs, hnumber, if_neg (lt_irrefl _), hhome]
  refine ⟨{m' with
    keys := Function.update m'.keys (t.start key) t.keySentinel
    indices := Function.update m'.indices (t.start key) sentinel}, fun fuel hf => ?_, ?_⟩
  · obtain ⟨fuel, rfl⟩ := Nat.exists_eq_succ_of_ne_zero (Nat.ne_of_gt hf)
    have hentry : t.entry (fuel + 1) m' key = some (.value (t.start key : ℕ), [t.start key]) := by
      rw [entry, searchFrom, if_neg (Nat.not_le_of_lt hs), if_pos hheld.symm]
    rw [remove, hr.activeKeys_eq, hactive, hentry]
    rfl
  · -- no other slot has the number
    have hother : ∀ s < t.tableSize, s ≠ t.start key → (m.indices s < (i + 1 : ℕ) ↔ m.indices s < i) := by
      intro s hs' hne
      have hdiff : m.indices s ≠ i := by
        intro heq
        have hused : m.keys s ≠ t.keySentinel := fun hf => natCast_ne_sentinel i (heq.symm.trans ((h.free s hs').mpr hf))
        obtain ⟨a, ha, hnum⟩ := h.known s hs' hused
        have hai : a = i := by omega
        rw [hai] at ha
        exact hne (h.unique s hs' _ hs hused ((Option.some.inj (ha.symm.trans hi)).trans hhome.symm))
      omega
    refine ⟨fun s hs' => ?_, fun s hs' => ?_, hr.activeKeys_eq, hr.cnt_eq⟩ <;> dsimp only <;>
      rcases eq_or_ne s (t.start key) with rfl | hne
    · rw [Function.update_self, hnumber, if_pos (by omega)]
    · rw [Function.update_of_ne hne, hr.keys_eq s hs', if_congr (hother s hs' hne) rfl rfl]
    · rw [Function.update_self, hnumber, if_pos (by omega)]
    · rw [Function.update_of_ne hne, hr.indices_eq s hs', if_congr (hother s hs' hne) rfl rfl]

/-- The first slot of a key that is not in it is free by now, and the search ends there. -/
theorem Removed.displaced (hr : Removed t i m m') (hi : keys[i]? = some key) (hactive : m.activeKeys i = key)
    (hhome : m.keys (t.start key) ≠ key) (hf : 0 < fuel) : t.remove fuel m' i = some .outside := by
  have hs := start_lt hT key
  obtain ⟨fuel, rfl⟩ := Nat.exists_eq_succ_of_ne_zero (Nat.ne_of_gt hf)
  obtain ⟨j, hk, -, hbefore⟩ := h.placed i key hi
  have hj : 0 < j := by
    refine Nat.pos_of_ne_zero fun hz => hhome ?_
    rwa [hz, slot_zero hT] at hk
  obtain ⟨a, ha, hearlier⟩ := hbefore 0 hj
  rw [slot_zero hT] at hearlier
  have hnumber := h.indices_of_held hearlier hs rfl
  have hgone : m'.keys (t.start key) = t.keySentinel ∧ m'.indices (t.start key) = sentinel := by
    rw [hr.keys_eq _ hs, hr.indices_eq _ hs, hnumber, if_pos (by omega), if_pos (by omega)]
    exact ⟨rfl, rfl⟩
  have hne := h.stored key (List.mem_of_getElem? hi)
  have hentry : t.entry (fuel + 1) m' key = some (.value sentinel, [t.start key]) := by
    rw [entry, searchFrom, if_neg (Nat.not_le_of_lt hs), if_neg (by rw [hgone.1]; exact hne), if_pos hgone.2]
  rw [remove, hr.activeKeys_eq, hactive, hentry]
  rfl

/-- The loop ends if all keys that are left are in their first slots, and else leaves the table. -/
theorem Removed.all (hr : Removed t i m m') (hactive : ∀ (a : ℕ) (k : K), keys[a]? = some k → m.activeKeys a = k)
    (hn : i + n ≤ keys.length) :
    ((∀ a k, i ≤ a → a < i + n → keys[a]? = some k → m.keys (t.start k) = k) → ∃ m'', (∀ fuel, 0 < fuel →
      t.removeAll fuel (List.range' i n) m' = some (.done m'')) ∧ Removed t (i + n) m m'') ∧
    ((∃ a k, i ≤ a ∧ a < i + n ∧ keys[a]? = some k ∧ m.keys (t.start k) ≠ k) → ∀ fuel, 0 < fuel →
      t.removeAll fuel (List.range' i n) m' = some .outside) := by
  induction n generalizing i m' with
  | zero => exact ⟨fun _ => ⟨m', fun _ _ => rfl, hr⟩, fun ⟨a, k, hle, hlt, _⟩ => absurd hlt (by omega)⟩
  | succ n ih =>
    have hi : keys[i]? = some keys[i] := List.getElem?_eq_getElem (by omega)
    have hki := hactive i _ hi
    rw [List.range'_succ]
    by_cases hhome : m.keys (t.start keys[i]) = keys[i]
    · obtain ⟨m₁, hrun, hr₁⟩ := Removed.home h hT hr hi hki hhome
      obtain ⟨hall, hsome⟩ := ih hr₁ (by omega)
      have hstep : ∀ fuel, 0 < fuel → t.removeAll fuel (i :: List.range' (i + 1) n) m' =
          t.removeAll fuel (List.range' (i + 1) n) m₁ := fun fuel hf => by rw [removeAll, hrun fuel hf, Option.bind_some]
      constructor
      · intro hhomes
        obtain ⟨m₂, hrest, hr₂⟩ := hall fun a k hle hlt hk => hhomes a k (by omega) (by omega) hk
        refine ⟨m₂, fun fuel hf => (hstep fuel hf).trans (hrest fuel hf), ?_⟩
        rwa [show i + (n + 1) = i + 1 + n by omega]
      · rintro ⟨a, k, hle, hlt, hk, hne⟩ fuel hf
        rw [hstep fuel hf]
        refine hsome ⟨a, k, ?_, by omega, hk, hne⟩ fuel hf
        rcases Nat.lt_or_eq_of_le hle with hlt' | rfl
        · exact hlt'
        · rw [hi] at hk
          rw [← Option.some.inj hk] at hne
          exact absurd hhome hne
    · refine ⟨fun hhomes => absurd (hhomes i _ le_rfl (by omega) hi) hhome, fun _ fuel hf => ?_⟩
      rw [removeAll, Removed.displaced h hT hr hi hki hhome hf, Option.bind_some]

omit [DecidableEq K] in
/-- All keys are in their first slots just when no two of them share it. -/
theorem Filled.home_iff : (∀ (i : ℕ) k, keys[i]? = some k → m.keys (t.start k) = k) ↔ (keys.map t.start).Nodup := by
  constructor
  · intro hhome
    refine List.Nodup.map_on (fun k hk k' hk' heq => ?_) h.nodup
    obtain ⟨i, hi⟩ := List.mem_iff_getElem?.mp hk
    obtain ⟨i', hi'⟩ := List.mem_iff_getElem?.mp hk'
    rw [← hhome i k hi, heq, hhome i' k' hi']
  · intro hnodup i
    induction i using Nat.strong_induction_on with
    | _ i ih =>
      intro k hi
      obtain ⟨j, hk, -, hbefore⟩ := h.placed i k hi
      rcases Nat.eq_zero_or_pos j with rfl | hj
      · rwa [slot_zero hT] at hk
      · -- the slot has a key with a smaller number, which starts there too
        obtain ⟨a, ha, hearlier⟩ := hbefore 0 hj
        rw [slot_zero hT] at hearlier
        have hother := ih a ha _ hearlier
        have hused : m.keys (t.start k) ≠ t.keySentinel := h.stored _ (List.mem_of_getElem? hearlier)
        have hstart : t.start (m.keys (t.start k)) = t.start k :=
          (h.unique _ (start_lt hT _) _ (start_lt hT k) (hother.symm ▸ hused) hother)
        have hmap : ∀ {b : ℕ} {x : K}, keys[b]? = some x → (keys.map t.start)[b]? = some (t.start x) := by
          intro b x hb
          rw [List.getElem?_map, hb]
          rfl
        have hsame := (List.getElem?_inj (List.getElem?_eq_some_iff.mp (hmap hi)).1 hnodup).mp
          ((hmap hi).trans (hstart ▸ (hmap hearlier).symm))
        omega

end Removal

end Zpc.HashTable
