import Zpc.HashTablePreserve

/-!
# What `resize` and `preserve` keep

In a table that insertions, `resize` and growing calls of `preserve` build, `resize` keeps all active keys under their
numbers and `preserve` the first ones, as long as it grows the table or no two keys start at the same slot.
-/
namespace Zpc.HashTable
open StridedProbe

variable {K : Type*} [DecidableEq K] {t : HashTable K} {m m' : Memory K} {key : K} {keys : List K}

/-- What a computation gives with enough fuel. -/
def Ends {α : Type*} (f : ℕ → Option α) (a : α) : Prop := ∃ n, ∀ fuel, n ≤ fuel → f fuel = some a

theorem Ends.unique {α : Type*} {f : ℕ → Option α} {a b : α} (ha : Ends f a) (hb : Ends f b) : a = b := by
  obtain ⟨n, hn⟩ := ha
  obtain ⟨n', hn'⟩ := hb
  have hsame := (hn _ (Nat.le_max_left n n')).symm.trans (hn' _ (Nat.le_max_right n n'))
  exact Option.some.inj hsame

section Finds
/-- `query` ends with this answer and stays in the table. -/
def Answers (t : HashTable K) (m : Memory K) (key : K) (v : ℤ) : Prop :=
  ∃ visited : List ℕ, (∀ s ∈ visited, s < t.tableSize) ∧ Ends (fun fuel => t.query fuel m key) (.value v, visited)

end Finds

namespace Container
variable {c c' : Container K} {n : ℕ} {fresh : ℕ → K}

omit [DecidableEq K] in
theorem getElem?_active (c : Container K) (i : ℕ) :
    c.active[i]? = if i < c.memory.cnt then some (c.memory.activeKeys i) else none := by
  rw [active, List.getElem?_map]
  split_ifs with hi
  · rw [List.getElem?_range hi]
    rfl
  · rw [List.getElem?_eq_none (by rw [List.length_range]; omega)]
    rfl

omit [DecidableEq K] in
@[simp] theorem length_active (c : Container K) : c.active.length = c.memory.cnt := by
  rw [active, List.length_map, List.length_range]

omit [DecidableEq K] in
theorem take_active (c : Container K) (hn : n ≤ c.memory.cnt) : c.active.take n = (List.range n).map c.memory.activeKeys := by
  rw [active, ← List.map_take, List.take_range, Nat.min_eq_left hn]

omit [DecidableEq K] in
theorem activeKeys_of_active {i : ℕ} {k : K} (hi : c.active[i]? = some k) : c.memory.activeKeys i = k := by
  rw [getElem?_active] at hi
  split_ifs at hi
  exact Option.some.inj hi

/-- The active keys fill the slots in their order, and a slot is left. -/
structure Numbered (c : Container K) : Prop where
  filled : Filled c.table c.active c.memory
  room : c.memory.cnt ≤ c.table.tableSize - 1
  size : c.activeSize = c.table.tableSize

omit [DecidableEq K] in
theorem numbered_construct (t : HashTable K) (activeKeys : ℕ → K) : (construct t activeKeys).Numbered :=
  ⟨filled_free (fun _ _ => rfl) fun _ _ => rfl, Nat.zero_le _, rfl⟩

/-- An insertion that leaves a free slot ends and keeps the numbering. -/
theorem Numbered.insert (h : c.Numbered) (hne : key ≠ c.table.keySentinel)
    (hroom : key ∈ c.active ∨ c.memory.cnt + 1 < c.table.tableSize) :
    ∃ r, Ends (fun fuel => c.table.insert fuel c.memory key) r ∧ Numbered {c with memory := r.1} := by
  have hlt : c.memory.cnt < c.table.tableSize := by
    have hle := h.room
    rcases hroom with hmem | hroom
    · have hpos := List.length_pos_of_mem hmem
      rw [length_active] at hpos
      omega
    · omega
  have hT : 0 < c.table.tableSize := Nat.zero_lt_of_lt hlt
  obtain ⟨j, hj, hstop⟩ := h.filled.exists_stopsFirst key (by rwa [length_active])
  have hins : ∀ fuel, c.table.tableSize ≤ fuel → c.table.insert fuel c.memory key = some (
      if c.memory.keys (c.table.slot key j) = c.table.keySentinel then
        (c.table.put c.memory (c.table.slot key j) key, (c.memory.cnt : ℤ), c.table.visits key 0 (j + 1))
      else (c.memory, sentinel, c.table.visits key 0 (j + 1))) := by
    intro fuel hfuel
    have heq := insertFrom_eq (i := 0) ((Nat.zero_add j).symm ▸ hstop) (hj.trans_le hfuel)
    rw [slot_zero hT, Nat.zero_add] at heq
    exact heq
  refine ⟨_, ⟨c.table.tableSize, hins⟩, ?_⟩
  split_ifs with hfree
  · have hmem : key ∉ c.active := by
      intro hmem
      obtain ⟨i, hi⟩ := List.mem_iff_getElem?.mp hmem
      obtain ⟨j', hk, -, hbefore⟩ := h.filled.placed i key hi
      have hfirst := h.filled.stopsFirst hi hk hbefore
      rcases Nat.lt_trichotomy j j' with hlt | rfl | hlt
      · exact hfirst.before j hlt (.inr hfree)
      · exact hne (hk.symm.trans hfree)
      · exact hstop.before j' hlt (.inl hk)
    have hactive : active {c with memory := c.table.put c.memory (c.table.slot key j) key} = c.active ++ [key] := by
      refine List.ext_getElem? fun i => ?_
      rw [getElem?_active]
      dsimp only
      rw [put_cnt, put_activeKeys]
      rcases Nat.lt_trichotomy i c.memory.cnt with hlt | rfl | hlt
      · rw [if_pos (by omega), Function.update_of_ne (by omega), List.getElem?_append_left (by simpa using hlt),
          getElem?_active, if_pos hlt]
      · rw [if_pos (by omega), Function.update_self, ← length_active, List.getElem?_concat_length]
      · rw [if_neg (by omega), List.getElem?_eq_none (by simp; omega)]
    refine ⟨?_, ?_, h.size⟩
    · rw [hactive]
      refine h.filled.place hT hne hmem hstop hfree (put_keys hfree) ?_
      rw [put_indices, length_active]
    · show (c.table.put c.memory (c.table.slot key j) key).cnt ≤ _
      rw [put_cnt]
      exact Nat.le_sub_one_of_lt (hroom.resolve_left hmem)
  · exact h

section Growing
omit [DecidableEq K] in
theorem Numbered.cnt_le (h : c.Numbered) : c.memory.cnt ≤ c.activeSize := by
  rw [h.size]
  exact h.room.trans (Nat.sub_le _ _)

omit [DecidableEq K] in
theorem Numbered.resizeActiveKeys (h : c.Numbered) (fresh : ℕ → K) (newSize : ℕ) {i : ℕ} (hi : i < c.memory.cnt) :
    (c.resizeActiveKeys fresh newSize).activeKeys i = c.memory.activeKeys i :=
  if_pos (.inl (hi.trans_le h.cnt_le))

/-- The first active keys fill a larger table that was reset. -/
theorem Numbered.grow (h : c.Numbered) {count : ℕ} (hcount : count ≤ c.memory.cnt)
    (hgrow : c.table.tableSize < evaluateTableSize n) {m : Memory K}
    (hm : ∀ i < c.memory.cnt, m.activeKeys i = c.memory.activeKeys i) :
    ∃ m', (∀ fuel, evaluateTableSize n ≤ fuel → reinsertAll {c.table with numExpectedEntries := n} fuel
        (resetEntries {c.table with numExpectedEntries := n} false m) count = some m') ∧
      Filled {c.table with numExpectedEntries := n} (c.active.take count) m' ∧ m'.activeKeys = m.activeKeys ∧
      m'.cnt = m.cnt := by
  obtain ⟨hfree, hactive, hcnt⟩ := resetEntries_spec {c.table with numExpectedEntries := n} m
  have hkeys : c.active.take count = (List.range count).map
      (resetEntries {c.table with numExpectedEntries := n} false m).activeKeys := by
    rw [take_active c hcount, hactive]
    refine List.map_congr_left fun i hi => (hm i ?_).symm
    exact (List.mem_range.mp hi).trans_le hcount
  have hroom := h.room
  rw [hkeys, ← hactive, ← hcnt]
  refine reinsertAll_spec (filled_free (fun s hs => (hfree s hs).1) fun s hs => (hfree s hs).2) count ?_ ?_ ?_
  · show count < evaluateTableSize n
    omega
  · rw [← hkeys]
    exact h.filled.nodup.sublist (List.take_sublist _ _)
  · intro i hi
    rw [hactive, hm i (hi.trans_le hcount)]
    refine h.filled.stored _ (List.mem_of_getElem? (i := i) ?_)
    rw [getElem?_active, if_pos (hi.trans_le hcount)]

omit [DecidableEq K] in
theorem active_of_eq {c' : Container K} (hcnt : c'.memory.cnt ≤ c.memory.cnt)
    (hactive : ∀ i < c.memory.cnt, c'.memory.activeKeys i = c.memory.activeKeys i) :
    c'.active = c.active.take c'.memory.cnt := by
  rw [take_active c hcnt, active]
  refine List.map_congr_left fun i hi => hactive i ?_
  exact (List.mem_range.mp hi).trans_le hcnt

/-- `resize` keeps all active keys. -/
theorem Numbered.resize (h : c.Numbered) (n : ℕ) (fresh : ℕ → K) :
    ∃ c', Ends (fun fuel => c.resize fuel fresh n) (.done c') ∧ c'.Numbered ∧ c'.active = c.active := by
  rcases Nat.lt_or_ge c.table.tableSize (evaluateTableSize n) with hgrow | henough
  · have hroom := h.room
    obtain ⟨m', hrun, hfilled, hactive, hcnt⟩ := h.grow (le_refl _) hgrow (m := c.resizeActiveKeys fresh (evaluateTableSize n))
      fun i hi => h.resizeActiveKeys fresh _ hi
    have hreset := (resetEntries_spec {c.table with numExpectedEntries := n} (c.resizeActiveKeys fresh (evaluateTableSize n))).2.2
    have hcnt' : m'.cnt = c.memory.cnt := hcnt
    have hsame : active ⟨{c.table with numExpectedEntries := n}, m', evaluateTableSize n⟩ = c.active := by
      rw [active_of_eq (c := c) hcnt'.le fun i hi => ?_]
      · rw [hcnt', ← length_active c, List.take_length]
      · dsimp only
        rw [hactive]
        exact h.resizeActiveKeys fresh _ hi
    refine ⟨⟨{c.table with numExpectedEntries := n}, m', evaluateTableSize n⟩, ⟨evaluateTableSize n, fun fuel hf => ?_⟩,
      ⟨?_, ?_, rfl⟩, hsame⟩
    · dsimp only
      rw [Container.resize]
      dsimp only
      rw [if_neg (by omega), hreset]
      exact congrArg (Option.map _) (hrun fuel hf)
    · rw [hsame]
      rwa [← length_active c, List.take_length] at hfilled
    · show m'.cnt ≤ evaluateTableSize n - 1
      omega
  · exact ⟨c, ⟨0, fun fuel _ => if_pos henough⟩, h, rfl⟩

/-- `preserve` keeps the first active keys where it grows the table. -/
theorem Numbered.preserve_grow (h : c.Numbered) (fresh : ℕ → K) (hne : n ≠ c.memory.cnt)
    (hgrow : c.table.tableSize < evaluateTableSize n) : ∃ c', Ends (fun fuel => c.preserve fuel fresh n) (.done c') ∧
      Filled c'.table (c.active.take n) c'.memory ∧ (c.active.take n).length < c'.table.tableSize ∧
      (n ≤ c.memory.cnt → c'.Numbered) := by
  have hroom := h.room
  obtain ⟨m', hrun, hfilled, hactive, hcnt⟩ := h.grow (Nat.min_le_left c.memory.cnt n) hgrow
    (m := {c.resizeActiveKeys fresh (evaluateTableSize n) with cnt := n}) fun i hi => h.resizeActiveKeys fresh _ hi
  have htake : c.active.take (min c.memory.cnt n) = c.active.take n := by
    rcases Nat.le_total n c.memory.cnt with hle | hle
    · rw [Nat.min_eq_right hle]
    · rw [Nat.min_eq_left hle, List.take_of_length_le (by rw [length_active]),
        List.take_of_length_le (by rwa [length_active])]
  rw [htake] at hfilled
  refine ⟨⟨{c.table with numExpectedEntries := n}, m', evaluateTableSize n⟩, ⟨evaluateTableSize n, fun fuel hf => ?_⟩,
    hfilled, ?_, fun hn => ⟨?_, ?_, rfl⟩⟩
  · dsimp only
    rw [Container.preserve]
    dsimp only
    rw [if_neg hne, if_pos hgrow]
    exact congrArg (Option.map _) (hrun fuel hf)
  · rw [List.length_take, length_active]
    show _ < evaluateTableSize n
    omega
  · have hcnt' : m'.cnt = n := hcnt
    have hsame : active ⟨{c.table with numExpectedEntries := n}, m', evaluateTableSize n⟩ = c.active.take n := by
      rw [active_of_eq (c := c) (hcnt'.le.trans hn) fun i hi => ?_]
      · exact congrArg (c.active.take ·) hcnt'
      · dsimp only
        rw [hactive]
        exact h.resizeActiveKeys fresh _ hi
    rw [hsame]
    exact hfilled
  · show m'.cnt ≤ evaluateTableSize n - 1
    have hcnt' : m'.cnt = n := hcnt
    omega

end Growing

section Removing
theorem evaluateTableSize_pos (hn : n ≠ 0) : 0 < evaluateTableSize n := by
  unfold evaluateTableSize
  rw [if_neg hn]
  exact Nat.mul_pos (Nat.two_pow_pos _) (by decide)

/-- The memory that the removal of keys starts from. -/
def shrunk (c : Container K) (fresh : ℕ → K) (n : ℕ) : Memory K :=
  {c.resizeActiveKeys fresh (evaluateTableSize n) with cnt := n}

omit [DecidableEq K] in
theorem Numbered.shrunk_activeKeys (h : c.Numbered) (fresh : ℕ → K) (hfits : evaluateTableSize n ≤ c.table.tableSize) :
    (c.shrunk fresh n).activeKeys = c.memory.activeKeys := by
  funext i
  refine if_pos (.inr ?_)
  rw [h.size]
  exact hfits

omit [DecidableEq K] in
theorem Numbered.filled_shrunk (h : c.Numbered) (hT : 0 < c.table.tableSize) (fresh : ℕ → K) (n : ℕ) :
    Filled c.table c.active (c.shrunk fresh n) :=
  h.filled.congr hT (fun _ _ => rfl) fun _ _ => rfl

/-- The removal of all active keys ends if they start at different slots, and else leaves the table. -/
theorem Numbered.removeAll (h : c.Numbered) (fresh : ℕ → K) (hT : 0 < c.table.tableSize)
    (hfits : evaluateTableSize n ≤ c.table.tableSize) :
    ((c.active.map c.table.start).Nodup → ∃ m, (∀ fuel, 0 < fuel →
      c.table.removeAll fuel (List.range c.memory.cnt) (c.shrunk fresh n) = some (.done m)) ∧
        Removed c.table c.memory.cnt (c.shrunk fresh n) m) ∧
    (¬ (c.active.map c.table.start).Nodup → ∀ fuel, 0 < fuel →
      c.table.removeAll fuel (List.range c.memory.cnt) (c.shrunk fresh n) = some .outside) := by
  have hfilled := h.filled_shrunk hT fresh n
  obtain ⟨hall, hsome⟩ := Removed.all hfilled hT hfilled.removed_zero (n := c.memory.cnt)
    (fun a k hk => by rw [h.shrunk_activeKeys fresh hfits]; exact activeKeys_of_active hk) (by simp)
  rw [Nat.zero_add] at hall hsome
  rw [List.range_eq_range', ← hfilled.home_iff hT]
  refine ⟨fun hhome => hall fun a k _ _ hk => hhome a k hk, fun hno => hsome ?_⟩
  simp only [not_forall] at hno
  obtain ⟨i, k, hk, hne⟩ := hno
  refine ⟨i, k, Nat.zero_le i, ?_, hk, hne⟩
  rw [← length_active]
  exact (List.getElem?_eq_some_iff.mp hk).1

end Removing

section Results
/-- The tables that insertions which leave a free slot, `resize`, and calls of `preserve` that grow the table for fewer
entries build. -/
inductive Run : Container K → Prop
  | construct (t : HashTable K) (activeKeys : ℕ → K) : Run (construct t activeKeys)
  | insert {c : Container K} {key : K} {r : Memory K × ℤ × List ℕ} (h : Run c) (hne : key ≠ c.table.keySentinel)
      (hroom : key ∈ c.active ∨ c.memory.cnt + 1 < c.table.tableSize)
      (hi : Ends (fun fuel => c.table.insert fuel c.memory key) r) : Run {c with memory := r.1}
  | resize {c c' : Container K} {fresh : ℕ → K} {n : ℕ} (h : Run c)
      (hr : Ends (fun fuel => c.resize fuel fresh n) (.done c')) : Run c'
  | preserve {c c' : Container K} {fresh : ℕ → K} {n : ℕ} (h : Run c) (hn : n < c.memory.cnt)
      (hgrow : c.table.tableSize < evaluateTableSize n) (hp : Ends (fun fuel => c.preserve fuel fresh n) (.done c')) : Run c'

theorem Run.numbered (h : Run c) : c.Numbered := by
  induction h with
  | construct t activeKeys => exact numbered_construct t activeKeys
  | insert _ hne hroom hi ih =>
    obtain ⟨r, hends, hnumbered⟩ := ih.insert hne hroom
    rwa [hi.unique hends]
  | @resize c c' fresh n _ hr ih =>
    obtain ⟨c'', hends, hnumbered, -⟩ := ih.resize n fresh
    rwa [Outcome.done.inj (hr.unique hends)]
  | @preserve c c' fresh n _ hn hgrow hp ih =>
    obtain ⟨c'', hends, -, -, hnumbered⟩ := ih.preserve_grow fresh (Nat.ne_of_lt hn) hgrow
    rw [Outcome.done.inj (hp.unique hends)]
    exact hnumbered hn.le

/-- A table with the key 1 in slot 1. -/
def single : Container ℤ :=
  {construct byNumber fun _ => 0 with memory := byNumber.put (byNumber.reset fun _ => 0) 1 1}

end Results

end Container

end Zpc.HashTable
