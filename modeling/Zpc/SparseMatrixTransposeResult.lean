import Zpc.SparseMatrixTranspose

/-!
# When transposeFrom leaves the transpose

The scattered entries fill the lines of the transpose, and `localOrdering` permutes each line.
The branch for one order leaves the shape of the destination as it was, and both keep its old
values when the source has none.
-/
namespace Zpc.SparseMatrix
open SequentialExecutionPolicy StableSort

variable {V : Type*} {t : ValueType V} {postOrder : Bool} {dst o m r : SparseMatrix V} {s : (ℕ → ℕ) × (ℕ → ℕ)}

section Before
theorem Compact.length_visits (hm : m.Compact) : m.visits.length = m.nnz := by
  rw [← List.length_map Prod.snd, hm.visits_snd, List.length_range]

/-- The entries take up all places. -/
theorem slots_perm (ho : o.Compact) {l : List ℕ} (hl : l.Perm (List.range o.nnz)) (hs : Counts o.inds.get l s) :
    (o.visits.map (slot o s)).Perm (List.range o.nnz) := by
  have hnodup : (o.visits.map (slot o s)).Nodup :=
    List.Nodup.map_on (fun e he e' he' h => slot_inj ho hl hs he he' h) ho.nodup_visits
  refine (List.subperm_of_subset hnodup fun k hk => ?_).perm_of_length_le ?_
  · obtain ⟨e, he, rfl⟩ := List.mem_map.mp hk
    have hinner := ho.inner e.2 (ho.visits_lt he)
    refine List.mem_range.mpr ((slot_mem ho hl hs he).2.trans_le ?_)
    rw [← scan_total ho hl hs]
    exact exclusiveScan_mono s.1 hinner
  · rw [List.length_range, List.length_map, ho.length_visits]

/-- The lines of the transpose are filled with the entries. -/
theorem visits_perm (ho : o.Compact) {l : List ℕ} (hl : l.Perm (List.range o.nnz)) (hs : Counts o.inds.get l s)
    (hr : r.Compact) (hnnz : r.nnz = o.nnz) (hout : r.outerSize = o.innerSize) (hptrs : r.ptrs.get = exclusiveScan s.1) :
    (o.visits.map fun e => (o.inds.get e.2, slot o s e)).Perm r.visits := by
  have hnodup : (o.visits.map fun e => (o.inds.get e.2, slot o s e)).Nodup :=
    List.Nodup.map_on (fun e he e' he' h => slot_inj ho hl hs he he' (congrArg Prod.snd h)) ho.nodup_visits
  refine (List.subperm_of_subset hnodup fun e' he' => ?_).perm_of_length_le ?_
  · obtain ⟨e, he, rfl⟩ := List.mem_map.mp he'
    rw [mem_visits, hout, hptrs]
    exact ⟨ho.inner e.2 (ho.visits_lt he), slot_mem ho hl hs he⟩
  · rw [List.length_map, hr.length_visits, ho.length_visits, hnnz]

/-- The transpose before it is ordered, with its values where it has to have them. -/
structure Arranged (t : ValueType V) (o m : SparseMatrix V) : Prop where
  rows : m.nrows = o.ncols
  cols : m.ncols = o.nrows
  compact : m.Compact
  nnz : m.nnz = o.nnz
  perm : (m.visits.map (m.tagged o.hasValues)).Perm (o.entries.map (swapped t))

theorem entries_swapped : o.entries.map (swapped t) = o.visits.map (swapped t ∘ o.tagged o.hasValues) :=
  List.map_map

theorem arranged_scatter (ho : o.Compact) (horder : dst.rowMajor = o.rowMajor) (hrows : dst.nrows = o.ncols)
    (hcols : dst.ncols = o.nrows) {counted visited : List (ℕ × ℕ)} {localOffsets inds : ℕ → ℕ} {vals : ℕ → V}
    {r : (ℕ → ℕ) × (ℕ → V)} (hc : counted.Perm o.visits) (hv : visited.Perm o.visits)
    (hs : (counted.map Prod.snd).foldl (countOffset o.inds.get) (fun _ => 0, localOffsets) = s)
    (hr : visited.foldl (reorderVal t s.2 o (exclusiveScan s.1) o.hasValues)
      (inds, if o.hasValues then vals else dst.vals.get) = r) : Arranged t o (scatter dst o s r) := by
  have hl := ho.counted_perm hc
  have hcounts : Counts o.inds.get (counted.map Prod.snd) s :=
    hs ▸ counts_foldl (hl.nodup_iff.mpr List.nodup_range) localOffsets
  have hout : (scatter dst o s r).outerSize = o.innerSize := by
    unfold outerSize innerSize scatter
    rw [horder, hrows, hcols]
  have hin : (scatter dst o s r).innerSize = o.outerSize := by
    unfold outerSize innerSize scatter
    rw [horder, hrows, hcols]
  have hmoved : (∀ e ∈ visited, r.1 (slot o s e) = e.1) ∧
      if o.hasValues then ∀ e ∈ visited, r.2 (slot o s e) = t.moved (o.vals.get e.2)
      else r.2 = if o.hasValues then vals else dst.vals.get := by
    rw [← hr]
    exact foldl_reorderVal (hv.nodup_iff.mpr ho.nodup_visits) fun e he e' he' =>
      slot_inj ho hl hcounts (hv.mem_iff.mp he) (hv.mem_iff.mp he')
  obtain ⟨hinds, hvals⟩ := hmoved
  have hcompact : (scatter dst o s r).Compact := by
    refine ⟨?_, rfl, fun r' _ => exclusiveScan_mono s.1 (Nat.le_succ r'), ?_, fun k hk => ?_⟩
    · rw [hout]
      exact Nat.lt_succ_self _
    · rw [hout]
      exact scan_total ho hl hcounts
    · obtain ⟨e, he, rfl⟩ := List.mem_map.mp ((slots_perm ho hl hcounts).mem_iff.mpr (List.mem_range.mpr hk))
      rw [hin, show (scatter dst o s r).inds.get = r.1 from rfl, hinds e (hv.mem_iff.mpr he)]
      exact (mem_visits.mp he).1
  refine ⟨hrows, hcols, hcompact, rfl, ?_⟩
  refine ((visits_perm ho hl hcounts hcompact rfl hout rfl).symm.map _).trans (List.Perm.of_eq ?_)
  rw [List.map_map, entries_swapped]
  refine List.map_congr_left fun e he => ?_
  have hi := hinds e (hv.mem_iff.mpr he)
  refine Prod.ext ?_ ?_
  · show (if dst.rowMajor = true then (o.inds.get e.2, r.1 (slot o s e)) else (r.1 (slot o s e), o.inds.get e.2)) =
      (if o.rowMajor = true then (e.1, o.inds.get e.2) else (o.inds.get e.2, e.1)).swap
    rw [hi, horder]
    split <;> rfl
  · show (if o.hasValues = true then some ((scatter dst o s r).vals.get (slot o s e)) else none) =
      (if o.hasValues = true then some (o.vals.get e.2) else none).map t.moved
    unfold scatter
    by_cases hval : o.hasValues = true
    · rw [if_pos hval] at hvals
      simp only [if_pos hval, hvals e (hv.mem_iff.mpr he), Option.map_some]
    · simp only [if_neg hval, Option.map_none]

theorem reinterpret_outerSize (h : dst.rowMajor ≠ o.rowMajor) :
    (reinterpret t dst o).outerSize = o.outerSize ∧ (reinterpret t dst o).innerSize = o.innerSize := by
  unfold outerSize innerSize reinterpret
  cases hd : dst.rowMajor <;> cases ho : o.rowMajor
  · exact absurd (hd.trans ho.symm) h
  · exact ⟨rfl, rfl⟩
  · exact ⟨rfl, rfl⟩
  · exact absurd (hd.trans ho.symm) h

theorem size_of_hasValues (h : o.hasValues = true) : o.vals.size = o.nnz ∧ 0 < o.nnz := by
  rw [hasValues, Bool.and_eq_true, beq_iff_eq, decide_eq_true_eq] at h
  exact ⟨h.1, lt_of_lt_of_eq h.2 h.1⟩

theorem arranged_reinterpret (ho : o.Compact) (horder : dst.rowMajor ≠ o.rowMajor)
    (hvals : o.hasValues = true → t.isVec = true → o.nnz ≤ dst.vals.size) : Arranged t o (reinterpret t dst o) := by
  obtain ⟨hout, hin⟩ := reinterpret_outerSize (t := t) horder
  refine ⟨rfl, rfl, ⟨hout ▸ ho.covers, ho.first, hout ▸ ho.mono, hout ▸ ho.last, hin ▸ ho.inner⟩, rfl, ?_⟩
  have hvisits : (reinterpret t dst o).visits = o.visits := by
    unfold visits
    rw [hout]
    rfl
  rw [hvisits, entries_swapped]
  refine List.Perm.of_eq (List.map_congr_left fun e he => Prod.ext ?_ ?_)
  · show (if dst.rowMajor = true then (e.1, o.inds.get e.2) else (o.inds.get e.2, e.1)) =
      (if o.rowMajor = true then (e.1, o.inds.get e.2) else (o.inds.get e.2, e.1)).swap
    cases hd : dst.rowMajor <;> cases hr : o.rowMajor
    · exact absurd (hd.trans hr.symm) horder
    · rfl
    · rfl
    · exact absurd (hd.trans hr.symm) horder
  · show (if o.hasValues = true then some ((reinterpret t dst o).vals.get e.2) else none) =
      (if o.hasValues = true then some (o.vals.get e.2) else none).map t.moved
    by_cases hval : o.hasValues = true
    · have hlt := ho.visits_lt he
      obtain ⟨hsize, -⟩ := size_of_hasValues hval
      rw [if_pos hval, if_pos hval, Option.map_some, Option.some_inj]
      unfold reinterpret ValueType.moved
      rw [if_pos hval]
      by_cases hvec : t.isVec = true
      · rw [if_pos hvec, if_pos hvec]
        exact if_pos ⟨hlt.trans_le (hvals hval hvec), hsize ▸ hlt⟩
      · rw [if_neg hvec, if_neg hvec]
    · rw [if_neg hval, if_neg hval]
      rfl

end Before

section Ordering
theorem lt_two_pow_bitCount {n k : ℕ} (h : k < n) : k < 2 ^ bitCount n := by
  have hle : k ≤ n - 1 := Nat.le_sub_one_of_lt h
  rw [bitCount, if_pos (Nat.zero_lt_of_lt h)]
  exact hle.trans_lt (Nat.lt_size_self _)

theorem endBit_le (h : m.innerSize < 2 ^ 31) : m.endBit ≤ 31 := by
  refine max_le ?_ (by decide)
  unfold bitCount
  split
  · exact Nat.size_le.mpr (by omega)
  · exact Nat.zero_le _

/-- The bits that are sorted tell the indices apart. -/
theorem bits_of_index {ebit k : ℕ} (hebit : ebit ≤ 31) (hk : k < 2 ^ ebit) :
    bitsBetween 0 ebit (flipSign (.signed 32) (BitVec.ofNat 32 k)).toNat = k := by
  have hlt : k < 2 ^ 31 := hk.trans_le (Nat.pow_le_pow_right (by decide) hebit)
  have hnat : (BitVec.ofNat 32 k).toNat = k := by
    rw [BitVec.toNat_ofNat]
    exact Nat.mod_eq_of_lt (hlt.trans (by decide))
  have hflip : (flipSign (.signed 32) (BitVec.ofNat 32 k)).toNat = k + 2 ^ 31 := by
    refine (xor_signMask_toNat (w := 32) (by decide) (BitVec.ofNat 32 k)).trans ?_
    rw [hnat]
    exact if_pos hlt
  rw [hflip, bitsBetween, pow_zero, Nat.div_one, Nat.sub_zero, Nat.add_mod, Nat.mod_eq_zero_of_dvd (pow_dvd_pow 2 hebit),
    Nat.add_zero, Nat.mod_mod, Nat.mod_eq_of_lt hk]

/-- A list that is sorted by the bits of its keys is ordered by the keys. -/
theorem sorted_by_bits {A : Type*} {ebit : ℕ} (hebit : ebit ≤ 31) (key : A → ℕ) (L : List A)
    (hkey : ∀ a ∈ L, key a < 2 ^ ebit) (bits : A → BitVec 32) (hbits : ∀ a ∈ L, bits a = BitVec.ofNat 32 (key a)) :
    (sortDigits (fun d a => d.bin (flipSign (.signed 32) (bits a))) (digits 0 ebit) L).Perm L ∧
      (sortDigits (fun d a => d.bin (flipSign (.signed 32) (bits a))) (digits 0 ebit) L).Pairwise fun a b => key a ≤ key b := by
  have hsort := sortDigits_digits (fun a => flipSign (.signed 32) (bits a)) (Nat.zero_le ebit) L
  rw [hsort]
  refine ⟨List.mergeSort_perm _ _, ?_⟩
  refine List.Pairwise.imp_of_mem (fun {a b} ha hb h => ?_) (pairwise_mergeSort (preordered_key _) L)
  rw [(List.mergeSort_perm _ _).mem_iff] at ha hb
  have hle := of_decide_eq_true h
  beta_reduce at hle
  rw [hbits a ha, hbits b hb, bits_of_index hebit (hkey a ha), bits_of_index hebit (hkey b hb)] at hle
  exact hle

theorem placeLines_get {A : Type*} (hm : m.Compact) (sorted : ℕ → ℕ → A) (buffer : ℕ → A) {r k : ℕ} (hk : (r, k) ∈ m.visits) :
    m.placeLines sorted buffer k = sorted r (k - m.ptrs.get r) := by
  have hupto : ∀ n ≤ m.outerSize, r < n → (List.range n).foldl (fun out outerId k =>
      if m.ptrs.get outerId ≤ k ∧ k < m.ptrs.get (outerId + 1) then sorted outerId (k - m.ptrs.get outerId) else out k)
        buffer k = sorted r (k - m.ptrs.get r) := by
    intro n hn hr
    induction n with
    | zero => exact absurd hr (Nat.not_lt_zero r)
    | succ n ih =>
      rw [List.range_succ, List.foldl_append, List.foldl_cons, List.foldl_nil]
      by_cases hin : m.ptrs.get n ≤ k ∧ k < m.ptrs.get (n + 1)
      · obtain rfl : n = r := congrArg Prod.fst (hm.visit_unique (mem_visits.mpr ⟨hn, hin⟩) hk rfl)
        exact if_pos hin
      · have hne : r ≠ n := by
          rintro rfl
          exact hin (mem_visits.mp hk).2
        rw [if_neg hin]
        exact ih (Nat.le_of_succ_le hn) (lt_of_le_of_ne (Nat.le_of_lt_succ hr) hne)
  exact hupto _ le_rfl (mem_visits.mp hk).1

/-- A line of the result is what was sorted. -/
theorem lineAt_placeLines {A : Type*} (hm : m.Compact) (sorted : ℕ → ℕ → A) (buffer : ℕ → A) {r : ℕ} (hr : r < m.outerSize) :
    (m.lineAt r).map (m.placeLines sorted buffer) =
      (List.range (m.ptrs.get (r + 1) - m.ptrs.get r)).map (sorted r) := by
  have hline : (m.lineAt r).map (m.placeLines sorted buffer) = (m.lineAt r).map fun k => sorted r (k - m.ptrs.get r) := by
    refine List.map_congr_left fun k hk => ?_
    rw [mem_lineAt] at hk
    exact placeLines_get hm sorted buffer (mem_visits.mpr ⟨hr, hk⟩)
  rw [hline, lineAt, List.range'_eq_map_range, List.map_map]
  exact List.map_congr_left fun i _ => congrArg (sorted r) (Nat.add_sub_cancel_left _ _)

theorem index_lt (hm : m.Compact) {r i : ℕ} (hr : r < m.outerSize) (hi : i < m.ptrs.get (r + 1) - m.ptrs.get r) :
    m.inds.get (m.ptrs.get r + i) < 2 ^ m.endBit := by
  have hvisit : (r, m.ptrs.get r + i) ∈ m.visits := mem_visits.mpr ⟨hr, by omega⟩
  have hlt := lt_two_pow_bitCount (hm.inner _ (hm.visits_lt hvisit))
  exact hlt.trans_le (Nat.pow_le_pow_right (by decide) (le_max_left _ _))

theorem toNat_index {ebit k : ℕ} (hebit : ebit ≤ 31) (hk : k < 2 ^ ebit) : (BitVec.ofNat 32 k).toNat = k := by
  rw [BitVec.toNat_ofNat]
  exact Nat.mod_eq_of_lt (hk.trans (Nat.pow_lt_pow_right (by decide) (by omega)))

/-- A line that is sorted with its values. -/
theorem sortedPairs_line (hm : m.Compact) (hinner : m.innerSize < 2 ^ 31) (next out : ℕ → BitVec 32 × ℕ) {r : ℕ}
    (hr : r < m.outerSize) :
    ((List.range (m.ptrs.get (r + 1) - m.ptrs.get r)).map (m.sortedPairs next out r)).Perm
        ((m.lineAt r).map fun k => (m.inds.get k, k)) ∧
      (((List.range (m.ptrs.get (r + 1) - m.ptrs.get r)).map (m.sortedPairs next out r)).map Prod.fst).Pairwise (· ≤ ·) := by
  have hebit := endBit_le hinner
  set dist := m.ptrs.get (r + 1) - m.ptrs.get r
  let L : List (BitVec 32 × ℕ) := (List.range dist).map fun i => (BitVec.ofNat 32 (m.inds.get (m.ptrs.get r + i)), m.ptrs.get r + i)
  have hmem : ∀ p ∈ L, p.1 = BitVec.ofNat 32 (m.inds.get p.2) ∧ m.inds.get p.2 < 2 ^ m.endBit := by
    intro p hp
    obtain ⟨i, hi, rfl⟩ := List.mem_map.mp hp
    exact ⟨rfl, index_lt hm hr (List.mem_range.mp hi)⟩
  obtain ⟨hperm, hpair⟩ := sorted_by_bits hebit (fun p : BitVec 32 × ℕ => m.inds.get p.2) L (fun p hp => (hmem p hp).2)
    Prod.fst fun p hp => (hmem p hp).1
  have hwidth : m.endBit ≤ KeyType.width (.signed 32) := hebit.trans (by decide)
  have hlist : (List.range dist).map (m.sortedPairs next out r) =
      (sortDigits (fun d p => d.bin (flipSign (.signed 32) p.1)) (digits 0 m.endBit) L).map fun p => (p.1.toNat, p.2) := by
    calc (List.range dist).map (m.sortedPairs next out r)
        = ((List.range dist).map (radixSortPair (.signed 32) (fun i => BitVec.ofNat 32 (m.inds.get (m.ptrs.get r + i)))
            (fun i => m.ptrs.get r + i) dist 0 m.endBit next out)).map fun p => (p.1.toNat, p.2) := by
          rw [List.map_map]
          rfl
      _ = _ := congrArg (List.map _) (radixSortPair_sorts hwidth _ _ next out)
  have hpairs : (List.range dist).map (m.sortedPairs next out r) =
      (sortDigits (fun d p => d.bin (flipSign (.signed 32) p.1)) (digits 0 m.endBit) L).map fun p => (m.inds.get p.2, p.2) := by
    rw [hlist]
    refine List.map_congr_left fun p hp => Prod.ext ?_ rfl
    obtain ⟨hp1, hlt⟩ := hmem p (hperm.mem_iff.mp hp)
    exact (congrArg BitVec.toNat hp1).trans (toNat_index hebit hlt)
  rw [hpairs]
  constructor
  · refine (hperm.map _).trans (List.Perm.of_eq ?_)
    rw [lineAt, List.range'_eq_map_range, List.map_map, List.map_map]
    rfl
  · rw [List.map_map, List.pairwise_map]
    exact hpair

/-- A line that is sorted without values. -/
theorem sortedInds_line (hm : m.Compact) (hinner : m.innerSize < 2 ^ 31) (next out : ℕ → BitVec 32) {r : ℕ}
    (hr : r < m.outerSize) :
    ((List.range (m.ptrs.get (r + 1) - m.ptrs.get r)).map (m.sortedInds next out r)).Perm ((m.lineAt r).map m.inds.get) ∧
      ((List.range (m.ptrs.get (r + 1) - m.ptrs.get r)).map (m.sortedInds next out r)).Pairwise (· ≤ ·) := by
  have hebit := endBit_le hinner
  have hwidth : m.endBit ≤ KeyType.width (.signed 32) := hebit.trans (by decide)
  set dist := m.ptrs.get (r + 1) - m.ptrs.get r
  let L : List (BitVec 32) := (List.range dist).map fun i => BitVec.ofNat 32 (m.inds.get (m.ptrs.get r + i))
  have hmem : ∀ p ∈ L, p.toNat < 2 ^ m.endBit := by
    intro p hp
    obtain ⟨i, hi, rfl⟩ := List.mem_map.mp hp
    have hlt := index_lt hm hr (List.mem_range.mp hi)
    rw [toNat_index hebit hlt]
    exact hlt
  obtain ⟨hperm, hpair⟩ := sorted_by_bits hebit BitVec.toNat L hmem id fun p _ => (BitVec.ofNat_toNat 32 p).symm
  have hlist : (List.range dist).map (m.sortedInds next out r) =
      (sortDigits (fun d p => d.bin (flipSign (.signed 32) p)) (digits 0 m.endBit) L).map BitVec.toNat := by
    calc (List.range dist).map (m.sortedInds next out r)
        = ((List.range dist).map (radixSort (.signed 32) (fun i => BitVec.ofNat 32 (m.inds.get (m.ptrs.get r + i)))
            dist 0 m.endBit next out)).map BitVec.toNat := by
          rw [List.map_map]
          rfl
      _ = _ := congrArg (List.map _) (radixSort_sorts_sequential hwidth _ next out)
  rw [hlist]
  constructor
  · have hL : L.map BitVec.toNat = (List.range dist).map fun i => m.inds.get (m.ptrs.get r + i) := by
      refine List.map_map.trans (List.map_congr_left fun i hi => ?_)
      exact toNat_index hebit (index_lt hm hr (List.mem_range.mp hi))
    refine (hperm.map BitVec.toNat).trans (List.Perm.of_eq (hL.trans ?_))
    rw [lineAt, List.range'_eq_map_range, List.map_map]
    rfl
  · rw [List.pairwise_map]
    exact hpair

theorem visits_map_perm {B : Type*} {g h : ℕ × ℕ → B} (hline : ∀ i < m.outerSize,
    ((m.lineAt i).map fun k => g (i, k)).Perm ((m.lineAt i).map fun k => h (i, k))) :
    (m.visits.map g).Perm (m.visits.map h) := by
  unfold visits
  rw [List.map_flatMap, List.map_flatMap]
  refine List.Perm.flatMap_left _ fun i hi => ?_
  rw [List.map_map, List.map_map]
  exact hline i (List.mem_range.mp hi)

/-- What `localOrdering` does to a matrix whose values are there, if any are asked for. -/
structure Reordered (valued : Bool) (m r : SparseMatrix V) : Prop where
  shape : r.rowMajor = m.rowMajor ∧ r.nrows = m.nrows ∧ r.ncols = m.ncols
  ptrs : r.ptrs = m.ptrs
  nnz : r.nnz = m.nnz
  values : r.vals.size = if 0 < m.vals.size then m.nnz else 0
  perm : (r.visits.map (r.tagged valued)).Perm (m.visits.map (m.tagged valued))
  inds : ∀ i < m.outerSize, ((m.lineAt i).map r.inds.get).Perm ((m.lineAt i).map m.inds.get)
  ascending : r.Ascending

theorem localOrdering_reordered (hm : m.Compact) (hinner : m.innerSize < 2 ^ 31) {valued : Bool} {b : Buffers}
    (hvals : 0 < m.vals.size → m.nnz ≤ m.vals.size) (hvalued : valued = true → 0 < m.vals.size) :
    ∃ r, localOrdering m b = some r ∧ Reordered valued m r := by
  unfold localOrdering
  rw [if_neg fun h => absurd hm.covers (Nat.not_lt_of_le h.1)]
  by_cases hpos : 0 < m.vals.size
  · rw [if_pos hpos, if_neg (Nat.not_lt_of_le (hvals hpos))]
    set pairs := m.placeLines (m.sortedPairs b.next b.out) b.ordered with hpairs
    have hline : ∀ i < m.outerSize, ((m.lineAt i).map pairs).Perm ((m.lineAt i).map fun k => (m.inds.get k, k)) ∧
        (((m.lineAt i).map pairs).map Prod.fst).Pairwise (· ≤ ·) := by
      intro i hi
      rw [hpairs, lineAt_placeLines hm _ _ hi]
      exact sortedPairs_line hm hinner _ _ hi
    have hfst : ∀ i, ((m.lineAt i).map pairs).map Prod.fst = (m.lineAt i).map fun k => (pairs k).1 := fun i => List.map_map
    refine ⟨_, rfl, ⟨rfl, rfl, rfl⟩, rfl, rfl, (if_pos hpos).symm, ?_, fun i hi => ?_, fun i hi => ?_⟩
    · refine visits_map_perm (m := m) fun i hi => ?_
      have hmap := (hline i hi).1.map fun x : ℕ × ℕ =>
        (if m.rowMajor = true then (i, x.1) else (x.1, i), if valued = true then some (m.vals.get x.2) else none)
      rw [List.map_map, List.map_map] at hmap
      exact hmap
    · have hmap := (hline i hi).1.map Prod.fst
      rw [hfst, List.map_map] at hmap
      exact hmap
    · have hpair := (hline i hi).2
      rw [hfst] at hpair
      exact hpair
  · rw [if_neg hpos]
    obtain rfl : valued = false := by
      cases valued with
      | false => rfl
      | true => exact absurd (hvalued rfl) hpos
    set inds := m.placeLines (m.sortedInds (fun i => (b.next i).1) fun i => (b.out i).1) (fun k => (b.ordered k).1) with hinds
    have hline : ∀ i < m.outerSize, ((m.lineAt i).map inds).Perm ((m.lineAt i).map m.inds.get) ∧
        ((m.lineAt i).map inds).Pairwise (· ≤ ·) := by
      intro i hi
      rw [hinds, lineAt_placeLines hm _ _ hi]
      exact sortedInds_line hm hinner _ _ hi
    refine ⟨_, rfl, ⟨rfl, rfl, rfl⟩, rfl, rfl, ?_, ?_, fun i hi => (hline i hi).1, fun i hi => (hline i hi).2⟩
    · rw [if_neg hpos]
      exact Nat.eq_zero_of_not_pos hpos
    · refine visits_map_perm (m := m) fun i hi => ?_
      have hmap := (hline i hi).1.map fun x : ℕ => (if m.rowMajor = true then (i, x) else (x, i), (none : Option V))
      rw [List.map_map, List.map_map] at hmap
      exact hmap

theorem Reordered.compact {valued : Bool} (h : Reordered valued m r) (hm : m.Compact) : r.Compact := by
  have hout : r.outerSize = m.outerSize := by
    unfold outerSize
    rw [h.shape.1, h.shape.2.1, h.shape.2.2]
  have hin : r.innerSize = m.innerSize := by
    unfold innerSize
    rw [h.shape.1, h.shape.2.1, h.shape.2.2]
  refine ⟨?_, ?_, ?_, ?_, fun k hk => ?_⟩
  · rw [hout, h.ptrs]
    exact hm.covers
  · rw [h.ptrs]
    exact hm.first
  · rw [hout, h.ptrs]
    exact hm.mono
  · rw [hout, h.ptrs, h.nnz]
    exact hm.last
  · rw [h.nnz] at hk
    rw [hin]
    obtain ⟨i, hi⟩ := hm.exists_visit hk
    obtain ⟨hlt, hrange⟩ := mem_visits.mp hi
    have hmem := (h.inds i hlt).mem_iff.mp (List.mem_map_of_mem (mem_lineAt.mpr hrange))
    obtain ⟨k', hk', he⟩ := List.mem_map.mp hmem
    rw [← he]
    exact hm.inner k' (hm.visits_lt (mem_visits.mpr ⟨hlt, mem_lineAt.mp hk'⟩))

end Ordering

section Results
theorem hasValues_iff : m.hasValues = true ↔ m.vals.size = m.nnz ∧ 0 < m.vals.size := by
  rw [hasValues, Bool.and_eq_true, beq_iff_eq, decide_eq_true_eq]
  rfl

theorem Moved.nnz_eq (h : Moved t dst o m) : m.nnz = o.nnz := by
  cases h <;> rfl

/-- How many values there are before the ordering. -/
theorem Moved.vals_size (h : Moved t dst o m) : m.vals.size =
    if o.hasValues = true then if dst.rowMajor ≠ o.rowMajor ∧ t.isVec = true then dst.vals.size else o.nnz
    else dst.vals.size := by
  cases h with
  | reinterpret h =>
    unfold SparseMatrix.reinterpret
    by_cases hval : o.hasValues = true
    · rw [if_pos hval, if_pos hval]
      by_cases hvec : t.isVec = true
      · rw [if_pos hvec, if_pos ⟨h, hvec⟩]
      · rw [if_neg hvec, if_neg fun hb => hvec hb.2]
        exact (size_of_hasValues hval).1
    · rw [if_neg hval, if_neg hval]
  | scatter h hc hv hs hr =>
    unfold SparseMatrix.scatter
    by_cases hval : o.hasValues = true
    · rw [if_pos hval, if_pos hval, if_neg fun hb => hb.1 h]
    · rw [if_neg hval, if_neg hval]

theorem exists_moved (t : ValueType V) (dst o : SparseMatrix V) : ∃ m, Moved t dst o m := by
  by_cases h : dst.rowMajor = o.rowMajor
  · obtain ⟨s, hs⟩ : ∃ s, (o.visits.map Prod.snd).foldl (countOffset o.inds.get) (fun _ => 0, fun _ => 0) = s := ⟨_, rfl⟩
    obtain ⟨r, hr⟩ : ∃ r, o.visits.foldl (reorderVal t s.2 o (exclusiveScan s.1) o.hasValues)
      (fun _ => 0, if o.hasValues then o.vals.get else dst.vals.get) = r := ⟨_, rfl⟩
    exact ⟨_, .scatter h (List.Perm.refl _) (List.Perm.refl _) hs hr⟩
  · exact ⟨_, .reinterpret h⟩

theorem Moved.arranged (h : Moved t dst o m) (ho : o.Compact)
    (hshape : dst.rowMajor = o.rowMajor → dst.nrows = o.ncols ∧ dst.ncols = o.nrows)
    (hvals : o.hasValues = true → dst.rowMajor ≠ o.rowMajor → t.isVec = true → o.nnz ≤ dst.vals.size) : Arranged t o m := by
  cases h with
  | reinterpret h => exact arranged_reinterpret ho h fun hval => hvals hval h
  | scatter h hc hv hs hr => exact arranged_scatter ho h (hshape h).1 (hshape h).2 hc hv hs hr

theorem isSome_of_mem {e : (ℕ × ℕ) × Option V} (he : e ∈ m.entries) : e.2.isSome = m.hasValues := by
  obtain ⟨v, -, rfl⟩ := List.mem_map.mp he
  unfold tagged
  cases m.hasValues <;> rfl

theorem Transposed.hasValues_eq (h : Transposed t o r) (ho : o.Compact) (hpos : 0 < o.nnz) : r.hasValues = o.hasValues := by
  obtain ⟨i, hi⟩ := ho.exists_visit hpos
  have he : o.tagged o.hasValues (i, 0) ∈ o.entries := List.mem_map_of_mem hi
  have hr := h.entries.mem_iff.mpr (List.mem_map_of_mem he)
  exact (isSome_of_mem hr).symm.trans (Option.isSome_map.trans (isSome_of_mem he))

/-- What `localOrdering` leaves has the shape and the entries that there were. -/
theorem localOrdering_sizes {b : Buffers} (h : localOrdering m b = some r) : r.nrows = m.nrows ∧ r.ncols = m.ncols ∧
    r.nnz = m.nnz ∧ (r.vals.size = if 0 < m.vals.size then m.nnz else 0) ∧ (0 < m.vals.size → m.nnz ≤ m.vals.size) := by
  unfold localOrdering at h
  split_ifs at h with hptrs hpos hlt <;> cases h
  · exact ⟨rfl, rfl, rfl, (if_pos hpos).symm, fun _ => Nat.le_of_not_lt hlt⟩
  · refine ⟨rfl, rfl, rfl, ?_, fun h => absurd h hpos⟩
    rw [if_neg hpos]
    exact Nat.eq_zero_of_not_pos hpos

theorem Arranged.transposed (h : Arranged t o m) (hval : m.hasValues = o.hasValues) : Transposed t o m := by
  refine ⟨h.rows, h.cols, h.compact, ?_⟩
  show (m.visits.map (m.tagged m.hasValues)).Perm _
  rw [hval]
  exact h.perm

theorem Arranged.reordered (h : Arranged t o m) (hr : Reordered o.hasValues m r) (hval : r.hasValues = o.hasValues) :
    Transposed t o r := by
  refine ⟨hr.shape.2.1.trans h.rows, hr.shape.2.2.trans h.cols, hr.compact h.compact, ?_⟩
  show (r.visits.map (r.tagged r.hasValues)).Perm _
  rw [hval]
  exact hr.perm.trans h.perm

theorem transposed_of_fits (ho : o.Compact) (hrows : o.nrows < 2 ^ 31) (hcols : o.ncols < 2 ^ 31) (hfits : Fits t postOrder dst o)
    {result : Option (SparseMatrix V)} (h : TransposeFrom t postOrder dst o result) :
    ∃ r, result = some r ∧ Transposed t o r ∧ (postOrder = true → r.Ascending) := by
  obtain ⟨hshape, hvalues⟩ := hfits
  obtain ⟨m, hm, hresult⟩ := h
  have hnnz := hm.nnz_eq
  have hsize := hm.vals_size
  have hoppose : o.hasValues = true → dst.rowMajor ≠ o.rowMajor → t.isVec = true → o.nnz ≤ dst.vals.size := by
    intro hval hne hvec
    rw [if_pos hval] at hvalues
    have hle := hvalues hne hvec
    cases postOrder with
    | true => exact hle
    | false => exact (show dst.vals.size = o.nnz from hle).ge
  have harr := hm.arranged ho hshape hoppose
  -- the values that are there before the ordering are enough
  have henough : o.hasValues = true → 0 < m.vals.size ∧ m.nnz ≤ m.vals.size := by
    intro hval
    have hpos := (size_of_hasValues hval).2
    rw [hnnz, hsize, if_pos hval]
    split
    next hb =>
      have hle := hoppose hval hb.1 hb.2
      exact ⟨hpos.trans_le hle, hle⟩
    next => exact ⟨hpos, le_rfl⟩
  cases postOrder with
  | false =>
    refine ⟨m, hresult.symm, harr.transposed ?_, fun h => by cases h⟩
    rw [Bool.eq_iff_iff, hasValues_iff, hnnz]
    by_cases hval : o.hasValues = true
    · refine iff_of_true ⟨?_, (henough hval).1⟩ hval
      rw [if_pos hval] at hvalues
      rw [hsize, if_pos hval]
      split
      next hb => exact hvalues hb.1 hb.2
      next => rfl
    · refine iff_of_false (fun h => ?_) hval
      rw [if_neg hval] at hvalues hsize
      rw [hsize] at h
      rcases hvalues with h0 | hne
      · omega
      · exact hne h.1
  | true =>
    obtain ⟨b, rfl⟩ := hresult
    have hinner : m.innerSize < 2 ^ 31 := by
      unfold innerSize
      rw [harr.rows, harr.cols]
      split
      · exact hrows
      · exact hcols
    have hle : 0 < m.vals.size → m.nnz ≤ m.vals.size := by
      intro hpos
      by_cases hval : o.hasValues = true
      · exact (henough hval).2
      · rw [if_neg hval] at hvalues hsize
        rcases hvalues with h0 | h0
        · rw [hnnz, h0]
          exact Nat.zero_le _
        · rw [hsize] at hpos
          exact absurd h0 hpos.ne'
    obtain ⟨r, hr, hre⟩ := localOrdering_reordered (b := b) harr.compact hinner hle fun hval => (henough hval).1
    refine ⟨r, hr, harr.reordered hre ?_, fun _ => hre.ascending⟩
    rw [Bool.eq_iff_iff, hasValues_iff, hre.nnz, hre.values]
    by_cases hval : o.hasValues = true
    · have hpos := (size_of_hasValues hval).2
      rw [if_pos (henough hval).1, hnnz]
      exact iff_of_true ⟨rfl, hpos⟩ hval
    · refine iff_of_false (fun h => ?_) hval
      rw [if_neg hval] at hvalues hsize
      rw [hsize, hnnz] at h
      rcases hvalues with h0 | h0
      · rw [h0, ite_self] at h
        exact absurd h.2 (Nat.lt_irrefl 0)
      · rw [if_neg (Nat.not_lt.mpr (le_of_eq h0))] at h
        exact absurd h.2 (Nat.lt_irrefl 0)

theorem fits_of_transposed (ho : o.Compact) (h : ∀ result, TransposeFrom t postOrder dst o result →
    ∃ r, result = some r ∧ Transposed t o r) : Fits t postOrder dst o := by
  obtain ⟨m, hm⟩ := exists_moved t dst o
  have hnnz := hm.nnz_eq
  have hsize := hm.vals_size
  have hdims : dst.rowMajor = o.rowMajor → m.nrows = dst.nrows ∧ m.ncols = dst.ncols := by
    intro horder
    cases hm with
    | reinterpret hne => exact absurd horder hne
    | scatter _ _ _ _ _ => exact ⟨rfl, rfl⟩
  cases postOrder with
  | false =>
    obtain ⟨r, hr, htrans⟩ := h _ ⟨m, hm, rfl⟩
    obtain rfl := Option.some.inj hr
    refine ⟨fun horder => ?_, ?_⟩
    · rw [← (hdims horder).1, ← (hdims horder).2]
      exact ⟨htrans.rows, htrans.cols⟩
    · split
      next hval =>
        intro hne hvec
        have hmval := (htrans.hasValues_eq ho (size_of_hasValues hval).2).trans hval
        rw [if_pos hval, if_pos ⟨hne, hvec⟩] at hsize
        rw [← hsize, ← hnnz]
        exact (hasValues_iff.mp hmval).1
      next hval =>
        rw [if_neg hval] at hsize
        refine (Nat.eq_zero_or_pos o.nnz).imp_right fun hpos hd => hval ?_
        rw [← htrans.hasValues_eq ho hpos, hasValues_iff, hsize, hnnz]
        exact ⟨hd, hd ▸ hpos⟩
  | true =>
    obtain ⟨r, hr, htrans⟩ := h _ ⟨m, hm, ⟨fun _ => (0, 0), fun _ => (0, 0), fun _ => (0, 0)⟩, rfl⟩
    obtain ⟨hrows, hcols, hrnnz, hrsize, hle⟩ := localOrdering_sizes hr
    refine ⟨fun horder => ?_, ?_⟩
    · rw [← (hdims horder).1, ← (hdims horder).2, ← hrows, ← hcols]
      exact ⟨htrans.rows, htrans.cols⟩
    · split
      next hval =>
        intro hne hvec
        have hrval := (htrans.hasValues_eq ho (size_of_hasValues hval).2).trans hval
        rw [if_pos hval, if_pos ⟨hne, hvec⟩] at hsize
        have hpos := (hasValues_iff.mp hrval).2
        rw [hrsize] at hpos
        split at hpos
        next hm0 =>
          rw [← hnnz, ← hsize]
          exact hle hm0
        next => exact absurd hpos (Nat.lt_irrefl 0)
      next hval =>
        rw [if_neg hval] at hsize
        refine (Nat.eq_zero_or_pos o.nnz).imp_right fun hpos => Nat.eq_zero_of_not_pos fun hd => hval ?_
        rw [← htrans.hasValues_eq ho hpos, hasValues_iff, hrsize, hrnnz, hnnz, if_pos (hsize ▸ hd)]
        exact ⟨rfl, hpos⟩

/-- `transposeFrom` leaves the transpose, with its lines ascending where that is asked for, if and
only if the destination fits. -/
theorem transposed_iff (ho : o.Compact) (hrows : o.nrows < 2 ^ 31) (hcols : o.ncols < 2 ^ 31) :
    (∀ result, TransposeFrom t postOrder dst o result →
      ∃ r, result = some r ∧ Transposed t o r ∧ (postOrder = true → r.Ascending)) ↔ Fits t postOrder dst o := by
  constructor
  · intro h
    refine fits_of_transposed ho fun result hresult => ?_
    obtain ⟨r, hr, htrans, -⟩ := h result hresult
    exact ⟨r, hr, htrans⟩
  · exact fun hfits _ hresult => transposed_of_fits ho hrows hcols hfits hresult

def scalar : ValueType ℤ := ⟨false, id⟩

/-- A row of two columns, with one entry. -/
def wide : SparseMatrix ℤ := ⟨true, 1, 2, ⟨2, fun i => i⟩, ⟨1, fun _ => 1⟩, ⟨1, fun _ => 5⟩⟩

/-- What the constructor makes. -/
def blank (nrows ncols : ℕ) : SparseMatrix ℤ := ⟨true, nrows, ncols, ⟨2, fun _ => 0⟩, ⟨0, fun _ => 0⟩, ⟨0, fun _ => 0⟩⟩

theorem wide_compact : wide.Compact := by
  refine ⟨by decide, rfl, fun r _ => Nat.le_succ r, rfl, fun _ _ => ?_⟩
  show 1 < 2
  decide

theorem transposed_wide : wide.Compact ∧ ∀ result, TransposeFrom scalar true (blank 2 1) wide result →
    ∃ r, result = some r ∧ Transposed scalar wide r ∧ (true = true → r.Ascending) :=
  ⟨wide_compact, (transposed_iff wide_compact (by decide) (by decide)).mpr
    ⟨fun _ => ⟨rfl, rfl⟩, fun h => absurd rfl h⟩⟩

/-- A matrix that has another shape keeps it. -/
theorem not_transposed_blank : ¬ ∀ dst o : SparseMatrix ℤ, o.Compact → o.nrows < 2 ^ 31 → o.ncols < 2 ^ 31 →
    ∀ result, TransposeFrom scalar true dst o result →
      ∃ r, result = some r ∧ Transposed scalar o r ∧ (true = true → r.Ascending) := by
  intro h
  have hfits : Fits scalar true (blank 0 0) wide := by
    refine fits_of_transposed wide_compact fun result hresult => ?_
    obtain ⟨r, hr, htrans, -⟩ := h (blank 0 0) wide wide_compact (by decide) (by decide) result hresult
    exact ⟨r, hr, htrans⟩
  exact absurd (hfits.1 rfl).1 (by decide)

end Results

end Zpc.SparseMatrix
