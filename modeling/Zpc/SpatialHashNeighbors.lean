import Zpc.SpatialHashBuild
import Mathlib.Data.Rat.Floor

/-!
# The neighbours in a spatial hash

A query visits a primitive when the cells of the two boxes have one in common. The cells of a box are half-open ranges,
so that boxes that intersect have a common cell unless they touch on a border, or one is flat on it.
-/
namespace Zpc.SpatialHash
open Interleaving LBvh SparseMatrix

variable {n : ℕ} {K : Type*} [Field K] [LinearOrder K] [FloorRing K]

section Segments
variable {h : SpatialHash K n}

theorem mapM_spec {A B : Type*} {f : A → Option B} (l : List A) (hl : ∀ a ∈ l, ∃ b, f a = some b) :
    ∃ bs, l.mapM f = some bs ∧ ∀ b, b ∈ bs ↔ ∃ a ∈ l, f a = some b := by
  induction l with
  | nil => exact ⟨[], rfl, fun b => by simp⟩
  | cons a l ih =>
    obtain ⟨b, hb⟩ := hl a List.mem_cons_self
    obtain ⟨bs, hbs, hmem⟩ := ih fun x hx => hl x (List.mem_cons_of_mem _ hx)
    refine ⟨b :: bs, by rw [List.mapM_cons, hb, hbs]; rfl, fun x => ?_⟩
    rw [List.mem_cons, hmem, List.exists_mem_cons_iff, hb, Option.some_inj, eq_comm]

/-- The table is at rest, and the segments of its cells make up the index array. -/
structure Valid (h : SpatialHash K n) : Prop where
  sound : h.table.Sound h.mem
  key : h.table.keySentinel = none
  partitioned : h.Partitioned

omit [Field K] [LinearOrder K] [FloorRing K] in
theorem Valid.query_cases (hv : Valid h) (loc : Cell n) :
    (∃ cno : ℕ, cno < h.mem.cnt ∧ h.mem.activeKeys cno = some loc ∧ h.table.query h.mem (some loc) = cno) ∨
      h.table.query h.mem (some loc) = Bht.sentinel := by
  rcases hv.sound.query_cases (k := some loc) (hv.key ▸ Option.some_ne_none loc) with hfound | ⟨-, habsent⟩
  · exact .inl hfound
  · exact .inr habsent

omit [Field K] [LinearOrder K] [FloorRing K] in
theorem Valid.key_of_query (hv : Valid h) {loc : Cell n} {cno : ℕ} (hq : h.table.query h.mem (some loc) = cno) :
    h.mem.activeKeys cno = some loc := by
  rcases hv.query_cases loc with ⟨cno', -, hkey, hq'⟩ | hq'
  · obtain rfl : cno' = cno := by
      rw [hq] at hq'
      exact (Int.ofNat.inj hq').symm
    exact hkey
  · rw [hq, Bht.sentinel] at hq'
    omega

omit [Field K] [LinearOrder K] [FloorRing K] in
theorem Valid.segment_spec (hv : Valid h) (loc : Cell n) : ∃ l, h.segment loc = some l ∧ ∀ i, i ∈ l ↔
    ∃ cno : ℕ, cno < h.mem.cnt ∧ h.table.query h.mem (some loc) = cno ∧
      ∃ k, h.InSegment cno k ∧ h.indices[k]? = some i := by
  rcases hv.query_cases loc with ⟨cno, hlt, -, hq⟩ | hq
  case inr =>
    refine ⟨[], by rw [segment, hq]; rfl, fun i => ⟨fun hi => absurd hi List.not_mem_nil, ?_⟩⟩
    rintro ⟨cno, -, hcno, -⟩
    rw [hq] at hcno
    exact absurd hcno (by rw [Bht.sentinel]; omega)
  case inl =>
    obtain ⟨st, ed, hst, hed, hle, hlen⟩ := hv.partitioned.segment cno hlt
    obtain ⟨l, hl, hmem⟩ := mapM_spec (f := fun no => h.indices[no]?) (List.range' st (ed - st)) fun no hno => by
      have hno := List.mem_range'_1.mp hno
      exact ⟨_, List.getElem?_eq_getElem (by omega)⟩
    refine ⟨l, ?_, fun i => (hmem i).trans ?_⟩
    · rw [segment, hq]
      simp only [Int.toNat_natCast, hst, hed, Option.bind_some]
      rw [if_neg (by omega), hl]
    · constructor
      · rintro ⟨k, hk, hget⟩
        have hk := List.mem_range'_1.mp hk
        exact ⟨cno, hlt, hq, k, ⟨st, ed, hst, hed, by omega, by omega⟩, hget⟩
      · rintro ⟨cno', -, hq', k, ⟨st', ed', hst', hed', hge, hlt'⟩, hget⟩
        obtain rfl : cno' = cno := by
          rw [hq] at hq'
          omega
        cases hst.symm.trans hst'
        cases hed.symm.trans hed'
        exact ⟨k, List.mem_range'_1.mpr (by omega), hget⟩

/-- The primitives in the segments of the cells of the box are visited. -/
theorem Valid.iterNeighbors_spec (hv : Valid h) (bv : Box (n + 1) K) : ∃ l, h.iterNeighbors bv = some l ∧ ∀ i, i ∈ l ↔
    ∃ loc ∈ cells h.dx bv, ∃ cno : ℕ, cno < h.mem.cnt ∧ h.table.query h.mem (some loc) = cno ∧
      ∃ k, h.InSegment cno k ∧ h.indices[k]? = some i := by
  obtain ⟨ls, hls, hmem⟩ := mapM_spec (cells h.dx bv) fun loc _ => (hv.segment_spec loc).imp fun _ hl => hl.1
  refine ⟨ls.flatten, by rw [iterNeighbors, hls, Option.map_some], fun i => ?_⟩
  rw [List.mem_flatten]
  constructor
  · rintro ⟨l, hl, hi⟩
    obtain ⟨loc, hloc, hseg⟩ := (hmem l).mp hl
    obtain ⟨l', hl', hspec⟩ := hv.segment_spec loc
    cases hseg.symm.trans hl'
    exact ⟨loc, hloc, (hspec i).mp hi⟩
  · rintro ⟨loc, hloc, hi⟩
    obtain ⟨l, hl, hspec⟩ := hv.segment_spec loc
    exact ⟨l, (hmem l).mpr ⟨loc, hloc, hl⟩, (hspec i).mpr hi⟩

end Segments

section Build
variable {epsilon dx : K} {primBvs : List (Box (n + 1) K)} {h h' : SpatialHash K n}

theorem mem_items {cells : ℕ → List (Cell n)} {cnt : ℕ} {item : ℕ × Cell n} :
    item ∈ items cells cnt ↔ item.1 < cnt ∧ item.2 ∈ cells item.1 := by
  simp only [items, List.mem_flatMap, List.mem_range, List.mem_map]
  constructor
  · rintro ⟨i, hi, loc, hloc, rfl⟩
    exact ⟨hi, hloc⟩
  · rintro ⟨hi, hloc⟩
    exact ⟨item.1, hi, item.2, hloc, rfl⟩

omit [Field K] [LinearOrder K] [FloorRing K] in
theorem partitioned_scanned {total : ℕ → ℕ} {t : Bht (Option (Cell n))} {m : Bht.Memory (Option (Cell n))}
    {indices : List ℕ} (hlen : indices.length = exclusiveScan total m.cnt) :
    Partitioned (⟨dx, t, m, indices, scanned m total⟩ : SpatialHash K n) where
  monotone := List.pairwise_map.mpr (List.pairwise_lt_range.imp fun hlt => exclusiveScan_mono total hlt.le)
  segment cno hlt := ⟨_, _, scanned_getElem? m total (Nat.le_of_lt hlt), scanned_getElem? m total hlt,
    exclusiveScan_mono total (Nat.le_succ cno), hlen ▸ exclusiveScan_mono total hlt⟩
  covered k hk := by
    obtain ⟨cno, hlt, j, hj, rfl⟩ := exists_segment total (hlen ▸ hk)
    have hsucc : exclusiveScan total (cno + 1) = exclusiveScan total cno + total cno := rfl
    refine ⟨cno, ⟨hlt, _, _, scanned_getElem? m total hlt.le, scanned_getElem? m total hlt, by omega, by omega⟩, ?_⟩
    rintro cno' ⟨hlt', st, ed, hst, hed, hle, hlt''⟩
    cases (scanned_getElem? m total (Nat.le_of_lt hlt')).symm.trans hst
    cases (scanned_getElem? m total hlt').symm.trans hed
    have hsucc' : exclusiveScan total cno'.succ = exclusiveScan total cno' + total cno' := rfl
    exact (segment_unique total hj (by omega)
      (show _ = exclusiveScan total cno' + (exclusiveScan total cno + j - exclusiveScan total cno') by omega)).1.symm

/-- The segments of the cells hold the primitives that cover them. -/
structure Grouped (dx : K) (primBvs : List (Box (n + 1) K)) (h : SpatialHash K n) : Prop where
  valid : Valid h
  dx_eq : h.dx = dx
  active : ∀ i < primBvs.length, ∀ loc ∈ cellsOf dx primBvs i, ∃ cno : ℕ, cno < h.mem.cnt ∧
    h.table.query h.mem (some loc) = cno ∧ ∃ k, h.InSegment cno k ∧ h.indices[k]? = some i
  holds : ∀ cno < h.mem.cnt, ∀ k i, h.InSegment cno k → h.indices[k]? = some i → i < primBvs.length ∧
    ∃ loc ∈ cellsOf dx primBvs i, h.mem.activeKeys cno = some loc

omit [Field K] [LinearOrder K] [FloorRing K] in
theorem evaluateTableSize_pos (t : Bht (Option (Cell n))) {entryCnt : ℕ} (hpos : 0 < entryCnt) :
    0 < t.evaluateTableSize entryCnt := by
  rw [Bht.evaluateTableSize, if_neg hpos.ne', next2pow]
  have hpow := Nat.two_pow_pos (bitCount entryCnt)
  omega

theorem Builds.grouped (hb : Builds epsilon dx primBvs h h') (hne : primBvs ≠ []) : Grouped dx primBvs h' := by
  cases hb with
  | empty _ hnil => exact absurd hnil hne
  | built _ _ made hkey hfits indices activeKeys t m hactivates counted placed hcounted hplaced counts hcounts old hold
      left grouped hgrouped =>
    have hpos := evaluateTableSize_pos made (List.length_pos_iff.mpr hne)
    obtain ⟨hsound, hnone, hactive⟩ := hactivates.spec (Bht.sound_empty _ indices activeKeys) hkey
      (numBuckets_resized hpos hfits)
    have hitems : ∀ item ∈ items (cellsOf dx primBvs) primBvs.length, Active t m item := fun item hitem => by
      obtain ⟨hi, hloc⟩ := mem_items.mp hitem
      exact hactive item.1 hi item.2 hloc
    have hend := passes_spec (fun item hitem => hitems item (hplaced.mem_iff.mp hitem)) (hcounted.trans hplaced.symm)
      hcounts hold hgrouped
    have hzero : ∀ cno, left cno = 0 := fun cno => (hend.left cno).trans List.countP_nil
    have hmem : ∀ item, item ∈ placed.reverse ↔ item.1 < primBvs.length ∧ item.2 ∈ cellsOf dx primBvs item.1 :=
      fun item => by rw [List.mem_reverse, hplaced.mem_iff, mem_items]
    have hsucc : ∀ cno, exclusiveScan counts (cno + 1) = exclusiveScan counts cno + counts cno := fun _ => rfl
    have hvalid : Valid (⟨dx, t, m, grouped, scanned m counts⟩ : SpatialHash K n) :=
      ⟨hsound, hnone, partitioned_scanned hend.length⟩
    refine ⟨hvalid, rfl, fun i hi loc hloc => ?_, fun cno hlt k i hk hget => ?_⟩
    · obtain ⟨hlt, hq⟩ := (hitems (i, loc) (mem_items.mpr ⟨hi, hloc⟩)).query
      obtain ⟨j, -, hj, hget⟩ := hend.placed (i, loc) ((hmem _).mpr ⟨hi, hloc⟩)
      refine ⟨_, hlt, hq, _, ⟨_, _, scanned_getElem? m counts hlt.le, scanned_getElem? m counts hlt, ?_, ?_⟩, hget⟩
      · exact Nat.le_add_right _ _
      · rw [hsucc]
        exact Nat.add_lt_add_left hj _
    · obtain ⟨st, ed, hst, hed, hge, hlt'⟩ := hk
      cases (scanned_getElem? m counts (Nat.le_of_lt hlt)).symm.trans hst
      cases (scanned_getElem? m counts hlt).symm.trans hed
      rw [hsucc] at hlt'
      obtain ⟨item, hitem, hcno, hget'⟩ := hend.sound cno hlt (k - exclusiveScan counts cno)
        ((hzero cno).le.trans (Nat.zero_le _)) (by omega)
      rw [Nat.add_sub_cancel' hge] at hget'
      obtain rfl : item.1 = i := Option.some.inj (hget'.symm.trans hget)
      obtain ⟨hi, hloc⟩ := (hmem item).mp hitem
      obtain ⟨-, hq⟩ := (hitems item (mem_items.mpr ⟨hi, hloc⟩)).query
      exact ⟨hi, item.2, hloc, hvalid.key_of_query (hcno ▸ hq)⟩

/-- A primitive is visited when it has a cell in common with the query. -/
theorem Grouped.mem_iff (hg : Grouped dx primBvs h) (bv : Box (n + 1) K) : ∃ l, h.iterNeighbors bv = some l ∧ ∀ i,
    i ∈ l ↔ i < primBvs.length ∧ ∃ loc ∈ cellsOf dx primBvs i, loc ∈ cells dx bv := by
  obtain ⟨l, hl, hmem⟩ := hg.valid.iterNeighbors_spec bv
  refine ⟨l, hl, fun i => (hmem i).trans ?_⟩
  rw [hg.dx_eq]
  constructor
  · rintro ⟨loc, hloc, cno, hlt, hq, k, hk, hget⟩
    obtain ⟨hi, loc', hloc', hkey⟩ := hg.holds cno hlt k i hk hget
    cases Option.some.inj (hkey.symm.trans (hg.valid.key_of_query hq))
    exact ⟨hi, loc, hloc', hloc⟩
  · rintro ⟨hi, loc, hloc, hbv⟩
    exact ⟨loc, hbv, hg.active i hi loc hloc⟩

end Build

section Geometry
variable [IsStrictOrderedRing K] {dx : K} {b q : Box (n + 1) K} {u v w x : K}

omit [IsStrictOrderedRing K] in
theorem mem_cells {bv : Box (n + 1) K} {loc : Cell n} : loc ∈ cells dx bv ↔ ∀ d, lower dx bv d ≤ loc d ∧
    loc d < if d = 0 then upper dx bv d else max (lower dx bv d + 1) (upper dx bv d) := by
  have hbound : ∀ (d : Fin (n + 1)) (a l u : ℤ), (0 ≤ a ∧ a < if d = 0 then u - l else max 1 (u - l)) ↔
      l ≤ l + a ∧ l + a < if d = 0 then u else max (l + 1) u := by
    intro d a l u
    split
    next => omega
    next => omega
  rw [cells, List.mem_map]
  constructor
  · rintro ⟨a, ha, rfl⟩ d
    exact (hbound d _ _ _).mp (Collapse.mem_range.mp ha d)
  · intro h
    refine ⟨fun d => loc d - lower dx bv d, Collapse.mem_range.mpr fun d => (hbound d _ _ _).mpr ?_, ?_⟩
    · rw [add_sub_cancel]
      exact h d
    · exact funext fun d => add_sub_cancel _ _

omit [IsStrictOrderedRing K] in
theorem floor_lt_ceil_iff (h : u ≤ x) : ⌊u⌋ < ⌈x⌉ ↔ ¬ (u = x ∧ (⌊u⌋ : K) = u) := by
  rw [Int.lt_ceil]
  constructor
  · rintro hlt ⟨rfl, hint⟩
    exact hlt.ne hint
  · intro hne
    refine lt_of_le_of_ne ((Int.floor_le u).trans h) fun heq => hne ?_
    have hux : u = x := le_antisymm h (heq ▸ Int.floor_le u)
    exact ⟨hux, heq.trans hux.symm⟩

/-- A flat range has a cell, so that only a touch from outside is missed. -/
theorem floor_lt_max_iff (h : u ≤ x) (hw : w ≤ x) :
    ⌊u⌋ < max (⌊w⌋ + 1) ⌈x⌉ ↔ ¬ (u = x ∧ (⌊u⌋ : K) = u ∧ w < x) := by
  rw [lt_max_iff, floor_lt_ceil_iff h, Int.lt_add_one_iff]
  constructor
  · rintro (hle | hne) ⟨heq, hint, hlt⟩
    · have hfloor : (⌊u⌋ : K) ≤ w := (Int.cast_le.mpr hle).trans (Int.floor_le w)
      rw [hint, heq] at hfloor
      exact hfloor.not_gt hlt
    · exact hne ⟨heq, hint⟩
  · intro hne
    by_cases hlt : w < x
    · exact .inr fun ⟨heq, hint⟩ => hne ⟨heq, hint, hlt⟩
    · have hwx : w = x := le_antisymm hw (not_lt.mp hlt)
      exact .inl (Int.floor_le_floor (hwx ▸ h))

theorem exists_common_iff {n : ℕ} {l l' u u' : Fin n → ℤ} :
    (∃ loc : Fin n → ℤ, (∀ d, l d ≤ loc d ∧ loc d < u d) ∧ ∀ d, l' d ≤ loc d ∧ loc d < u' d) ↔
      ∀ d, l d < u d ∧ l d < u' d ∧ l' d < u d ∧ l' d < u' d := by
  constructor
  · rintro ⟨loc, hloc, hloc'⟩ d
    have h := hloc d
    have h' := hloc' d
    omega
  · intro h
    refine ⟨fun d => max (l d) (l' d), fun d => ?_, fun d => ?_⟩
    · have hd := h d
      show l d ≤ max (l d) (l' d) ∧ max (l d) (l' d) < u d
      omega
    · have hd := h d
      show l' d ≤ max (l d) (l' d) ∧ max (l d) (l' d) < u' d
      omega

/-- Boxes that intersect have a cell in common unless they miss each other in some direction. -/
theorem exists_cell_iff (hdx : 0 < dx) (h : overlaps b q = true) :
    (∃ loc ∈ cells dx b, loc ∈ cells dx q) ↔ ∀ d, ¬ Misses dx b q d := by
  have hinv : 0 < 1 / dx := one_div_pos.mpr hdx
  have hle : ∀ {x y : K}, x ≤ y → x * (1 / dx) ≤ y * (1 / dx) := fun hxy => mul_le_mul_of_nonneg_right hxy hinv.le
  have heq : ∀ {x y : K}, x * (1 / dx) = y * (1 / dx) ↔ x = y := mul_left_inj' hinv.ne'
  have hlt : ∀ {x y : K}, x * (1 / dx) < y * (1 / dx) ↔ x < y := mul_lt_mul_iff_left₀ hinv
  simp only [mem_cells]
  rw [exists_common_iff]
  refine forall_congr' fun d => ?_
  have hd := of_decide_eq_true h d
  rw [not_or, not_lt, not_lt] at hd
  have hb := hle (b.le d)
  have hq := hle (q.le d)
  have hbq := hle hd.2
  have hqb := hle hd.1
  simp only [lower, upper, Misses, OnBorder]
  by_cases h0 : d = 0
  · simp only [h0, if_true, true_or, true_and, and_true]
    subst h0
    rw [floor_lt_ceil_iff hb, floor_lt_ceil_iff hbq, floor_lt_ceil_iff hqb, floor_lt_ceil_iff hq, heq, heq, heq, heq]
    tauto
  · simp only [h0, if_false, false_or, false_and, or_false]
    rw [floor_lt_max_iff hb hb, floor_lt_max_iff hbq hq, floor_lt_max_iff hqb hb, floor_lt_max_iff hq hq, heq, heq, heq,
      heq, hlt, hlt]
    rw [not_or]
    constructor
    · rintro ⟨-, hmin, hmax, -⟩
      exact ⟨hmin, hmax⟩
    · rintro ⟨hmin, hmax⟩
      exact ⟨fun ⟨heq', _, hlt'⟩ => hlt'.ne heq', hmin, hmax, fun ⟨heq', _, hlt'⟩ => hlt'.ne heq'⟩

end Geometry

section Results
variable [IsStrictOrderedRing K] {epsilon dx : K} {primBvs : List (Box (n + 1) K)} {h h' : SpatialHash K n}

omit [IsStrictOrderedRing K] in
theorem Reached.valid (hr : Reached epsilon h) : Valid h := by
  induction hr with
  | default dx t hkey indices activeKeys =>
    refine ⟨Bht.sound_empty t indices activeKeys, hkey, List.Pairwise.nil, fun cno hlt => ?_, fun k hk => ?_⟩
    · exact absurd hlt (Nat.not_lt_zero cno)
    · exact absurd hk (Nat.not_lt_zero k)
  | build _ dx primBvs hb ih =>
    by_cases hne : primBvs = []
    case neg => exact (hb.grouped hne).valid
    case pos =>
      cases hb with
      | empty => exact ⟨ih.sound, ih.key, ih.partitioned.monotone, ih.partitioned.segment, ih.partitioned.covered⟩
      | built _ hne' => exact absurd hne hne'

theorem neighbors_visited_iff (hepsilon : 0 < epsilon) (hr : Reached epsilon h)
    (hb : Builds epsilon dx primBvs h h') (bv : Box (n + 1) K) :
    (Partitioned h' ∧ ∃ l, h'.iterNeighbors bv = some l ∧
      ∀ (i : ℕ) (b : Box (n + 1) K), primBvs[i]? = some b → overlaps b bv = true → i ∈ l) ↔
    ∀ b ∈ primBvs, overlaps b bv = true → ∀ d, ¬ Misses dx b bv d := by
  have hvalid : Valid h' := (Reached.build hr dx primBvs hb).valid
  by_cases hne : primBvs = []
  case pos =>
    obtain ⟨l, hl, -⟩ := hvalid.iterNeighbors_spec bv
    subst hne
    exact ⟨fun _ b hmem => absurd hmem List.not_mem_nil, fun _ => ⟨hvalid.partitioned, l, hl, fun i b hi => by cases hi⟩⟩
  case neg =>
    have hg := hb.grouped hne
    have hdx : 0 < dx := by
      cases hb with
      | empty hdx => exact (mul_pos hepsilon (by norm_num)).trans_le (not_lt.mp hdx)
      | built hdx => exact (mul_pos hepsilon (by norm_num)).trans_le (not_lt.mp hdx)
    obtain ⟨l, hl, hmem⟩ := hg.mem_iff bv
    have hvisited : ∀ (i : ℕ) (b : Box (n + 1) K), primBvs[i]? = some b →
        (i ∈ l ↔ ∃ loc ∈ cells dx b, loc ∈ cells dx bv) := fun i b hi => by
      obtain ⟨hlt, -⟩ := List.getElem?_eq_some_iff.mp hi
      rw [hmem, cellsOf, hi, Option.map_some, Option.getD_some]
      exact and_iff_right hlt
    constructor
    · rintro ⟨-, l', hl', hall⟩ b hbmem hover
      obtain ⟨i, hi⟩ := List.mem_iff_getElem?.mp hbmem
      cases hl.symm.trans hl'
      exact (exists_cell_iff hdx hover).mp ((hvisited i b hi).mp (hall i b hi hover))
    · intro hclear
      refine ⟨hvalid.partitioned, l, hl, fun i b hi hover => (hvisited i b hi).mpr ?_⟩
      exact (exists_cell_iff hdx hover).mpr (hclear b (List.mem_of_getElem? hi) hover)

/-- A point on a border. -/
def point : Box 1 ℚ := ⟨fun _ => 0, fun _ => 0, le_rfl⟩

theorem cells_point : cells 1 point = [] := by
  simp [cells, Collapse.range, lower, upper, point]

/-- The table that `build` starts from. -/
def made : Bht (Option (Cell 0)) where
  bucketSize := 16
  numBuckets := 0
  bits := 32
  wide := false
  keySentinel := none
  hf0 := fun _ => 0
  hf1 := fun _ => 0
  hf2 := fun _ => 0
  threshold_pos := by decide
  fits := by decide

theorem fits_point : 2 * made.evaluateTableSize [point].length ≤ 2 ^ made.bits := by
  show 2 * made.evaluateTableSize 1 ≤ 2 ^ 32
  decide

def resized : Bht (Option (Cell 0)) := made.resized [point].length fits_point

def blank : Bht.Memory (Option (Cell 0)) := resized.empty (fun _ => 0) fun _ => none

theorem activates_point : Activates (cellsOf 1 [point]) [point].length 4 [point].length resized blank resized blank := by
  have hcells : cellsOf 1 [point] 0 = [] := cells_point
  have hreaches : Reaches resized.code free
      (resized.insertStart blank ([[0]].map (·.flatMap fun i => (cellsOf 1 [point] i).map some))) ⟨blank, [[]]⟩ := by
    rw [List.map_singleton, List.flatMap_singleton, hcells]
    exact .refl
  have hquiescent : Quiescent resized.code ⟨blank, [[]]⟩ := fun f x c' hstep =>
    absurd hstep.mem_frame List.not_mem_nil
  exact .succeeded [[0]] (.refl _) ⟨blank, [[]]⟩ hreaches hquiescent rfl

theorem builds_point : Builds (1 / 100) 1 [point] ⟨1, made, made.empty (fun _ => 0) fun _ => none, [], []⟩
    ⟨1, resized, blank, [], scanned blank fun _ => 0⟩ := by
  have hitems : items (cellsOf 1 [point]) [point].length = [] := by
    show ((cellsOf 1 [point] 0).map (0, ·)) ++ [] = []
    rw [List.append_nil]
    exact congrArg (List.map (0, ·)) cells_point
  have hperm : ([] : List (ℕ × Cell 0)).Perm (items (cellsOf 1 [point]) [point].length) := hitems ▸ .refl _
  exact .built (by norm_num) (List.cons_ne_nil _ _) made rfl fits_point (fun _ => 0) (fun _ => none) resized blank
    activates_point [] [] hperm hperm (fun _ => 0) rfl [] rfl (fun _ => 0) [] rfl

/-- A degenerate box is not found. -/
theorem point_unvisited : ¬ ∀ (epsilon dx : ℚ) (primBvs : List (Box 1 ℚ)) (h h' : SpatialHash ℚ 0), 0 < epsilon →
    Reached epsilon h → Builds epsilon dx primBvs h h' → ∀ bv : Box 1 ℚ, Partitioned h' ∧
      ∃ l, h'.iterNeighbors bv = some l ∧ ∀ i b, primBvs[i]? = some b → overlaps b bv = true → i ∈ l := by
  intro hall
  obtain ⟨-, l, hl, hmem⟩ := hall (1 / 100) 1 [point] _ _ (by norm_num)
    (.default 1 made rfl (fun _ => 0) fun _ => none) builds_point point
  rw [iterNeighbors, cells_point] at hl
  cases hl
  have hself : overlaps point point = true := by decide
  exact List.not_mem_nil (hmem 0 point rfl hself)

theorem neighbors_visited_iff_point : ∃ h h' : SpatialHash ℚ 0, Builds (1 / 100) 1 [point] h h' ∧
    ((Partitioned h' ∧ ∃ l, h'.iterNeighbors point = some l ∧
      ∀ i b, [point][i]? = some b → overlaps b point = true → i ∈ l) ↔
    ∀ b ∈ [point], overlaps b point = true → ∀ d, ¬ Misses 1 b point d) :=
  ⟨_, _, builds_point, neighbors_visited_iff (by norm_num) (.default 1 made rfl (fun _ => 0) fun _ => none) builds_point
    point⟩

end Results
end Zpc.SpatialHash
