import Zpc.LBvhRefit
import Mathlib.Algebra.Order.Ring.Abs
import Mathlib.Tactic.NormNum

/-!
# What the queries find

On every tree that `build` makes, the nearest point is that of a primitive nearest to the query, and the leaves together
report every pair of primitives whose boxes overlap once.
-/
namespace Zpc.LBvh
open SplitTree StableSort

section Sorted
variable {d : ℕ} {T : Type*} [LinearOrder T] (mortonCode : Box d T → BitVec 32) (primBvs : ℕ → Box d T) (n : ℕ)

theorem sortedPairs_eq : (List.range n).map (sortedPairs mortonCode primBvs n) =
    ((List.range n).map fun id => (mortonCode (primBvs id), id)).mergeSort
      (byKey fun e => bitsBetween 0 32 e.1.toNat) :=
  (SequentialExecutionPolicy.radixSortPair_sorts (k := .unsigned 32) (le_refl 32) _ _ _ _).trans
    (sortDigits_digits (fun e : BitVec 32 × ℕ => e.1) (Nat.zero_le 32) _)

theorem ascending_sortedPairs {m : ℕ} : Ascending (fun k => (sortedPairs mortonCode primBvs (m + 1) k).1) m := by
  intro a b hab hb
  rcases hab.eq_or_lt with rfl | hlt
  · exact le_rfl
  have hsorted := List.pairwise_mergeSort (preordered_key fun e : BitVec 32 × ℕ => bitsBetween 0 32 e.1.toNat).trans
    (preordered_key fun e : BitVec 32 × ℕ => bitsBetween 0 32 e.1.toNat).total
    ((List.range (m + 1)).map fun id => (mortonCode (primBvs id), id))
  have heq := sortedPairs_eq mortonCode primBvs (m + 1)
  rw [← heq, List.pairwise_map] at hsorted
  have hpair := List.pairwise_iff_getElem.mp hsorted a b (by rw [List.length_range]; omega)
    (by rw [List.length_range]; omega) hlt
  rw [List.getElem_range, List.getElem_range] at hpair
  have hbits : ∀ x : BitVec 32, bitsBetween 0 32 x.toNat = x.toNat := fun x => by
    rw [bitsBetween, pow_zero, Nat.div_one, Nat.sub_zero, Nat.mod_eq_of_lt x.isLt]
  have hle : bitsBetween 0 32 (sortedPairs mortonCode primBvs (m + 1) a).1.toNat ≤
    bitsBetween 0 32 (sortedPairs mortonCode primBvs (m + 1) b).1.toNat := of_decide_eq_true hpair
  rwa [hbits, hbits] at hle

theorem sortedPairs_perm :
    ((List.range n).map fun k => (sortedPairs mortonCode primBvs n k).2).Perm (List.range n) := by
  have hperm := ((List.mergeSort_perm _ _).map Prod.snd : List.Perm (List.map Prod.snd (List.mergeSort
    ((List.range n).map fun id => (mortonCode (primBvs id), id)) (byKey fun e => bitsBetween 0 32 e.1.toNat))) _)
  rw [← sortedPairs_eq, List.map_map, List.map_map] at hperm
  exact hperm.trans (List.Perm.of_eq (List.map_id _))

end Sorted

section Built
variable {d : ℕ} {T : Type*} [LinearOrder T] (policy : Policy) (mortonCode : Box d T → BitVec 32)
  (primBvs : ℕ → Box d T)

/-- From three primitives on `build` makes a tree with a box around every node. -/
theorem build_spec {m : ℕ} (hm : 2 ≤ m) (fresh : Build (Box d T)) :
    ∃ t, build policy mortonCode primBvs (m + 1) fresh = some t ∧
      ∃ (w : ℕ → ℕ ×ₗ ℕᵒᵈ) (prim : ℕ → ℕ), Function.Injective w ∧
        ((List.range (m + 1)).map prim).Perm (List.range (m + 1)) ∧ Laid w m prim t ∧
        ∀ i j, Spans w m i j → Boxed w m prim primBvs t i j := by
  have hsorted := ascending_sortedPairs mortonCode primBvs (m := m)
  obtain ⟨s, hs, hlaid⟩ := buildTree_laid policy hsorted (by omega) fresh
  obtain ⟨t, ht, hlaid', hboxed⟩ := refit_spec policy primBvs (weight_injective _) hlaid hm
  refine ⟨t, ?_, _, _, weight_injective _, sortedPairs_perm mortonCode primBvs (m + 1), hlaid', hboxed⟩
  rw [build, if_neg (by omega), if_neg (by omega), hs]
  exact ht

theorem build_small {n : ℕ} (hn : 0 < n) (hn2 : n ≤ 2) (fresh : Build (Box d T)) :
    build policy mortonCode primBvs n fresh = some {fresh.toArrays with
      orderedBvs := primBvs
      leafInds := fun i => i
      auxIndices := fun i => (i : ℤ)
      numLeaves := n} := by
  rw [build, if_neg hn.ne', if_pos hn2]

omit [LinearOrder T] in
theorem numNodes_small {β : Type*} {t : Arrays β} {n : ℕ} (ht : t.numLeaves = n) (hn : n ≤ 2) : t.numNodes = n := by
  rw [Arrays.numNodes, ht, if_neg (Nat.not_lt.mpr hn)]

end Built

section Nearest
variable {T : Type*} [LinearOrder T]

/-- The search keeps the first nearest one that is nearer than the start. -/
theorem foldl_nearest {f : ℕ → T} {e : ℕ → ℤ} (l : List ℕ) (s : ℤ × T) :
    let r := l.foldl (fun s x => if f x < s.2 then (e x, f x) else s) s
    r.2 ≤ s.2 ∧ (∀ x ∈ l, r.2 ≤ f x) ∧ (r = s ∨ ∃ x ∈ l, r = (e x, f x) ∧ f x < s.2) := by
  induction l generalizing s with
  | nil => exact ⟨le_rfl, fun x hx => absurd hx List.not_mem_nil, .inl rfl⟩
  | cons y l ih =>
    rw [List.foldl_cons]
    obtain ⟨h1, h2, h3⟩ := ih (if f y < s.2 then (e y, f y) else s)
    have hy : (if f y < s.2 then (e y, f y) else s).2 ≤ f y ∧ (if f y < s.2 then (e y, f y) else s).2 ≤ s.2 := by
      split
      case isTrue h => exact ⟨le_rfl, h.le⟩
      case isFalse h => exact ⟨not_lt.mp h, le_rfl⟩
    refine ⟨h1.trans hy.2, fun x hx => ?_, ?_⟩
    · rcases List.mem_cons.mp hx with rfl | hx
      · exact h1.trans hy.1
      · exact h2 x hx
    · rcases h3 with h3 | ⟨x, hx, hr, hlt⟩
      · by_cases hlt : f y < s.2
        · rw [if_pos hlt] at h3 ⊢
          exact .inr ⟨y, List.mem_cons_self, h3, hlt⟩
        · rw [if_neg hlt] at h3 ⊢
          exact .inl h3
      · exact .inr ⟨x, List.mem_cons_of_mem _ hx, hr, hlt.trans_le hy.2⟩

/-- What is found among primitives in any order. -/
theorem nearest_of_foldl {f : ℕ → T} {prim : ℕ → ℕ} {n : ℕ} (hperm : ((List.range n).map prim).Perm (List.range n))
    (s : ℤ × T) :
    let r := (List.range n).foldl (fun s x => if f (prim x) < s.2 then ((prim x : ℤ), f (prim x)) else s) s
    ((∃ k < n, f k < s.2) → ∃ k < n, r = ((k : ℤ), f k) ∧ ∀ x < n, f k ≤ f x) ∧ ((∀ k < n, s.2 ≤ f k) → r = s) := by
  intro r
  obtain ⟨h1, h2, h3⟩ := foldl_nearest (f := fun x => f (prim x)) (e := fun x => (prim x : ℤ)) (List.range n) s
  have hall : ∀ x < n, r.2 ≤ f x := by
    intro x hx
    obtain ⟨y, hy, rfl⟩ := List.mem_map.mp (hperm.mem_iff.mpr (List.mem_range.mpr hx))
    exact h2 y hy
  have hmem : ∀ y ∈ List.range n, prim y < n := fun y hy =>
    List.mem_range.mp (hperm.mem_iff.mp (List.mem_map_of_mem hy))
  constructor
  · rintro ⟨k, hk, hlt⟩
    rcases h3 with h3 | ⟨y, hy, hr, -⟩
    · have := hall k hk
      rw [show r = s from h3] at this
      exact absurd hlt (not_lt.mpr this)
    · have hr : r = ((prim y : ℤ), f (prim y)) := hr
      refine ⟨prim y, hmem y hy, hr, fun x hx => ?_⟩
      have := hall x hx
      rwa [hr] at this
  · intro hcap
    rcases h3 with h3 | ⟨y, hy, -, hlt⟩
    · exact h3
    · exact absurd hlt (not_lt.mpr (hcap _ (hmem y hy)))

/-- What is returned among primitives in any order. -/
theorem found_of_foldl {f : ℕ → T} {prim : ℕ → ℕ} {n : ℕ} (hperm : ((List.range n).map prim).Perm (List.range n))
    (sqrt : T → T) (dist2 : T) (idx : ℤ) :
    let s := (List.range n).foldl (fun s x => if f (prim x) < s.2 then ((prim x : ℤ), f (prim x)) else s) (idx, dist2)
    ((∃ k < n, f k < dist2) → ∃ k < n, (s.1, sqrt s.2) = ((k : ℤ), sqrt (f k)) ∧ ∀ x < n, f k ≤ f x) ∧
      ((∀ k < n, dist2 ≤ f k) → (s.1, sqrt s.2) = (idx, sqrt dist2)) := by
  intro s
  obtain ⟨hnear, hnone⟩ := nearest_of_foldl (f := f) hperm (idx, dist2)
  refine ⟨fun hex => ?_, fun hcap => ?_⟩
  · obtain ⟨k, hk, hr, hmin⟩ := hnear hex
    exact ⟨k, hk, by rw [show s = _ from hr], hmin⟩
  · rw [show s = _ from hnone hcap]

end Nearest

section Pairs
theorem sum_map_single {u : ℕ} (c : ℕ) {l : List ℕ} (hnodup : l.Nodup) (hu : u ∈ l) :
    (l.map fun k => if k = u then c else 0).sum = c := by
  induction l with
  | nil => exact absurd hu List.not_mem_nil
  | cons y l ih =>
    obtain ⟨hy, hnodup⟩ := List.nodup_cons.mp hnodup
    rw [List.map_cons, List.sum_cons]
    rcases List.mem_cons.mp hu with rfl | hu
    · have hzero : (l.map fun k => if k = u then c else 0).sum = 0 := by
        apply List.sum_eq_zero
        intro z hz
        obtain ⟨k, hk, rfl⟩ := List.mem_map.mp hz
        exact if_neg fun heq : k = u => hy (heq ▸ hk)
      rw [if_pos rfl, hzero, Nat.add_zero]
    · rw [if_neg fun heq : y = u => hy (heq ▸ hu), Nat.zero_add, ih hnodup hu]

def rowPairs (prim : ℕ → ℕ) (rows : ℕ → List ℕ) (k : ℕ) : List (Sym2 ℤ) :=
  (rows k).map fun x => s((prim k : ℤ), (prim x : ℤ))

section Rows
variable {n : ℕ} {prim : ℕ → ℕ} {rows : ℕ → List ℕ} {u v : ℕ}
  (hinj : ∀ x < n, ∀ y < n, prim x = prim y → x = y) (hrange : ∀ k < n, ∀ x ∈ rows k, k ≤ x ∧ x < n)

include hinj hrange

/-- A pair is reported only in the row of its first leaf. -/
theorem count_rowPairs {k : ℕ} (hk : k < n) (huv : u < v) (hv : v < n) :
    (rowPairs prim rows k).count s((prim u : ℤ), (prim v : ℤ)) = if k = u then (rows u).count v else 0 := by
  rw [rowPairs, List.count, List.countP_map]
  have hiff : ∀ x ∈ rows k, s((prim k : ℤ), (prim x : ℤ)) = s((prim u : ℤ), (prim v : ℤ)) ↔ k = u ∧ x = v := by
    intro x hx
    obtain ⟨hkx, hxn⟩ := hrange k hk x hx
    rw [Sym2.eq_iff, Nat.cast_inj, Nat.cast_inj, Nat.cast_inj, Nat.cast_inj]
    constructor
    · rintro (⟨h1, h2⟩ | ⟨h1, h2⟩)
      · exact ⟨hinj _ hk _ (huv.trans hv) h1, hinj _ hxn _ hv h2⟩
      · have h1 := hinj _ hk _ hv h1
        have h2 := hinj _ hxn _ (huv.trans hv) h2
        omega
    · rintro ⟨rfl, rfl⟩
      exact .inl ⟨rfl, rfl⟩
  split
  case isTrue h =>
    subst h
    rw [List.count]
    apply List.countP_congr
    intro x hx
    rw [Function.comp_apply, beq_iff_eq, beq_iff_eq, hiff x hx]
    exact and_iff_right rfl
  case isFalse h =>
    rw [List.countP_eq_zero]
    intro x hx heq
    exact h ((hiff x hx).mp (beq_iff_eq.mp heq)).1

/-- When each leaf has one row of later ones, a pair of leaves is reported in the row of the first one. -/
theorem count_rows {meets : ℕ → ℕ → Bool} (hnodup : ∀ k < n, (rows k).Nodup)
    (hmem : ∀ k x, k < x → x < n → (x ∈ rows k ↔ meets x k = true)) (huv : u < v) (hv : v < n) :
    ((List.range n).map (rowPairs prim rows)).flatten.count s((prim u : ℤ), (prim v : ℤ)) =
      if meets v u then 1 else 0 := by
  have hu := huv.trans hv
  have hmap : (List.range n).map (List.count s((prim u : ℤ), (prim v : ℤ)) ∘ rowPairs prim rows) =
      (List.range n).map fun k => if k = u then (rows u).count v else 0 :=
    List.map_congr_left fun k hk => count_rowPairs hinj hrange (List.mem_range.mp hk) huv hv
  rw [List.count_flatten, List.map_map, hmap, sum_map_single _ List.nodup_range (List.mem_range.mpr hu),
    (hnodup u hu).count]
  simp only [hmem u v huv hv]

end Rows

theorem mapM_some {A B : Type*} {g : A → Option B} {h : A → B} (l : List A) (hg : ∀ x ∈ l, g x = some (h x)) :
    l.mapM g = some (l.map h) := by
  induction l with
  | nil => rfl
  | cons x l ih =>
    rw [List.mapM_cons, hg x List.mem_cons_self, ih fun y hy => hg y (List.mem_cons_of_mem _ hy)]
    rfl

variable {d : ℕ} {T : Type*} [LinearOrder T]

theorem overlaps_comm (a b : Box d T) : overlaps a b = overlaps b a := by
  rw [overlaps, overlaps]
  exact decide_eq_decide.mpr (forall_congr' fun i => not_congr or_comm)

theorem Covers.overlaps {a b c : Box d T} (h : Covers a b) (ho : overlaps b c = true) : overlaps a c = true := by
  rw [LBvh.overlaps, decide_eq_true_eq] at *
  intro i hc
  rcases hc with hc | hc
  · exact ho i (.inl ((h.2 i).trans_lt hc))
  · exact ho i (.inr (hc.trans_le (h.1 i)))

/-- A query that keeps what passes a test. -/
theorem foldl_hits {A B : Type*} {q : A → Bool} {g : A → B} (l : List A) (s : List B) :
    l.foldl (fun s x => if q x then s ++ [g x] else s) s = s ++ (l.filter q).map g := by
  induction l generalizing s with
  | nil => exact (List.append_nil s).symm
  | cons x l ih =>
    rw [List.foldl_cons, ih, List.filter_cons]
    split
    case isTrue => rw [List.map_cons, List.append_assoc, List.singleton_append]
    case isFalse => rfl

/-- Rows of overlapping leaves report every overlapping pair once. -/
theorem selfPairs_count {t : Arrays (Box d T)} {primBvs : ℕ → Box d T} {n : ℕ} (prim : ℕ → ℕ) (rows : ℕ → List ℕ)
    (hn : t.numLeaves = n) (hperm : ((List.range n).map prim).Perm (List.range n))
    (haux : ∀ k < n, t.auxIndices (t.leafInds k) = prim k)
    (hself : ∀ k < n, selfIterNeighbors t k = some ((rows k).map fun x => (prim x : ℤ)))
    (hnodup : ∀ k < n, (rows k).Nodup) (hrange : ∀ k < n, ∀ x ∈ rows k, k ≤ x ∧ x < n)
    (hmem : ∀ k x, k < x → x < n → (x ∈ rows k ↔ overlaps (primBvs (prim x)) (primBvs (prim k)) = true)) :
    ∃ l, selfPairs t = some l ∧ ∀ a < n, ∀ b < n, a ≠ b →
      l.count s((a : ℤ), (b : ℤ)) = if overlaps (primBvs a) (primBvs b) then 1 else 0 := by
  have hinj : ∀ x < n, ∀ y < n, prim x = prim y → x = y := by
    intro x hx y hy heq
    exact List.inj_on_of_nodup_map (hperm.nodup_iff.mpr List.nodup_range) (List.mem_range.mpr hx)
      (List.mem_range.mpr hy) heq
  refine ⟨((List.range n).map (rowPairs prim rows)).flatten, ?_, fun a ha b hb hab => ?_⟩
  · have hpairs : ∀ k ∈ List.range n, (selfIterNeighbors t k).map
        (List.map fun prim => s(t.auxIndices (t.leafInds k), prim)) = some (rowPairs prim rows k) := by
      intro k hk
      have hk := List.mem_range.mp hk
      rw [hself k hk, haux k hk, Option.map_some, List.map_map]
      rfl
    rw [selfPairs, hn, mapM_some (List.range n) hpairs]
    rfl
  · obtain ⟨u, hu, rfl⟩ := List.mem_map.mp (hperm.mem_iff.mpr (List.mem_range.mpr ha))
    obtain ⟨v, hv, rfl⟩ := List.mem_map.mp (hperm.mem_iff.mpr (List.mem_range.mpr hb))
    rw [List.mem_range] at hu hv
    rcases Nat.lt_or_gt_of_ne fun heq : u = v => hab (heq ▸ rfl) with huv | hvu
    · rw [overlaps_comm]
      exact count_rows hinj hrange hnodup hmem huv hv
    · rw [Sym2.eq_swap]
      exact count_rows hinj hrange hnodup hmem hvu hu

end Pairs

section Results
variable {d : ℕ} {T : Type*} [LinearOrder T] {w : ℕ → ℕ ×ₗ ℕᵒᵈ} {m : ℕ} {prim : ℕ → ℕ} {t : Arrays (Box d T)}
  {primBvs : ℕ → Box d T}

/-- A query that calls back for the boxes that pass a test which larger boxes pass too. -/
theorem traverse_hits (h : Laid w m prim t) (hm : 2 ≤ m) (hboxed : ∀ i j, Spans w m i j → Boxed w m prim primBvs t i j)
    (hit : Box d T → Bool) (hmono : ∀ b c, Covers b c → hit c = true → hit b = true) {k p : ℕ} (hk : k ≤ m)
    (hp : offset w m k ≤ p) (hp' : p ≤ place w m k k) :
    traverse t (fun _ node => !hit (t.orderedBvs node))
      (fun s node => if hit (t.orderedBvs node) then s ++ [t.auxIndices node] else s) (t.numNodes + 1) p [] =
      some (((List.range' k (m + 1 - k)).filter fun x => hit (primBvs (prim x))).map fun x => (prim x : ℤ)) := by
  have hleaf : ∀ x ≤ m, t.orderedBvs (place w m x x) = primBvs (prim x) :=
    fun x hx => (hboxed x x (spans_leaf hx)).leaf rfl
  have hmem : ∀ x ∈ List.range' k (m + 1 - k), x ≤ m := by
    intro x hx
    have := List.mem_range'_1.mp hx
    omega
  have hfilter : ((List.range' k (m + 1 - k)).filter fun x => hit (t.orderedBvs (place w m x x))) =
      (List.range' k (m + 1 - k)).filter fun x => hit (primBvs (prim x)) :=
    List.filter_congr fun x hx => by rw [hleaf x (hmem x hx)]
  rw [traverse_spec _ _ h hm ?_ _ k p [] (Nat.le_succ_of_le hk) hp (fun _ => hp')
    (fun heq => absurd heq (Nat.ne_of_lt (Nat.lt_succ_of_le hk))) ?_, foldl_hits, List.nil_append, hfilter]
  · exact congrArg some (List.map_congr_left fun x hx => h.leafAux x (hmem x (List.mem_filter.mp hx).1))
  · intro s i j hs hij hskip x hx hx'
    rw [Bool.not_eq_true'] at hskip
    rw [if_neg]
    intro ho
    rw [hleaf x (hx'.trans hs.le_last)] at ho
    exact Bool.false_ne_true (hskip.symm.trans (hmono _ _ ((hboxed i j hs).covers x hx hx') ho))
  · rw [h.numNodes hm, h.last]
    omega

theorem Laid.not_small (h : Laid w m prim t) (hm : 2 ≤ m) : ¬ t.numNodes ≤ 2 := by
  rw [h.numNodes hm, h.last]
  omega

theorem selfIterNeighbors_spec (h : Laid w m prim t) (hm : 2 ≤ m)
    (hboxed : ∀ i j, Spans w m i j → Boxed w m prim primBvs t i j) {k : ℕ} (hk : k ≤ m) :
    selfIterNeighbors t k = some (((List.range' k (m + 1 - k)).filter fun x =>
      overlaps (primBvs (prim x)) (primBvs (prim k))).map fun x => (prim x : ℤ)) := by
  rw [selfIterNeighbors, if_neg (h.not_small hm)]
  dsimp only
  rw [h.ind k hk, (hboxed k k (spans_leaf hk)).leaf rfl]
  exact traverse_hits h hm hboxed (fun b => overlaps b (primBvs (prim k))) (fun b c hb => hb.overlaps) hk
    (offset_le_place k k) le_rfl

theorem iterNeighbors_spec (h : Laid w m prim t) (hm : 2 ≤ m)
    (hboxed : ∀ i j, Spans w m i j → Boxed w m prim primBvs t i j) (hit : Box d T → Bool)
    (hmono : ∀ b c, Covers b c → hit c = true → hit b = true) :
    iterNeighbors t hit =
      some (((List.range (m + 1)).filter fun x => hit (primBvs (prim x))).map fun x => (prim x : ℤ)) := by
  rw [iterNeighbors, if_neg (h.not_small hm), List.range_eq_range']
  exact traverse_hits h hm hboxed hit hmono m.zero_le le_rfl (Nat.zero_le _)

variable [Field T]

theorem findNearestPoint_spec (h : Laid w m prim t) (hm : 2 ≤ m)
    (hboxed : ∀ i j, Spans w m i j → Boxed w m prim primBvs t i j)
    {distance : (Fin d → T) → Box d T → T} {p : Fin d → T}
    (hdist : ∀ b : Box d T, ∀ x, b.min ≤ x → x ≤ b.max →
      max 0 (distance p b) * max 0 (distance p b) ≤ l2NormSqr (p - x))
    (sqrt : T → T) (dist2 : T) (idx : ℤ) : findNearestPoint t distance sqrt p dist2 idx =
      some (let s := (List.range (m + 1)).foldl (fun s x => if l2NormSqr (p - (primBvs (prim x)).min) < s.2 then
        ((prim x : ℤ), l2NormSqr (p - (primBvs (prim x)).min)) else s) (idx, dist2); (s.1, sqrt s.2)) := by
  have hvisit : ∀ s : ℤ × T, ∀ x ≤ m, nearer t p t.auxIndices s (place w m x x) =
      if l2NormSqr (p - (primBvs (prim x)).min) < s.2 then
        ((prim x : ℤ), l2NormSqr (p - (primBvs (prim x)).min)) else s := by
    intro s x hx
    rw [nearer, (hboxed x x (spans_leaf hx)).leaf rfl, h.leafAux x hx]
  have hstart := traverse_spec
    (fun s node => decide (s.2 < max 0 (distance p (t.orderedBvs node)) * max 0 (distance p (t.orderedBvs node))))
    (nearer t p t.auxIndices) h hm ?_ (t.numNodes + 1) 0 0 (idx, dist2) (Nat.zero_le _) le_rfl (fun _ => Nat.zero_le _)
    (fun heq => absurd heq (Nat.succ_ne_zero m).symm) ?_
  · rw [findNearestPoint, if_neg (h.not_small hm)]
    dsimp only
    rw [show (0 : ℤ) = ((0 : ℕ) : ℤ) from rfl, hstart, Option.map_some, Nat.sub_zero, ← List.range_eq_range']
    have hfold : ∀ l : List ℕ, (∀ x ∈ l, x ≤ m) → ∀ s : ℤ × T,
        l.foldl (fun s x => nearer t p t.auxIndices s (place w m x x)) s =
        l.foldl (fun s x => if l2NormSqr (p - (primBvs (prim x)).min) < s.2 then
          ((prim x : ℤ), l2NormSqr (p - (primBvs (prim x)).min)) else s) s := by
      intro l
      induction l with
      | nil => exact fun _ _ => rfl
      | cons x l ih =>
        intro hl s
        rw [List.foldl_cons, List.foldl_cons, hvisit s x (hl x List.mem_cons_self),
          ih fun y hy => hl y (List.mem_cons_of_mem _ hy)]
    rw [hfold _ fun x hx => Nat.le_of_lt_succ (List.mem_range.mp hx)]
  · intro s i j hs hij hskip x hx hx'
    have hlt := of_decide_eq_true hskip
    have hcovers := (hboxed i j hs).covers x hx hx'
    rw [hvisit s x (hx'.trans hs.le_last), if_neg]
    intro hd2
    have hle := hdist _ _ hcovers.1 ((primBvs (prim x)).le.trans hcovers.2)
    exact absurd (hlt.trans_le hle) (not_lt.mpr hd2.le)
  · rw [h.numNodes hm, h.last]
    omega

/-- On every tree that `build` makes of at least one primitive, the nearest point is found, if any is nearer than the
start, and the leaves together report the pairs of overlapping primitives once each. -/
theorem nearest_queries (policy : Policy) (mortonCode : Box d T → BitVec 32) (primBvs : ℕ → Box d T) {n : ℕ}
    (hn : 0 < n) (fresh : Build (Box d T)) : ∃ t, build policy mortonCode primBvs n fresh = some t ∧
      (∀ (distance : (Fin d → T) → Box d T → T) (sqrt : T → T) (p : Fin d → T),
        (∀ b : Box d T, ∀ x, b.min ≤ x → x ≤ b.max →
          max 0 (distance p b) * max 0 (distance p b) ≤ l2NormSqr (p - x)) →
        ∀ (dist2 : T) (idx : ℤ), ∃ r, findNearestPoint t distance sqrt p dist2 idx = some r ∧
          ((∃ k < n, l2NormSqr (p - (primBvs k).min) < dist2) →
            ∃ k < n, r = ((k : ℤ), sqrt (l2NormSqr (p - (primBvs k).min))) ∧
              ∀ x < n, l2NormSqr (p - (primBvs k).min) ≤ l2NormSqr (p - (primBvs x).min)) ∧
          ((∀ k < n, dist2 ≤ l2NormSqr (p - (primBvs k).min)) → r = (idx, sqrt dist2))) ∧
      ∃ l, selfPairs t = some l ∧ ∀ a < n, ∀ b < n, a ≠ b →
        l.count s((a : ℤ), (b : ℤ)) = if overlaps (primBvs a) (primBvs b) then 1 else 0 := by
  rcases Nat.lt_or_ge 2 n with hn2 | hn2
  · obtain ⟨m, rfl⟩ := Nat.exists_eq_succ_of_ne_zero hn.ne'
    have hm : 2 ≤ m := Nat.le_of_lt_succ hn2
    obtain ⟨t, ht, w, prim, -, hperm, hlaid, hboxed⟩ := build_spec policy mortonCode primBvs hm fresh
    refine ⟨t, ht, fun distance sqrt p hdist dist2 idx => ?_, ?_⟩
    · exact ⟨_, findNearestPoint_spec hlaid hm hboxed hdist sqrt dist2 idx,
        found_of_foldl (f := fun x => l2NormSqr (p - (primBvs x).min)) hperm sqrt dist2 idx⟩
    · refine selfPairs_count prim _ hlaid.numLeaves hperm (fun k hk => ?_)
        (fun k hk => selfIterNeighbors_spec hlaid hm hboxed (Nat.le_of_lt_succ hk))
        (fun k _ => (List.nodup_range' 1 Nat.one_pos).filter _) (fun k _ x hx => ?_) fun k x hkx hx => ?_
      · rw [hlaid.ind k (Nat.le_of_lt_succ hk), hlaid.leafAux k (Nat.le_of_lt_succ hk)]
      · have := List.mem_range'_1.mp (List.mem_filter.mp hx).1
        omega
      · rw [List.mem_filter, List.mem_range'_1]
        exact and_iff_right (by omega)
  · have hperm : ((List.range n).map id).Perm (List.range n) := List.Perm.of_eq (List.map_id _)
    refine ⟨_, build_small policy mortonCode primBvs hn hn2 fresh, fun distance sqrt p hdist dist2 idx => ?_, ?_⟩
    · refine ⟨_, ?_, found_of_foldl (f := fun x => l2NormSqr (p - (primBvs x).min)) hperm sqrt dist2 idx⟩
      rw [findNearestPoint, numNodes_small rfl hn2, if_pos hn2]
      rfl
    · refine selfPairs_count id (fun k => (List.range' (k + 1) (n - (k + 1))).filter fun x =>
        overlaps (primBvs x) (primBvs k)) rfl hperm (fun _ _ => rfl) (fun k hk => ?_)
        (fun k _ => (List.nodup_range' 1 Nat.one_pos).filter _) (fun k _ x hx => ?_) fun k x hkx hx => ?_
      · rw [selfIterNeighbors, numNodes_small rfl hn2, if_pos hn2]
        exact congrArg some ((foldl_hits _ _).trans (List.nil_append _))
      · have := List.mem_range'_1.mp (List.mem_filter.mp hx).1
        omega
      · rw [List.mem_filter, List.mem_range'_1]
        exact and_iff_right (by omega)

end Results

/-- The boxes from 0 to 1, from 1 to 2, and so on. -/
def unitBoxes (i : ℕ) : Box 1 ℚ where
  min _ := i
  max _ := i + 1
  le _ := le_add_of_nonneg_right zero_le_one

def sequential : Policy := ⟨List.range, fun _ => List.Perm.refl _⟩

def zeroed : Build (Box 1 ℚ) :=
  ⟨⟨unitBoxes, fun _ => 0, fun _ => 0, fun _ => 0, fun _ => 0, 0⟩, fun _ => 0, fun _ => 0, fun _ => 0, fun _ => 0,
    fun _ => 0, fun _ => 0, fun _ => 0, fun _ => 0, fun _ => 0, fun _ => 0, fun _ => 0⟩

/-- `distance` on a line. -/
def lineDistance (p : Fin 1 → ℚ) (b : Box 1 ℚ) : ℚ := max (b.min 0 - p 0) (p 0 - b.max 0)

theorem lineDistance_le (p : Fin 1 → ℚ) (b : Box 1 ℚ) (x : Fin 1 → ℚ) (h₁ : b.min ≤ x) (h₂ : x ≤ b.max) :
    max 0 (lineDistance p b) * max 0 (lineDistance p b) ≤ l2NormSqr (p - x) := by
  have hle : max 0 (lineDistance p b) ≤ |p 0 - x 0| := by
    apply max_le (abs_nonneg _) (max_le ?_ ?_)
    · rw [abs_sub_comm]
      exact (sub_le_sub_right (h₁ 0) _).trans (le_abs_self _)
    · exact (sub_le_sub_left (h₂ 0) _).trans (le_abs_self _)
  rw [l2NormSqr, Fin.sum_univ_one, Pi.sub_apply, ← abs_mul_abs_self (p 0 - x 0)]
  exact mul_self_le_mul_self (le_max_left _ _) hle

theorem nearest_queries_three : 0 < 3 ∧ ∃ t, build sequential (fun _ => 0) unitBoxes 3 zeroed = some t ∧
    (∃ k : ℕ, k < 3 ∧ findNearestPoint t lineDistance id (fun _ => 4) 100 (-1) =
      some ((k : ℤ), l2NormSqr ((fun _ => 4) - (unitBoxes k).min))) ∧
    ∃ l, selfPairs t = some l ∧ l.count s(0, 1) = 1 ∧ l.count s(0, 2) = 0 := by
  obtain ⟨t, ht, hfind, l, hl, hcount⟩ := nearest_queries sequential (fun _ => 0) unitBoxes (n := 3) (by decide) zeroed
  refine ⟨by decide, t, ht, ?_, l, hl, ?_, ?_⟩
  · obtain ⟨r, hr, hnear, -⟩ := hfind lineDistance id (fun _ => 4) (lineDistance_le _) 100 (-1)
    have hcap : l2NormSqr ((fun _ => 4) - (unitBoxes 0).min) < 100 := by
      simp only [l2NormSqr, Fin.sum_univ_one, Pi.sub_apply, unitBoxes]
      norm_num
    obtain ⟨k, hk, rfl, -⟩ := hnear ⟨0, by decide, hcap⟩
    exact ⟨k, hk, hr⟩
  · have h := hcount 0 (by decide) 1 (by decide) (by decide)
    have ho : overlaps (unitBoxes 0) (unitBoxes 1) = true := by
      simp [overlaps, unitBoxes]
    rwa [if_pos ho] at h
  · have h := hcount 0 (by decide) 2 (by decide) (by decide)
    have ho : ¬ overlaps (unitBoxes 0) (unitBoxes 2) = true := by
      simp [overlaps, unitBoxes]
    rwa [if_neg ho] at h

end Zpc.LBvh
