import Zpc.LBvhTree

/-!
# The sweep structure LBvs

`LBvs` keeps the boxes of the primitives in the order of their minima along one axis. A query scans the boxes up to the
last one whose minimum is not past the query box, which a binary search locates; a stable sort by the minima is what
`build` and `refit` rely on.
-/
namespace Zpc
/-- `AABBBox`. -/
structure AABBBox (d : ℕ) (T : Type*) where
  min : Fin d → T
  max : Fin d → T

def AABBBox.overlaps {d : ℕ} {T : Type*} [LinearOrder T] (a b : AABBBox d T) : Bool :=
  decide (∀ i, ¬ (b.min i > a.max i ∨ b.max i < a.min i))

structure LBvs (d : ℕ) (T : Type*) where
  /-- `bvs.size()` -/
  size : ℕ
  bvs : ℕ → AABBBox d T
  axis : Fin d
  sts : ℕ → T
  auxIndices : ℕ → ℤ

namespace LBvs
open StableSort

variable {d : ℕ} {T : Type*} [LinearOrder T]

section Definitions
/-- The stable sort of the first `n` keys with their values. -/
def sortPair (n : ℕ) (keys : ℕ → T) (vals : ℕ → ℤ) : List (T × ℤ) :=
  stableSort (fun a b => decide (a.1 < b.1)) ((List.range n).map fun i => (keys i, vals i))

/-- The sorted keys, the values in their order, and the boxes that these stand for. -/
def fill (n : ℕ) (primBvs : ℕ → AABBBox d T) (axis : Fin d) (old : LBvs d T) (sorted : List (T × ℤ)) : LBvs d T where
  size := n
  axis := axis
  sts i := (sorted[i]?).elim (old.sts i) Prod.fst
  auxIndices i := (sorted[i]?).elim (old.auxIndices i) Prod.snd
  bvs i := (sorted[i]?).elim (old.bvs i) fun entry => primBvs entry.2.toNat

/-- `getBox`: the reductions of the minima and of the maxima. -/
def getBox (maxValue lowest : T) (n : ℕ) (bvs : ℕ → AABBBox d T) : AABBBox d T where
  min k := ((List.range n).map fun i => (bvs i).min k).foldl Min.min maxValue
  max k := ((List.range n).map fun i => (bvs i).max k).foldl Max.max lowest

def longestAxis [NeZero d] [Sub T] (gbv : AABBBox d T) : Fin d :=
  ((List.finRange d).tail.foldl
    (fun (s : T × Fin d) k => if gbv.max k - gbv.min k > s.1 then (gbv.max k - gbv.min k, k) else s)
    (gbv.max 0 - gbv.min 0, 0)).2

/-- `build`; a chosen axis that is none of the dimensions is replaced. -/
def build [NeZero d] [Sub T] (maxValue lowest : T) (old : LBvs d T) (n : ℕ) (primBvs : ℕ → AABBBox d T) (axis : ℤ) :
    LBvs d T :=
  let axis := if h : 0 ≤ axis ∧ axis < d then ⟨axis.toNat, by omega⟩ else longestAxis (getBox maxValue lowest n primBvs)
  fill n primBvs axis old (sortPair n (fun i => (primBvs i).min axis) fun i => i)

/-- `refit`; `compatible` tells whether the policy reaches the boxes. -/
def refit (t : LBvs d T) (n : ℕ) (primBvs : ℕ → AABBBox d T) (compatible : Bool) : Except String (LBvs d T) :=
  if n ≠ t.size then .error "the count of bounding volumes mismatch"
  else if compatible = false then .error "current memory location not compatible with the execution policy"
  else .ok (fill t.size primBvs t.axis t
    (sortPair t.size (fun i => (primBvs (t.auxIndices i).toNat).min t.axis) t.auxIndices))

/-- The binary search of `locate`. -/
def locateLoop (t : LBvs d T) (v : T) (left right : ℤ) : ℤ :=
  if left ≤ right then
    if (t.bvs (left + (right - left) / 2).toNat).min t.axis > v then locateLoop t v left (left + (right - left) / 2 - 1)
    else locateLoop t v (left + (right - left) / 2 + 1) right
  else right
termination_by (right + 1 - left).toNat
decreasing_by all_goals omega

def locate (t : LBvs d T) (v : T) : ℤ := locateLoop t v 0 (t.size - 1)

/-- The primitives that a scan from the position `first` calls back for. -/
def scan (t : LBvs d T) (bv : AABBBox d T) (first : ℕ) : List ℤ :=
  ((List.range' first ((t.locate (bv.max t.axis) + 1).toNat - first)).filter fun i =>
    (t.bvs i).overlaps bv).map t.auxIndices

def iterNeighbors (t : LBvs d T) (bv : AABBBox d T) : List ℤ := t.scan bv 0

def selfIterNeighbors (t : LBvs d T) (node : ℕ) : List ℤ := t.scan (t.bvs node) (node + 1)

/-- The pairs that the positions together report. -/
def selfPairs (t : LBvs d T) : List (Sym2 ℤ) :=
  ((List.range t.size).map fun node => (t.selfIterNeighbors node).map fun prim => s(t.auxIndices node, prim)).flatten

/-- The structures that builds and refits make, with the boxes that they have been made for. -/
inductive Reached [NeZero d] [Sub T] : LBvs d T → (ℕ → AABBBox d T) → Prop
  | build (maxValue lowest : T) (old : LBvs d T) (n : ℕ) (primBvs : ℕ → AABBBox d T) (axis : ℤ) :
      Reached (build maxValue lowest old n primBvs axis) primBvs
  | refit {t t' : LBvs d T} {primBvs : ℕ → AABBBox d T} (h : Reached t primBvs) (n : ℕ) (primBvs' : ℕ → AABBBox d T)
      (compatible : Bool) (he : t.refit n primBvs' compatible = .ok t') : Reached t' primBvs'

end Definitions

section Sorted
variable {t : LBvs d T} {primBvs : ℕ → AABBBox d T} {prim : ℕ → ℕ} {n i j : ℕ} {v : T}

/-- The boxes are those of the primitives, in the order of the minima. -/
structure Sweeps (t : LBvs d T) (primBvs : ℕ → AABBBox d T) (prim : ℕ → ℕ) : Prop where
  aux : ∀ i < t.size, t.auxIndices i = prim i
  perm : ((List.range t.size).map prim).Perm (List.range t.size)
  bvs : ∀ i < t.size, t.bvs i = primBvs (prim i)
  sorted : ∀ i j, i < j → j < t.size → (t.bvs i).min t.axis ≤ (t.bvs j).min t.axis

end Sorted

section Scan
variable {t : LBvs d T} {primBvs : ℕ → AABBBox d T} {prim : ℕ → ℕ} {bv : AABBBox d T} {v : T} {left right : ℤ}

/-- The search ends on the last box whose minimum is not past the value. -/
theorem locateLoop_spec (hs : Sweeps t primBvs prim) (hl : 0 ≤ left) (hr : right < t.size)
    (hle : left ≤ right + 1) (hbefore : ∀ i : ℕ, (i : ℤ) < left → (t.bvs i).min t.axis ≤ v)
    (hafter : ∀ i < t.size, right < (i : ℤ) → v < (t.bvs i).min t.axis) :
    -1 ≤ locateLoop t v left right ∧ locateLoop t v left right < t.size ∧
      ∀ i < t.size, (i : ℤ) ≤ locateLoop t v left right ↔ (t.bvs i).min t.axis ≤ v := by
  have hmono : ∀ i j : ℕ, i ≤ j → j < t.size → (t.bvs i).min t.axis ≤ (t.bvs j).min t.axis := fun i j hij hj => by
    rcases hij.eq_or_lt with rfl | hlt
    · exact le_rfl
    · exact hs.sorted i j hlt hj
  fun_induction locateLoop t v left right with
  | case1 left right hlr hgt ih =>
    refine ih hl (by omega) (by omega) hbefore fun i hi hlt => hgt.trans_le (hmono _ _ (by omega) hi)
  | case2 left right hlr hle' ih =>
    refine ih (by omega) hr (by omega) (fun i hlt => ?_) hafter
    exact (hmono i _ (by omega) (by omega)).trans (not_lt.mp hle')
  | case3 left right hlr =>
    refine ⟨by omega, hr, fun i hi => ⟨fun h => hbefore i (by omega), fun h => ?_⟩⟩
    by_contra hgt
    exact absurd h (not_le.mpr (hafter i hi (by omega)))

theorem locate_spec (hs : Sweeps t primBvs prim) (v : T) : t.locate v + 1 ≤ t.size ∧
    ∀ i < t.size, i < (t.locate v + 1).toNat ↔ (t.bvs i).min t.axis ≤ v := by
  obtain ⟨hge, hlt, hiff⟩ := locateLoop_spec (v := v) hs le_rfl (Int.sub_one_lt_iff.mpr le_rfl) (by omega)
    (fun i hi => absurd hi (by omega)) fun i hi hgt => absurd hgt (by omega)
  refine ⟨hlt, fun i hi => ?_⟩
  rw [← hiff i hi, locate]
  omega

/-- What the scan leaves out has its minimum past the query box. -/
theorem scan_eq (hs : Sweeps t primBvs prim) (bv : AABBBox d T) (first : ℕ) :
    t.scan bv first = ((List.range' first (t.size - first)).filter fun i =>
      (primBvs (prim i)).overlaps bv).map fun i => (prim i : ℤ) := by
  obtain ⟨hle, hiff⟩ := locate_spec hs (bv.max t.axis)
  generalize hed : (t.locate (bv.max t.axis) + 1).toNat = ed at hiff
  have hed' : ed ≤ t.size := by omega
  have hsplit : List.range' first (t.size - first) =
      List.range' first (ed - first) ++ List.range' (max first ed) (t.size - max first ed) := by
    rcases Nat.le_total first ed with h | h
    · rw [max_eq_right h]
      conv_rhs => rw [show ed = first + 1 * (ed - first) by omega]
      rw [show first + 1 * (ed - first) - first = ed - first by omega, List.range'_append]
      congr 1
      omega
    · rw [max_eq_left h, Nat.sub_eq_zero_of_le h]
      rfl
  have hrest : ((List.range' (max first ed) (t.size - max first ed)).filter fun i =>
      (primBvs (prim i)).overlaps bv) = [] := by
    refine List.filter_eq_nil_iff.mpr fun i hi ho => ?_
    obtain ⟨hge, hlt⟩ := List.mem_range'_1.mp hi
    have hi' : i < t.size := by omega
    have hpast := (hiff i hi').not.mp (by omega)
    rw [AABBBox.overlaps, decide_eq_true_eq] at ho
    refine ho t.axis (.inr ?_)
    rw [← hs.bvs i hi']
    exact not_le.mp hpast
  have hlt : ∀ i ∈ List.range' first (ed - first), i < t.size := fun i hi => by
    have := List.mem_range'_1.mp hi
    omega
  have hfilter : ((List.range' first (ed - first)).filter fun i => (t.bvs i).overlaps bv) =
      (List.range' first (ed - first)).filter fun i => (primBvs (prim i)).overlaps bv :=
    List.filter_congr fun i hi => by rw [hs.bvs i (hlt i hi)]
  rw [scan, hed, hsplit, List.filter_append, hrest, List.append_nil, hfilter]
  exact List.map_congr_left fun i hi => hs.aux i (hlt i (List.mem_filter.mp hi).1)

end Scan

section Result
variable {t : LBvs d T} {primBvs : ℕ → AABBBox d T} {prim : ℕ → ℕ}

theorem overlaps_comm (a b : AABBBox d T) : a.overlaps b = b.overlaps a := by
  rw [AABBBox.overlaps, AABBBox.overlaps]
  exact decide_eq_decide.mpr (forall_congr' fun i => not_congr or_comm)

theorem Sweeps.inj (hs : Sweeps t primBvs prim) : ∀ x < t.size, ∀ y < t.size, prim x = prim y → x = y :=
  fun _ hx _ hy he => List.inj_on_of_nodup_map (hs.perm.nodup_iff.mpr List.nodup_range) (List.mem_range.mpr hx)
    (List.mem_range.mpr hy) he

theorem Sweeps.exists_eq (hs : Sweeps t primBvs prim) {p : ℕ} (hp : p < t.size) : ∃ i < t.size, prim i = p := by
  obtain ⟨i, hi, he⟩ := List.mem_map.mp (hs.perm.mem_iff.mpr (List.mem_range.mpr hp))
  exact ⟨i, List.mem_range.mp hi, he⟩

theorem Sweeps.lt (hs : Sweeps t primBvs prim) {i : ℕ} (hi : i < t.size) : prim i < t.size :=
  List.mem_range.mp (hs.perm.mem_iff.mp (List.mem_map_of_mem (List.mem_range.mpr hi)))

/-- A query calls back once for each primitive whose box overlaps. -/
theorem Sweeps.iterNeighbors (hs : Sweeps t primBvs prim) (bv : AABBBox d T) :
    (t.iterNeighbors bv).Nodup ∧
      ∀ x, x ∈ t.iterNeighbors bv ↔ ∃ p < t.size, x = (p : ℤ) ∧ (primBvs p).overlaps bv = true := by
  rw [LBvs.iterNeighbors, scan_eq hs]
  refine ⟨?_, fun x => ?_⟩
  · refine List.Nodup.map_on (fun a ha b hb he => ?_) ((List.nodup_range' ..).filter _)
    have ha := (List.mem_range'_1.mp (List.mem_filter.mp ha).1).2
    have hb := (List.mem_range'_1.mp (List.mem_filter.mp hb).1).2
    exact hs.inj a (by omega) b (by omega) (Int.ofNat_inj.mp he)
  · rw [List.mem_map]
    constructor
    · rintro ⟨i, hi, rfl⟩
      obtain ⟨hi, ho⟩ := List.mem_filter.mp hi
      have hlt := (List.mem_range'_1.mp hi).2
      exact ⟨prim i, hs.lt (by omega), rfl, ho⟩
    · rintro ⟨p, hp, rfl, ho⟩
      obtain ⟨i, hi, rfl⟩ := hs.exists_eq hp
      exact ⟨i, List.mem_filter.mpr ⟨List.mem_range'_1.mpr (by omega), ho⟩, rfl⟩

/-- The later positions that meet the one of a node. -/
def rows (t : LBvs d T) (primBvs : ℕ → AABBBox d T) (prim : ℕ → ℕ) (node : ℕ) : List ℕ :=
  (List.range' (node + 1) (t.size - (node + 1))).filter fun i => (primBvs (prim i)).overlaps (primBvs (prim node))

/-- Boxes of one dimension that start at `2 - i`. -/
def steps (i : ℕ) : AABBBox 1 ℤ := ⟨fun _ => 2 - i, fun _ => 3 - i⟩

/-- No primitives yet. -/
def fresh : LBvs 1 ℤ := ⟨0, fun _ => ⟨fun _ => 0, fun _ => 0⟩, Fin.last 0, fun _ => 0, fun _ => 0⟩

end Result
end LBvs

namespace LBvh
open SplitTree
variable {d : ℕ} {T : Type*} [LinearOrder T] {mortonCode : Box d T → BitVec 32} {n : ℕ} {t : Arrays (Box d T)}
  {primBvs : ℕ → Box d T}

/-- The trees that a build and refits make, with the boxes that they have been made for. -/
inductive Reached (mortonCode : Box d T → BitVec 32) (n : ℕ) : Arrays (Box d T) → (ℕ → Box d T) → Prop
  | build {t : Arrays _} (policy : Policy) (primBvs : ℕ → Box d T) (fresh : Build (Box d T))
      (he : build policy mortonCode primBvs n fresh = some t) : Reached mortonCode n t primBvs
  | refit {t t' : Arrays _} {primBvs : ℕ → _} (h : Reached mortonCode n t primBvs) (policy : Policy)
      (primBvs' : ℕ → Box d T) (he : refit policy primBvs' t = some t') : Reached mortonCode n t' primBvs'

theorem Reached.laid (h : Reached mortonCode n t primBvs) (hn : 0 < n) :
    (n ≤ 2 ∧ t.numLeaves = n ∧ t.orderedBvs = primBvs) ∨ ∃ m, n = m + 1 ∧ 2 ≤ m ∧
      ∃ (w : ℕ → ℕ ×ₗ ℕᵒᵈ) (prim : ℕ → ℕ), Function.Injective w ∧
        ((List.range n).map prim).Perm (List.range n) ∧ Laid w m prim t ∧
        ∀ i j, Spans w m i j → Boxed w m prim primBvs t i j := by
  induction h with
  | build policy primBvs fresh he =>
    rcases Nat.lt_or_ge 2 n with hn2 | hn2
    · obtain ⟨m, rfl⟩ := Nat.exists_eq_succ_of_ne_zero hn.ne'
      obtain ⟨_, ht, hlaid⟩ := build_spec policy mortonCode primBvs (Nat.le_of_lt_succ hn2) fresh
      cases he.symm.trans ht
      exact .inr ⟨m, rfl, Nat.le_of_lt_succ hn2, hlaid⟩
    · cases (build_small policy mortonCode primBvs hn hn2 fresh).symm.trans he
      exact .inl ⟨hn2, rfl, rfl⟩
  | refit h policy primBvs' he ih =>
    rcases ih with ⟨hn2, hleaves, -⟩ | ⟨m, rfl, hm, w, prim, hw, hperm, hlaid, -⟩
    · rw [LBvh.refit, if_pos (hleaves.trans_le hn2)] at he
      cases he
      exact .inl ⟨hn2, hleaves, rfl⟩
    · obtain ⟨_, ht, hlaid⟩ := refit_spec policy primBvs' hw hlaid hm
      cases he.symm.trans ht
      exact .inr ⟨m, rfl, hm, w, prim, hw, hperm, hlaid⟩

end LBvh
end Zpc
