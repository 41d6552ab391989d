import Mathlib.Algebra.Order.Floor.Ring
import Zpc.BhtReorder
import Zpc.LBvh
import Zpc.SparseMatrixBuild

/-!
# Collapsed loops

The iterator of `Collapse`, which goes through the tuples of counters below given bounds. A bound below one is met only
after the counter has been incremented, so that it counts as one, except for the first bound, which is the end.
-/
namespace Zpc
/-- A loop that steps until the end; it visits the elements of the list and arrives. -/
inductive Steps {A : Type*} (step : A → A) (stop : A) : A → List A → A → Prop
  | refl (a : A) : Steps step stop a [] a
  | head {a b : A} {l : List A} (h : a ≠ stop) (hs : Steps step stop (step a) l b) : Steps step stop a (a :: l) b

namespace Steps
variable {A : Type*} {step : A → A} {stop a b c : A} {l l' : List A}

end Steps

namespace Collapse
/-- `increment_impl` on the counters but the first one, with whether the one before them is to be incremented. -/
def incrementImpl : (n : ℕ) → (Fin n → ℤ) → (Fin n → ℤ) → (Fin n → ℤ) × Bool
  | 0, _, it => (it, true)
  | n + 1, ns, it =>
    let r := incrementImpl n (Fin.tail ns) (Fin.tail it)
    if r.2 then
      if ns 0 ≤ it 0 + 1 then (Fin.cons 0 r.1, true) else (Fin.cons (it 0 + 1) r.1, false)
    else (Fin.cons (it 0) r.1, false)

def increment {n : ℕ} (ns it : Fin (n + 1) → ℤ) : Fin (n + 1) → ℤ :=
  let r := incrementImpl n (Fin.tail ns) (Fin.tail it)
  if r.2 then Fin.cons (it 0 + 1) r.1 else Fin.cons (it 0) r.1

def stop {n : ℕ} (ns : Fin (n + 1) → ℤ) : Fin (n + 1) → ℤ := Fin.cons (ns 0) 0

def tails : (n : ℕ) → (Fin n → ℤ) → List (Fin n → ℤ)
  | 0, _ => [0]
  | n + 1, ns => (List.range (max 1 (ns 0)).toNat).flatMap fun i : ℕ =>
    (tails n (Fin.tail ns)).map (Fin.cons (i : ℤ))

/-- The tuples that a loop over the range visits. -/
def range {n : ℕ} (ns : Fin (n + 1) → ℤ) : List (Fin (n + 1) → ℤ) :=
  (List.range (ns 0).toNat).flatMap fun i : ℕ =>
    (tails n (Fin.tail ns)).map (Fin.cons (i : ℤ))

variable {n : ℕ}

theorem mem_tails {ns x : Fin n → ℤ} : x ∈ tails n ns ↔ ∀ d, 0 ≤ x d ∧ x d < max 1 (ns d) := by
  induction n with
  | zero => exact ⟨fun _ d => d.elim0, fun _ => List.mem_singleton.mpr (Subsingleton.elim _ _)⟩
  | succ n ih =>
    rw [tails, List.mem_flatMap, Fin.forall_fin_succ]
    constructor
    · rintro ⟨i, hi, hx⟩
      obtain ⟨y, hy, rfl⟩ := List.mem_map.mp hx
      have hi := List.mem_range.mp hi
      exact ⟨⟨Int.natCast_nonneg i, by rw [Fin.cons_zero]; omega⟩, fun d => by rw [Fin.cons_succ]; exact ih.mp hy d⟩
    · rintro ⟨⟨h0, hlt⟩, htail⟩
      refine ⟨(x 0).toNat, List.mem_range.mpr (by omega), List.mem_map.mpr ⟨Fin.tail x, ih.mpr htail, ?_⟩⟩
      rw [Int.toNat_of_nonneg h0, Fin.cons_self_tail]

theorem mem_range {ns x : Fin (n + 1) → ℤ} :
    x ∈ range ns ↔ ∀ d, 0 ≤ x d ∧ x d < if d = 0 then ns d else max 1 (ns d) := by
  rw [range, List.mem_flatMap, Fin.forall_fin_succ, if_pos rfl]
  constructor
  · rintro ⟨i, hi, hx⟩
    obtain ⟨y, hy, rfl⟩ := List.mem_map.mp hx
    have hi := List.mem_range.mp hi
    refine ⟨⟨Int.natCast_nonneg i, by rw [Fin.cons_zero]; omega⟩, fun d => ?_⟩
    rw [Fin.cons_succ, if_neg (Fin.succ_ne_zero d)]
    exact mem_tails.mp hy d
  · rintro ⟨⟨h0, hlt⟩, htail⟩
    refine ⟨(x 0).toNat, List.mem_range.mpr (by omega), List.mem_map.mpr ⟨Fin.tail x, mem_tails.mpr fun d => ?_, ?_⟩⟩
    · have hd := htail d
      rwa [if_neg (Fin.succ_ne_zero d)] at hd
    · rw [Int.toNat_of_nonneg h0, Fin.cons_self_tail]

end Collapse
end Zpc

/-!
## The spatial hash

`build` of `SpatialHash.hpp` activates the cells that the boxes of the primitives cover, counts the primitives of a cell
and groups their indices by cells; `iter_neighbors` goes through the cells that a box covers. The passes are for any
threads. A coordinate has as many values as it takes, so that no cell is the sentinel of the table.
-/
namespace Zpc
open Interleaving LBvh SparseMatrix

abbrev Cell (n : ℕ) := Fin (n + 1) → ℤ

structure SpatialHash (K : Type*) (n : ℕ) where
  /-- The side length of a cell. -/
  dx : K
  table : Bht (Option (Cell n))
  mem : Bht.Memory (Option (Cell n))
  /-- The indices of the primitives, grouped by cells. -/
  indices : List ℕ
  offsets : List ℕ

namespace SpatialHash
variable {n : ℕ}

section Passes
variable (cells : ℕ → List (Cell n)) (t : Bht (Option (Cell n))) (m : Bht.Memory (Option (Cell n)))

/-- The first pass, with as many resizes as are left. The keys that a resize inserts again find places. -/
inductive Activates (cnt : ℕ) : ℕ → ℕ → Bht (Option (Cell n)) → Bht.Memory (Option (Cell n)) →
    Bht (Option (Cell n)) → Bht.Memory (Option (Cell n)) → Prop
  | succeeded {trials expected : ℕ} {t : Bht (Option (Cell n))} {m : Bht.Memory (Option (Cell n))}
      (schedule : List (List ℕ)) (hs : schedule.flatten.Perm (List.range cnt))
      (c : Config (Bht.Memory (Option (Cell n))) (Bht.Frame (Option (Cell n))))
      (hr : Reaches t.code free (t.insertStart m (schedule.map (·.flatMap fun i => (cells i).map some))) c)
      (hq : Quiescent t.code c) (hsuccess : c.mem.success = true) : Activates cnt trials expected t m t c.mem
  | again {trials expected : ℕ} {t t' t'' : Bht (Option (Cell n))} {m m' m'' : Bht.Memory (Option (Cell n))}
      (schedule : List (List ℕ)) (hs : schedule.flatten.Perm (List.range cnt))
      (c : Config (Bht.Memory (Option (Cell n))) (Bht.Frame (Option (Cell n))))
      (hr : Reaches t.code free (t.insertStart m (schedule.map (·.flatMap fun i => (cells i).map some))) c)
      (hq : Quiescent t.code c) (hfailed : c.mem.success = false) (hresize : t.Resizes c.mem (expected * 4) t' m')
      (hrebuilt : m'.success = true) (h : Activates cnt trials (expected * 4) t' m' t'' m'') :
      Activates cnt (trials + 1) expected t m t'' m''

/-- The turns of the loops over the primitives and their cells. -/
def items (cnt : ℕ) : List (ℕ × Cell n) := (List.range cnt).flatMap fun i => (cells i).map (i, ·)

/-- A turn of the second pass. -/
def count (counts : ℕ → ℕ) (item : ℕ × Cell n) : Option (ℕ → ℕ) :=
  let cno := t.query m (some item.2)
  if 0 ≤ cno ∧ cno ≤ m.cnt then some (Function.update counts cno.toNat (counts cno.toNat + 1)) else none

/-- A turn of the third pass. -/
def place (offsets : List ℕ) (s : (ℕ → ℕ) × List ℕ) (item : ℕ × Cell n) : Option ((ℕ → ℕ) × List ℕ) :=
  let cno := t.query m (some item.2)
  if 0 ≤ cno then offsets[cno.toNat]?.bind fun offset =>
    let no := s.1 cno.toNat - 1
    if 0 < s.1 cno.toNat ∧ offset + no < s.2.length then
      some (Function.update s.1 cno.toNat no, s.2.set (offset + no) item.1)
    else none
  else none

/-- `exclusive_scan` of the counts. -/
def scanned (counts : ℕ → ℕ) : List ℕ := (List.range (m.cnt + 1)).map (exclusiveScan counts)

end Passes

variable {K : Type*} [Field K] [LinearOrder K] [FloorRing K]

def lower (dx : K) (bv : Box (n + 1) K) (d : Fin (n + 1)) : ℤ := ⌊bv.min d * (1 / dx)⌋

def upper (dx : K) (bv : Box (n + 1) K) (d : Fin (n + 1)) : ℤ := ⌈bv.max d * (1 / dx)⌉

def cells (dx : K) (bv : Box (n + 1) K) : List (Cell n) :=
  (Collapse.range fun d => upper dx bv d - lower dx bv d).map fun loc d => lower dx bv d + loc d

def cellsOf (dx : K) (primBvs : List (Box (n + 1) K)) (i : ℕ) : List (Cell n) := (primBvs[i]?.map (cells dx)).getD []

/-- `build` where it does not throw. The new index array is not initialised. -/
inductive Builds (epsilon dx : K) (primBvs : List (Box (n + 1) K)) (h : SpatialHash K n) : SpatialHash K n → Prop
  | empty (hdx : ¬ dx < epsilon * 10) (hprims : primBvs = []) : Builds epsilon dx primBvs h { h with dx := dx }
  | built (hdx : ¬ dx < epsilon * 10) (hprims : primBvs ≠ []) (made : Bht (Option (Cell n)))
      (hkey : made.keySentinel = none) (hfits : 2 * made.evaluateTableSize primBvs.length ≤ 2 ^ made.bits)
      (indices : ℕ → ℤ) (activeKeys : ℤ → Option (Cell n)) (t : Bht (Option (Cell n)))
      (m : Bht.Memory (Option (Cell n)))
      (hactivates : Activates (cellsOf dx primBvs) primBvs.length 4 primBvs.length
        (made.resized primBvs.length hfits) ((made.resized primBvs.length hfits).empty indices activeKeys) t m)
      (counted placed : List (ℕ × Cell n)) (hcounted : counted.Perm (items (cellsOf dx primBvs) primBvs.length))
      (hplaced : placed.Perm (items (cellsOf dx primBvs) primBvs.length)) (counts : ℕ → ℕ)
      (hcounts : counted.foldlM (count t m) (fun _ => 0) = some counts) (old : List ℕ)
      (hold : old.length = exclusiveScan counts m.cnt) (left : ℕ → ℕ) (grouped : List ℕ)
      (hgrouped : placed.foldlM (place t m (scanned m counts)) (counts, old) = some (left, grouped)) :
      Builds epsilon dx primBvs h ⟨dx, t, m, grouped, scanned m counts⟩

/-- The spatial hashes that come from builds. -/
inductive Reached (epsilon : K) : SpatialHash K n → Prop
  | default (dx : K) (t : Bht (Option (Cell n))) (hkey : t.keySentinel = none) (indices : ℕ → ℤ)
      (activeKeys : ℤ → Option (Cell n)) : Reached epsilon ⟨dx, t, t.empty indices activeKeys, [], []⟩
  | build {h h' : SpatialHash K n} (hh : Reached epsilon h) (dx : K) (primBvs : List (Box (n + 1) K))
      (hb : Builds epsilon dx primBvs h h') : Reached epsilon h'

/-- The primitives that a cell contributes. -/
def segment (h : SpatialHash K n) (loc : Cell n) : Option (List ℕ) :=
  let cno := h.table.query h.mem (some loc)
  if cno < 0 then some []
  else h.offsets[cno.toNat]?.bind fun st => h.offsets[cno.toNat + 1]?.bind fun ed =>
    (List.range' st (ed - st)).mapM fun no => h.indices[no]?

/-- `iter_neighbors`: the primitives that are visited. -/
def iterNeighbors (h : SpatialHash K n) (bv : Box (n + 1) K) : Option (List ℕ) :=
  ((cells h.dx bv).mapM h.segment).map List.flatten

def InSegment (h : SpatialHash K n) (cno k : ℕ) : Prop :=
  ∃ st ed, h.offsets[cno]? = some st ∧ h.offsets[cno + 1]? = some ed ∧ st ≤ k ∧ k < ed

/-- The index array consists of the segments of the active cells. -/
structure Partitioned (h : SpatialHash K n) : Prop where
  monotone : h.offsets.Pairwise (· ≤ ·)
  segment : ∀ cno < h.mem.cnt, ∃ st ed, h.offsets[cno]? = some st ∧ h.offsets[cno + 1]? = some ed ∧ st ≤ ed ∧
    ed ≤ h.indices.length
  covered : ∀ k < h.indices.length, ∃! cno, cno < h.mem.cnt ∧ h.InSegment cno k

def OnBorder (dx x : K) : Prop := (⌊x * (1 / dx)⌋ : K) = x * (1 / dx)

/-- In this direction two boxes touch on a border, or one of them is flat on a border. A bound that is not positive
counts as one except in the first direction, where a flat box has no cells. -/
def Misses (dx : K) (b q : Box (n + 1) K) (d : Fin (n + 1)) : Prop :=
  (b.min d = q.max d ∧ OnBorder dx (b.min d) ∧ (d = 0 ∨ q.min d < q.max d)) ∨
  (q.min d = b.max d ∧ OnBorder dx (q.min d) ∧ (d = 0 ∨ b.min d < b.max d)) ∨
  (d = 0 ∧ b.min d = b.max d ∧ OnBorder dx (b.min d)) ∨
  (d = 0 ∧ q.min d = q.max d ∧ OnBorder dx (q.min d))

end SpatialHash
end Zpc
