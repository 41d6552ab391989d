import Zpc.OmpRadixSort
import Zpc.SparseMatrixBuild

/-!
# The transpose of a sparse matrix

`transposeFrom` of `SparseMatrix.hpp` into a matrix other than the source, and `localOrdering`.
The atomic additions of the counting kernel are made in any order, and so are the visits of
the kernel that moves the entries. The indices are of type `int`. A computation that reads
outside the pointers or the values of the destination has no result.
-/
namespace Zpc
/-- A value type: blocks of type `vec` have a transpose of their own. -/
structure ValueType (V : Type*) where
  isVec : Bool
  transpose : V → V

/-- A value as the transpose of the matrix has it. -/
def ValueType.moved {V : Type*} (t : ValueType V) (v : V) : V := if t.isVec then t.transpose v else v

namespace SparseMatrix
open SequentialExecutionPolicy

variable {V : Type*}

section Definitions
def outerSize (m : SparseMatrix V) : ℕ := if m.rowMajor then m.nrows else m.ncols

def innerSize (m : SparseMatrix V) : ℕ := if m.rowMajor then m.ncols else m.nrows

def nnz (m : SparseMatrix V) : ℕ := m.inds.size

def hasValues (m : SparseMatrix V) : Bool := m.vals.size == m.inds.size && decide (0 < m.vals.size)

def lineAt (m : SparseMatrix V) (outerId : ℕ) : List ℕ :=
  List.range' (m.ptrs.get outerId) (m.ptrs.get (outerId + 1) - m.ptrs.get outerId)

def visits (m : SparseMatrix V) : List (ℕ × ℕ) :=
  (List.range m.outerSize).flatMap fun outerId => (m.lineAt outerId).map fun k => (outerId, k)

/-- `_transpose_from_count_offset` at one entry. -/
def countOffset (inds : ℕ → ℕ) (s : (ℕ → ℕ) × (ℕ → ℕ)) (k : ℕ) : (ℕ → ℕ) × (ℕ → ℕ) :=
  (Function.update s.1 (inds k) (s.1 (inds k) + 1), Function.update s.2 k (s.1 (inds k)))

/-- `_transpose_from_reorder_vals` at one entry. -/
def reorderVal (t : ValueType V) (localOffsets : ℕ → ℕ) (o : SparseMatrix V) (ptrs : ℕ → ℕ) (valActivated : Bool)
    (s : (ℕ → ℕ) × (ℕ → V)) (e : ℕ × ℕ) : (ℕ → ℕ) × (ℕ → V) :=
  let dst := ptrs (o.inds.get e.2) + localOffsets e.2
  (Function.update s.1 dst e.1, if valActivated then Function.update s.2 dst (t.moved (o.vals.get e.2)) else s.2)

/-- The bits by which the indices are sorted. -/
def endBit (m : SparseMatrix V) : ℕ := max (bitCount m.innerSize) 1

/-- A line of `localOrdering` without values. -/
def sortedInds (m : SparseMatrix V) (next out : ℕ → BitVec 32) (outerId : ℕ) : ℕ → ℕ := fun i =>
  (radixSort (.signed 32) (fun i => BitVec.ofNat 32 (m.inds.get (m.ptrs.get outerId + i)))
    (m.ptrs.get (outerId + 1) - m.ptrs.get outerId) 0 m.endBit next out i).toNat

/-- A line of `localOrdering` with values: the indices and where they come from. -/
def sortedPairs (m : SparseMatrix V) (next out : ℕ → BitVec 32 × ℕ) (outerId : ℕ) : ℕ → ℕ × ℕ := fun i =>
  let e := radixSortPair (.signed 32) (fun i => BitVec.ofNat 32 (m.inds.get (m.ptrs.get outerId + i)))
    (fun i => m.ptrs.get outerId + i) (m.ptrs.get (outerId + 1) - m.ptrs.get outerId) 0 m.endBit next out i
  (e.1.toNat, e.2)

def placeLines {A : Type*} (m : SparseMatrix V) (sorted : ℕ → ℕ → A) (buffer : ℕ → A) : ℕ → A :=
  (List.range m.outerSize).foldl (fun out outerId k =>
    if m.ptrs.get outerId ≤ k ∧ k < m.ptrs.get (outerId + 1) then sorted outerId (k - m.ptrs.get outerId) else out k) buffer

structure Buffers where
  next : ℕ → BitVec 32 × ℕ
  out : ℕ → BitVec 32 × ℕ
  ordered : ℕ → ℕ × ℕ

def localOrdering (m : SparseMatrix V) (b : Buffers) : Option (SparseMatrix V) :=
  if m.ptrs.size ≤ m.outerSize ∧ 0 < m.outerSize then none
  else if 0 < m.vals.size then
    if m.vals.size < m.nnz then none
    else
      let pairs := m.placeLines (m.sortedPairs b.next b.out) b.ordered
      some { m with
        inds := ⟨m.nnz, fun k => (pairs k).1⟩
        vals := ⟨m.nnz, fun no => m.vals.get (pairs no).2⟩ }
  else some { m with
    inds := ⟨m.nnz, m.placeLines (m.sortedInds (fun i => (b.next i).1) (fun i => (b.out i).1)) fun k => (b.ordered k).1⟩ }

/-- The branch for matrices of different orders. -/
def reinterpret (t : ValueType V) (dst o : SparseMatrix V) : SparseMatrix V where
  rowMajor := dst.rowMajor
  nrows := o.ncols
  ncols := o.nrows
  ptrs := o.ptrs
  inds := o.inds
  vals :=
    if o.hasValues then
      if t.isVec then
        -- no more values are assigned than the shorter range has
        ⟨dst.vals.size, fun k => if k < dst.vals.size ∧ k < o.vals.size then t.transpose (o.vals.get k) else dst.vals.get k⟩
      else o.vals
    else dst.vals

/-- The branch for matrices of one order, which keeps the size of the destination. -/
def scatter (dst o : SparseMatrix V) (s : (ℕ → ℕ) × (ℕ → ℕ)) (r : (ℕ → ℕ) × (ℕ → V)) : SparseMatrix V where
  rowMajor := dst.rowMajor
  nrows := dst.nrows
  ncols := dst.ncols
  ptrs := ⟨o.innerSize + 1, exclusiveScan s.1⟩
  inds := ⟨o.nnz, r.1⟩
  vals := if o.hasValues then ⟨o.nnz, r.2⟩ else dst.vals

/-- The matrix before it is ordered. -/
inductive Moved (t : ValueType V) (dst o : SparseMatrix V) : SparseMatrix V → Prop
  | reinterpret (h : dst.rowMajor ≠ o.rowMajor) : Moved t dst o (reinterpret t dst o)
  | scatter (h : dst.rowMajor = o.rowMajor) {counted visited : List (ℕ × ℕ)} {localOffsets : ℕ → ℕ} {inds : ℕ → ℕ}
      {vals : ℕ → V} {s : (ℕ → ℕ) × (ℕ → ℕ)} {r : (ℕ → ℕ) × (ℕ → V)}
      (hc : counted.Perm o.visits) (hv : visited.Perm o.visits)
      (hs : (counted.map Prod.snd).foldl (countOffset o.inds.get) (fun _ => 0, localOffsets) = s)
      (hr : visited.foldl (reorderVal t s.2 o (exclusiveScan s.1) o.hasValues)
        (inds, if o.hasValues then vals else dst.vals.get) = r) : Moved t dst o (scatter dst o s r)

/-- What `transposeFrom` may leave. -/
def TransposeFrom (t : ValueType V) (postOrder : Bool) (dst o : SparseMatrix V) (result : Option (SparseMatrix V)) : Prop :=
  ∃ m, Moved t dst o m ∧ if postOrder then ∃ b, localOrdering m b = result else some m = result

/-- The compressed form. -/
structure Compact (m : SparseMatrix V) : Prop where
  covers : m.outerSize < m.ptrs.size
  first : m.ptrs.get 0 = 0
  mono : ∀ r < m.outerSize, m.ptrs.get r ≤ m.ptrs.get (r + 1)
  last : m.ptrs.get m.outerSize = m.nnz
  inner : ∀ k < m.nnz, m.inds.get k < m.innerSize

def tagged (m : SparseMatrix V) (valued : Bool) (e : ℕ × ℕ) : (ℕ × ℕ) × Option V :=
  (if m.rowMajor then (e.1, m.inds.get e.2) else (m.inds.get e.2, e.1), if valued then some (m.vals.get e.2) else none)

def entries (m : SparseMatrix V) : List ((ℕ × ℕ) × Option V) := m.visits.map (m.tagged m.hasValues)

def swapped (t : ValueType V) (e : (ℕ × ℕ) × Option V) : (ℕ × ℕ) × Option V := (e.1.swap, e.2.map t.moved)

/-- `r` is the transpose of `o`. -/
structure Transposed (t : ValueType V) (o r : SparseMatrix V) : Prop where
  rows : r.nrows = o.ncols
  cols : r.ncols = o.nrows
  compact : r.Compact
  entries : r.entries.Perm (o.entries.map (swapped t))

def Ascending (m : SparseMatrix V) : Prop :=
  ∀ r < m.outerSize, ((m.lineAt r).map m.inds.get).Pairwise (· ≤ ·)

/-- The destination has the shape of the transpose, unless the branch sets it, and its old values
do not show in the result. -/
def Fits (t : ValueType V) (postOrder : Bool) (dst o : SparseMatrix V) : Prop :=
  (dst.rowMajor = o.rowMajor → dst.nrows = o.ncols ∧ dst.ncols = o.nrows) ∧
    if o.hasValues then
      dst.rowMajor ≠ o.rowMajor → t.isVec = true → if postOrder then o.nnz ≤ dst.vals.size else dst.vals.size = o.nnz
    else o.nnz = 0 ∨ if postOrder then dst.vals.size = 0 else dst.vals.size ≠ o.nnz

end Definitions

section Lines
variable {m : SparseMatrix V}

theorem mem_lineAt {r k : ℕ} : k ∈ m.lineAt r ↔ m.ptrs.get r ≤ k ∧ k < m.ptrs.get (r + 1) := by
  rw [lineAt, List.mem_range'_1]
  omega

theorem mem_visits {r k : ℕ} : (r, k) ∈ m.visits ↔ r < m.outerSize ∧ m.ptrs.get r ≤ k ∧ k < m.ptrs.get (r + 1) := by
  simp only [visits, List.mem_flatMap, List.mem_range, List.mem_map, Prod.mk.injEq, ← mem_lineAt]
  constructor
  · rintro ⟨r', hr, k', hk, rfl, rfl⟩
    exact ⟨hr, hk⟩
  · rintro ⟨hr, hk⟩
    exact ⟨r, hr, k, hk, rfl, rfl⟩

theorem Compact.visits_snd (hm : m.Compact) : m.visits.map Prod.snd = List.range m.nnz := by
  have hupto : ∀ n ≤ m.outerSize, ((List.range n).flatMap fun r => (m.lineAt r).map fun k => (r, k)).map Prod.snd =
      List.range (m.ptrs.get n) := by
    intro n hn
    induction n with
    | zero => rw [hm.first]; rfl
    | succ n ih =>
      have hle := hm.mono n hn
      have hline : ((m.lineAt n).map fun k => (n, k)).map Prod.snd = m.lineAt n := by
        rw [List.map_map]
        exact List.map_id _
      rw [List.range_succ, List.flatMap_append, List.map_append, ih (Nat.le_of_succ_le hn), List.flatMap_singleton, hline, lineAt,
        List.range_eq_range', List.range_eq_range']
      have happend : List.range' 0 (m.ptrs.get n) ++ List.range' (0 + m.ptrs.get n) (m.ptrs.get (n + 1) - m.ptrs.get n) =
          List.range' 0 (m.ptrs.get n + (m.ptrs.get (n + 1) - m.ptrs.get n)) := List.range'_append_1
      rw [Nat.zero_add, Nat.add_sub_of_le hle] at happend
      exact happend
  rw [visits, hupto _ le_rfl, hm.last]

theorem Compact.nodup_visits (hm : m.Compact) : m.visits.Nodup :=
  List.Nodup.of_map Prod.snd (hm.visits_snd ▸ List.nodup_range)

theorem Compact.visits_lt (hm : m.Compact) {e : ℕ × ℕ} (he : e ∈ m.visits) : e.2 < m.nnz := by
  have hmem := List.mem_map_of_mem (f := Prod.snd) he
  rw [hm.visits_snd, List.mem_range] at hmem
  exact hmem

theorem Compact.exists_visit (hm : m.Compact) {k : ℕ} (hk : k < m.nnz) : ∃ r, (r, k) ∈ m.visits := by
  have hmem : k ∈ m.visits.map Prod.snd := by
    rw [hm.visits_snd]
    exact List.mem_range.mpr hk
  obtain ⟨⟨r, k'⟩, he, rfl⟩ := List.mem_map.mp hmem
  exact ⟨r, he⟩

theorem Compact.visit_unique (hm : m.Compact) {e e' : ℕ × ℕ} (he : e ∈ m.visits) (he' : e' ∈ m.visits) (h : e.2 = e'.2) :
    e = e' :=
  List.inj_on_of_nodup_map (hm.visits_snd ▸ List.nodup_range) he he' h

end Lines

section Counting
variable {inds : ℕ → ℕ} {l : List ℕ} {s : (ℕ → ℕ) × (ℕ → ℕ)}

/-- The entries of a line have different offsets below its count. -/
structure Counts (inds : ℕ → ℕ) (l : List ℕ) (s : (ℕ → ℕ) × (ℕ → ℕ)) : Prop where
  cnt : ∀ i, s.1 i = l.countP fun k => inds k = i
  lt : ∀ k ∈ l, s.2 k < s.1 (inds k)
  inj : ∀ k ∈ l, ∀ k' ∈ l, inds k = inds k' → s.2 k = s.2 k' → k = k'

theorem counts_step {k : ℕ} (h : Counts inds l s) (hk : k ∉ l) : Counts inds (l ++ [k]) (countOffset inds s k) := by
  have hold : ∀ k' ∈ l, (countOffset inds s k).2 k' = s.2 k' := fun k' hk' =>
    Function.update_of_ne (ne_of_mem_of_not_mem hk' hk) _ _
  have hnew : (countOffset inds s k).2 k = s.1 (inds k) := Function.update_self _ _ _
  have hcnt : ∀ i, (countOffset inds s k).1 i = if i = inds k then s.1 i + 1 else s.1 i := by
    intro i
    refine (Function.update_apply _ _ _ _).trans ?_
    split
    next he => rw [he]
    next => rfl
  refine ⟨fun i => ?_, fun k' hk' => ?_, fun k₁ hk₁ k₂ hk₂ hi he => ?_⟩
  · rw [hcnt, List.countP_append, ← h.cnt, List.countP_singleton]
    by_cases hi : inds k = i
    · simp [hi]
    · simp [hi, Ne.symm hi]
  · rw [hcnt]
    rcases List.mem_append.mp hk' with hk' | hk'
    · rw [hold k' hk']
      have hlt := h.lt k' hk'
      split <;> omega
    · rw [List.mem_singleton.mp hk', hnew, if_pos rfl]
      exact Nat.lt_succ_self _
  · rcases List.mem_append.mp hk₁ with h₁ | h₁ <;> rcases List.mem_append.mp hk₂ with h₂ | h₂
    · rw [hold k₁ h₁, hold k₂ h₂] at he
      exact h.inj k₁ h₁ k₂ h₂ hi he
    · obtain rfl := List.mem_singleton.mp h₂
      rw [hold k₁ h₁, hnew, ← hi] at he
      exact absurd he (h.lt k₁ h₁).ne
    · obtain rfl := List.mem_singleton.mp h₁
      rw [hold k₂ h₂, hnew, hi] at he
      exact absurd he.symm (h.lt k₂ h₂).ne
    · exact (List.mem_singleton.mp h₁).trans (List.mem_singleton.mp h₂).symm

theorem counts_foldl (hl : l.Nodup) (localOffsets : ℕ → ℕ) :
    Counts inds l (l.foldl (countOffset inds) (fun _ => 0, localOffsets)) := by
  induction l using List.reverseRecOn with
  | nil => exact ⟨fun _ => rfl, fun _ h => absurd h List.not_mem_nil, fun _ h => absurd h List.not_mem_nil⟩
  | append_singleton l k ih =>
    rw [List.nodup_append] at hl
    rw [List.foldl_append]
    exact counts_step (ih hl.1) fun hk => hl.2.2 k hk k (List.mem_singleton.mpr rfl) rfl

end Counting

section Moving
variable {t : ValueType V} {dst o : SparseMatrix V} {s : (ℕ → ℕ) × (ℕ → ℕ)}

def slot (o : SparseMatrix V) (s : (ℕ → ℕ) × (ℕ → ℕ)) (e : ℕ × ℕ) : ℕ := exclusiveScan s.1 (o.inds.get e.2) + s.2 e.2

/-- Entries at different places do not overwrite each other. -/
theorem foldl_reorderVal {l : List (ℕ × ℕ)} {valActivated : Bool} {start : (ℕ → ℕ) × (ℕ → V)} (hl : l.Nodup)
    (hslot : ∀ e ∈ l, ∀ e' ∈ l, slot o s e = slot o s e' → e = e') :
    let r := l.foldl (reorderVal t s.2 o (exclusiveScan s.1) valActivated) start
    (∀ e ∈ l, r.1 (slot o s e) = e.1) ∧
      if valActivated then ∀ e ∈ l, r.2 (slot o s e) = t.moved (o.vals.get e.2) else r.2 = start.2 := by
  induction l using List.reverseRecOn with
  | nil => exact ⟨fun _ h => absurd h List.not_mem_nil, by split <;> first | exact fun _ h => absurd h List.not_mem_nil | rfl⟩
  | append_singleton l a ih =>
    rw [List.nodup_append] at hl
    obtain ⟨hfst, hsnd⟩ := ih hl.1 fun e he e' he' =>
      hslot e (List.mem_append_left _ he) e' (List.mem_append_left _ he')
    have hne : ∀ e ∈ l, slot o s e ≠ slot o s a := by
      intro e he hs
      have hea := hslot e (List.mem_append_left _ he) a (List.mem_append_right _ List.mem_cons_self) hs
      exact hl.2.2 e he a List.mem_cons_self hea
    rw [List.foldl_append]
    refine ⟨fun e he => ?_, ?_⟩
    · rcases List.mem_append.mp he with he | he
      · exact (Function.update_of_ne (hne e he) _ _).trans (hfst e he)
      · rw [List.mem_singleton.mp he]
        exact Function.update_self _ _ _
    · cases valActivated with
      | false => exact hsnd
      | true =>
        intro e he
        rcases List.mem_append.mp he with he | he
        · exact (Function.update_of_ne (hne e he) _ _).trans (hsnd e he)
        · rw [List.mem_singleton.mp he]
          exact Function.update_self _ _ _

theorem Compact.counted_perm (ho : o.Compact) {counted : List (ℕ × ℕ)} (hc : counted.Perm o.visits) :
    (counted.map Prod.snd).Perm (List.range o.nnz) := ho.visits_snd ▸ hc.map Prod.snd

theorem slot_mem (ho : o.Compact) {l : List ℕ} (hl : l.Perm (List.range o.nnz)) (hs : Counts o.inds.get l s) {e : ℕ × ℕ}
    (he : e ∈ o.visits) : exclusiveScan s.1 (o.inds.get e.2) ≤ slot o s e ∧ slot o s e < exclusiveScan s.1 (o.inds.get e.2 + 1) := by
  have hmem : e.2 ∈ l := hl.mem_iff.mpr (List.mem_range.mpr (ho.visits_lt he))
  exact ⟨Nat.le_add_right .., Nat.add_lt_add_left (hs.lt _ hmem) _⟩

theorem slot_inj (ho : o.Compact) {l : List ℕ} (hl : l.Perm (List.range o.nnz)) (hs : Counts o.inds.get l s) {e e' : ℕ × ℕ}
    (he : e ∈ o.visits) (he' : e' ∈ o.visits) (h : slot o s e = slot o s e') : e = e' := by
  have hmem : e.2 ∈ l := hl.mem_iff.mpr (List.mem_range.mpr (ho.visits_lt he))
  have hmem' : e'.2 ∈ l := hl.mem_iff.mpr (List.mem_range.mpr (ho.visits_lt he'))
  obtain ⟨hi, hoff⟩ := segment_unique s.1 (hs.lt _ hmem) (hs.lt _ hmem') h
  exact ho.visit_unique he he' (hs.inj _ hmem _ hmem' hi hoff)

theorem scan_total (ho : o.Compact) {l : List ℕ} (hl : l.Perm (List.range o.nnz)) (hs : Counts o.inds.get l s) :
    exclusiveScan s.1 o.innerSize = o.nnz := by
  have hcnt : s.1 = fun i => l.countP fun k => o.inds.get k = i := funext hs.cnt
  rw [hcnt, Build.exclusiveScan_countP, List.countP_eq_length.mpr, hl.length_eq, List.length_range]
  intro k hk
  exact decide_eq_true (ho.inner k (List.mem_range.mp (hl.mem_iff.mp hk)))

end Moving

end SparseMatrix

end Zpc
