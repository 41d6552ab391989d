import Zpc.SparseMatrix

/-!
# Lookups in a compressed sparse matrix

The linear and the binary search of `SparseMatrixView`. Positions are of an unsigned type, in which the binary search
takes one from its upper bound; below position zero the bound wraps around.
-/
namespace Zpc
/-- What the lookups read. An index is a number of any integer type, and `size_type`, the unsigned version of `Tn`, has
the given number of bits. -/
structure SparseMatrixView where
  rowMajor : Bool
  bits : ℕ
  nrows : ℤ
  ncols : ℤ
  ptrs : ZsVector ℕ
  inds : ZsVector ℤ

namespace SparseMatrixView
/-- `deduce_numeric_max<size_type>()`. -/
def numericMax (m : SparseMatrixView) : ℕ := 2 ^ m.bits - 1

def increment (m : SparseMatrixView) (k : ℕ) : ℕ := (k + 1) % 2 ^ m.bits

def decrement (m : SparseMatrixView) (k : ℕ) : ℕ := (k + 2 ^ m.bits - 1) % 2 ^ m.bits

def outer (m : SparseMatrixView) (i j : ℤ) : ℕ := (if m.rowMajor then i else j).toNat

def inner (m : SparseMatrixView) (i j : ℤ) : ℤ := if m.rowMajor then j else i

/-- `_ptrs[i]`. -/
def segmentStart (m : SparseMatrixView) (i j : ℤ) : ℕ := m.ptrs.get (m.outer i j)

/-- `_ptrs[i + 1]`. -/
def segmentEnd (m : SparseMatrixView) (i j : ℤ) : ℕ := m.ptrs.get (m.outer i j + 1)

/-- `for (; id != ed; ++id)`. -/
def scan (m : SparseMatrixView) (target : ℤ) (ed : ℕ) : ℕ → ℕ → ℕ
  | 0, id => id
  | fuel + 1, id =>
    if id ≠ ed then if target = m.inds.get id then id else scan m target ed fuel (m.increment id) else id

/-- `locate(i, j)`; the loop takes at most as many steps as there are positions. -/
def locate (m : SparseMatrixView) (i j : ℤ) : ℕ :=
  let id := m.scan (m.inner i j) (m.segmentEnd i j) (2 ^ m.bits) (m.segmentStart i j)
  if id ≠ m.segmentEnd i j then id else m.numericMax

/-- Where a binary search ends: its bounds, the position of the target if it ends there, and the positions read. -/
structure Exit where
  st : ℕ
  ed : ℕ
  found : Option ℕ
  reads : List ℕ

def Exit.afterRead (p : ℕ) (e : Exit) : Exit := {e with reads := p :: e.reads}

/-- `while (ed >= st)`; `none` if the loop goes on when the fuel is spent. -/
def searchLoop (m : SparseMatrixView) (target : ℤ) : ℕ → ℕ → ℕ → Option Exit
  | 0, _, _ => none
  | fuel + 1, st, ed =>
    if st ≤ ed then
      let mid := st + (ed - st) / 2
      if target = m.inds.get mid then some ⟨st, ed, some mid, [mid]⟩
      else if target < m.inds.get mid then (searchLoop m target fuel st (m.decrement mid)).map (Exit.afterRead mid)
      else (searchLoop m target fuel (m.increment mid) ed).map (Exit.afterRead mid)
    else some ⟨st, ed, none, []⟩

/-- The loop that `locate` and `exist` share, from the bounds that they give it. -/
def search (m : SparseMatrixView) (fuel : ℕ) (i j : ℤ) : Option Exit :=
  m.searchLoop (m.inner i j) fuel (m.segmentStart i j) (m.decrement (m.segmentEnd i j))

/-- `locate(i, j, true_type)`, with the positions that it reads. -/
def locateSorted (m : SparseMatrixView) (fuel : ℕ) (i j : ℤ) : Option (ℕ × List ℕ) :=
  (m.search fuel i j).map fun e => (e.found.getD m.numericMax, e.reads)

/-- `exist(i, j, true_type)`. -/
def existSorted (m : SparseMatrixView) (fuel : ℕ) (i j : ℤ) : Option (Bool × List ℕ) :=
  (m.search fuel i j).map fun e => (decide (e.st ≤ e.ed), e.reads)

def nsegs (m : SparseMatrixView) : ℕ := (if m.rowMajor then m.nrows else m.ncols).toNat

/-- The segments lie one after the other, and the indices are in range and ascending in each. -/
structure WellFormed (m : SparseMatrixView) : Prop where
  size : m.ptrs.size = m.nsegs + 1
  first : m.ptrs.get 0 = 0
  mono : ∀ o < m.nsegs, m.ptrs.get o ≤ m.ptrs.get (o + 1)
  last : ∀ o ≤ m.nsegs, m.ptrs.get o ≤ m.inds.size
  fits : m.inds.size < 2 ^ m.bits
  inRange : ∀ p < m.inds.size, 0 ≤ m.inds.get p ∧ m.inds.get p < if m.rowMajor then m.ncols else m.nrows
  ascending : ∀ o < m.nsegs, ∀ p q, m.ptrs.get o ≤ p → p < q → q < m.ptrs.get (o + 1) → m.inds.get p < m.inds.get q

def InRange (m : SparseMatrixView) (i j : ℤ) : Prop := (0 ≤ i ∧ i < m.nrows) ∧ 0 ≤ j ∧ j < m.ncols

def InSegment (m : SparseMatrixView) (i j : ℤ) (p : ℕ) : Prop := m.segmentStart i j ≤ p ∧ p < m.segmentEnd i j

/-- The binary searches end, read in the segment only, and give what the linear search gives. -/
structure Agrees (m : SparseMatrixView) (i j : ℤ) : Prop where
  locate : ∃ fuel reads, m.locateSorted fuel i j = some (m.locate i j, reads) ∧ ∀ p ∈ reads, m.InSegment i j p
  exist : ∃ fuel reads, m.existSorted fuel i j = some (decide (m.locate i j ≠ m.numericMax), reads) ∧
    ∀ p ∈ reads, m.InSegment i j p

variable {m : SparseMatrixView} {target i j : ℤ} {S E st hi id k fuel : ℕ} {e : Exit}

section Arithmetic
theorem increment_eq (h : k + 1 < 2 ^ m.bits) : m.increment k = k + 1 := Nat.mod_eq_of_lt h

theorem decrement_eq (h0 : 0 < k) (h : k < 2 ^ m.bits) : m.decrement k = k - 1 := by
  have hk : k + 2 ^ m.bits - 1 = (k - 1) + 2 ^ m.bits := by omega
  rw [decrement, hk, Nat.add_mod_right, Nat.mod_eq_of_lt (by omega)]

end Arithmetic

section Linear
/-- The scan stops at the target or at the end. -/
theorem scan_spec (hE : E < 2 ^ m.bits) (hS : S ≤ id) (hid : id ≤ E) (hfuel : E ≤ id + fuel)
    (hno : ∀ p, S ≤ p → p < id → m.inds.get p ≠ target) :
    m.scan target E fuel id = E ∧ (∀ p, S ≤ p → p < E → m.inds.get p ≠ target) ∨
      (S ≤ m.scan target E fuel id ∧ m.scan target E fuel id < E) ∧ m.inds.get (m.scan target E fuel id) = target := by
  induction fuel generalizing id with
  | zero =>
    obtain rfl : id = E := by omega
    exact .inl ⟨rfl, hno⟩
  | succ fuel ih =>
    rw [scan]
    by_cases hend : id = E
    · subst hend
      rw [if_neg (not_not.mpr rfl)]
      exact .inl ⟨rfl, hno⟩
    · rw [if_pos hend]
      by_cases ht : target = m.inds.get id
      · rw [if_pos ht]
        exact .inr ⟨⟨hS, by omega⟩, ht.symm⟩
      · rw [if_neg ht, increment_eq (by omega)]
        refine ih (by omega) (by omega) (by omega) fun p hp hlt => ?_
        rcases Nat.lt_succ_iff_lt_or_eq.mp hlt with hlt | rfl
        · exact hno p hp hlt
        · exact Ne.symm ht

end Linear

section Binary
/-- The answer that a search of the segment is to give. -/
inductive Answers (m : SparseMatrixView) (target : ℤ) (S E : ℕ) : Exit → Prop
  | found {st ed p : ℕ} {reads : List ℕ} (hp : S ≤ p ∧ p < E) (ht : m.inds.get p = target) (hle : st ≤ ed) :
    Answers m target S E ⟨st, ed, some p, reads⟩
  | absent {st ed : ℕ} {reads : List ℕ} (hno : ∀ p, S ≤ p → p < E → m.inds.get p ≠ target) (hlt : ed < st) :
    Answers m target S E ⟨st, ed, none, reads⟩

theorem Answers.afterRead (h : Answers m target S E e) (p : ℕ) : Answers m target S E (e.afterRead p) := by
  cases h with
  | found hp ht hle => exact .found hp ht hle
  | absent hno hlt => exact .absent hno hlt

/-- With the target at or above the index at position zero, the bounds never wrap around: what is left is from `st` to
before `hi`, and the rest of the segment is below or above the target. -/
theorem searchLoop_spec (hasc : ∀ p q, S ≤ p → p < q → q < E → m.inds.get p < m.inds.get q) (hE : E < 2 ^ m.bits)
    (hzero : S = 0 → m.inds.get 0 ≤ target) (hS : S ≤ st) (hst : st ≤ hi) (h0 : 0 < hi) (hhi : hi ≤ E)
    (hlow : ∀ p, S ≤ p → p < st → m.inds.get p < target) (hhigh : ∀ p, hi ≤ p → p < E → target < m.inds.get p)
    (hfuel : hi - st < fuel) : ∃ e, m.searchLoop target fuel st (hi - 1) = some e ∧ Answers m target S E e ∧
      ∀ p ∈ e.reads, S ≤ p ∧ p < E := by
  induction fuel generalizing st hi with
  | zero => omega
  | succ fuel ih =>
    rw [searchLoop]
    by_cases hle : st ≤ hi - 1
    · rw [if_pos hle]
      have hmid : S ≤ st + (hi - 1 - st) / 2 ∧ st + (hi - 1 - st) / 2 < hi := by omega
      have hmst : st ≤ st + (hi - 1 - st) / 2 := Nat.le_add_right _ _
      revert hmid hmst
      generalize st + (hi - 1 - st) / 2 = mid
      rintro ⟨hSm, hmhi⟩ hmst
      have hseg : S ≤ mid ∧ mid < E := ⟨hSm, by omega⟩
      simp only
      by_cases ht : target = m.inds.get mid
      · rw [if_pos ht]
        exact ⟨_, rfl, .found hseg ht.symm hle, by simpa using hseg⟩
      rw [if_neg ht]
      by_cases hlt : target < m.inds.get mid
      · have hpos : 0 < mid := by
          by_contra hn
          obtain rfl : mid = 0 := by omega
          exact absurd (hzero (by omega)) (not_le.mpr hlt)
        have habove : ∀ p, mid ≤ p → p < E → target < m.inds.get p := fun p hp hpE => by
          rcases Nat.eq_or_lt_of_le hp with rfl | hp
          · exact hlt
          · exact hlt.trans (hasc mid p hSm hp hpE)
        obtain ⟨e, he, ha, hr⟩ := ih hS hmst hpos (by omega) hlow habove (by omega)
        rw [if_pos hlt, decrement_eq hpos (by omega), he]
        exact ⟨_, rfl, ha.afterRead mid, List.forall_mem_cons.mpr ⟨hseg, hr⟩⟩
      · have hgt : m.inds.get mid < target := lt_of_le_of_ne (not_lt.mp hlt) (Ne.symm ht)
        have hbelow : ∀ p, S ≤ p → p < mid + 1 → m.inds.get p < target := fun p hp hpm => by
          rcases Nat.lt_succ_iff_lt_or_eq.mp hpm with hpm | rfl
          · exact (hasc p mid hp hpm hseg.2).trans hgt
          · exact hgt
        obtain ⟨e, he, ha, hr⟩ := ih (by omega) (by omega) h0 hhi hbelow hhigh (by omega)
        rw [if_neg hlt, increment_eq (by omega), he]
        exact ⟨_, rfl, ha.afterRead mid, List.forall_mem_cons.mpr ⟨hseg, hr⟩⟩
    · rw [if_neg hle]
      refine ⟨_, rfl, .absent (fun p hp hpE => ?_) (by omega), by simp⟩
      by_cases hlt : p < st
      · exact ne_of_lt (hlow p hp hlt)
      · exact ne_of_gt (hhigh p (by omega) hpE)

/-- Below all of a segment that starts at position zero, the search does not end before it has read outside. -/
theorem searchLoop_leaves (hall : ∀ p < E, target < m.inds.get p) {ed : ℕ}
    (he : m.searchLoop target fuel 0 ed = some e) : ∃ p ∈ e.reads, E ≤ p := by
  induction fuel generalizing ed e with
  | zero => cases he
  | succ fuel ih =>
    rw [searchLoop, if_pos (Nat.zero_le _)] at he
    simp only at he
    by_cases hout : E ≤ 0 + (ed - 0) / 2
    · refine ⟨_, ?_, hout⟩
      split_ifs at he
      · cases he
        simp
      · obtain ⟨e', -, rfl⟩ := Option.map_eq_some_iff.mp he
        simp [Exit.afterRead]
      · obtain ⟨e', -, rfl⟩ := Option.map_eq_some_iff.mp he
        simp [Exit.afterRead]
    · have hlt := hall _ (not_le.mp hout)
      rw [if_neg (ne_of_lt hlt), if_pos hlt] at he
      obtain ⟨e', he', rfl⟩ := Option.map_eq_some_iff.mp he
      obtain ⟨p, hp, hE⟩ := ih he'
      exact ⟨p, List.mem_cons_of_mem _ hp, hE⟩

end Binary

section Lookup
theorem outer_lt (hr : m.InRange i j) : m.outer i j < m.nsegs := by
  obtain ⟨⟨hi0, hi⟩, hj0, hj⟩ := hr
  unfold outer nsegs
  split_ifs <;> omega

/-- The linear and the binary answer are the only position of the target. -/
theorem WellFormed.locate_eq (h : m.WellFormed) (hr : m.InRange i j)
    (ha : Answers m (m.inner i j) (m.segmentStart i j) (m.segmentEnd i j) e) :
    e.found.getD m.numericMax = m.locate i j ∧ (e.st ≤ e.ed ↔ m.locate i j ≠ m.numericMax) := by
  have ho := outer_lt hr
  have hE : m.segmentEnd i j < 2 ^ m.bits := (h.last _ ho).trans_lt h.fits
  have hle : m.segmentStart i j ≤ m.segmentEnd i j := h.mono _ ho
  have hfuel : m.segmentEnd i j ≤ m.segmentStart i j + 2 ^ m.bits := by omega
  have hnone : ∀ p, m.segmentStart i j ≤ p → p < m.segmentStart i j → m.inds.get p ≠ m.inner i j :=
    fun p hp hlt => absurd hp (not_le.mpr hlt)
  unfold locate
  rcases scan_spec hE le_rfl hle hfuel hnone with
    ⟨hend, hno⟩ | ⟨⟨hS, hlt⟩, ht⟩
  · rw [hend]
    simp only [ne_eq, not_true_eq_false, if_false, iff_false]
    cases ha with
    | found hp ht hle => exact absurd ht (hno _ hp.1 hp.2)
    | absent _ hlt => exact ⟨rfl, not_le.mpr hlt⟩
  · cases ha with
    | @found st ed p reads hp ht' hle =>
      have hp' : m.scan (m.inner i j) (m.segmentEnd i j) (2 ^ m.bits) (m.segmentStart i j) = p := by
        rcases lt_trichotomy (m.scan (m.inner i j) (m.segmentEnd i j) (2 ^ m.bits) (m.segmentStart i j)) p with
          hlt' | heq | hlt'
        · exact absurd (ht.trans ht'.symm) (ne_of_lt (h.ascending _ ho _ _ hS hlt' hp.2))
        · exact heq
        · exact absurd (ht'.trans ht.symm) (ne_of_lt (h.ascending _ ho _ _ hp.1 hlt' hlt))
      simp only [hp', if_pos (Nat.ne_of_lt hp.2)]
      have hmax : p ≠ m.numericMax := by
        unfold numericMax
        omega
      exact ⟨rfl, iff_of_true hle hmax⟩
    | absent hno _ => exact absurd ht (hno _ hS hlt)

/-- The search ends in the segment if the segment does not start at position zero or the target is not below it. -/
theorem WellFormed.search_spec (h : m.WellFormed) (hr : m.InRange i j)
    (hc : m.segmentStart i j = 0 → 0 < m.segmentEnd i j ∧ m.inds.get 0 ≤ m.inner i j) :
    ∃ fuel e, m.search fuel i j = some e ∧ Answers m (m.inner i j) (m.segmentStart i j) (m.segmentEnd i j) e ∧
      ∀ p ∈ e.reads, m.InSegment i j p := by
  have ho := outer_lt hr
  have hE : m.segmentEnd i j < 2 ^ m.bits := (h.last _ ho).trans_lt h.fits
  have hle : m.segmentStart i j ≤ m.segmentEnd i j := h.mono _ ho
  have h0 : 0 < m.segmentEnd i j := by
    rcases Nat.eq_zero_or_pos (m.segmentStart i j) with hz | hpos
    · exact (hc hz).1
    · exact hpos.trans_le hle
  have hasc : ∀ p q, m.segmentStart i j ≤ p → p < q → q < m.segmentEnd i j → m.inds.get p < m.inds.get q :=
    h.ascending _ ho
  obtain ⟨e, he, ha, hreads⟩ := searchLoop_spec hasc hE (fun hz => (hc hz).2) le_rfl hle h0 le_rfl
    (fun p hp hlt => absurd hp (not_le.mpr hlt)) (fun p hp hlt => absurd hp (not_le.mpr hlt)) (Nat.lt_succ_self _)
  rw [← decrement_eq h0 hE] at he
  exact ⟨_, e, he, ha, hreads⟩

/-- A segment that starts at position zero and is empty or all above the target. -/
theorem not_agrees (hz : m.segmentStart i j = 0) (hall : ∀ p < m.segmentEnd i j, m.inner i j < m.inds.get p) :
    ¬ m.Agrees i j := by
  rintro ⟨⟨fuel, reads, hmap, hin⟩, -⟩
  rw [locateSorted, search, hz] at hmap
  obtain ⟨e, he, heq⟩ := Option.map_eq_some_iff.mp hmap
  obtain rfl : e.reads = reads := congrArg Prod.snd heq
  obtain ⟨p, hp, hE⟩ := searchLoop_leaves hall he
  exact absurd (hin p hp).2 (not_lt.mpr hE)

/-- The lookups agree unless the segment starts at position zero and has no index up to the target. -/
theorem locate_exist_agree_iff (h : m.WellFormed) (hr : m.InRange i j) :
    m.Agrees i j ↔ (m.segmentStart i j = 0 → 0 < m.segmentEnd i j ∧ m.inds.get 0 ≤ m.inner i j) := by
  constructor
  · intro ha hz
    by_contra hn
    refine not_agrees hz (fun p hp => ?_) ha
    have hlt : m.inner i j < m.inds.get 0 := not_le.mp fun hle => hn ⟨by omega, hle⟩
    rcases Nat.eq_zero_or_pos p with rfl | hpos
    · exact hlt
    · exact hlt.trans (h.ascending _ (outer_lt hr) 0 p hz.le hpos hp)
  · intro hc
    obtain ⟨fuel, e, he, ha, hreads⟩ := h.search_spec hr hc
    obtain ⟨hl, hx⟩ := h.locate_eq hr ha
    refine ⟨⟨fuel, e.reads, ?_, hreads⟩, ⟨fuel, e.reads, ?_, hreads⟩⟩
    · rw [locateSorted, he, Option.map_some, hl]
    · rw [existSorted, he, Option.map_some, decide_eq_decide.mpr hx]

/-- One row of two columns with an entry in the second one. -/
def oneEntry : SparseMatrixView where
  rowMajor := true
  bits := 32
  nrows := 1
  ncols := 2
  ptrs := ⟨2, fun o => if o = 0 then 0 else 1⟩
  inds := ⟨1, fun _ => 1⟩

theorem oneEntry_wellFormed : oneEntry.WellFormed where
  size := rfl
  first := rfl
  mono o ho := by
    obtain rfl : o = 0 := Nat.lt_one_iff.mp ho
    decide
  last o _ := by
    change (if o = 0 then 0 else 1) ≤ 1
    split_ifs <;> omega
  fits := by decide
  inRange _ _ := (by decide : (0 : ℤ) ≤ 1 ∧ (1 : ℤ) < 2)
  ascending o ho p q hp hpq hq := by
    obtain rfl : o = 0 := Nat.lt_one_iff.mp ho
    have hq : q < 1 := hq
    omega

theorem agrees_oneEntry : oneEntry.Agrees 0 1 :=
  (locate_exist_agree_iff oneEntry_wellFormed (by unfold InRange; decide)).mpr fun _ => by decide

/-- The first column: the upper bound wraps around from zero. -/
theorem oneEntry_not_agrees : oneEntry.WellFormed ∧ oneEntry.InRange 0 0 ∧ ¬ oneEntry.Agrees 0 0 :=
  ⟨oneEntry_wellFormed, by unfold InRange; decide, not_agrees rfl fun _ _ => Int.zero_lt_one⟩

end Lookup

end SparseMatrixView

end Zpc
