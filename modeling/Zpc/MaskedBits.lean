import Mathlib.Data.List.Nodup
import Mathlib.Data.List.Range

/-!
# Positions of a mask

The positions that a mask selects, listed in ascending order, and the rank of a position among them. The two maps are
inverse, which is what gathering bits along a mask and scattering them back rest on.
-/
namespace MaskedBits
variable {m : ℕ → Bool} {n p s j : ℕ} {ps : List ℕ}

/-- The positions of the mask from `s` on and below `n`. -/
def positionsFrom (m : ℕ → Bool) (n s : ℕ) : List ℕ := (List.range' s (n - s)).filter m

def positions (m : ℕ → Bool) (n : ℕ) : List ℕ := positionsFrom m n 0

/-- The number of the positions of the mask below `p`. -/
def rank (m : ℕ → Bool) (p : ℕ) : ℕ := (List.range p).countP m

theorem mem_positionsFrom : p ∈ positionsFrom m n s ↔ s ≤ p ∧ p < n ∧ m p = true := by
  rw [positionsFrom, List.mem_filter, List.mem_range'_1]
  constructor
  · rintro ⟨⟨hs, hn⟩, hp⟩
    exact ⟨hs, by omega, hp⟩
  · rintro ⟨hs, hn, hp⟩
    exact ⟨⟨hs, by omega⟩, hp⟩

theorem nodup_positions : (positions m n).Nodup := List.Nodup.filter m List.nodup_range'

/-- Nothing is selected between `s` and the first position from `s` on. -/
theorem of_positionsFrom_cons (h : positionsFrom m n s = p :: ps) :
    s ≤ p ∧ p < n ∧ m p = true ∧ (∀ q, s ≤ q → q < p → m q = false) ∧ positionsFrom m n (p + 1) = ps := by
  have hmem : p ∈ positionsFrom m n s := h ▸ List.mem_cons_self
  obtain ⟨hs, hn, hp⟩ := mem_positionsFrom.mp hmem
  have hsplit : List.range' s (n - s) = List.range' s (p - s) ++ p :: List.range' (p + 1) (n - (p + 1)) := by
    rw [show n - s = (p - s) + (n - (p + 1) + 1) by omega, ← List.range'_append_1, List.range'_succ,
      show s + (p - s) = p by omega]
  have hsorted : (positionsFrom m n s).Pairwise (· < ·) := (List.pairwise_lt_range' (s := s) (n := n - s)).filter m
  have hlow : (List.range' s (p - s)).filter m = [] := by
    refine List.filter_eq_nil_iff.mpr fun q hq hmq => ?_
    have hq := List.mem_range'_1.mp hq
    have hqs : q ∈ positionsFrom m n s := mem_positionsFrom.mpr ⟨hq.1, by omega, hmq⟩
    rw [h] at hqs hsorted
    rcases List.mem_cons.mp hqs with rfl | hqs
    · omega
    · have := List.rel_of_pairwise_cons hsorted hqs
      omega
  refine ⟨hs, hn, hp, fun q hsq hqp => ?_, ?_⟩
  · have := List.filter_eq_nil_iff.mp hlow q (List.mem_range'_1.mpr (by omega))
    simpa using this
  · have h' : positionsFrom m n s = p :: positionsFrom m n (p + 1) := by
      rw [positionsFrom, hsplit, List.filter_append, hlow, List.nil_append, List.filter_cons_of_pos hp]
      rfl
    exact (List.cons.inj (h'.symm.trans h)).2

theorem of_positionsFrom_nil (h : positionsFrom m n s = []) : ∀ q, s ≤ q → q < n → m q = false := by
  intro q hs hn
  rw [← Bool.not_eq_true]
  intro hq
  have := mem_positionsFrom.mpr ⟨hs, hn, hq⟩
  rw [h] at this
  exact List.not_mem_nil this

theorem rank_succ : rank m (p + 1) = rank m p + if m p then 1 else 0 := by
  rw [rank, rank, List.range_succ, List.countP_append, List.countP_singleton]

theorem rank_mono (h : p ≤ s) : rank m p ≤ rank m s := by
  obtain ⟨d, rfl⟩ := Nat.exists_eq_add_of_le h
  rw [rank, rank, List.range_add, List.countP_append]
  exact Nat.le_add_right _ _

theorem rank_eq_of_clear (h : s ≤ p) (hclear : ∀ q, s ≤ q → q < p → m q = false) : rank m p = rank m s := by
  obtain ⟨d, rfl⟩ := Nat.exists_eq_add_of_le h
  rw [rank, rank, List.range_add, List.countP_append, List.countP_map, Nat.add_eq_left, List.countP_eq_zero]
  intro i hi
  have := hclear (s + i) (Nat.le_add_right s i) (by have := List.mem_range.mp hi; omega)
  simpa using this

theorem length_positions : (positions m n).length = rank m n := by
  rw [positions, positionsFrom, rank, List.countP_eq_length_filter, Nat.sub_zero, List.range_eq_range']

/-- The position that is selected as number `rank m p` is `p`. -/
theorem getElem?_rank (hp : p < n) (hm : m p = true) : (positions m n)[rank m p]? = some p := by
  have hsplit : List.range' 0 (n - 0) = List.range p ++ p :: List.range' (p + 1) (n - (p + 1)) := by
    rw [List.range_eq_range', show n - 0 = p + (n - (p + 1) + 1) by omega, ← List.range'_append_1, List.range'_succ,
      Nat.zero_add]
  rw [positions, positionsFrom, hsplit, List.filter_append, List.filter_cons_of_pos hm, rank,
    List.countP_eq_length_filter, List.getElem?_append_right le_rfl, Nat.sub_self, List.getElem?_cons_zero]

theorem rank_of_getElem? (h : (positions m n)[j]? = some p) : rank m p = j := by
  obtain ⟨-, hn, hm⟩ := mem_positionsFrom.mp (List.mem_of_getElem? h)
  obtain ⟨hj, -⟩ := List.getElem?_eq_some_iff.mp h
  have hr := getElem?_rank hn hm
  exact ((List.getElem?_inj hj nodup_positions).mp (h.trans hr.symm)).symm

end MaskedBits
