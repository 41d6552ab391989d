import Mathlib.RingTheory.Coprime.Lemmas

/-!
# Euclid's algorithm with truncated remainders

The remainder of a truncated division has the sign of the dividend, so the last nonzero remainder is the greatest common
divisor up to a sign. The signs of the remainders alternate between those of the arguments, and the parity of the number of
divisions says which of them comes last.
-/
namespace TruncatedEuclid
/-- The last nonzero remainder. -/
def euclid (u v : ℤ) : ℤ := if v = 0 then u else euclid v (u.tmod v)
  termination_by v.natAbs
  decreasing_by
    rw [Int.natAbs_tmod]
    exact Nat.mod_lt _ (by omega)

/-- The number of divisions. -/
def steps (m n : ℕ) : ℕ := if n = 0 then 0 else steps n (m % n) + 1
  termination_by n
  decreasing_by exact Nat.mod_lt _ (by omega)

variable {u v : ℤ}

@[simp] theorem euclid_zero (u : ℤ) : euclid u 0 = u := by
  rw [euclid, if_pos rfl]

theorem euclid_of_ne (hv : v ≠ 0) (u : ℤ) : euclid u v = euclid v (u.tmod v) := by
  rw [euclid, if_neg hv]

@[simp] theorem steps_zero (m : ℕ) : steps m 0 = 0 := by
  rw [steps, if_pos rfl]

theorem steps_of_ne {n : ℕ} (hn : n ≠ 0) (m : ℕ) : steps m n = steps n (m % n) + 1 := by
  rw [steps, if_neg hn]

theorem natAbs_euclid (u v : ℤ) : (euclid u v).natAbs = Int.gcd u v := by
  induction u, v using euclid.induct with
  | case1 u => rw [euclid_zero, Int.gcd_zero_right]
  | case2 u v hv ih =>
    rw [euclid_of_ne hv, ih, Int.gcd_eq_natAbs_gcd_natAbs, Int.gcd_eq_natAbs_gcd_natAbs, Int.natAbs_tmod,
      Nat.gcd_comm v.natAbs, ← Nat.gcd_rec, Nat.gcd_comm]

theorem euclid_dvd_left (u v : ℤ) : euclid u v ∣ u := by
  rw [← Int.natAbs_dvd_natAbs, natAbs_euclid]
  exact Int.natAbs_dvd_natAbs.mpr (Int.gcd_dvd_left ..)

theorem euclid_dvd_right (u v : ℤ) : euclid u v ∣ v := by
  rw [← Int.natAbs_dvd_natAbs, natAbs_euclid]
  exact Int.natAbs_dvd_natAbs.mpr (Int.gcd_dvd_right ..)

theorem euclid_ne_zero (hv : v ≠ 0) (u : ℤ) : euclid u v ≠ 0 := by
  rw [← Int.natAbs_ne_zero, natAbs_euclid]
  exact Int.gcd_ne_zero_right hv

/-- What is left of the arguments without the divisor is coprime. -/
theorem exists_quotients (hv : v ≠ 0) (u : ℤ) :
    ∃ u' v', u = euclid u v * u' ∧ v = euclid u v * v' ∧ IsCoprime u' v' := by
  have ⟨u', hu'⟩ := euclid_dvd_left u v
  have ⟨v', hv'⟩ := euclid_dvd_right u v
  refine ⟨u', v', hu', hv', Int.isCoprime_iff_gcd_eq_one.mpr ?_⟩
  have hgcd := Int.gcd_mul_left (euclid u v) u' v'
  rw [← hu', ← hv', natAbs_euclid] at hgcd
  have hpos : 0 < Int.gcd u v := Int.gcd_pos_of_ne_zero_right u hv
  exact Nat.eq_of_mul_eq_mul_left hpos (hgcd.symm.trans (Nat.mul_one _).symm)

/-! ## The sign -/

theorem euclid_nonneg (hu : 0 ≤ u) (hv : 0 ≤ v) : 0 ≤ euclid u v := by
  induction u, v using euclid.induct with
  | case1 u => rwa [euclid_zero]
  | case2 u v hne ih =>
    rw [euclid_of_ne hne]
    exact ih hv (Int.tmod_nonneg v hu)

/-- With arguments of opposite signs the parity of the number of divisions decides. -/
theorem euclid_pos_opposite (h : u < 0 ∧ 0 < v ∨ 0 < u ∧ v < 0) :
    0 < euclid u v ↔ (0 < v ↔ Odd (steps u.natAbs v.natAbs)) := by
  induction u, v using euclid.induct with
  | case1 u => omega
  | case2 u v hv ih =>
    rw [euclid_of_ne hv, steps_of_ne (by omega), ← Int.natAbs_tmod, Nat.odd_add_one]
    by_cases hr : u.tmod v = 0
    · rw [hr, euclid_zero, Int.natAbs_zero, steps_zero]
      simp
    · have hsign : v < 0 ∧ 0 < u.tmod v ∨ 0 < v ∧ u.tmod v < 0 := by
        cases h with
        | inl h =>
          have := Int.tmod_nonneg v (Int.neg_nonneg_of_nonpos (Int.le_of_lt h.1))
          rw [Int.neg_tmod] at this
          omega
        | inr h =>
          have := Int.tmod_nonneg v (Int.le_of_lt h.1)
          omega
      have hflip : 0 < u.tmod v ↔ ¬ 0 < v := by omega
      rw [ih hsign, hflip]
      exact not_iff_comm.trans iff_comm

theorem euclid_eq_gcd (hu : 0 ≤ u) (hv : 0 ≤ v) : euclid u v = Int.gcd u v := by
  rw [← natAbs_euclid, Int.natAbs_of_nonneg (euclid_nonneg hu hv)]

theorem euclid_pos_iff (hv : 0 < v) : 0 < euclid u v ↔ 0 ≤ u ∨ Odd (steps u.natAbs v.natAbs) := by
  by_cases hu : 0 ≤ u
  · have hnonneg := euclid_nonneg hu (Int.le_of_lt hv)
    have hne := euclid_ne_zero (Int.ne_of_gt hv) u
    exact iff_of_true (by omega) (.inl hu)
  · rw [euclid_pos_opposite (.inl ⟨by omega, hv⟩), iff_true_left hv, or_iff_right hu]

end TruncatedEuclid
