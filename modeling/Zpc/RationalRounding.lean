import Mathlib

/-!
# Rounding rationals to binary floating point

A format has `p` bits of precision and a least exponent `e`, that of its subnormal numbers; its numbers are the integers
below `2 ^ p` times a power of two from `2 ^ e` on. Rounding to nearest gives back exactly the numbers of the format.
-/
namespace RationalRounding
variable {p : ℕ} {e : ℤ} {q : ℚ}

/-- The exponent of the unit in the last place of numbers of this size. -/
def exponent (p : ℕ) (e : ℤ) (q : ℚ) : ℤ := max (Int.log 2 |q| + 1 - p) e

def roundHalfEven (q : ℚ) : ℤ :=
  if q - ⌊q⌋ < 1 / 2 then ⌊q⌋
  else if 1 / 2 < q - ⌊q⌋ then ⌊q⌋ + 1
  else if ⌊q⌋ % 2 = 0 then ⌊q⌋ else ⌊q⌋ + 1

/-- The nearest number of the format, ties to even, exponents not bounded above. -/
def nearest (p : ℕ) (e : ℤ) (q : ℚ) : ℚ := roundHalfEven (q / 2 ^ exponent p e q) * 2 ^ exponent p e q

def Representable (p : ℕ) (e : ℤ) (q : ℚ) : Prop := ∃ m k : ℤ, |m| < 2 ^ p ∧ e ≤ k ∧ q = m * 2 ^ k

@[simp] theorem roundHalfEven_intCast (n : ℤ) : roundHalfEven n = n := by simp [roundHalfEven]

theorem representable_zero : Representable p e 0 := ⟨0, e, by simp, le_rfl, by simp⟩

theorem representable_intCast {n : ℤ} (he : e ≤ 0) (hn : |n| < 2 ^ p) : Representable p e n :=
  ⟨n, 0, hn, he, by simp⟩

/-- The one integer with a bit too many is even. -/
theorem representable_intCast_of_le {n : ℤ} (he : e ≤ 0) (hp : 0 < p) (hn : |n| ≤ 2 ^ p) : Representable p e n := by
  rcases hn.lt_or_eq with h | h
  · exact representable_intCast he h
  · obtain ⟨p, rfl⟩ := Nat.exists_eq_add_one_of_ne_zero hp.ne'
    have h2 : (2 : ℤ) ^ p < 2 ^ (p + 1) := by rw [pow_succ]; linarith [pow_pos (two_pos : (0 : ℤ) < 2) p]
    have hpos : (0 : ℤ) ≤ 2 ^ p := pow_nonneg (by norm_num) p
    rcases abs_eq (a := n) (b := 2 ^ (p + 1)) (by positivity) |>.mp h with rfl | rfl
    · exact ⟨2 ^ p, 1, by rwa [abs_of_nonneg hpos], by omega, by simp [pow_succ]⟩
    · exact ⟨-2 ^ p, 1, by rwa [abs_neg, abs_of_nonneg hpos], by omega, by simp [pow_succ]⟩

theorem exponent_le {m k : ℤ} (hm : |m| < 2 ^ p) (hk : e ≤ k) (h0 : (m : ℚ) * 2 ^ k ≠ 0) :
    exponent p e (m * 2 ^ k) ≤ k := by
  refine max_le ?_ hk
  have hpos : 0 < |(m : ℚ) * 2 ^ k| := abs_pos.mpr h0
  have hlt : |(m : ℚ) * 2 ^ k| < 2 ^ ((p : ℤ) + k) := by
    rw [zpow_add₀ (by norm_num), abs_mul, abs_of_pos (zpow_pos (by norm_num : (0 : ℚ) < 2) k), zpow_natCast]
    exact mul_lt_mul_of_pos_right (by exact_mod_cast hm) (zpow_pos (by norm_num) k)
  have := (Int.lt_zpow_iff_log_lt (b := 2) (by norm_num) hpos).mp (by exact_mod_cast hlt)
  omega

/-- Rounding leaves the numbers of the format, and no others, as they are. -/
theorem nearest_eq_self_iff : nearest p e q = q ↔ Representable p e q := by
  have hu : (2 : ℚ) ^ exponent p e q ≠ 0 := zpow_ne_zero _ (by norm_num)
  constructor
  · intro h
    rcases eq_or_ne q 0 with rfl | h0
    · exact representable_zero
    refine ⟨roundHalfEven (q / 2 ^ exponent p e q), exponent p e q, ?_, le_max_right _ _, h.symm⟩
    set r := roundHalfEven (q / 2 ^ exponent p e q)
    have hlt : |q| < (2 : ℚ) ^ (Int.log 2 |q| + 1) := by exact_mod_cast Int.lt_zpow_succ_log_self (b := 2) (by norm_num) |q|
    have hle : (2 : ℚ) ^ (Int.log 2 |q| + 1) ≤ 2 ^ ((p : ℤ) + exponent p e q) :=
      zpow_le_zpow_right₀ (by norm_num) (by have := le_max_left (Int.log 2 |q| + 1 - p) e; unfold exponent; omega)
    have hq : |q| = |(r : ℚ)| * 2 ^ exponent p e q := by
      conv_lhs => rw [← h]
      rw [nearest, abs_mul, abs_of_pos (zpow_pos (by norm_num : (0 : ℚ) < 2) _)]
    rw [zpow_add₀ (by norm_num) (p : ℤ), zpow_natCast] at hle
    have := lt_of_mul_lt_mul_right (hq ▸ hlt.trans_le hle) (zpow_nonneg (by norm_num) _)
    exact_mod_cast this
  · rintro ⟨m, k, hm, hk, rfl⟩
    rcases eq_or_ne ((m : ℚ) * 2 ^ k) 0 with h0 | h0
    · have : roundHalfEven 0 = 0 := by simpa using roundHalfEven_intCast 0
      simp [nearest, h0, this]
    obtain ⟨d, hd⟩ := Int.le.dest (exponent_le hm hk h0)
    have hint : (m : ℚ) * 2 ^ k / 2 ^ exponent p e (m * 2 ^ k) = ((m * 2 ^ d : ℤ) : ℚ) := by
      rw [div_eq_iff hu]
      conv_lhs => rw [← hd]
      rw [zpow_add₀ (by norm_num), zpow_natCast]
      push_cast
      ring
    rw [nearest, hint, roundHalfEven_intCast, ← hint, div_mul_cancel₀ _ hu]

end RationalRounding
