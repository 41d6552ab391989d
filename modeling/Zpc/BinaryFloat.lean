import Mathlib.Tactic.Ring

/-!
# Binary floating-point numbers

A pattern of bits without its sign stands for a number of units, the unit being the least subnormal number of its format.
Rounding to a format gives back every number that the format has, so that a wider format loses nothing.
-/
namespace BinaryFloat
/-- The units that a pattern stands for, with `p` bits of mantissa. -/
def magnitude (p b : ℕ) : ℕ := if b / 2 ^ p = 0 then b else (2 ^ p + b % 2 ^ p) * 2 ^ (b / 2 ^ p - 1)

/-- The pattern nearest to a number, counted in the `2 ^ s`-th part of a unit, the even one of two. -/
def round (p s n : ℕ) : ℕ :=
  let k := (n / 2 ^ s).log2 - p
  let q := 2 ^ (s + k)
  k * 2 ^ p + if q < 2 * (n % q) ∨ (q = 2 * (n % q) ∧ n / q % 2 = 1) then n / q + 1 else n / q

variable {p s k m : ℕ}

/-- A mantissa with its leading bit in place, except that of a subnormal number. -/
def Normal (p k m : ℕ) : Prop := m < 2 ^ (p + 1) ∧ (k = 0 ∨ 2 ^ p ≤ m)

theorem magnitude_normal (h : Normal p k m) : magnitude p (k * 2 ^ p + m) = m * 2 ^ k := by
  have hpos : 0 < 2 ^ p := Nat.two_pow_pos p
  have hlt := h.1
  rw [pow_succ] at hlt
  unfold magnitude
  by_cases hm : m < 2 ^ p
  · have hk : k = 0 := h.2.resolve_right (by omega)
    subst hk
    rw [Nat.zero_mul, Nat.zero_add, Nat.div_eq_of_lt hm, if_pos rfl, pow_zero, Nat.mul_one]
  · have hsplit : k * 2 ^ p + m = m - 2 ^ p + 2 ^ p * (k + 1) := by
      rw [Nat.mul_succ, Nat.mul_comm]
      omega
    have hdiv : (k * 2 ^ p + m) / 2 ^ p = k + 1 := by
      rw [hsplit, Nat.add_mul_div_left _ _ hpos, Nat.div_eq_of_lt (by omega), Nat.zero_add]
    have hmod : (k * 2 ^ p + m) % 2 ^ p = m - 2 ^ p := by
      rw [hsplit, Nat.add_mul_mod_self_left, Nat.mod_eq_of_lt (by omega)]
    rw [hdiv, hmod, if_neg (by omega), Nat.add_sub_cancel, show 2 ^ p + (m - 2 ^ p) = m by omega]

theorem exists_normal_pattern (p b : ℕ) : ∃ k m, Normal p k m ∧ b = k * 2 ^ p + m := by
  have hpos : 0 < 2 ^ p := Nat.two_pow_pos p
  have hmod := Nat.mod_lt b hpos
  have hsplit := Nat.div_add_mod' b (2 ^ p)
  by_cases hb : b / 2 ^ p = 0
  · have hlt := (Nat.div_eq_zero_iff_lt hpos).mp hb
    exact ⟨0, b, ⟨by rw [pow_succ]; omega, .inl rfl⟩, by omega⟩
  · refine ⟨b / 2 ^ p - 1, 2 ^ p + b % 2 ^ p, ⟨by rw [pow_succ]; omega, .inr (by omega)⟩, ?_⟩
    have hone : (b / 2 ^ p - 1) * 2 ^ p + 2 ^ p = b / 2 ^ p * 2 ^ p := by
      rw [← Nat.succ_mul, Nat.succ_eq_add_one, Nat.sub_one_add_one hb]
    omega

theorem magnitude_zero : magnitude p 0 = 0 := if_pos (Nat.zero_div _)

/-- The order of the patterns is that of what they stand for. -/
theorem magnitude_strictMono (p : ℕ) : StrictMono (magnitude p) := by
  intro a b hab
  obtain ⟨k, m, hm, rfl⟩ := exists_normal_pattern p a
  obtain ⟨k', m', hm', rfl⟩ := exists_normal_pattern p b
  rw [magnitude_normal hm, magnitude_normal hm']
  have hlt := hm.1
  have hlt' := hm'.1
  rw [pow_succ] at hlt hlt'
  rcases Nat.lt_trichotomy k k' with hk | rfl | hk
  · have hle : 2 ^ p ≤ m' := hm'.2.resolve_left (by omega)
    calc m * 2 ^ k < 2 ^ (p + 1) * 2 ^ k := Nat.mul_lt_mul_of_pos_right hm.1 (Nat.two_pow_pos k)
      _ = 2 ^ p * 2 ^ (k + 1) := by rw [← pow_add, ← pow_add]; congr 1; omega
      _ ≤ 2 ^ p * 2 ^ k' := Nat.mul_le_mul_left _ (Nat.pow_le_pow_right (by decide) hk)
      _ ≤ m' * 2 ^ k' := Nat.mul_le_mul_right _ hle
  · exact Nat.mul_lt_mul_of_pos_right (by omega) (Nat.two_pow_pos k)
  · -- a larger exponent cannot come first
    have hle : 2 ^ p ≤ m := hm.2.resolve_left (by omega)
    have hmul : (k' + 1) * 2 ^ p ≤ k * 2 ^ p := Nat.mul_le_mul_right _ hk
    rw [Nat.succ_mul] at hmul
    omega

theorem exists_normal (p : ℕ) {j : ℕ} (hm : m < 2 ^ (p + 1)) :
    ∃ k n, Normal p k n ∧ k ≤ j ∧ m * 2 ^ j = n * 2 ^ k := by
  by_cases h0 : m * 2 ^ j = 0
  · exact ⟨0, 0, ⟨Nat.two_pow_pos _, .inl rfl⟩, Nat.zero_le j, by rw [h0, Nat.zero_mul]⟩
  have hlog := Nat.log2_self_le h0
  have hlog' := Nat.lt_log2_self (n := m * 2 ^ j)
  have hkj : (m * 2 ^ j).log2 - p ≤ j := by
    have hlt : m * 2 ^ j < 2 ^ (p + 1 + j) := by
      rw [pow_add]
      exact Nat.mul_lt_mul_of_pos_right hm (Nat.two_pow_pos j)
    have := (Nat.log2_lt h0).mpr hlt
    omega
  have hdvd : 2 ^ ((m * 2 ^ j).log2 - p) ∣ m * 2 ^ j := (pow_dvd_pow 2 hkj).mul_left m
  refine ⟨(m * 2 ^ j).log2 - p, m * 2 ^ j / 2 ^ ((m * 2 ^ j).log2 - p), ⟨?_, ?_⟩, hkj, (Nat.div_mul_cancel hdvd).symm⟩
  · apply Nat.div_lt_of_lt_mul
    rw [← pow_add]
    exact hlog'.trans_le (Nat.pow_le_pow_right (by decide) (by omega))
  · by_cases hle : (m * 2 ^ j).log2 ≤ p
    · exact .inl (by omega)
    · apply Or.inr
      rw [Nat.le_div_iff_mul_le (Nat.two_pow_pos _), ← pow_add]
      exact (Nat.pow_le_pow_right (by decide) (by omega)).trans hlog

theorem log2_normal (h : Normal p k m) : (m * 2 ^ k).log2 - p = k := by
  cases h.2 with
  | inl hk =>
    subst hk
    rw [pow_zero, Nat.mul_one]
    by_cases hm : m = 0
    · rw [hm, Nat.log2_zero, Nat.zero_sub]
    · have := (Nat.log2_lt hm).mpr h.1
      omega
  | inr hm =>
    have hne : m * 2 ^ k ≠ 0 := (Nat.mul_pos ((Nat.two_pow_pos p).trans_le hm) (Nat.two_pow_pos k)).ne'
    have hlog : (m * 2 ^ k).log2 = p + k := by
      apply (Nat.log2_eq_iff hne).mpr
      constructor
      · rw [pow_add]
        exact Nat.mul_le_mul_right _ hm
      · rw [show p + k + 1 = p + 1 + k by omega, pow_add]
        exact Nat.mul_lt_mul_of_pos_right h.1 (Nat.two_pow_pos k)
    omega

theorem round_normal (s : ℕ) (h : Normal p k m) : round p s (m * 2 ^ k * 2 ^ s) = k * 2 ^ p + m := by
  have hpos : 0 < 2 ^ (s + k) := Nat.two_pow_pos _
  have hprod : m * 2 ^ k * 2 ^ s = m * 2 ^ (s + k) := by rw [pow_add]; ring
  unfold round
  simp only [Nat.mul_div_cancel _ (Nat.two_pow_pos s), log2_normal h]
  rw [hprod, Nat.mul_mod_left, Nat.mul_div_cancel _ hpos, if_neg (by omega)]

theorem round_magnitude (p s b : ℕ) : round p s (magnitude p b * 2 ^ s) = b := by
  have ⟨k, m, h, hb⟩ := exists_normal_pattern p b
  rw [hb, magnitude_normal h, round_normal s h]

theorem magnitude_round {j : ℕ} (hm : m < 2 ^ (p + 1)) : magnitude p (round p 0 (m * 2 ^ j)) = m * 2 ^ j := by
  have ⟨k, n, h, _, he⟩ := exists_normal p hm (j := j)
  have hround := round_normal 0 h
  rw [pow_zero, Nat.mul_one] at hround
  rw [he, hround, magnitude_normal h]

theorem round_lt {j : ℕ} (hm : m < 2 ^ (p + 1)) : round p 0 (m * 2 ^ j) < (j + 2) * 2 ^ p := by
  have ⟨k, n, h, hk, he⟩ := exists_normal p hm (j := j)
  have hround := round_normal 0 h
  rw [pow_zero, Nat.mul_one] at hround
  rw [he, hround]
  have hlt := h.1
  have hle : k * 2 ^ p ≤ j * 2 ^ p := Nat.mul_le_mul_right _ hk
  rw [pow_succ] at hlt
  rw [Nat.add_mul]
  omega

/-- Widening to a format with more digits and back. -/
theorem round_widened {p' : ℕ} (hp : p ≤ p') (t b : ℕ) :
    round p t (magnitude p' (round p' 0 (magnitude p b * 2 ^ t))) = b := by
  have ⟨k, m, h, hb⟩ := exists_normal_pattern p b
  have hwide : magnitude p' (round p' 0 (magnitude p b * 2 ^ t)) = magnitude p b * 2 ^ t := by
    rw [hb, magnitude_normal h, Nat.mul_assoc, ← pow_add]
    exact magnitude_round (h.1.trans_le (Nat.pow_le_pow_right (by decide) (by omega)))
  rw [hwide, round_magnitude]

/-! ## Single and double precision -/

/-- A finite double, by its sign and its other bits. -/
structure Double where
  negative : Bool
  bits : ℕ
  finite : bits < 2047 * 2 ^ 52
  deriving DecidableEq

/-- Neither an infinity nor a NaN. -/
def IsFinite (f : UInt32) : Prop := f.toNat % 2 ^ 31 < 255 * 2 ^ 23

instance (f : UInt32) : Decidable (IsFinite f) := inferInstanceAs (Decidable (_ < _))

theorem widened_lt {b : ℕ} (hb : b < 255 * 2 ^ 23) : round 52 0 (magnitude 23 b * 2 ^ 925) < 2047 * 2 ^ 52 := by
  have ⟨k, m, h, he⟩ := exists_normal_pattern 23 b
  have hk : k ≤ 254 := by omega
  rw [he, magnitude_normal h, Nat.mul_assoc, ← pow_add]
  have hlt : round 52 0 (m * 2 ^ (k + 925)) < (k + 925 + 2) * 2 ^ 52 :=
    round_lt (h.1.trans_le (Nat.pow_le_pow_right (by decide) (by omega)))
  exact hlt.trans_le (Nat.mul_le_mul_right _ (by omega))

/-- The double of the same value. -/
def toDouble (f : UInt32) : Option Double :=
  if h : f.toNat % 2 ^ 31 < 255 * 2 ^ 23 then
    some ⟨decide (2 ^ 31 ≤ f.toNat), round 52 0 (magnitude 23 (f.toNat % 2 ^ 31) * 2 ^ 925), widened_lt h⟩
  else none

def single (negative : Bool) (bits : ℕ) : UInt32 :=
  UInt32.ofNat ((if negative then 2 ^ 31 else 0) + min bits (255 * 2 ^ 23))

/-- The nearest single, or an infinity. -/
def Double.toSingle (d : Double) : UInt32 := single d.negative (round 23 925 (magnitude 52 d.bits))

def singleOfInt (n : ℤ) : UInt32 := single (n < 0) (round 23 0 (n.natAbs * 2 ^ 149))

theorem toDouble_eq_none {f : UInt32} : toDouble f = none ↔ ¬ IsFinite f := by
  unfold toDouble IsFinite
  by_cases h : f.toNat % 2 ^ 31 < 255 * 2 ^ 23
  · rw [dif_pos h]
    exact ⟨nofun, fun hn => absurd h hn⟩
  · rw [dif_neg h]
    exact ⟨fun _ => h, fun _ => rfl⟩

theorem toSingle_toDouble {f : UInt32} {d : Double} (h : toDouble f = some d) : d.toSingle = f := by
  unfold toDouble at h
  split at h
  · rename_i hfin
    cases h
    simp only [Double.toSingle, single, round_widened (show 23 ≤ 52 by decide)]
    rw [Nat.min_eq_left hfin.le]
    have hlt := f.toNat_lt
    apply UInt32.toNat_inj.mp
    rw [UInt32.toNat_ofNat']
    by_cases hneg : 2 ^ 31 ≤ f.toNat
    · simp only [hneg, decide_true, if_true]
      omega
    · simp only [hneg, decide_false, Bool.false_eq_true, if_false]
      omega
  · cases h

end BinaryFloat
