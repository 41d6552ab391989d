import Mathlib
import Zpc.RationalArithmetic

/-!
# The order of canonical rationals

`operator<` compares continued fractions term by term. On positive denominators nothing in it overflows, and it decides the
order of the values.
-/
namespace Zpc.Rational
open CheckedInt64

variable {x y : Rational}

namespace Expansion
variable {t t' ts rs : Expansion} {reverse : Bool}

structure Proper (t : Expansion) : Prop where
  d_pos : 0 < t.d.toInt
  r_nonneg : 0 ≤ t.r.toInt
  r_lt : t.r.toInt < t.d.toInt

/-- What the terms that are left stand for. -/
def value (t : Expansion) : ℚ := t.q.toInt + t.r.toInt / t.d.toInt

theorem q_le (ht : t.Proper) : (t.q.toInt : ℚ) ≤ t.value := by
  have hd : (0 : ℚ) < t.d.toInt := Int.cast_pos.mpr ht.d_pos
  have hr : (0 : ℚ) ≤ t.r.toInt := Int.cast_nonneg ht.r_nonneg
  exact le_add_of_nonneg_right (div_nonneg hr hd.le)

theorem lt_q_add_one (ht : t.Proper) : t.value < t.q.toInt + 1 := by
  have hd : (0 : ℚ) < t.d.toInt := Int.cast_pos.mpr ht.d_pos
  have hr : (t.r.toInt : ℚ) < t.d.toInt := Int.cast_lt.mpr ht.r_lt
  exact add_lt_add_right ((div_lt_one hd).mpr hr) _

theorem value_lt_of_q (ht : ts.Proper) (hr : rs.Proper) (h : ts.q < rs.q) : ts.value < rs.value := by
  have hq : ts.q.toInt + 1 ≤ rs.q.toInt := Int64.lt_iff_toInt_lt.mp h
  calc ts.value < ts.q.toInt + 1 := lt_q_add_one ht
    _ ≤ rs.q.toInt := by exact_mod_cast hq
    _ ≤ rs.value := q_le hr

theorem q_lt_iff (ht : ts.Proper) (hr : rs.Proper) (hne : ts.q ≠ rs.q) : ts.q < rs.q ↔ ts.value < rs.value := by
  refine ⟨value_lt_of_q ht hr, fun hv => ?_⟩
  by_contra hle
  have hgt : rs.q < ts.q := by
    rw [Int64.lt_iff_toInt_lt] at hle ⊢
    exact lt_of_le_of_ne (Int.not_lt.mp hle) fun he => hne (Int64.toInt_inj.mp he).symm
  exact lt_asymm hv (value_lt_of_q hr ht hgt)

theorem value_of_r (h : t.r = 0) : t.value = t.q.toInt := by
  simp [value, h]

theorem q_lt (ht : t.Proper) (h : t.r ≠ 0) : (t.q.toInt : ℚ) < t.value := by
  have hd : (0 : ℚ) < t.d.toInt := Int.cast_pos.mpr ht.d_pos
  have hr : (0 : ℚ) < t.r.toInt := Int.cast_pos.mpr (lt_of_le_of_ne ht.r_nonneg (toInt_ne_zero.mpr h).symm)
  exact lt_add_of_pos_right _ (div_pos hr hd)

theorem start_eq (hx : 0 < x.den.toInt) : ∃ t, start x = .ok t ∧ t.d = x.den ∧ t.q.toInt = x.num.toInt.tdiv x.den.toInt ∧
    t.r.toInt = x.num.toInt.tmod x.den.toInt := by
  have ⟨q, hq, hq'⟩ := div_eq hx x.num
  have ⟨r, hr, hr'⟩ := rem_eq hx x.num
  refine ⟨⟨x.num, x.den, q, r⟩, ?_, rfl, hq', hr'⟩
  unfold start
  rw [hq, hr]
  rfl

theorem normalize_eq (hd : 0 < t.d.toInt) (hr : t.r.toInt.natAbs < t.d.toInt.natAbs)
    (hq : t.r.toInt < 0 → Int64.minValue.toInt < t.q.toInt) :
    ∃ t', t.normalize = .ok t' ∧ t'.Proper ∧ t'.value = t.value := by
  by_cases h : t.r < 0
  · have hneg : t.r.toInt < 0 := Int64.lt_iff_toInt_lt.mp h
    have hmax := Int64.toInt_le t.d
    have hmax' := Int64.toInt_le t.q
    have hzero : Int64.minValue.toInt ≤ 0 := by decide
    have ⟨r, hadd, hr'⟩ := checked_eq (z := t.r.toInt + t.d.toInt) (by omega)
    have ⟨q, hsub, hq'⟩ := checked_eq (z := t.q.toInt - 1) (by have := hq hneg; omega)
    have hstop : ¬ r < 0 := by
      rw [Int64.lt_iff_toInt_lt, Int64.toInt_zero]
      omega
    refine ⟨{t with q, r}, ?_, ⟨hd, ?_, ?_⟩, ?_⟩
    · have hadd : add t.r t.d = .ok r := hadd
      have hsub : sub t.q 1 = .ok q := hsub
      rw [normalize, if_pos h]
      simp only [hadd]
      split
      · rename_i e he
        cases hsub.symm.trans he
      · rename_i q' he
        obtain rfl : q = q' := Except.ok.inj (hsub.symm.trans he)
        rw [normalize, if_neg hstop]
    · simp only
      omega
    · simp only
      omega
    · have hd0 : (t.d.toInt : ℚ) ≠ 0 := Int.cast_ne_zero.mpr (Int.ne_of_gt hd)
      simp only [value, hq', hr']
      push_cast
      field_simp
      ring
  · refine ⟨t, ?_, ⟨hd, ?_, ?_⟩, rfl⟩
    · rw [normalize, if_neg h]
    · rw [Int64.lt_iff_toInt_lt, Int64.toInt_zero] at h
      omega
    · omega

/-- The quotient of a number with a negative remainder is above the least one. -/
theorem minValue_lt_of_rem {u v q r : Int64} (hv : 0 < v.toInt) (hq : q.toInt = u.toInt.tdiv v.toInt)
    (hr : r.toInt = u.toInt.tmod v.toInt) (hneg : r.toInt < 0) : Int64.minValue.toInt < q.toInt := by
  have hmin := Int64.minValue_le_toInt u
  have heq := Int.mul_tdiv_add_tmod u.toInt v.toInt
  rw [← hq, ← hr] at heq
  by_contra hle
  have hmul : v.toInt * q.toInt ≤ 1 * q.toInt := by
    apply Int.mul_le_mul_of_nonpos_right hv
    have hzero : Int64.minValue.toInt ≤ 0 := by decide
    omega
  omega

theorem next_eq (ht : t.Proper) (hr : t.r ≠ 0) :
    ∃ t', t.next = .ok t' ∧ t'.Proper ∧ t.value = t.q.toInt + 1 / t'.value ∧ 0 < t'.value := by
  have hpos : 0 < t.r.toInt := lt_of_le_of_ne ht.r_nonneg (toInt_ne_zero.mpr hr).symm
  have ⟨q, hq, hq'⟩ := div_eq hpos t.d
  have ⟨r, hr, hr'⟩ := rem_eq hpos t.d
  have heq := Int.mul_tdiv_add_tmod t.d.toInt t.r.toInt
  rw [← hq', ← hr'] at heq
  have hvalue : value ⟨t.d, t.r, q, r⟩ = t.d.toInt / t.r.toInt := by
    have hne : (t.r.toInt : ℚ) ≠ 0 := Int.cast_ne_zero.mpr (Int.ne_of_gt hpos)
    have heq : (t.r.toInt : ℚ) * q.toInt + r.toInt = t.d.toInt := by exact_mod_cast heq
    simp only [value]
    rw [← heq]
    field_simp
  refine ⟨⟨t.d, t.r, q, r⟩, ?_, ⟨hpos, ?_, ?_⟩, ?_, ?_⟩
  · unfold next
    rw [hq, hr]
    rfl
  · simp only [hr']
    exact Int.tmod_nonneg _ (Int.le_of_lt ht.d_pos)
  · simp only [hr']
    exact Int.tmod_lt_of_pos _ hpos
  · rw [hvalue, one_div_div]
    rfl
  · rw [hvalue]
    exact div_pos (Int.cast_pos.mpr ht.d_pos) (Int.cast_pos.mpr hpos)

def Before (reverse : Bool) (a b : ℚ) : Prop := if reverse then b < a else a < b

instance (reverse : Bool) (a b : ℚ) : Decidable (Before reverse a b) :=
  inferInstanceAs (Decidable (if reverse then b < a else a < b))

theorem compare_eq (ht : ts.Proper) (hr : rs.Proper) (reverse : Bool) :
    compare ts rs reverse = .ok (decide (Before reverse ts.value rs.value)) := by
  induction ts, rs, reverse using compare.induct with
  | case1 ts rs reverse hq =>
    rw [compare, if_pos hq]
    cases reverse with
    | false =>
      simp only [Before, q_lt_iff ht hr hq]
      rfl
    | true =>
      simp only [Before, q_lt_iff hr ht (Ne.symm hq)]
      rfl
  | case2 ts rs reverse hq h =>
    have hq := congrArg Int64.toInt (not_not.mp hq)
    rw [compare, if_neg ‹_›, if_pos h]
    by_cases he : ts.r = rs.r
    · have hvalue : ts.value = rs.value := by
        rw [value_of_r (by grind), value_of_r (by grind), hq]
      rw [if_pos he, hvalue]
      cases reverse <;> simp [Before]
    · rw [if_neg he]
      by_cases hts : ts.r = 0
      · have hlt := q_lt hr (fun h => he (hts.trans h.symm))
        rw [← hq, ← value_of_r hts] at hlt
        cases reverse <;> simp [Before, hts, hlt, hlt.le]
      · have hlt := q_lt ht hts
        rw [hq, ← value_of_r (h.resolve_left hts)] at hlt
        cases reverse <;> simp [Before, hts, hlt, hlt.le]
  | case3 ts rs reverse hq h e he =>
    have ⟨ts', hts, _⟩ := next_eq ht (not_or.mp h).1
    cases he.symm.trans hts
  | case4 ts rs reverse hq h ts' hts e he =>
    have ⟨rs', hrs, _⟩ := next_eq hr (not_or.mp h).2
    cases he.symm.trans hrs
  | case5 ts rs reverse hq h ts' hts rs' hrs ih =>
    have ⟨t, htn, htp, htv, htpos⟩ := next_eq ht (not_or.mp h).1
    have ⟨r, hrn, hrp, hrv, hrpos⟩ := next_eq hr (not_or.mp h).2
    obtain rfl : t = ts' := Except.ok.inj (htn.symm.trans hts)
    obtain rfl : r = rs' := Except.ok.inj (hrn.symm.trans hrs)
    have hiff : Before (!reverse) t.value r.value ↔ Before reverse ts.value rs.value := by
      rw [htv, hrv, not_not.mp hq]
      cases reverse with
      | false => exact ((add_lt_add_iff_left _).trans (one_div_lt_one_div htpos hrpos)).symm
      | true => exact ((add_lt_add_iff_left _).trans (one_div_lt_one_div hrpos htpos)).symm
    rw [compare, if_neg hq, if_neg h]
    split
    · rename_i e he
      cases he.symm.trans hts
    · rename_i ts₁ he
      obtain rfl : t = ts₁ := Except.ok.inj (hts.symm.trans he)
      simp only [hrs]
      rw [ih htp hrp]
      simp only [hiff]

end Expansion
/-! ## The operators -/

/-- The value of what `operator<` starts with. -/
theorem start_normalize (hx : 0 < x.den.toInt) : ∃ t t', Expansion.start x = .ok t ∧ t.normalize = .ok t' ∧ t'.Proper ∧
    t'.value = x.value := by
  have ⟨t, ht, hd, hq, hr⟩ := Expansion.start_eq hx
  have hd' : 0 < t.d.toInt := hd ▸ hx
  rw [← hd] at hq hr
  have hlt : t.r.toInt.natAbs < t.d.toInt.natAbs := by
    rw [hr, Int.natAbs_tmod]
    exact Nat.mod_lt _ (by omega)
  have ⟨t', ht', hproper, hvalue⟩ := Expansion.normalize_eq hd' hlt (Expansion.minValue_lt_of_rem hd' hq hr)
  refine ⟨t, t', ht, ht', hproper, hvalue.trans ?_⟩
  have heq := Int.mul_tdiv_add_tmod x.num.toInt t.d.toInt
  rw [← hq, ← hr] at heq
  have heq : (t.d.toInt : ℚ) * t.q.toInt + t.r.toInt = x.num.toInt := by exact_mod_cast heq
  have hne : (t.d.toInt : ℚ) ≠ 0 := Int.cast_ne_zero.mpr (Int.ne_of_gt hd')
  simp only [value, Expansion.value]
  rw [← heq, ← hd]
  field_simp

theorem lt_eq (hx : 0 < x.den.toInt) (hy : 0 < y.den.toInt) : lt x y = .ok (decide (x.value < y.value)) := by
  have ⟨t, t', ht, ht', htp, htv⟩ := start_normalize hx
  have ⟨r, r', hr, hr', hrp, hrv⟩ := start_normalize hy
  rw [← htv, ← hrv]
  unfold lt
  rw [ht, hr]
  simp only [bind, Except.bind]
  rw [ht']
  simp only
  rw [hr']
  exact Expansion.compare_eq htp hrp false

/-- With positive denominators `operator<` ends, nothing in it overflows, and it decides the order of the exact values. -/
theorem lt_decides_value (hx : 0 < x.den.toInt) (hy : 0 < y.den.toInt) :
    ∃ less, lt x y = .ok less ∧ (less = true ↔ x.value < y.value) :=
  ⟨_, lt_eq hx hy, decide_eq_true_iff⟩

theorem lt_decides_value_extreme : ∃ less, lt ⟨Int64.minValue, Int64.maxValue⟩ ⟨Int64.minValue, Int64.maxValue - 1⟩ = .ok less ∧
    (less = true ↔ value ⟨Int64.minValue, Int64.maxValue⟩ < value ⟨Int64.minValue, Int64.maxValue - 1⟩) :=
  lt_decides_value (by decide) (by decide)

theorem eq_iff (hx : x.Canonical) (hy : y.Canonical) : x.eq y = true ↔ x.value = y.value := by
  rw [eq, Bool.and_eq_true, beq_iff_eq, beq_iff_eq]
  constructor
  · rintro ⟨hn, hd⟩
    rw [value, value, hn, hd]
  · intro h
    obtain ⟨hn, hd⟩ := Rat.div_int_inj hx.den_pos hy.den_pos (Int.isCoprime_iff_gcd_eq_one.mp hx.coprime)
      (Int.isCoprime_iff_gcd_eq_one.mp hy.coprime) h
    exact ⟨Int64.toInt_inj.mp hn, Int64.toInt_inj.mp hd⟩

theorem gt_eq (hx : x.Canonical) (hy : y.Canonical) : gt x y = .ok (decide (y.value < x.value)) := by
  unfold gt
  by_cases h : x.eq y
  · rw [if_pos h, (eq_iff hx hy).mp h, decide_eq_false (lt_irrefl _)]
    rfl
  · rw [if_neg h, lt_eq hx.den_pos hy.den_pos]
    have hne : x.value ≠ y.value := fun he => h ((eq_iff hx hy).mpr he)
    have hiff : y.value < x.value ↔ ¬ x.value < y.value := by
      rw [not_lt]
      exact ⟨le_of_lt, fun hle => lt_of_le_of_ne hle hne.symm⟩
    simp only [hiff, decide_not]
    rfl

/-- The operator returns the exact value in canonical form. -/
def Exact (c : Checked Rational) (q : ℚ) : Prop := ∃ r, c = .ok r ∧ r.value = q ∧ r.Canonical

theorem exact_iff {c : Checked Rational} {q : ℚ} {P : Prop}
    (h : Yields c fun r => r.Reduced q ∧ (0 < r.den.toInt ↔ P)) : Exact c q ↔ c ≠ .error .overflow ∧ P := by
  constructor
  · rintro ⟨r, rfl, _, hr⟩
    exact ⟨nofun, h.2.mp hr.den_pos⟩
  · rintro ⟨hc, hp⟩
    have ⟨r, hr, hred, hpos⟩ := h.exists_of_ne hc
    exact ⟨r, hr, hred.value, hpos.mpr hp, hred.coprime⟩

/-- Without overflow every quotient of canonical rationals is exact and canonical. Sums, differences and products are where
`math::gcd` finds positive divisors. On canonical rationals the comparisons are those of the values. -/
theorem arithmetic_iff (hx : x.Canonical) (hy : y.Canonical) :
    (Exact (x.addAssign y) (x.value + y.value) ↔ x.addAssign y ≠ .error .overflow ∧
      GcdPositive (commonNum 1 x y) (Int.gcd x.den.toInt y.den.toInt)) ∧
    (Exact (x.subAssign y) (x.value - y.value) ↔ x.subAssign y ≠ .error .overflow ∧
      GcdPositive (commonNum (-1) x y) (Int.gcd x.den.toInt y.den.toInt)) ∧
    (Exact (x.mulAssign y) (x.value * y.value) ↔ x.mulAssign y ≠ .error .overflow ∧
      (GcdPositive x.num.toInt y.den.toInt ↔ GcdPositive y.num.toInt x.den.toInt)) ∧
    (y.value ≠ 0 → (Exact (x.divAssign y) (x.value / y.value) ↔ x.divAssign y ≠ .error .overflow)) ∧
    ∀ r s : Rational, r.Canonical → s.Canonical →
      (r.eq s = true ↔ r.value = s.value) ∧ r.lt s = .ok (decide (r.value < s.value)) ∧
        r.gt s = .ok (decide (s.value < r.value)) := by
  refine ⟨?_, ?_, ?_, fun hy0 => ?_, fun r s hr hs => ⟨eq_iff hr hs, lt_eq hr.den_pos hs.den_pos, gt_eq hr hs⟩⟩
  · have h := yields_combine (σ := 1) isUnit_one (fun u v => by rw [one_mul]; exact yields_add u v) hx hy
    rw [Int.cast_one, one_mul] at h
    exact exact_iff h
  · have hop : ∀ u v, Yields (CheckedInt64.sub u v) fun z => z.toInt = u.toInt + -1 * v.toInt := by
      intro u v
      rw [neg_one_mul, ← sub_eq_add_neg]
      exact yields_sub u v
    have h := yields_combine (σ := -1) isUnit_neg_one hop hx hy
    rw [Int.cast_neg, Int.cast_one, neg_one_mul, ← sub_eq_add_neg] at h
    exact exact_iff h
  · exact exact_iff (yields_mulAssign hx hy)
  · have hnum : y.num.toInt ≠ 0 := fun h => hy0 (by rw [value, h, Int.cast_zero, zero_div])
    have h := yields_divAssign hx hy hnum
    constructor
    · rintro ⟨r, hr, _⟩
      rw [hr]
      rintro ⟨⟩
    · exact fun hc => h.exists_of_ne hc

theorem arithmetic_quarters : Exact (addAssign ⟨3, 4⟩ ⟨-1, 4⟩) (value ⟨3, 4⟩ + value ⟨-1, 4⟩) :=
  (arithmetic_iff ⟨by decide, by decide +kernel⟩ ⟨by decide, by decide +kernel⟩).1.mpr
    ⟨by decide +kernel, .inl (by decide +kernel)⟩

/-- Minus a quarter and minus a quarter: the denominator of the sum is negative, so that it differs from minus a half and is
not less than zero. -/
theorem sum_negative_denominator : Canonical ⟨-1, 4⟩ ∧ addAssign ⟨-1, 4⟩ ⟨-1, 4⟩ = .ok ⟨1, -2⟩ ∧
    ¬ Exact (addAssign ⟨-1, 4⟩ ⟨-1, 4⟩) (value ⟨-1, 4⟩ + value ⟨-1, 4⟩) ∧
    eq ⟨1, -2⟩ ⟨-1, 2⟩ = false ∧ lt ⟨1, -2⟩ ⟨0, 1⟩ = .ok false ∧
    subAssign ⟨-1, 4⟩ ⟨1, 4⟩ = .ok ⟨1, -2⟩ ∧ mulAssign ⟨-1, 2⟩ ⟨1, 2⟩ = .ok ⟨1, -4⟩ := by
  have hsum : addAssign ⟨-1, 4⟩ ⟨-1, 4⟩ = .ok ⟨1, -2⟩ := by decide +kernel
  refine ⟨⟨by decide, by decide +kernel⟩, hsum, ?_, by decide +kernel, by decide +kernel, by decide +kernel,
    by decide +kernel⟩
  rintro ⟨r, hr, _, hcanonical⟩
  obtain rfl := Except.ok.inj (hsum.symm.trans hr)
  exact absurd hcanonical.den_pos (by decide)

end Zpc.Rational
