import Mathlib.Tactic.FieldSimp
import Mathlib.Tactic.LinearCombination
import Zpc.CheckedInt64
import Zpc.TruncatedEuclid

/-!
# Rational numbers of 64-bit integers

`rational` of `Rational.hpp` and `math::gcd`. The arithmetic is that of signed integers, which must not overflow.
-/
namespace Zpc
open CheckedInt64 TruncatedEuclid

structure Rational where
  num : Int64
  den : Int64
  deriving DecidableEq

namespace Rational
def gcd (u v : Int64) : Checked Int64 :=
  if v = 0 then .ok u
  else match _h : rem u v with
    | .ok r => gcd v r
    | .error e => .error e
  termination_by v.toInt.natAbs
  decreasing_by
    have hv := toInt_ne_zero.mpr ‹¬ v = 0›
    have hr := yields_rem hv u
    rw [_h] at hr
    rw [show r.toInt = u.toInt.tmod v.toInt from hr, Int.natAbs_tmod]
    exact Nat.mod_lt _ (by omega)

theorem yields_gcd (u v : Int64) : Yields (gcd u v) fun g => g.toInt = euclid u.toInt v.toInt := by
  induction u, v using gcd.induct with
  | case1 u =>
    rw [gcd, if_pos rfl, Int64.toInt_zero, euclid_zero]
    exact yields_pure rfl
  | case2 u v hv r h ih =>
    have hne := toInt_ne_zero.mpr hv
    have hr := yields_rem hne u
    rw [h] at hr
    rw [gcd, if_neg hv, h, euclid_of_ne hne, ← show r.toInt = u.toInt.tmod v.toInt from hr]
    exact ih
  | case3 u v hv e h =>
    have hr := yields_rem (toInt_ne_zero.mpr hv) u
    rw [h] at hr
    rw [gcd, if_neg hv, h]
    exact hr

def canonicalize (x : Rational) : Checked Rational := do
  if x.den = 0 then return x
  if x.num = 0 then return {x with den := 1}
  let g ← gcd x.num x.den
  let num ← div x.num g
  let den ← div x.den g
  if den < 0 then return {num := ← neg num, den := ← neg den}
  return {num, den}

/-- The sum, or the difference. -/
def combine (op : Int64 → Int64 → Checked Int64) (l r : Rational) : Checked Rational := do
  let g ← gcd l.den r.den
  let den ← div l.den g
  let num ← op (← mul l.num (← div r.den g)) (← mul r.num den)
  let g ← gcd num g
  let num ← div num g
  let den ← mul den (← div r.den g)
  return {num, den}

def addAssign (l r : Rational) : Checked Rational := combine CheckedInt64.add l r
def subAssign (l r : Rational) : Checked Rational := combine CheckedInt64.sub l r

def mulAssign (l r : Rational) : Checked Rational := do
  let gcd1 ← gcd l.num r.den
  let gcd2 ← gcd r.num l.den
  let num ← mul (← div l.num gcd1) (← div r.num gcd2)
  let den ← mul (← div l.den gcd2) (← div r.den gcd1)
  return {num, den}

/-- A zero divisor is reported and then divided by. -/
def divAssign (l r : Rational) : Checked Rational := do
  if l.num = 0 then return l
  let gcd1 ← gcd l.num r.num
  let gcd2 ← gcd r.den l.den
  let num ← mul (← div l.num gcd1) (← div r.den gcd2)
  let den ← mul (← div l.den gcd2) (← div r.num gcd1)
  if den < 0 then return {num := ← neg num, den := ← neg den}
  return {num, den}

/-! ## Comparison -/

/-- A number in `operator<`: the parts of its continued fraction that are left. -/
structure Expansion where
  n : Int64
  d : Int64
  q : Int64
  r : Int64

namespace Expansion
def start (x : Rational) : Checked Expansion := do
  return {n := x.num, d := x.den, q := ← div x.num x.den, r := ← rem x.num x.den}

/-- The loop that makes the first remainder nonnegative. -/
def normalize (t : Expansion) : Checked Expansion :=
  if t.r < 0 then
    match add t.r t.d with
    | .error e => .error e
    | .ok r =>
      match _h : sub t.q 1 with
      | .error e => .error e
      | .ok q => normalize {t with q, r}
  else .ok t
  termination_by (t.q.toInt - Int64.minValue.toInt).toNat
  decreasing_by
    have hq := yields_sub t.q 1
    rw [_h] at hq
    have hq : q.toInt = t.q.toInt - 1 := hq
    have hmin := Int64.minValue_le_toInt q
    omega

def next (t : Expansion) : Checked Expansion := do
  return {n := t.d, d := t.r, q := ← div t.d t.r, r := ← rem t.d t.r}

theorem yields_next {t : Expansion} (hr : t.r.toInt ≠ 0) : Yields t.next fun t' =>
    t'.d = t.r ∧ t'.q.toInt = t.d.toInt.tdiv t.r.toInt ∧ t'.r.toInt = t.d.toInt.tmod t.r.toInt := by
  apply (yields_div hr t.d).bind
  intro q hq
  apply (yields_rem hr t.d).bind
  intro r hr
  exact yields_pure ⟨rfl, hq, hr⟩

/-- The cycle of `operator<`. -/
def compare (ts rs : Expansion) (reverse : Bool) : Checked Bool :=
  if ts.q ≠ rs.q then .ok (if reverse then decide (rs.q < ts.q) else decide (ts.q < rs.q))
  else if ts.r = 0 ∨ rs.r = 0 then
    .ok (if ts.r = rs.r then false else decide (ts.r ≠ 0) != !reverse)
  else match _h : ts.next with
    | .error e => .error e
    | .ok ts' =>
      match rs.next with
      | .error e => .error e
      | .ok rs' => compare ts' rs' (!reverse)
  termination_by ts.r.toInt.natAbs
  decreasing_by
    have hne := toInt_ne_zero.mpr (not_or.mp ‹¬ (ts.r = 0 ∨ rs.r = 0)›).1
    have hnext := yields_next hne
    rw [_h] at hnext
    rw [show ts'.r.toInt = ts.d.toInt.tmod ts.r.toInt from hnext.2.2, Int.natAbs_tmod]
    exact Nat.mod_lt _ (by omega)

end Expansion

def lt (l r : Rational) : Checked Bool := do
  let ts ← Expansion.start l
  let rs ← Expansion.start r
  Expansion.compare (← ts.normalize) (← rs.normalize) false

def eq (l r : Rational) : Bool := l.num == r.num && l.den == r.den

def gt (l r : Rational) : Checked Bool := do
  if l.eq r then return false
  return !(← l.lt r)

/-! ## Values -/

def value (x : Rational) : ℚ := x.num.toInt / x.den.toInt

structure Canonical (x : Rational) : Prop where
  den_pos : 0 < x.den.toInt
  coprime : IsCoprime x.num.toInt x.den.toInt

end Rational
end Zpc

/-!
## Arithmetic of canonical rationals

Sums, differences, products and quotients have the exact value, in lowest terms. The denominator of a quotient is made
positive; that of the others has the sign of the divisors that `math::gcd` finds.
-/
namespace Zpc.Rational
open CheckedInt64 TruncatedEuclid

variable {a b c d : ℤ}

/-! ## Fractions -/

theorem sum_value {g g' b' d' k n' σ : ℤ} (hb : b = g * b') (hd : d = g * d') (hg : g = g' * k)
    (hn : a * d' + σ * (c * b') = g' * n') (hb0 : b ≠ 0) (hd0 : d ≠ 0) :
    (n' : ℚ) / (b' * (k * d') : ℤ) = a / b + σ * (c / d) := by
  subst hb hd hg
  have hn : (a : ℚ) * d' + σ * (c * b') = g' * n' := by exact_mod_cast hn
  have hg' : (g' : ℚ) ≠ 0 := by
    rintro he
    simp [Int.cast_eq_zero.mp he] at hb0
  have hk : (k : ℚ) ≠ 0 := by
    rintro he
    simp [Int.cast_eq_zero.mp he] at hb0
  have hb' : (b' : ℚ) ≠ 0 := Int.cast_ne_zero.mpr (right_ne_zero_of_mul hb0)
  have hd' : (d' : ℚ) ≠ 0 := Int.cast_ne_zero.mpr (right_ne_zero_of_mul hd0)
  push_cast
  field_simp
  linear_combination -hn

theorem sum_coprime {g g' b' d' k n' σ : ℤ} (hb : b = g * b') (hd : d = g * d')
    (hn : a * d' + σ * (c * b') = g' * n') (hab : IsCoprime a b) (hcd : IsCoprime c d) (hσ : IsUnit σ)
    (hbd : IsCoprime b' d') (hk : IsCoprime n' k) : IsCoprime n' (b' * (k * d')) := by
  have hb' : IsCoprime (g' * n') b' := by
    rw [← hn, ← mul_assoc]
    apply IsCoprime.add_mul_right_left
    rw [hb] at hab
    exact hab.of_mul_right_right.mul_left hbd.symm
  have hd' : IsCoprime (g' * n') d' := by
    rw [← hn, add_comm]
    apply IsCoprime.add_mul_right_left
    rw [hd] at hcd
    exact (isCoprime_mul_unit_left_left hσ _ _).mpr (hcd.of_mul_right_right.mul_left hbd)
  exact hb'.of_mul_left_right.mul_right (hk.mul_right hd'.of_mul_left_right)

theorem product_value {g h a' b' c' d' : ℤ} (ha : a = g * a') (hd : d = g * d') (hc : c = h * c') (hb : b = h * b')
    (hb0 : b ≠ 0) (hd0 : d ≠ 0) : ((a' * c' : ℤ) : ℚ) / (b' * d' : ℤ) = a / b * (c / d) := by
  subst ha hb hc hd
  have hg : (g : ℚ) ≠ 0 := Int.cast_ne_zero.mpr (left_ne_zero_of_mul hd0)
  have hh : (h : ℚ) ≠ 0 := Int.cast_ne_zero.mpr (left_ne_zero_of_mul hb0)
  have hb' : (b' : ℚ) ≠ 0 := Int.cast_ne_zero.mpr (right_ne_zero_of_mul hb0)
  have hd' : (d' : ℚ) ≠ 0 := Int.cast_ne_zero.mpr (right_ne_zero_of_mul hd0)
  push_cast
  field_simp

theorem product_coprime {g h a' b' c' d' : ℤ} (ha : a = g * a') (hd : d = g * d') (hc : c = h * c') (hb : b = h * b')
    (hab : IsCoprime a b) (hcd : IsCoprime c d) (had : IsCoprime a' d') (hcb : IsCoprime c' b') :
    IsCoprime (a' * c') (b' * d') := by
  subst ha hb hc hd
  have hab' := hab.of_mul_left_right.of_mul_right_right
  have hcd' := hcd.of_mul_left_right.of_mul_right_right
  exact (hab'.mul_right had).mul_left (hcb.mul_right hcd')

/-! ## What the operators yield -/

variable {x y : Rational}

/-- `math::gcd` is positive for a positive second argument. -/
def GcdPositive (u v : ℤ) : Prop := 0 ≤ u ∨ Odd (steps u.natAbs v.natAbs)

/-- The numerator over the least common multiple of the denominators. -/
def commonNum (σ : ℤ) (x y : Rational) : ℤ :=
  let g := Int.gcd x.den.toInt y.den.toInt
  x.num.toInt * (y.den.toInt / g) + σ * (y.num.toInt * (x.den.toInt / g))

/-- The value in lowest terms, with a denominator of either sign. -/
structure Reduced (r : Rational) (q : ℚ) : Prop where
  value : r.value = q
  coprime : IsCoprime r.num.toInt r.den.toInt

theorem yields_combine {op : Int64 → Int64 → Checked Int64} {σ : ℤ} (hσ : IsUnit σ)
    (hop : ∀ u v, Yields (op u v) fun z => z.toInt = u.toInt + σ * v.toInt) (hx : x.Canonical) (hy : y.Canonical) :
    Yields (combine op x y) fun r => r.Reduced (x.value + σ * y.value) ∧
      (0 < r.den.toInt ↔ GcdPositive (commonNum σ x y) (Int.gcd x.den.toInt y.den.toInt)) := by
  have hb := hx.den_pos
  have hd := hy.den_pos
  have ⟨b', d', hb', hd', hbd⟩ := exists_quotients (Int.ne_of_gt hd) x.den.toInt
  have hgcd := euclid_eq_gcd (Int.le_of_lt hb) (Int.le_of_lt hd)
  unfold combine
  apply (yields_gcd x.den y.den).bind
  intro g hg
  rw [← hg] at hb' hd' hgcd
  have hg0 : 0 < g.toInt := by
    rw [hgcd]
    exact Int.natCast_pos.mpr (Int.gcd_pos_of_ne_zero_left _ (Int.ne_of_gt hb))
  have hgne := Int.ne_of_gt hg0
  apply (yields_div_mul hgne hb').bind
  intro den hden
  apply (yields_div_mul hgne hd').bind
  intro e he
  apply (yields_mul x.num e).bind
  intro u hu
  apply (yields_mul y.num den).bind
  intro v hv
  apply (hop u v).bind
  intro n hn
  apply (yields_gcd n g).bind
  intro g' hg'
  have ⟨n', k, hn', hk, hcop⟩ := exists_quotients hgne n.toInt
  rw [← hg'] at hn' hk
  have hg'ne : g'.toInt ≠ 0 := by
    rw [hg']
    exact euclid_ne_zero hgne _
  apply (yields_div_mul hg'ne hn').bind
  intro num hnum
  apply (yields_div_mul (z := k * d') hg'ne (by rw [hd', ← mul_assoc, ← hk])).bind
  intro f hf
  apply (yields_mul den f).bind
  intro den' hden'
  have hsum : x.num.toInt * d' + σ * (y.num.toInt * b') = g'.toInt * n' := by
    rw [← hn', hn, hu, hv, he, hden]
  have hden' : den'.toInt = b' * (k * d') := by rw [hden', hden, hf]
  refine yields_pure ⟨⟨?_, ?_⟩, ?_⟩
  · unfold value
    rw [hnum, hden']
    exact sum_value hb' hd' hk hsum (Int.ne_of_gt hb) (Int.ne_of_gt hd)
  · simp only [hnum, hden']
    exact sum_coprime hb' hd' hsum hx.coprime hy.coprime hσ hbd hcop
  · have hcommon : commonNum σ x y = n.toInt := by
      simp only [commonNum]
      rw [← hgcd, hn', ← hsum, hb', hd', Int.mul_ediv_cancel_left _ hgne, Int.mul_ediv_cancel_left _ hgne]
    have hb'0 : 0 < b' := (pos_iff_pos_of_mul_pos (hb' ▸ hb)).mp hg0
    have hd'0 : 0 < d' := (pos_iff_pos_of_mul_pos (hd' ▸ hd)).mp hg0
    simp only [hden']
    rw [mul_pos_iff_of_pos_left hb'0, mul_pos_iff_of_pos_right hd'0, ← pos_iff_pos_of_mul_pos (hk ▸ hg0), hg',
      euclid_pos_iff hg0, hcommon, ← hgcd]
    rfl

theorem yields_mulAssign (hx : x.Canonical) (hy : y.Canonical) : Yields (mulAssign x y) fun r =>
    r.Reduced (x.value * y.value) ∧
      (0 < r.den.toInt ↔ (GcdPositive x.num.toInt y.den.toInt ↔ GcdPositive y.num.toInt x.den.toInt)) := by
  have hb := hx.den_pos
  have hd := hy.den_pos
  have ⟨a', d', ha', hd', had⟩ := exists_quotients (Int.ne_of_gt hd) x.num.toInt
  have ⟨c', b', hc', hb', hcb⟩ := exists_quotients (Int.ne_of_gt hb) y.num.toInt
  have hg0 := euclid_ne_zero (Int.ne_of_gt hd) x.num.toInt
  have hh0 := euclid_ne_zero (Int.ne_of_gt hb) y.num.toInt
  unfold mulAssign
  apply (yields_gcd x.num y.den).bind
  intro g hg
  apply (yields_gcd y.num x.den).bind
  intro h hh
  rw [← hg] at ha' hd' hg0
  rw [← hh] at hc' hb' hh0
  apply (yields_div_mul hg0 ha').bind
  intro u hu
  apply (yields_div_mul hh0 hc').bind
  intro v hv
  apply (yields_mul u v).bind
  intro num hnum
  apply (yields_div_mul hh0 hb').bind
  intro u' hu'
  apply (yields_div_mul hg0 hd').bind
  intro v' hv'
  apply (yields_mul u' v').bind
  intro den hden
  rw [hu, hv] at hnum
  rw [hu', hv'] at hden
  refine yields_pure ⟨⟨?_, ?_⟩, ?_⟩
  · unfold value
    rw [hnum, hden]
    exact product_value ha' hd' hc' hb' (Int.ne_of_gt hb) (Int.ne_of_gt hd)
  · simp only [hnum, hden]
    exact product_coprime ha' hd' hc' hb' hx.coprime hy.coprime had hcb
  · -- the parts of the denominator have the signs of the two divisors
    have hbsign := pos_iff_pos_of_mul_pos (hb' ▸ hb)
    have hdsign := pos_iff_pos_of_mul_pos (hd' ▸ hd)
    have hb'ne : b' ≠ 0 := right_ne_zero_of_mul (hb' ▸ Int.ne_of_gt hb)
    have hd'ne : d' ≠ 0 := right_ne_zero_of_mul (hd' ▸ Int.ne_of_gt hd)
    rw [hh, euclid_pos_iff hb] at hbsign
    rw [hg, euclid_pos_iff hd] at hdsign
    simp only [hden, GcdPositive]
    rw [hbsign, hdsign, mul_pos_iff]
    omega

/-- What the operators with a sign correction end with. -/
theorem yields_signed {num den : Int64} {q : ℚ} (h : (⟨num, den⟩ : Rational).Reduced q) (hne : den.toInt ≠ 0) :
    Yields (do if den < 0 then return {num := ← neg num, den := ← neg den} else return ({num, den} : Rational))
      fun r => r.value = q ∧ r.Canonical := by
  by_cases hneg : den < 0
  · rw [if_pos hneg]
    rw [Int64.lt_iff_toInt_lt, Int64.toInt_zero] at hneg
    apply (yields_neg num).bind
    intro num' hnum
    apply (yields_neg den).bind
    intro den' hden
    refine yields_pure ⟨?_, ?_, ?_⟩
    · rw [← h.value]
      simp only [value, hnum, hden, Int.cast_neg, neg_div_neg_eq]
    · simp only [hden]
      omega
    · simp only [hnum, hden]
      exact h.coprime.neg_neg
  · rw [if_neg hneg]
    rw [Int64.lt_iff_toInt_lt, Int64.toInt_zero] at hneg
    exact yields_pure ⟨h.value, by simp only; omega, h.coprime⟩

theorem yields_divAssign (hx : x.Canonical) (hy : y.Canonical) (hy0 : y.num.toInt ≠ 0) :
    Yields (divAssign x y) fun r => r.value = x.value / y.value ∧ r.Canonical := by
  have hb := hx.den_pos
  have hd := hy.den_pos
  unfold divAssign
  by_cases hx0 : x.num = 0
  · rw [if_pos hx0]
    refine yields_pure ⟨?_, hx⟩
    simp [value, hx0]
  · rw [if_neg hx0]
    have ⟨a', c', ha', hc', hac⟩ := exists_quotients hy0 x.num.toInt
    have ⟨d', b', hd', hb', hdb⟩ := exists_quotients (Int.ne_of_gt hb) y.den.toInt
    have hg0 := euclid_ne_zero hy0 x.num.toInt
    have hh0 := euclid_ne_zero (Int.ne_of_gt hb) y.den.toInt
    apply (yields_gcd x.num y.num).bind
    intro g hg
    apply (yields_gcd y.den x.den).bind
    intro h hh
    rw [← hg] at ha' hc' hg0
    rw [← hh] at hd' hb' hh0
    apply (yields_div_mul hg0 ha').bind
    intro u hu
    apply (yields_div_mul hh0 hd').bind
    intro v hv
    apply (yields_mul u v).bind
    intro num hnum
    apply (yields_div_mul hh0 hb').bind
    intro u' hu'
    apply (yields_div_mul hg0 hc').bind
    intro v' hv'
    apply (yields_mul u' v').bind
    intro den hden
    rw [hu, hv] at hnum
    rw [hu', hv'] at hden
    apply yields_signed
    · refine ⟨?_, ?_⟩
      · unfold value
        rw [hnum, hden, product_value ha' hc' hd' hb' (Int.ne_of_gt hb) hy0, div_div_eq_mul_div, mul_div_assoc']
      · simp only [hnum, hden]
        exact product_coprime ha' hc' hd' hb' hx.coprime hy.coprime.symm hac hdb
    · rw [hden]
      exact mul_ne_zero (right_ne_zero_of_mul (hb' ▸ Int.ne_of_gt hb)) (right_ne_zero_of_mul (hc' ▸ hy0))

end Zpc.Rational
