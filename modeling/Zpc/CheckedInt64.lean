import Mathlib.Data.Int.Basic
import Mathlib.Tactic.Common

/-!
# Signed arithmetic that must not overflow

The operations on signed 64-bit integers, where a result that does not fit ends the computation. What a computation yields
is stated up to that: division by zero is to be ruled out, overflow is not.
-/
namespace CheckedInt64
inductive Trap
  | overflow
  | divisionByZero
  deriving DecidableEq

abbrev Checked (α : Type) := Except Trap α

def checked (z : ℤ) : Checked Int64 :=
  if h : Int64.minValue.toInt ≤ z ∧ z ≤ Int64.maxValue.toInt then .ok (.ofIntLE z h.1 h.2) else .error .overflow

def add (x y : Int64) : Checked Int64 := checked (x.toInt + y.toInt)
def sub (x y : Int64) : Checked Int64 := checked (x.toInt - y.toInt)
def mul (x y : Int64) : Checked Int64 := checked (x.toInt * y.toInt)
def neg (x : Int64) : Checked Int64 := checked (-x.toInt)

def div (x y : Int64) : Checked Int64 :=
  if y = 0 then .error .divisionByZero else checked (x.toInt.tdiv y.toInt)

def rem (x y : Int64) : Checked Int64 := do
  let _ ← div x y
  checked (x.toInt.tmod y.toInt)

/-- The computation ends with a value that meets the condition, unless it overflows. -/
def Yields {α : Type} (c : Checked α) (P : α → Prop) : Prop :=
  match c with
  | .ok a => P a
  | .error e => e = .overflow

variable {α β : Type} {c : Checked α} {P Q : α → Prop} {R : β → Prop} {x y : Int64} {z : ℤ}

theorem Yields.mono (h : Yields c P) (hpq : ∀ a, P a → Q a) : Yields c Q := by
  cases c with
  | ok a => exact hpq a h
  | error e => exact h

theorem yields_pure {a : α} (h : P a) : Yields (pure a) P := h

theorem Yields.bind {f : α → Checked β} (h : Yields c P) (hf : ∀ a, P a → Yields (f a) R) : Yields (c >>= f) R := by
  cases c with
  | ok a => exact hf a h
  | error e => exact h

theorem Yields.exists_of_ne (h : Yields c P) (hc : c ≠ .error .overflow) : ∃ a, c = .ok a ∧ P a := by
  cases c with
  | ok a => exact ⟨a, rfl, h⟩
  | error e => exact absurd (congrArg Except.error h) hc

theorem yields_checked (z : ℤ) : Yields (checked z) fun x => x.toInt = z := by
  unfold checked
  split
  · exact Int64.toInt_ofIntLE
  · exact rfl

theorem checked_eq (h : Int64.minValue.toInt ≤ z ∧ z ≤ Int64.maxValue.toInt) : ∃ x, checked z = .ok x ∧ x.toInt = z :=
  ⟨_, dif_pos h, Int64.toInt_ofIntLE⟩

theorem yields_add (x y : Int64) : Yields (add x y) fun z => z.toInt = x.toInt + y.toInt := yields_checked _

theorem yields_sub (x y : Int64) : Yields (sub x y) fun z => z.toInt = x.toInt - y.toInt := yields_checked _

theorem yields_mul (x y : Int64) : Yields (mul x y) fun z => z.toInt = x.toInt * y.toInt := yields_checked _

theorem yields_neg (x : Int64) : Yields (neg x) fun z => z.toInt = -x.toInt := yields_checked _

theorem toInt_ne_zero : x.toInt ≠ 0 ↔ x ≠ 0 := by
  rw [← Int64.toInt_zero, Ne, Int64.toInt_inj]

theorem yields_div (hy : y.toInt ≠ 0) (x : Int64) : Yields (div x y) fun z => z.toInt = x.toInt.tdiv y.toInt := by
  unfold div
  rw [if_neg (toInt_ne_zero.mp hy)]
  exact yields_checked _

theorem yields_div_mul (hy : y.toInt ≠ 0) (hx : x.toInt = y.toInt * z) : Yields (div x y) fun q => q.toInt = z := by
  apply (yields_div hy x).mono
  intro q hq
  rw [hq, hx, Int.mul_tdiv_cancel_left _ hy]

theorem yields_rem (hy : y.toInt ≠ 0) (x : Int64) : Yields (rem x y) fun z => z.toInt = x.toInt.tmod y.toInt :=
  (yields_div hy x).bind fun _ _ => yields_checked _

/-! ## Without overflow -/

theorem checked_toward_zero (h : z.natAbs ≤ x.toInt.natAbs) (hsign : 0 ≤ x.toInt ∧ 0 ≤ z ∨ x.toInt < 0 ∧ z ≤ 0) :
    ∃ y, checked z = .ok y ∧ y.toInt = z := by
  apply checked_eq
  have hmin := Int64.minValue_le_toInt x
  have hmax := Int64.toInt_le x
  have hzero : Int64.minValue.toInt ≤ 0 ∧ 0 ≤ Int64.maxValue.toInt := by decide
  omega

/-- A positive divisor leaves no room for overflow. -/
theorem div_eq (hy : 0 < y.toInt) (x : Int64) : ∃ q, div x y = .ok q ∧ q.toInt = x.toInt.tdiv y.toInt := by
  unfold div
  rw [if_neg (toInt_ne_zero.mp (by omega))]
  apply checked_toward_zero (x := x)
  · exact Int.natAbs_tdiv_le_natAbs ..
  · by_cases hx : 0 ≤ x.toInt
    · exact .inl ⟨hx, Int.tdiv_nonneg hx (by omega)⟩
    · have hneg := Int.tdiv_nonneg (show 0 ≤ -x.toInt by omega) (Int.le_of_lt hy)
      rw [Int.neg_tdiv] at hneg
      exact .inr (by omega)

theorem rem_eq (hy : 0 < y.toInt) (x : Int64) : ∃ r, rem x y = .ok r ∧ r.toInt = x.toInt.tmod y.toInt := by
  have ⟨q, hq, _⟩ := div_eq hy x
  unfold rem
  rw [hq]
  apply checked_toward_zero (x := x)
  · rw [Int.natAbs_tmod]
    exact Nat.mod_le ..
  · by_cases hx : 0 ≤ x.toInt
    · exact .inl ⟨hx, Int.tmod_nonneg _ hx⟩
    · have hneg := Int.tmod_nonneg y.toInt (show 0 ≤ -x.toInt by omega)
      rw [Int.neg_tmod] at hneg
      exact .inr (by omega)

end CheckedInt64
