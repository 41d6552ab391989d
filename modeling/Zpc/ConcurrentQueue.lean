import Mathlib.Data.Nat.Bitwise

/-!
# The storage of concurrent queues

The capacities that `detail` of `ConcurrentQueue.hpp` computes on 64-bit words: powers of two, or zero for a request beyond
the largest of them.
-/
namespace Zpc.ConcurrentQueue
def minChunkCapacity : ℕ := 64
def maxChunkCapacity : ℕ := 1024

def nextPowerOfTwo (value : ℕ) : ℕ :=
  if value ≤ 1 then 1
  else
    let value := value - 1
    let value := value ||| value >>> 1
    let value := value ||| value >>> 2
    let value := value ||| value >>> 4
    let value := value ||| value >>> 8
    let value := value ||| value >>> 16
    let value := value ||| value >>> 32
    (value + 1) % 2 ^ 64

def log2PowerOfTwo (value : ℕ) : ℕ := if 1 < value then log2PowerOfTwo (value >>> 1) + 1 else 0
  termination_by value
  decreasing_by rw [Nat.shiftRight_one]; omega

/-- The loop that doubles a chunk until there are no more chunks than it has cells. -/
def balance (capacity chunkCapacity : ℕ) : ℕ :=
  if chunkCapacity < capacity / chunkCapacity then balance capacity (chunkCapacity <<< 1) else chunkCapacity
  termination_by capacity - chunkCapacity
  decreasing_by
    rename_i h
    have hle : capacity / chunkCapacity ≤ capacity := Nat.div_le_self ..
    have hpos : 0 < chunkCapacity := by
      apply Nat.pos_of_ne_zero
      rintro rfl
      simp at h
    rw [Nat.shiftLeft_eq]
    omega

def balancedChunkCapacity (capacity requestedChunkCapacity : ℕ) : ℕ :=
  if capacity = 0 then 1
  else if requestedChunkCapacity ≠ 0 then
    let requested := nextPowerOfTwo requestedChunkCapacity
    if requested > capacity then capacity else requested
  else
    let chunkCapacity := balance capacity 1
    let chunkCapacity :=
      if chunkCapacity < minChunkCapacity then if capacity < minChunkCapacity then capacity else minChunkCapacity
      else chunkCapacity
    let chunkCapacity := if chunkCapacity > maxChunkCapacity then maxChunkCapacity else chunkCapacity
    let chunkCapacity := if chunkCapacity > capacity then capacity else chunkCapacity
    nextPowerOfTwo chunkCapacity

/-! ## Powers of two -/

/-- A bit is set when one of the `s` bits from it on was. -/
def Smeared (v s x : ℕ) : Prop := ∀ i, x.testBit i = true ↔ ∃ j < s, v.testBit (i + j) = true

variable {v s x : ℕ}

theorem smeared_or (h : Smeared v s x) : Smeared v (2 * s) (x ||| x >>> s) := by
  intro i
  rw [Nat.testBit_or, Nat.testBit_shiftRight, Bool.or_eq_true, h i, h (s + i)]
  constructor
  · rintro (⟨j, hj, hv⟩ | ⟨j, hj, hv⟩)
    · exact ⟨j, by omega, hv⟩
    · exact ⟨s + j, by omega, by rwa [show i + (s + j) = s + i + j by omega]⟩
  · rintro ⟨j, hj, hv⟩
    by_cases hs : j < s
    · exact .inl ⟨j, hs, hv⟩
    · exact .inr ⟨j - s, by omega, by rwa [show s + i + (j - s) = i + j by omega]⟩

theorem smeared_all (hv : v ≠ 0) (hlt : v < 2 ^ 64) (h : Smeared v 64 x) : x + 1 = 2 ^ (v.log2 + 1) := by
  have hlog : v.log2 < 64 := (Nat.log2_lt hv).mpr hlt
  have hx : x = 2 ^ (v.log2 + 1) - 1 := by
    apply Nat.eq_of_testBit_eq
    intro i
    rw [Nat.testBit_two_pow_sub_one, Bool.eq_iff_iff, h i, decide_eq_true_iff]
    constructor
    · rintro ⟨j, -, hj⟩
      have hle := (Nat.le_log2 hv).mpr (Nat.ge_two_pow_of_testBit hj)
      omega
    · intro hi
      exact ⟨v.log2 - i, by omega, by rw [show i + (v.log2 - i) = v.log2 by omega]; exact Nat.testBit_log2 hv⟩
  have := Nat.two_pow_pos (v.log2 + 1)
  omega

theorem nextPowerOfTwo_eq (hv : 1 < v) (hlt : v < 2 ^ 64) :
    nextPowerOfTwo v = 2 ^ ((v - 1).log2 + 1) % 2 ^ 64 := by
  have h1 : Smeared (v - 1) 1 (v - 1) := fun i => by simp
  have h64 := smeared_or (smeared_or (smeared_or (smeared_or (smeared_or (smeared_or h1)))))
  unfold nextPowerOfTwo
  rw [if_neg (by omega)]
  exact congrArg (· % 2 ^ 64) (smeared_all (by omega) (by omega) h64)

theorem nextPowerOfTwo_cases (hlt : v < 2 ^ 64) : nextPowerOfTwo v = 0 ∨ ∃ k < 64, nextPowerOfTwo v = 2 ^ k := by
  by_cases hv : 1 < v
  · have hlog : (v - 1).log2 < 64 := (Nat.log2_lt (by omega)).mpr (by omega)
    rw [nextPowerOfTwo_eq hv hlt]
    by_cases he : (v - 1).log2 + 1 < 64
    · exact .inr ⟨_, he, Nat.mod_eq_of_lt (Nat.pow_lt_pow_right (by decide) he)⟩
    · rw [show (v - 1).log2 + 1 = 64 by omega, Nat.mod_self]
      exact .inl rfl
  · exact .inr ⟨0, by decide, by unfold nextPowerOfTwo; rw [if_pos (by omega)]; rfl⟩

theorem nextPowerOfTwo_pow {k : ℕ} (hk : k < 64) : nextPowerOfTwo (2 ^ k) = 2 ^ k := by
  have hlt : 2 ^ k < 2 ^ 64 := Nat.pow_lt_pow_right (by decide) hk
  cases k with
  | zero => rfl
  | succ k =>
    have hpos := Nat.two_pow_pos k
    have hlog : (2 ^ (k + 1) - 1).log2 = k := by
      apply (Nat.log2_eq_iff (by rw [pow_succ]; omega)).mpr
      rw [pow_succ]
      omega
    rw [nextPowerOfTwo_eq (by rw [pow_succ]; omega) hlt, hlog, Nat.mod_eq_of_lt hlt]

theorem log2PowerOfTwo_pow (k : ℕ) : log2PowerOfTwo (2 ^ k) = k := by
  induction k with
  | zero => rw [log2PowerOfTwo]; rfl
  | succ k ih =>
    have hpos := Nat.two_pow_pos k
    rw [log2PowerOfTwo, if_pos (by rw [pow_succ]; omega), Nat.shiftRight_one, pow_succ,
      Nat.mul_div_cancel _ (by decide), ih]

theorem balance_pow (capacity i : ℕ) : ∃ j, balance capacity (2 ^ i) = 2 ^ j := by
  by_cases h : 2 ^ i < capacity / 2 ^ i
  · have ⟨j, hj⟩ := balance_pow capacity (i + 1)
    rw [balance, if_pos h, Nat.shiftLeft_eq, ← pow_succ]
    exact ⟨j, hj⟩
  · rw [balance, if_neg h]
    exact ⟨i, rfl⟩
  termination_by capacity - 2 ^ i
  decreasing_by
    have hle : capacity / 2 ^ i ≤ capacity := Nat.div_le_self ..
    have hpos := Nat.two_pow_pos i
    rw [pow_succ]
    omega

/-- The chunks of a power of two of cells are powers of two as well, unless more cells than any are asked for. -/
theorem balancedChunkCapacity_pow {k requested : ℕ} (hk : k < 64) (hr : requested < 2 ^ 64)
    (h : balancedChunkCapacity (2 ^ k) requested ≠ 0) :
    ∃ j ≤ k, balancedChunkCapacity (2 ^ k) requested = 2 ^ j := by
  have hpos := Nat.two_pow_pos k
  unfold balancedChunkCapacity at h ⊢
  rw [if_neg (by omega)] at h ⊢
  by_cases hreq : requested ≠ 0
  · rw [if_pos hreq] at h ⊢
    simp only at h ⊢
    by_cases hgt : nextPowerOfTwo requested > 2 ^ k
    · rw [if_pos hgt]
      exact ⟨k, le_rfl, rfl⟩
    · rw [if_neg hgt] at h ⊢
      have ⟨j, _, hj⟩ := (nextPowerOfTwo_cases hr).resolve_left h
      rw [hj] at hgt ⊢
      exact ⟨j, (Nat.pow_le_pow_iff_right (show 1 < 2 by decide)).mp (by omega), rfl⟩
  · rw [if_neg hreq]
    simp only
    obtain ⟨b, hb⟩ := balance_pow (2 ^ k) 0
    have ⟨c, hc⟩ : ∃ c, (if 2 ^ b < minChunkCapacity then if 2 ^ k < minChunkCapacity then 2 ^ k else minChunkCapacity
        else 2 ^ b) = 2 ^ c := by
      split
      · split
        · exact ⟨k, rfl⟩
        · exact ⟨6, rfl⟩
      · exact ⟨b, rfl⟩
    have ⟨i, hi⟩ : ∃ i, (if 2 ^ c > maxChunkCapacity then maxChunkCapacity else 2 ^ c) = 2 ^ i := by
      split
      · exact ⟨10, rfl⟩
      · exact ⟨c, rfl⟩
    rw [show balance (2 ^ k) 1 = 2 ^ b from hb, hc, hi]
    by_cases hgt : 2 ^ i > 2 ^ k
    · rw [if_pos hgt, nextPowerOfTwo_pow hk]
      exact ⟨k, le_rfl, rfl⟩
    · have hik : i ≤ k := (Nat.pow_le_pow_iff_right (show 1 < 2 by decide)).mp (by omega)
      rw [if_neg hgt, nextPowerOfTwo_pow (by omega)]
      exact ⟨i, hik, rfl⟩

end Zpc.ConcurrentQueue
