import Mathlib.Data.BitVec

/-!
# Reversible steps of bit mixers

Multiplying by an odd constant loses nothing, nor does adding to a word its own upper
bits bit by bit.
-/
namespace BitMixing
variable {w : ℕ}

/-- Bits are recovered from the top on. -/
theorem xorShift_injective {k : ℕ} (hk : 0 < k) : Function.Injective fun x : BitVec w => x ^^^ (x >>> k) := by
  intro x y hxy
  have hbit : ∀ m i, w ≤ i + m → x.getLsbD i = y.getLsbD i := by
    intro m
    induction m with
    | zero => exact fun i hi => (BitVec.getLsbD_of_ge x i hi).trans (BitVec.getLsbD_of_ge y i hi).symm
    | succ m ih =>
      intro i hi
      have h := congrArg (fun v => v.getLsbD i) hxy
      simp only [BitVec.getLsbD_xor, BitVec.getLsbD_ushiftRight, ih (k+i) (by omega)] at h
      exact Bool.xor_left_inj.mp h
  exact BitVec.eq_of_getLsbD_eq fun i _ => hbit w i (Nat.le_add_left w i)

theorem mul_injective {c d : BitVec w} (h : c * d = 1#w) : Function.Injective fun x : BitVec w => x * c := by
  refine Function.LeftInverse.injective (g := fun x => x * d) fun x => ?_
  show x * c * d = x
  rw [BitVec.mul_assoc, h, BitVec.mul_one]

end BitMixing
