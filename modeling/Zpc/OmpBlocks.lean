import Mathlib.Order.Nat
import Mathlib.Tactic.Common

/-!
# How the OpenMP policy divides a range among its threads

Thread `tid` of `nths` takes the block of `nwork` positions from `st` on, cut off at
the end of the range; the last blocks may be shorter or empty.
-/
namespace Zpc.OmpExecutionPolicy
/-- The team of a region with `num_threads(dop)` and the given `if` clause; the runtime may deliver fewer threads. -/
def Team (dop : ℕ) (clause : Prop) (nths : ℕ) : Prop := 0 < nths ∧ nths ≤ dop ∧ (clause ∨ nths = 1)

def nwork (dist nths : ℕ) : ℕ := (dist + nths - 1) / nths

def st (dist nths tid : ℕ) : ℕ := nwork dist nths * tid

def ed (dist nths tid : ℕ) : ℕ := min (st dist nths tid + nwork dist nths) dist

/-- Position `k` lies in the block of thread `tid`. -/
def Owns (dist nths tid k : ℕ) : Prop := st dist nths tid ≤ k ∧ k < ed dist nths tid

/-- Thread `tid` has a block at all. -/
def Active (dist nths tid : ℕ) : Prop := st dist nths tid < ed dist nths tid

instance (dist nths tid : ℕ) : Decidable (Active dist nths tid) := inferInstanceAs (Decidable (_ < _))

section Blocks
variable {dist nths tid u k : ℕ}

theorem dist_le (hn : 0 < nths) : dist ≤ nwork dist nths * nths := by
  have h := Nat.lt_mul_div_succ (dist + nths - 1) hn
  rw [Nat.mul_succ, Nat.mul_comm] at h
  unfold nwork
  omega

theorem nwork_pos (hn : 0 < nths) (hd : 0 < dist) : 0 < nwork dist nths := by
  have h : dist ≤ _ := dist_le hn
  exact Nat.pos_of_ne_zero fun h0 => by rw [h0, Nat.zero_mul] at h; omega

theorem two_le_nwork (hn : 0 < nths) (hd : nths < dist) : 2 ≤ nwork dist nths := by
  have h : dist ≤ _ := dist_le hn
  by_contra hlt
  have : nwork dist nths * nths ≤ 1 * nths := Nat.mul_le_mul_right nths (by omega)
  omega

theorem active_iff (hn : 0 < nths) : Active dist nths tid ↔ nwork dist nths * tid < dist := by
  unfold Active ed st
  rcases Nat.eq_zero_or_pos dist with rfl | hd
  · omega
  · have := nwork_pos hn hd
    omega

theorem Active.mono (hn : 0 < nths) (h : Active dist nths tid) (hu : u ≤ tid) : Active dist nths u := by
  rw [active_iff hn] at h ⊢
  exact lt_of_le_of_lt (Nat.mul_le_mul_left _ hu) h

theorem ed_of_active (hn : 0 < nths) (h : Active dist nths (tid+1)) : ed dist nths tid = st dist nths (tid+1) := by
  rw [active_iff hn] at h
  unfold ed st
  rw [Nat.mul_succ] at h ⊢
  exact Nat.min_eq_left h.le

theorem owns_iff (hn : 0 < nths) : Owns dist nths tid k ↔ k < dist ∧ k / nwork dist nths = tid := by
  unfold Owns ed st
  rcases Nat.eq_zero_or_pos dist with rfl | hd
  · omega
  · have hc := nwork_pos hn hd
    rw [Nat.div_eq_iff hc, Nat.mul_comm tid]
    omega

theorem owner_lt (hn : 0 < nths) (hk : k < dist) : k / nwork dist nths < nths :=
  Nat.div_lt_of_lt_mul (lt_of_lt_of_le hk (dist_le hn))

theorem active_of_owns (h : Owns dist nths tid k) : Active dist nths tid := lt_of_le_of_lt h.1 h.2

theorem owns_or_beyond (hn : 0 < nths) (h : ∀ u, u ≠ tid → ¬ Owns dist nths u k) :
    Owns dist nths tid k ∨ dist ≤ k := by
  by_contra hno
  rw [not_or, Nat.not_le, owns_iff hn] at hno
  exact h _ (fun he => hno.1 ⟨hno.2, he⟩) ((owns_iff hn).mpr ⟨hno.2, rfl⟩)

theorem not_owns_other (hn : 0 < nths) (h : Owns dist nths tid k) (hu : u ≠ tid) : ¬ Owns dist nths u k := by
  rw [owns_iff hn] at h ⊢
  exact fun h' => hu (h'.2.symm.trans h.2)

theorem offset_of_owns (hn : 0 < nths) (h : Owns dist nths tid k) : k % nwork dist nths = k - st dist nths tid := by
  have hk := (owns_iff hn).mp h
  rw [Nat.mod_eq_sub_mul_div, hk.2, st]

end Blocks

end Zpc.OmpExecutionPolicy
