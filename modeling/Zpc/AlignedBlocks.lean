import Mathlib

/-!
# Aligned blocks

Addresses rounded to multiples of an alignment, and blocks that lie above one another in
the order in which they were made.
-/
namespace AlignedBlocks
variable {a b c g m lo top top' : ℕ}

section Rounding
def roundDown (a g : ℕ) : ℕ := a - a % g

def roundUp (a g : ℕ) : ℕ := roundDown (a + g - 1) g

theorem dvd_roundDown (a g : ℕ) : g ∣ roundDown a g := Nat.dvd_sub_mod a

theorem roundDown_le (a g : ℕ) : roundDown a g ≤ a := Nat.sub_le a _

theorem lt_roundDown_add (hg : 0 < g) : a < roundDown a g + g := by
  have hlt := Nat.mod_lt a hg
  have hle := Nat.mod_le a g
  unfold roundDown
  omega

theorem dvd_roundUp (a g : ℕ) : g ∣ roundUp a g := dvd_roundDown _ g

theorem le_roundUp (hg : 0 < g) : a ≤ roundUp a g := by
  have hlt := lt_roundDown_add (a := a + g - 1) hg
  unfold roundUp
  omega

theorem roundUp_lt (hg : 0 < g) : roundUp a g < a + g := by
  have hle := roundDown_le (a + g - 1) g
  unfold roundUp
  omega

theorem roundUp_le (hc : g ∣ c) (hac : a ≤ c) (hg : 0 < g) : roundUp a g ≤ c := by
  obtain ⟨k, hk⟩ := dvd_roundUp a g
  obtain ⟨n, rfl⟩ := hc
  have hlt := roundUp_lt (a := a) hg
  have hkn : k < n + 1 := by
    apply Nat.lt_of_mul_lt_mul_left (a := g)
    rw [Nat.mul_succ]
    omega
  rw [hk]
  exact Nat.mul_le_mul_left g (Nat.le_of_lt_succ hkn)

end Rounding

section Blocks
structure Block where
  start : ℕ
  size : ℕ
  deriving DecidableEq

/-- The addresses of a block. -/
def Block.bytes (b : Block) : Set ℕ := Set.Ico b.start (b.start + b.size)

variable {b : Block} {bs : List Block}

/-- The blocks lie one above another between two addresses, the newest on top. -/
inductive Stacked (lo : ℕ) : ℕ → List Block → Prop
  | nil {top : ℕ} (hlo : lo ≤ top) : Stacked lo top []
  | cons {top : ℕ} {b : Block} {bs : List Block} (hrest : Stacked lo b.start bs) (htop : b.start + b.size ≤ top) :
      Stacked lo top (b :: bs)

namespace Stacked
theorem raise (h : Stacked lo top bs) (htop : top ≤ top') : Stacked lo top' bs := by
  cases h with
  | nil hlo => exact .nil (Nat.le_trans hlo htop)
  | cons hrest hend => exact .cons hrest (Nat.le_trans hend htop)

theorem lo_le (h : Stacked lo top bs) : lo ≤ top := by
  induction h with
  | nil hlo => exact hlo
  | cons _ hend ih => omega

theorem mem_le (h : Stacked lo top bs) (hb : b ∈ bs) : lo ≤ b.start ∧ b.start + b.size ≤ top := by
  induction h with
  | nil => cases hb
  | cons hrest hend ih =>
    rcases List.mem_cons.mp hb with rfl | hb
    · exact ⟨hrest.lo_le, hend⟩
    · have hin := ih hb
      omega

theorem disjoint (h : Stacked lo top bs) : bs.Pairwise fun a b => Disjoint a.bytes b.bytes := by
  induction h with
  | nil => exact .nil
  | cons hrest hend ih =>
    refine .cons (fun b hb => Set.disjoint_left.mpr fun x hx hx' => ?_) ih
    have hin := hrest.mem_le hb
    have hlow := hx.1
    have hhigh := hx'.2
    omega

end Stacked
end Blocks

end AlignedBlocks
