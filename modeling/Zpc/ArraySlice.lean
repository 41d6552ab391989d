import Mathlib.Data.List.Nodup
import Mathlib.Data.List.Pairwise
import Mathlib.Logic.Equiv.Basic
import Mathlib.Order.Nat

/-!
# Slices of an array

An array is its entry function; the entries from `l` to before `r` are a list. A loop
over runs of equal length that rewrites each run by itself applies a list function to
every run.
-/
namespace ArraySlice
variable {α : Type*} {f g : ℕ → α} {l m r k : ℕ}

def slice (f : ℕ → α) (l r : ℕ) : List α := (List.range' l (r - l)).map f

theorem slice_of_le (h : r ≤ l) : slice f l r = [] := by
  rw [slice, Nat.sub_eq_zero_of_le h]
  rfl

theorem slice_zero (f : ℕ → α) (r : ℕ) : slice f 0 r = (List.range r).map f := by
  rw [slice, Nat.sub_zero, List.range_eq_range']

theorem mem_slice {a : α} : a ∈ slice f l r ↔ ∃ k, l ≤ k ∧ k < r ∧ f k = a := by
  rw [slice, List.mem_map]
  refine exists_congr fun k => ?_
  rw [List.mem_range'_1, and_assoc]
  exact and_congr_right fun hk => and_congr_left fun _ => by omega

theorem slice_congr (h : ∀ k, l ≤ k → k < r → f k = g k) : slice f l r = slice g l r := by
  refine List.map_congr_left fun k hk => ?_
  rw [List.mem_range'_1] at hk
  exact h k hk.1 (by omega)

theorem eq_of_slice (h : slice f l r = slice g l r) (hl : l ≤ k) (hr : k < r) : f k = g k := by
  apply List.map_inj_left.mp h
  rw [List.mem_range'_1]
  omega

theorem slice_append (hl : l ≤ m) (hr : m ≤ r) : slice f l m ++ slice f m r = slice f l r := by
  obtain ⟨a, rfl⟩ := Nat.exists_eq_add_of_le hl
  obtain ⟨b, rfl⟩ := Nat.exists_eq_add_of_le hr
  rw [slice, slice, slice, ← List.map_append, Nat.add_sub_cancel_left, Nat.add_sub_cancel_left,
    Nat.add_assoc, Nat.add_sub_cancel_left, List.range'_append_1]

theorem slice_single (f : ℕ → α) (l : ℕ) : slice f l (l+1) = [f l] := by
  rw [slice, Nat.add_sub_cancel_left]
  rfl

theorem slice_succ (h : l ≤ r) : slice f l (r+1) = slice f l r ++ [f r] := by
  rw [← slice_append h r.le_succ, slice_single]

theorem slice_cons (h : l < r) : slice f l r = f l :: slice f (l+1) r := by
  rw [← slice_append l.le_succ h, slice_single, List.singleton_append]

theorem slice_update {a : α} (h : k < l ∨ r ≤ k) : slice (Function.update f k a) l r = slice f l r :=
  slice_congr fun _ _ _ => Function.update_of_ne (by omega) _ _

theorem pairwise_slice {R : α → α → Prop} : (slice f l r).Pairwise R ↔ ∀ i j, l ≤ i → i < j → j < r → R (f i) (f j) := by
  rw [slice, List.pairwise_map]
  constructor
  · intro h i j hi hij hj
    have hget := List.pairwise_iff_getElem.mp h (i - l) (j - l) (by rw [List.length_range']; omega)
      (by rw [List.length_range']; omega) (by omega)
    rw [List.getElem_range', List.getElem_range', Nat.one_mul, Nat.one_mul] at hget
    rwa [Nat.add_sub_cancel' hi, Nat.add_sub_cancel' (by omega)] at hget
  · intro h
    refine (List.pairwise_lt_range' (s := l) (n := r - l)).imp_of_mem fun {i j} hi hj hij => ?_
    rw [List.mem_range'_1] at hi hj
    exact h i j hi.1 hij (by omega)

section Runs
/-- The part of `[l, r)` that the `i`-th run of `step` entries covers. -/
def runEnd (step l r i : ℕ) : ℕ := min (l + step * i + step) r

/-- A loop over the first `n` runs, whose body rewrites its own run only. -/
theorem slice_foldl (step l r : ℕ) (body : ℕ → (ℕ → α) → ℕ → α) (F : ℕ → List α → List α)
    (hframe : ∀ i f k, ¬ (l + step * i ≤ k ∧ k < runEnd step l r i) → body i f k = f k)
    (hbody : ∀ i f, slice (body i f) (l + step * i) (runEnd step l r i) =
      F i (slice f (l + step * i) (runEnd step l r i))) (n : ℕ) (f : ℕ → α) :
    (∀ i < n, slice ((List.range n).foldl (fun f i => body i f) f) (l + step * i) (runEnd step l r i) =
      F i (slice f (l + step * i) (runEnd step l r i))) ∧
    ∀ k, k < l ∨ r ≤ k ∨ l + step * n ≤ k → (List.range n).foldl (fun f i => body i f) f k = f k := by
  induction n with
  | zero => exact ⟨fun i hi => absurd hi i.not_lt_zero, fun _ _ => rfl⟩
  | succ n ih =>
    rw [List.range_succ, List.foldl_append, List.foldl_cons, List.foldl_nil]
    constructor
    · intro i hi
      rcases Nat.lt_or_eq_of_le (Nat.le_of_lt_succ hi) with hin | rfl
      · -- the last run starts after this one
        rw [← ih.1 i hin]
        refine slice_congr fun k _ hk => hframe n _ k fun hkn => ?_
        have : step * (i + 1) ≤ step * n := Nat.mul_le_mul_left step hin
        rw [Nat.mul_succ] at this
        unfold runEnd at hk
        omega
      · rw [hbody]
        refine congrArg (F i) (slice_congr fun k hk _ => ih.2 k (.inr (.inr hk)))
    · intro k hk
      rw [Nat.mul_succ] at hk
      rw [hframe n _ k (by unfold runEnd; omega)]
      exact ih.2 k (by omega)

end Runs

end ArraySlice

/-!
## Rearranging a part of an array

What an in-place algorithm does to the positions from `l` to before `r` by swaps alone.
-/
namespace ArraySlice
variable {α : Type*} {f g h : ℕ → α} {l r l' r' i j k : ℕ}

/-- The entries from `l` to before `r` have changed places, the other ones have not. -/
def Rearranged (l r : ℕ) (f g : ℕ → α) : Prop := ∃ σ : Equiv.Perm ℕ, g = f ∘ σ ∧ ∀ k, ¬ (l ≤ k ∧ k < r) → σ k = k

def swapAt (f : ℕ → α) (i j : ℕ) : ℕ → α := f ∘ Equiv.swap i j

@[simp] theorem swapAt_left (f : ℕ → α) (i j : ℕ) : swapAt f i j i = f j := congrArg f (Equiv.swap_apply_left i j)

@[simp] theorem swapAt_right (f : ℕ → α) (i j : ℕ) : swapAt f i j j = f i := congrArg f (Equiv.swap_apply_right i j)

theorem swapAt_of_ne (hi : k ≠ i) (hj : k ≠ j) : swapAt f i j k = f k :=
  congrArg f (Equiv.swap_apply_of_ne_of_ne hi hj)

theorem Rearranged.refl (l r : ℕ) (f : ℕ → α) : Rearranged l r f f := ⟨Equiv.refl ℕ, rfl, fun _ _ => rfl⟩

theorem Rearranged.trans (hfg : Rearranged l r f g) (hgh : Rearranged l r g h) : Rearranged l r f h := by
  obtain ⟨σ, rfl, hσ⟩ := hfg
  obtain ⟨τ, rfl, hτ⟩ := hgh
  refine ⟨τ.trans σ, rfl, fun k hk => ?_⟩
  rw [Equiv.trans_apply, hτ k hk, hσ k hk]

theorem Rearranged.mono (h : Rearranged l r f g) (hin : ∀ k, l ≤ k → k < r → l' ≤ k ∧ k < r') : Rearranged l' r' f g := by
  obtain ⟨σ, hg, hσ⟩ := h
  exact ⟨σ, hg, fun k hk => hσ k fun hlr => hk (hin k hlr.1 hlr.2)⟩

theorem rearranged_swapAt (hi : l ≤ i ∧ i < r) (hj : l ≤ j ∧ j < r) : Rearranged l r f (swapAt f i j) := by
  refine ⟨Equiv.swap i j, rfl, fun k hk => Equiv.swap_apply_of_ne_of_ne ?_ ?_⟩
  · rintro rfl
    exact hk hi
  · rintro rfl
    exact hk hj

theorem Rearranged.frame (h : Rearranged l r f g) (hk : ¬ (l ≤ k ∧ k < r)) : g k = f k := by
  obtain ⟨σ, rfl, hσ⟩ := h
  rw [Function.comp_apply, hσ k hk]

theorem inside_of_fixed {σ : Equiv.Perm ℕ} (hσ : ∀ k, ¬ (l ≤ k ∧ k < r) → σ k = k) (k : ℕ) :
    (l ≤ σ k ∧ σ k < r) ↔ (l ≤ k ∧ k < r) := by
  constructor
  · intro hin
    by_contra hout
    rw [hσ k hout] at hin
    exact hout hin
  · intro hin
    by_contra hout
    rw [σ.injective (hσ (σ k) hout)] at hout
    exact hout hin

theorem Rearranged.source (h : Rearranged l r f g) (hl : l ≤ k) (hr : k < r) : ∃ j, l ≤ j ∧ j < r ∧ g k = f j := by
  obtain ⟨σ, rfl, hσ⟩ := h
  obtain ⟨hl', hr'⟩ := (inside_of_fixed hσ k).mpr ⟨hl, hr⟩
  exact ⟨σ k, hl', hr', rfl⟩

theorem Rearranged.perm (h : Rearranged l r f g) : (slice g l r).Perm (slice f l r) := by
  obtain ⟨σ, rfl, hσ⟩ := h
  have hplaces : ((List.range' l (r - l)).map σ).Perm (List.range' l (r - l)) := by
    refine (List.perm_ext_iff_of_nodup (List.Nodup.map σ.injective List.nodup_range') List.nodup_range').mpr fun k => ?_
    have hin : ∀ k, k ∈ List.range' l (r - l) ↔ l ≤ k ∧ k < r := by
      intro k
      rw [List.mem_range'_1]
      omega
    rw [List.mem_map]
    constructor
    · rintro ⟨j, hj, rfl⟩
      exact (hin _).mpr ((inside_of_fixed hσ j).mpr ((hin j).mp hj))
    · intro hk
      refine ⟨σ.symm k, (hin _).mpr ((inside_of_fixed hσ _).mp ?_), σ.apply_symm_apply k⟩
      rw [σ.apply_symm_apply]
      exact (hin k).mp hk
  rw [slice, ← List.map_map]
  exact hplaces.map f

end ArraySlice
