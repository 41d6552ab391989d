import Mathlib.Logic.Function.Iterate
import Mathlib.Order.Nat
import Mathlib.Tactic.Common

/-!
# Forests of parents

Every vertex has a parent, which counts only when it is smaller; what follows then is a
forest whatever the parents are. Two vertices are in the same tree when they have the same
root.
-/
namespace ParentForest
variable {p : ℕ → ℕ} {v r s : ℕ}

/-- The end of the chain of smaller and smaller parents. -/
def root (p : ℕ → ℕ) (v : ℕ) : ℕ := if _h : p v < v then root p (p v) else v
termination_by v

theorem root_of_lt (h : p v < v) : root p v = root p (p v) := by
  rw [root, dif_pos h]

theorem root_of_not_lt (h : ¬ p v < v) : root p v = v := by
  rw [root, dif_neg h]

theorem root_le (p : ℕ → ℕ) (v : ℕ) : root p v ≤ v := by
  induction v using Nat.strong_induction_on with
  | h v ih =>
    by_cases h : p v < v
    · rw [root_of_lt h]
      exact (ih _ h).trans h.le
    · rw [root_of_not_lt h]

theorem root_not_lt (p : ℕ → ℕ) (v : ℕ) : ¬ p (root p v) < root p v := by
  induction v using Nat.strong_induction_on with
  | h v ih =>
    by_cases h : p v < v
    · rw [root_of_lt h]
      exact ih _ h
    · rw [root_of_not_lt h]
      exact h

/-- The root is an ancestor. -/
theorem exists_iterate (p : ℕ → ℕ) (v : ℕ) : ∃ k, p^[k] v = root p v := by
  induction v using Nat.strong_induction_on with
  | h v ih =>
    by_cases h : p v < v
    · obtain ⟨k, hk⟩ := ih _ h
      exact ⟨k + 1, by rw [Function.iterate_succ_apply, hk, root_of_lt h]⟩
    · exact ⟨0, (root_of_not_lt h).symm⟩

/-- A vertex is in relation to its root when it is to its parent. -/
theorem related_root {R : ℕ → ℕ → Prop} (hrefl : ∀ v, R v v) (htrans : ∀ a b c, R a b → R b c → R a c)
    (h : ∀ u ≤ v, p u < u → R u (p u)) : R v (root p v) := by
  induction v using Nat.strong_induction_on with
  | h v ih =>
    by_cases hv : p v < v
    · rw [root_of_lt hv]
      exact htrans _ _ _ (h v le_rfl hv) (ih _ hv fun u hu => h u (hu.trans hv.le))
    · rw [root_of_not_lt hv]
      exact hrefl v

/-- A vertex may get another parent of its own tree. -/
theorem root_shorten (hs : s < r) (hr : p r < r) (hsame : root p s = root p r) (v : ℕ) :
    root (Function.update p r s) v = root p v := by
  induction v using Nat.strong_induction_on with
  | h v ih =>
    by_cases hv : v = r
    · subst hv
      rw [root_of_lt (by rwa [Function.update_self]), Function.update_self, ih s hs, hsame]
    · by_cases hlt : p v < v
      · rw [root_of_lt (by rwa [Function.update_of_ne hv]), Function.update_of_ne hv, ih _ hlt, root_of_lt hlt]
      · rw [root_of_not_lt (by rwa [Function.update_of_ne hv]), root_of_not_lt hlt]

/-- A root with a parent: its tree becomes part of the parent's. -/
theorem root_link (hs : s < r) (hr : ¬ p r < r) (v : ℕ) :
    root (Function.update p r s) v = if root p v = r then root p s else root p v := by
  induction v using Nat.strong_induction_on with
  | h v ih =>
    by_cases hv : v = r
    · subst hv
      have hne : root p s ≠ v := Nat.ne_of_lt ((root_le p s).trans_lt hs)
      rw [root_of_lt (by rwa [Function.update_self]), Function.update_self, ih s hs, if_neg hne, root_of_not_lt hr,
        if_pos rfl]
    · by_cases hlt : p v < v
      · rw [root_of_lt (by rwa [Function.update_of_ne hv]), Function.update_of_ne hv, ih _ hlt, root_of_lt hlt]
      · rw [root_of_not_lt (by rwa [Function.update_of_ne hv]), root_of_not_lt hlt, if_neg hv]

/-- What may become of a forest: inner vertices stay inner, and trees only grow together. -/
structure Grows (p p' : ℕ → ℕ) : Prop where
  inner : ∀ v, p v < v → p' v < v
  same : ∀ a b, root p a = root p b → root p' a = root p' b

theorem Grows.refl (p : ℕ → ℕ) : Grows p p := ⟨fun _ h => h, fun _ _ h => h⟩

theorem grows_shorten (hs : s < r) (hr : p r < r) (hsame : root p s = root p r) : Grows p (Function.update p r s) := by
  refine ⟨fun v hv => ?_, fun a b hab => ?_⟩
  · by_cases h : v = r
    · subst h
      rwa [Function.update_self]
    · rwa [Function.update_of_ne h]
  · rwa [root_shorten hs hr hsame, root_shorten hs hr hsame]

theorem grows_link (hs : s < r) (hr : ¬ p r < r) : Grows p (Function.update p r s) := by
  refine ⟨fun v hv => ?_, fun a b hab => ?_⟩
  · by_cases h : v = r
    · subst h
      exact absurd hv hr
    · rwa [Function.update_of_ne h]
  · rw [root_link hs hr, root_link hs hr, hab]

/-- The new parent and its new child are in one tree. -/
theorem same_link (hs : s < r) : root (Function.update p r s) r = root (Function.update p r s) s := by
  rw [root_of_lt (by rwa [Function.update_self]), Function.update_self]

end ParentForest
