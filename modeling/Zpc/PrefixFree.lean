import Mathlib.Data.List.Basic

/-!
# Codes that say where they end

A code is free of prefixes when two codes with anything after them are equal only for equal
values and equal rests. Sequences of such codes, counted beforehand, are such codes again.
-/
variable {α β γ : Type*}

def PrefixFree (code : α → List β) : Prop := ∀ a b x y, code a ++ x = code b ++ y → a = b ∧ x = y

namespace PrefixFree
variable {code : α → List β}

/-- Lists of one length are told apart by the codes of their elements in a row. -/
theorem flatMap (hc : PrefixFree code) {l l' : List α} (hl : l.length = l'.length) {x y : List β}
    (h : l.flatMap code ++ x = l'.flatMap code ++ y) : l = l' ∧ x = y := by
  induction l generalizing l' with
  | nil =>
    obtain rfl := List.length_eq_zero_iff.mp hl.symm
    exact ⟨rfl, h⟩
  | cons a l ih =>
    cases l' with
    | nil => exact absurd hl (by simp)
    | cons b l' =>
      rw [List.flatMap_cons, List.flatMap_cons, List.append_assoc, List.append_assoc] at h
      obtain ⟨rfl, hrest⟩ := hc a b _ _ h
      obtain ⟨rfl, rfl⟩ := ih (by simpa using hl) hrest
      exact ⟨rfl, rfl⟩

theorem counted {code : α → List ℕ} (hc : PrefixFree code) : PrefixFree fun l : List α => l.length :: l.flatMap code := by
  intro l l' x y h
  rw [List.cons_append, List.cons_append] at h
  obtain ⟨hl, h⟩ := List.cons.inj h
  exact hc.flatMap hl h

end PrefixFree
