import Mathlib.Tactic.Common

/-!
# Slots filled in two writes

Numbered slots with two parts each, on the way to the values that they have been promised. Whoever has promised a slot
writes its first part, then the second.
-/
namespace SlotFilling
variable {α β : Type*}

/-- Every promised slot has its values, as far as no write is left to do: the writes that are left are `first`, which
covers both parts, and `second`. -/
structure Filling (promised first : ℕ → α × β → Prop) (second : ℕ → β → Prop) (a : ℕ → α) (b : ℕ → β) : Prop where
  unique : ∀ k p q, promised k p → promised k q → p = q
  fst : ∀ k p, promised k p → a k = p.1 ∨ first k p
  snd : ∀ k p, promised k p → b k = p.2 ∨ first k p ∨ second k p.2
  of_first : ∀ k p, first k p → promised k p
  of_second : ∀ k y, second k y → ∃ x, promised k (x, y)

namespace Filling
variable {promised promised' first first' : ℕ → α × β → Prop} {second second' : ℕ → β → Prop} {a : ℕ → α} {b : ℕ → β}
  {k : ℕ} {p : α × β} {y : β}

/-- New promises of slots that are all still to be written. -/
theorem promise (h : Filling promised first second a b) (hunique : ∀ k p q, promised' k p → promised' k q → p = q)
    (hnew : ∀ k p, promised' k p → promised k p ∨ first' k p) (hkept : ∀ k p, promised k p → promised' k p)
    (hfirst : ∀ k p, first k p → first' k p) (hof : ∀ k p, first' k p → first k p ∨ promised' k p)
    (hsecond : ∀ k y, second' k y ↔ second k y) : Filling promised' first' second' a b where
  unique := hunique
  fst k p hp := by
    rcases hnew k p hp with hp | hp
    · exact (h.fst k p hp).imp_right (hfirst k p)
    · exact .inr hp
  snd k p hp := by
    rcases hnew k p hp with hp | hp
    · exact (h.snd k p hp).imp_right (Or.imp (hfirst k p) (hsecond k p.2).mpr)
    · exact .inr (.inl hp)
  of_first k p hp := (hof k p hp).elim (fun hp => hkept k p (h.of_first k p hp)) id
  of_second k y hy := by
    obtain ⟨x, hx⟩ := h.of_second k y ((hsecond k y).mp hy)
    exact ⟨x, hkept k _ hx⟩

theorem setFirst (h : Filling promised first second a b) (hp : first k p)
    (hfirst : ∀ k' q, k' ≠ k → first k' q → first' k' q) (hof : ∀ k' q, first' k' q → first k' q)
    (hsecond : ∀ k' y, second' k' y ↔ second k' y ∨ k' = k ∧ y = p.2) :
    Filling promised first' second' (Function.update a k p.1) b where
  unique := h.unique
  fst k' q hq := by
    by_cases hk : k' = k
    · subst hk
      obtain rfl := h.unique k' p q (h.of_first k' p hp) hq
      exact .inl (Function.update_self ..)
    · exact (h.fst k' q hq).imp (fun he => (Function.update_of_ne hk ..).trans he) (hfirst k' q hk)
  snd k' q hq := by
    by_cases hk : k' = k
    · subst hk
      obtain rfl := h.unique k' p q (h.of_first k' p hp) hq
      exact .inr (.inr ((hsecond k' p.2).mpr (.inr ⟨rfl, rfl⟩)))
    · exact (h.snd k' q hq).imp_right (Or.imp (hfirst k' q hk) fun hs => (hsecond k' q.2).mpr (.inl hs))
  of_first k' q hq := h.of_first k' q (hof k' q hq)
  of_second k' y hy := by
    rcases (hsecond k' y).mp hy with hy | ⟨rfl, rfl⟩
    · exact h.of_second k' y hy
    · exact ⟨p.1, h.of_first k' p hp⟩

theorem setSecond (h : Filling promised first second a b) (hy : second k y) (hfirst : ∀ k' q, first' k' q ↔ first k' q)
    (hsecond : ∀ k' y', k' ≠ k → second k' y' → second' k' y') (hof : ∀ k' y', second' k' y' → second k' y') :
    Filling promised first' second' a (Function.update b k y) where
  unique := h.unique
  fst k' q hq := (h.fst k' q hq).imp_right (hfirst k' q).mpr
  snd k' q hq := by
    by_cases hk : k' = k
    · subst hk
      obtain ⟨x, hx⟩ := h.of_second k' y hy
      obtain rfl := h.unique k' _ q hx hq
      exact .inl (Function.update_self ..)
    · exact (h.snd k' q hq).imp (fun he => (Function.update_of_ne hk ..).trans he)
        (Or.imp (hfirst k' q).mpr (hsecond k' q.2 hk))
  of_first k' q hq := h.of_first k' q ((hfirst k' q).mp hq)
  of_second k' y' hy' := h.of_second k' y' (hof k' y' hy')

theorem filled (h : Filling promised first second a b) (hfirst : ∀ k p, ¬ first k p) (hsecond : ∀ k y, ¬ second k y)
    (hp : promised k p) : (a k, b k) = p := by
  have hfst := (h.fst k p hp).resolve_right (hfirst k p)
  have hsnd := (h.snd k p hp).resolve_right fun hw => hw.elim (hfirst k p) (hsecond k p.2)
  rw [hfst, hsnd]

end Filling
end SlotFilling
