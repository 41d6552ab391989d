import Mathlib.Order.Nat
import Mathlib.Tactic.Common

/-!
# Conflicts in a sequence of accesses

Times at which resources are read and written. A transitive relation that orders every
write after the write before it and after the reads since then, and every read after the
last write, orders all conflicting times.
-/
namespace SequentialHazards
variable {ρ : Type*} (reads writes : ℕ → ρ → Prop)

/-- One of two accesses to a resource is a write. -/
def Conflict (a b : ℕ) : Prop := ∃ r, (writes a r ∧ (reads b r ∨ writes b r)) ∨ (reads a r ∧ writes b r)

/-- The last time before another at which the resource is written. -/
def LastWrite (r : ρ) (a b : ℕ) : Prop := a < b ∧ writes a r ∧ ∀ c, a < c → c < b → ¬ writes c r

/-- The first time after another at which the resource is written. -/
def NextWrite (r : ρ) (a b : ℕ) : Prop := a < b ∧ writes b r ∧ ∀ c, a < c → c < b → ¬ writes c r

variable {reads writes} {r : ρ} {a b : ℕ}

theorem exists_lastWrite (hab : a < b) (hw : writes a r) : ∃ c, a ≤ c ∧ LastWrite writes r c b := by
  induction b, hab using Nat.le_induction with
  | base => exact ⟨a, le_rfl, Nat.lt_succ_self a, hw, fun c h1 h2 => absurd h2 (by omega)⟩
  | succ b hab ih =>
    by_cases hb : writes b r
    · exact ⟨b, by omega, by omega, hb, fun c h1 h2 => absurd h2 (by omega)⟩
    · obtain ⟨c, hac, hcb, hc, hlast⟩ := ih
      refine ⟨c, hac, by omega, hc, fun d h1 h2 hd => ?_⟩
      by_cases hdb : d = b
      · exact hb (hdb ▸ hd)
      · exact hlast d h1 (by omega) hd

theorem exists_nextWrite (hab : a < b) (hw : writes b r) : ∃ c, c ≤ b ∧ NextWrite writes r a c := by
  classical
  have hex : ∃ c, a < c ∧ writes c r := ⟨b, hab, hw⟩
  refine ⟨Nat.find hex, Nat.find_min' hex ⟨hab, hw⟩, (Nat.find_spec hex).1, (Nat.find_spec hex).2, ?_⟩
  exact fun c h1 h2 hc => Nat.find_min hex h2 ⟨h1, hc⟩

variable {n : ℕ} {R : ℕ → ℕ → Prop}

/-- A chain through the writes in between. -/
theorem writes_ordered (htrans : ∀ a b c, R a b → R b c → R a c)
    (hww : ∀ r a b, b < n → LastWrite writes r a b → writes b r → R a b) (hab : a < b) (hb : b < n)
    (hwa : writes a r) (hwb : writes b r) : R a b := by
  induction b using Nat.strong_induction_on with
  | _ b ih =>
    obtain ⟨c, hac, hlast⟩ := exists_lastWrite hab hwa
    have hcb := hww r c b hb hlast hwb
    by_cases he : a = c
    · exact he ▸ hcb
    · exact htrans a c b (ih c hlast.1 (by omega) (by have := hlast.1; omega) hlast.2.1) hcb

/-- Neighbouring hazards are enough. -/
theorem conflicts_ordered (htrans : ∀ a b c, R a b → R b c → R a c)
    (hww : ∀ r a b, b < n → LastWrite writes r a b → writes b r → R a b)
    (hrw : ∀ r a b, b < n → LastWrite writes r a b → reads b r → R a b)
    (hwr : ∀ r a b, b < n → NextWrite writes r a b → reads a r → R a b) (hab : a < b) (hb : b < n)
    (h : Conflict reads writes a b) : R a b := by
  obtain ⟨r, ⟨hwa, hrb | hwb⟩ | ⟨hra, hwb⟩⟩ := h
  · obtain ⟨c, hac, hlast⟩ := exists_lastWrite hab hwa
    have hcb := hrw r c b hb hlast hrb
    by_cases he : a = c
    · exact he ▸ hcb
    · have hcn : c < n := lt_trans hlast.1 hb
      exact htrans a c b (writes_ordered htrans hww (by omega) hcn hwa hlast.2.1) hcb
  · exact writes_ordered htrans hww hab hb hwa hwb
  · obtain ⟨c, hcb, hnext⟩ := exists_nextWrite hab hwb
    have hac := hwr r a c (by omega) hnext hra
    by_cases he : c = b
    · exact he ▸ hac
    · exact htrans a c b hac (writes_ordered htrans hww (by omega) hb hnext.2.1 hwb)

end SequentialHazards
