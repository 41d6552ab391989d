import Mathlib.Data.Nat.Find
import Mathlib.Data.Nat.ModEq
import Mathlib.Data.Finset.Card

/-!
# Probing a table of slots with a fixed stride

Successive probes are a stride apart, around the table. A stride that is coprime to the size of the table visits every
slot, so that a search that a free slot ends comes to an end.
-/
namespace StridedProbe
variable {size stride start s j : ℕ}

def probe (size stride start j : ℕ) : ℕ := (start + stride * j) % size

theorem probe_zero (h : start < size) : probe size stride start 0 = start := by
  show (start + 0) % size = start
  exact Nat.mod_eq_of_lt h

theorem probe_succ (size stride start j : ℕ) :
    probe size stride start (j + 1) = (probe size stride start j + stride) % size := by
  unfold probe
  rw [Nat.mod_add_mod, Nat.mul_succ, Nat.add_assoc]

theorem probe_lt (h : 0 < size) : probe size stride start j < size := Nat.mod_lt _ h

theorem probe_inj (hc : Nat.Coprime size stride) {i : ℕ} (hi : i < size) (hj : j < size)
    (h : probe size stride start i = probe size stride start j) : i = j := by
  have hmod : stride * i ≡ stride * j [MOD size] := Nat.ModEq.add_left_cancel' start h
  have hij : i ≡ j [MOD size] := Nat.ModEq.cancel_left_of_coprime hc hmod
  exact Nat.ModEq.eq_of_lt_of_lt hij hi hj

/-- The probes visit every slot. -/
theorem exists_probe (start : ℕ) (hc : Nat.Coprime size stride) (hs : s < size) :
    ∃ j < size, probe size stride start j = s := by
  have hpos : 0 < size := Nat.zero_lt_of_lt hs
  have hinj : Set.InjOn (probe size stride start) (Finset.range size) := by
    intro i hi j hj h
    exact probe_inj hc (Finset.mem_range.mp hi) (Finset.mem_range.mp hj) h
  have himage : (Finset.range size).image (probe size stride start) = Finset.range size := by
    apply Finset.eq_of_subset_of_card_le
    · intro k hk
      obtain ⟨j, _, rfl⟩ := Finset.mem_image.mp hk
      exact Finset.mem_range.mpr (probe_lt hpos)
    · rw [Finset.card_image_of_injOn hinj]
  obtain ⟨j, hj, h⟩ := Finset.mem_image.mp (himage ▸ Finset.mem_range.mpr hs)
  exact ⟨j, Finset.mem_range.mp hj, h⟩

/-- A search that some slot ends has a first probe that ends it. -/
theorem exists_stop (hc : Nat.Coprime size stride) (start : ℕ) {P : ℕ → Prop} (hs : s < size) (hP : P s) :
    ∃ j < size, P (probe size stride start j) ∧ ∀ i < j, ¬ P (probe size stride start i) := by
  classical
  obtain ⟨j, hj, h⟩ := exists_probe start hc hs
  have hex : ∃ j, P (probe size stride start j) := ⟨j, h ▸ hP⟩
  refine ⟨Nat.find hex, ?_, Nat.find_spec hex, fun i hi => Nat.find_min hex hi⟩
  exact (Nat.find_min' hex (h ▸ hP)).trans_lt hj

end StridedProbe
