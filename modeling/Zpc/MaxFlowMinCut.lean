import Mathlib.Algebra.Order.BigOperators.Group.Finset
import Mathlib.Tactic.Abel

/-!
# Maximum flows and minimum cuts

Net flows on a finite set of vertices: what passes over a cut is the value of the flow, so
that a flow that fills a cut is a maximum flow, and the cut a minimum cut.
-/
namespace MaxFlowMinCut
variable {α R : Type*} [DecidableEq α] [AddCommGroup R] [LinearOrder R] [IsOrderedAddMonoid R]
  {vs S : Finset α} {c f : α → α → R} {s t : α}

/-- What leaves a vertex in the balance. -/
def net (vs : Finset α) (f : α → α → R) (v : α) : R := ∑ u ∈ vs, f v u

/-- A net flow from `s` to `t` within the capacities. -/
structure IsFlow (vs : Finset α) (c : α → α → R) (s t : α) (f : α → α → R) : Prop where
  skew : ∀ u v, f u v = - f v u
  le : ∀ u ∈ vs, ∀ v ∈ vs, f u v ≤ c u v
  conserve : ∀ v ∈ vs, v ≠ s → v ≠ t → net vs f v = 0

/-- The vertices on the side of `s`. -/
structure IsCut (vs : Finset α) (s t : α) (S : Finset α) : Prop where
  subset : S ⊆ vs
  source : s ∈ S
  sink : t ∉ S

def capacity (vs S : Finset α) (c : α → α → R) : R := ∑ u ∈ S, ∑ v ∈ vs \ S, c u v

/-- The flow over a cut is the value of the flow. -/
theorem IsFlow.over_cut (hf : IsFlow vs c s t f) (hS : IsCut vs s t S) : ∑ u ∈ S, ∑ v ∈ vs \ S, f u v = net vs f s := by
  have hinner : ∑ u ∈ S, ∑ v ∈ S, f u v = 0 := by
    have hneg : ∑ u ∈ S, ∑ v ∈ S, f u v = - ∑ u ∈ S, ∑ v ∈ S, f u v := by
      calc ∑ u ∈ S, ∑ v ∈ S, f u v = ∑ u ∈ S, ∑ v ∈ S, f v u := Finset.sum_comm
        _ = ∑ u ∈ S, ∑ v ∈ S, - f u v := by
          refine Finset.sum_congr rfl fun u _ => Finset.sum_congr rfl fun v _ => hf.skew v u
        _ = - ∑ u ∈ S, ∑ v ∈ S, f u v := by simp only [Finset.sum_neg_distrib]
    exact self_eq_neg.mp hneg
  have hnet : ∑ u ∈ S, net vs f u = net vs f s := by
    rw [Finset.sum_eq_single_of_mem s hS.source]
    intro v hv hne
    exact hf.conserve v (hS.subset hv) hne fun h => hS.sink (h ▸ hv)
  have hsplit : ∀ u, net vs f u = ∑ v ∈ vs \ S, f u v + ∑ v ∈ S, f u v := fun u =>
    (Finset.sum_sdiff hS.subset).symm
  calc ∑ u ∈ S, ∑ v ∈ vs \ S, f u v = ∑ u ∈ S, ∑ v ∈ vs \ S, f u v + ∑ u ∈ S, ∑ v ∈ S, f u v := by
        rw [hinner, add_zero]
    _ = ∑ u ∈ S, net vs f u := by
        rw [← Finset.sum_add_distrib]
        exact Finset.sum_congr rfl fun u _ => (hsplit u).symm
    _ = net vs f s := hnet

/-- No flow has more value than a cut has capacity. -/
theorem IsFlow.value_le (hf : IsFlow vs c s t f) (hS : IsCut vs s t S) : net vs f s ≤ capacity vs S c := by
  rw [← hf.over_cut hS]
  refine Finset.sum_le_sum fun u hu => Finset.sum_le_sum fun v hv => ?_
  exact hf.le u (hS.subset hu) v (Finset.mem_sdiff.mp hv).1

/-- A value is that of a maximum flow, and the capacity of a minimum cut. -/
structure IsOptimum (vs : Finset α) (c : α → α → R) (s t : α) (value : R) : Prop where
  flow : IsGreatest {x | ∃ f, IsFlow vs c s t f ∧ net vs f s = x} value
  cut : IsLeast {x | ∃ S, IsCut vs s t S ∧ capacity vs S c = x} value

/-- A flow that fills a cut. -/
theorem IsFlow.optimum (hf : IsFlow vs c s t f) (hS : IsCut vs s t S) (hfull : ∀ u ∈ S, ∀ v ∈ vs \ S, f u v = c u v) :
    IsOptimum vs c s t (net vs f s) := by
  have heq : capacity vs S c = net vs f s := by
    rw [← hf.over_cut hS]
    exact Finset.sum_congr rfl fun u hu => Finset.sum_congr rfl fun v hv => (hfull u hu v hv).symm
  refine ⟨⟨⟨f, hf, rfl⟩, ?_⟩, ⟨⟨S, hS, heq⟩, ?_⟩⟩
  · rintro _ ⟨g, hg, rfl⟩
    exact heq ▸ hg.value_le hS
  · rintro _ ⟨S', hS', rfl⟩
    exact hf.value_le hS'

end MaxFlowMinCut
