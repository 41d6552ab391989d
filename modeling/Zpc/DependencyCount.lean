import Mathlib.Algebra.Order.Group.Nat
import Mathlib.Order.WellFoundedSet

/-!
# Counting what a node waits for

Edges between nodes, some of the nodes done: a node waits for the sources of its edges
that are not done. Doing a node leaves one wait less for each edge out of it, and without
cycles a property that passes from the sources of the edges into a node to the node holds
of all nodes.
-/
namespace DependencyCount
variable {E α : Type*} [DecidableEq α] (src dst : E → α) (edges : List E)

def inDegree (v : α) : ℕ := edges.countP fun e => dst e = v

/-- The edges into a node from nodes not done. -/
def waits (done : List α) (v : α) : ℕ := edges.countP fun e => dst e = v ∧ src e ∉ done

def between (u v : α) : ℕ := edges.countP fun e => dst e = v ∧ src e = u

/-- No path leads from a node back to it. -/
def Acyclic : Prop := ∀ v, ¬ Relation.TransGen (fun u w => ∃ e ∈ edges, src e = u ∧ dst e = w) v v

variable {src dst edges} {done : List α} {u v : α}

@[simp] theorem waits_nil : waits src dst edges [] v = inDegree dst edges v := by
  simp [waits, inDegree]

theorem waits_eq_zero : waits src dst edges done v = 0 ↔ ∀ e ∈ edges, dst e = v → src e ∈ done := by
  simp [waits, List.countP_eq_zero]

theorem waits_cons (hu : u ∉ done) (v : α) :
    waits src dst edges (u :: done) v + between src dst edges u v = waits src dst edges done v := by
  have hs := List.countP_eq_countP_filter_add edges (fun e => decide (dst e = v ∧ src e ∉ done)) (src · = u)
  rw [List.countP_filter, List.countP_filter] at hs
  rw [waits, waits, between, hs, Nat.add_comm]
  congr 1 <;> refine List.countP_congr fun e _ => ?_
  · by_cases he : src e = u <;> simp [he, hu]
  · by_cases he : src e = u <;> simp [he]

omit [DecidableEq α] in
theorem Acyclic.induction (h : Acyclic src dst edges) {P : α → Prop}
    (hstep : ∀ v, (∀ e ∈ edges, dst e = v → P (src e)) → P v) (v : α) : P v := by
  let R := Relation.TransGen fun u w => ∃ e ∈ edges, src e = u ∧ dst e = w
  have : IsStrictOrder α R := {irrefl := h, trans := fun _ _ _ => Relation.TransGen.trans}
  have hfin : {u | u ∈ edges.map src}.Finite := List.finite_toSet _
  refine hstep v fun e he _ => ?_
  refine (hfin.wellFoundedOn (r := R)).induction (List.mem_map_of_mem he) fun u _ ih => hstep u fun e' he' hd => ?_
  exact ih (src e') (List.mem_map_of_mem he') (.single ⟨e', he', rfl, hd⟩)

omit [DecidableEq α] in
theorem Acyclic.mono {edges' : List E} (h : Acyclic src dst edges) (hs : edges' ⊆ edges) : Acyclic src dst edges' :=
  fun v hp => h v (Relation.TransGen.mono (fun _ _ ⟨e, he, hu, hw⟩ => ⟨e, hs he, hu, hw⟩) v v hp)

omit [DecidableEq α] in
theorem acyclic_of_rank (rank : α → ℕ) (h : ∀ e ∈ edges, rank (src e) < rank (dst e)) : Acyclic src dst edges := by
  have hlt : ∀ u w, Relation.TransGen (fun u w => ∃ e ∈ edges, src e = u ∧ dst e = w) u w → rank u < rank w := by
    intro u w hp
    induction hp with
    | single hs =>
      obtain ⟨e, he, rfl, rfl⟩ := hs
      exact h e he
    | tail _ hs ih =>
      obtain ⟨e, he, rfl, rfl⟩ := hs
      exact ih.trans (h e he)
  exact fun v hp => lt_irrefl _ (hlt v v hp)

end DependencyCount
