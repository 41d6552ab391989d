import Zpc.MaximumFlow

/-!
# The search for an augmenting path on several threads

`find_augmented_path` under a parallel policy. Every read and write of a kernel is an action of its own; the
conditional reads the potential flow of the vertex once to compare, and once more to take it.
-/
namespace Zpc.MaximumFlow
open Interleaving

section Parallel
/-- Where a kernel is with a vertex that it has visited. -/
inductive Stage
  | publish
  | parent
  | compare
  | read
  | write (flow : ℤ)
  | found
  deriving DecidableEq

/-- `kernel_bfs_augmented_path`: at its start, about to take the vertex from the frontier, at the edges that are left,
or with an edge to a vertex that it has visited. -/
inductive Kernel
  | start (vi : ℕ)
  | leave (vi : ℕ)
  | edges (vi : ℕ) (js : List ℕ)
  | visit (vi i : ℕ) (js : List ℕ) (stage : Stage)
  deriving DecidableEq

variable {V : Type*} (m : SparseMatrix V) (source sink : ℕ) (vals : ℕ → ℤ)

def kernelCode (st : Search) : Kernel → Unit → Option (Search × List Kernel)
  | .start vi, _ => some (st, if st.frontier vi then [.leave vi] else [])
  | .leave vi, _ => some ({ st with frontier := Function.update st.frontier vi false }, [.edges vi (row m vi)])
  | .edges _ [], _ => some (st, [])
  | .edges vi (i :: js), _ =>
    if vals i ≤ 0 then some (st, [.edges vi js])
    else if st.visited (m.inds.get i) then some (st, [.edges vi js])
    else some ({ st with visited := Function.update st.visited (m.inds.get i) true }, [.visit vi i js .publish])
  | .visit vi i js .publish, _ =>
    some ({ st with frontier := Function.update st.frontier (m.inds.get i) true }, [.visit vi i js .parent])
  | .visit vi i js .parent, _ =>
    some ({ st with parents := Function.update st.parents (m.inds.get i) vi }, [.visit vi i js .compare])
  | .visit vi i js .compare, _ =>
    some (st, [.visit vi i js (if vals i < st.potentialFlows vi then .write (vals i) else .read)])
  | .visit vi i js .read, _ => some (st, [.visit vi i js (.write (st.potentialFlows vi))])
  | .visit vi i js (.write flow), _ =>
    some ({ st with potentialFlows := Function.update st.potentialFlows (m.inds.get i) flow }, [.visit vi i js .found])
  | .visit vi i js .found, _ =>
    some ({ st with isSinkFound := st.isSinkFound || m.inds.get i == sink }, [.edges vi js])

/-- A sweep: the threads share the kernels of all vertices among them. -/
def sweepStart (st : Search) (schedule : List (List ℕ)) : Config Search Kernel :=
  ⟨{ st with isSinkFound := false }, schedule.map (·.map .start)⟩

/-- What `find_augmented_path` has in memory after so many sweeps, when the actions of the kernels meet the guard. -/
inductive Sweeps (guard : Guard Search Kernel) (st₀ : Search) : ℕ → Search → Prop
  | init : Sweeps guard st₀ 0 st₀
  | sweep {n : ℕ} {st : Search} {v : ℕ} (h : Sweeps guard st₀ n st) (hsink : st.isSinkFound = false)
      (hv : v < outerSize m) (hf : st.frontier v = true) {schedule : List (List ℕ)}
      (hs : schedule.flatten.Perm (List.range (outerSize m))) {c : Config Search Kernel}
      (hr : Reaches (kernelCode m sink vals) guard (sweepStart st schedule) c)
      (hq : Quiescent (kernelCode m sink vals) c) : Sweeps guard st₀ (n + 1) c.mem

/-- The loop breaks. -/
def Breaks (st : Search) : Prop := st.isSinkFound = true ∨ ∀ v < outerSize m, st.frontier v = false

/-- The vertex that a kernel has visited, and whose potential flow it has not yet written. -/
def claim : Kernel → Option ℕ
  | .visit _ _ _ .found => none
  | .visit _ i _ _ => some (m.inds.get i)
  | _ => none

def readsFlow : Kernel → Option ℕ
  | .visit vi _ _ .compare | .visit vi _ _ .read => some vi
  | _ => none

/-- A potential flow is read after the kernel that visited the vertex has written it. -/
def flowWritten : Guard Search Kernel := fun c f => ∀ vi, readsFlow f = some vi → ∀ g ∈ c.frames, claim m g ≠ some vi

instance (c : Config Search Kernel) (f : Kernel) : Decidable (flowWritten m c f) :=
  match h : readsFlow f with
  | none => .isTrue fun vi hvi => by rw [h] at hvi; cases hvi
  | some vi => decidable_of_iff (∀ g ∈ c.frames, claim m g ≠ some vi)
      ⟨fun hall k hk => by rw [h] at hk; cases hk; exact hall, fun hall => hall vi h⟩

/-- An edge with capacity left. -/
def Edge (u v : ℕ) : Prop := ∃ i ∈ row m u, m.inds.get i = v ∧ 0 < vals i

/-- The parents lead from the vertex back to the source, along edges with so much capacity. -/
inductive Traced (parents : ℕ → ℤ) (flow : ℤ) : ℕ → Prop
  | source (h : parents source = -1) : Traced parents flow source
  | edge {u v i : ℕ} (h : Traced parents flow u) (hp : parents v = (u : ℕ)) (hi : i ∈ row m u) (hv : m.inds.get i = v)
      (hflow : flow ≤ vals i) : Traced parents flow v

end Parallel
end Zpc.MaximumFlow
