import Mathlib

/-!
# Orders of commuting actions

Two orders of the same actions lead to the same state when all that change places commute, as actions on a memory do
of which neither writes a cell that the other one reads or writes.
-/
namespace Zpc.CommutingActions
section Orders

variable {ι S : Type*} {act : ι → S → S} {a : ι} {l l' : List ι}

theorem foldl_commute (h : ∀ x ∈ l, Function.Commute (act x) (act a)) (s : S) :
    l.foldl (fun s x => act x s) (act a s) = act a (l.foldl (fun s x => act x s) s) := by
  induction l generalizing s with
  | nil => rfl
  | cons x l ih =>
    rw [List.forall_mem_cons] at h
    rw [List.foldl_cons, h.1 s, ih h.2, List.foldl_cons]

/-- By induction on one order: its first action is moved to the front of the other one. -/
theorem foldl_eq_of_perm (hp : l.Perm l')
    (h : ∀ p q, List.Sublist [p, q] l → List.Sublist [q, p] l' → Function.Commute (act p) (act q)) (s : S) :
    l.foldl (fun s x => act x s) s = l'.foldl (fun s x => act x s) s := by
  induction l generalizing l' s with
  | nil => rw [← hp.nil_eq]
  | cons a l ih =>
    obtain ⟨u, v, rfl, hu⟩ := List.eq_append_cons_of_mem (hp.subset List.mem_cons_self)
    have hperm : l.Perm (u ++ v) := (hp.trans List.perm_middle).cons_inv
    have hfront : ∀ x ∈ u, Function.Commute (act x) (act a) := by
      intro x hx
      have hl : x ∈ l := hperm.mem_iff.mpr (List.mem_append_left v hx)
      refine (h a x ((List.singleton_sublist.mpr hl).cons_cons a) ?_).symm
      exact (List.singleton_sublist.mpr hx).append (List.singleton_sublist.mpr List.mem_cons_self)
    have hrest := ih hperm (fun p q hpq hqp => h p q (hpq.cons a) (hqp.trans ?_)) (act a s)
    · rw [List.foldl_cons, hrest, List.foldl_append, List.foldl_append, foldl_commute hfront, List.foldl_cons]
    · exact (List.Sublist.refl u).append (List.sublist_cons_self a v)

end Orders

section Cells
variable {R V : Type*} {f g : (R → V) → R → V} {A W A' W' : Set R}

/-- The action writes the cells of `W` only, and what it writes is made of the cells of `A`. -/
structure Confined (f : (R → V) → R → V) (A W : Set R) : Prop where
  frame : ∀ m, ∀ r ∉ W, f m r = m r
  reads : ∀ m m', (∀ r ∈ A, m r = m' r) → ∀ r ∈ W, f m r = f m' r

theorem Confined.commute_apply (hf : Confined f A W) (hg : Confined g A' W') (hA : Disjoint W' A) (hW : Disjoint W W')
    (m : R → V) {r : R} (hr : r ∈ W) : f (g m) r = g (f m) r := by
  rw [hg.frame (f m) r (Set.disjoint_left.mp hW hr)]
  exact hf.reads _ _ (fun x hx => hg.frame m x (Set.disjoint_right.mp hA hx)) r hr

theorem Confined.commute (hf : Confined f A W) (hg : Confined g A' W') (hA : Disjoint W' A) (hA' : Disjoint W A')
    (hW : Disjoint W W') : Function.Commute f g := by
  intro m
  funext r
  by_cases hr : r ∈ W
  · exact hf.commute_apply hg hA hW m hr
  · by_cases hr' : r ∈ W'
    · exact (hg.commute_apply hf hA' hW.symm m hr').symm
    · rw [hf.frame _ r hr, hg.frame _ r hr', hg.frame _ r hr', hf.frame _ r hr]

end Cells

end Zpc.CommutingActions
