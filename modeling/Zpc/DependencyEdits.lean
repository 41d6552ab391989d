import Zpc.DependencyCount

/-!
# Edits of a dependency graph

A relation from each node to those that wait for it. Without cycles it is well founded, and it stays so when a new node
is put between nodes that do not lead from the later ones to the earlier ones, and when a node is taken out and its
neighbours are joined. Neither loses a path between the nodes that are left.
-/
namespace DependencyEdits
open Relation

variable {α : Type*} {R R' : α → α → Prop} {x u v w : α} {D E : α → Prop}

theorem not_transGen_self (h : WellFounded R) (v : α) : ¬ TransGen R v v := fun hp =>
  h.transGen.irrefl.irrefl v hp

theorem acyclic_iff {edges : List (α × α)} [DecidableEq α] :
    DependencyCount.Acyclic Prod.fst Prod.snd edges ↔ WellFounded fun u w => (u, w) ∈ edges := by
  have hrel : (fun u w => ∃ e ∈ edges, e.1 = u ∧ e.2 = w) = fun u w => (u, w) ∈ edges := by
    funext u w
    rw [eq_iff_iff]
    constructor
    · rintro ⟨e, he, rfl, rfl⟩
      exact he
    · exact fun he => ⟨(u, w), he, rfl, rfl⟩
  constructor
  · intro h
    refine ⟨fun v => h.induction (P := fun v => Acc (fun u w => (u, w) ∈ edges) v) (fun v ih => ?_) v⟩
    exact ⟨_, fun u hu => ih (u, v) hu rfl⟩
  · intro h v hp
    rw [hrel] at hp
    exact not_transGen_self h v hp

/-- A node that nothing leads to or from is put after some nodes and before others. -/
structure Inserts (R R' : α → α → Prop) (x : α) (D E : α → Prop) : Prop where
  edge : ∀ u w, R' u w → R u w ∨ (D u ∧ w = x) ∨ (u = x ∧ E w)
  noneTo : ∀ u, ¬ R u x
  noneFrom : ∀ w, ¬ R x w
  before : ¬ D x
  after : ¬ E x
  apart : ∀ d e, D d → E e → ¬ ReflTransGen R e d

namespace Inserts
/-- What the later nodes do not lead to waits for nothing new. -/
theorem acc_of_not_after (h : Inserts R R' x D E) (hR : WellFounded R) (hv : v ≠ x)
    (hafter : ∀ e, E e → ¬ ReflTransGen R e v) : Acc R' v := by
  induction v using hR.induction with
  | _ v ih =>
    refine ⟨_, fun u hu => ?_⟩
    rcases h.edge u v hu with he | ⟨_, rfl⟩ | ⟨_, he⟩
    · exact ih u he (fun hx => h.noneFrom v (hx ▸ he)) fun e hE hp => hafter e hE (hp.tail he)
    · exact absurd rfl hv
    · exact absurd .refl (hafter v he)

theorem acc_new (h : Inserts R R' x D E) (hR : WellFounded R) : Acc R' x := by
  refine ⟨_, fun u hu => ?_⟩
  rcases h.edge u x hu with he | ⟨hd, _⟩ | ⟨_, he⟩
  · exact absurd he (h.noneTo u)
  · exact h.acc_of_not_after hR (fun hx => h.before (hx ▸ hd)) fun e hE => h.apart u e hd hE
  · exact absurd he h.after

theorem wellFounded (h : Inserts R R' x D E) (hR : WellFounded R) : WellFounded R' := by
  refine ⟨fun v => ?_⟩
  induction v using hR.induction with
  | _ v ih =>
    refine ⟨_, fun u hu => ?_⟩
    rcases h.edge u v hu with he | ⟨hd, rfl⟩ | ⟨rfl, _⟩
    · exact ih u he
    · exact (h.acc_new hR).inv hu
    · exact h.acc_new hR

end Inserts

/-- A node is taken out, and what it waited for is joined to what waited for it. -/
structure Removes (R R' : α → α → Prop) (x : α) : Prop where
  edge : ∀ u w, R' u w ↔ u ≠ x ∧ w ≠ x ∧ (R u w ∨ (R u x ∧ R x w ∧ u ≠ w))

namespace Removes
theorem transGen_of_edge (h : Removes R R' x) (he : R' u w) : TransGen R u w := by
  rcases ((h.edge u w).mp he).2.2 with he | ⟨hu, hw, _⟩
  · exact .single he
  · exact .tail (.single hu) hw

theorem wellFounded (h : Removes R R' x) (hR : WellFounded R) : WellFounded R' :=
  Subrelation.wf (fun he => h.transGen_of_edge he) hR.transGen

/-- A path goes past the node that is taken out, from the node before it to the one after it. -/
theorem transGen (h : Removes R R' x) (hR : WellFounded R) (hu : u ≠ x) (hp : TransGen R u w) :
    (w ≠ x → TransGen R' u w) ∧ (w = x → ∀ z, R x z → TransGen R' u z) := by
  have hjoin : ∀ b z, b ≠ x → R b x → R x z → R' b z := by
    intro b z hb hbx hxz
    refine (h.edge b z).mpr ⟨hb, ?_, .inr ⟨hbx, hxz, ?_⟩⟩
    · rintro rfl
      exact not_transGen_self hR _ (.single hxz)
    · rintro rfl
      exact not_transGen_self hR _ (.tail (.single hbx) hxz)
  induction hp with
  | single he =>
    refine ⟨fun hw => .single ((h.edge _ _).mpr ⟨hu, hw, .inl he⟩), ?_⟩
    rintro rfl z hz
    exact .single (hjoin u z hu he hz)
  | @tail b c _ he ih =>
    by_cases hb : b = x
    · subst hb
      refine ⟨fun _ => ih.2 rfl c he, ?_⟩
      rintro rfl
      exact absurd (.single he) (not_transGen_self hR c)
    · refine ⟨fun hc => (ih.1 hb).tail ((h.edge _ _).mpr ⟨hb, hc, .inl he⟩), ?_⟩
      rintro rfl z hz
      exact (ih.1 hb).tail (hjoin b z hb he hz)

end Removes

end DependencyEdits
