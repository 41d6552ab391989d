import Mathlib.Data.List.Nodup

/-!
# Stacks linked through their nodes

Nodes each with one link, several stacks of them, and a map that says in which place each node is. A place owns the nodes
that the map puts there: a link changes only at a node of the thread that writes it, so the stacks elsewhere are as before.
-/
namespace LinkedStack
variable {Node Place : Type*} {next : Node → Option Node} {place : Node → Place} {p q : Place} {x : Node}
  {h : Option Node} {l : List Node}

/-- The links lead from `h` through the nodes in this order to the end. -/
def Chain (next : Node → Option Node) : Option Node → List Node → Prop
  | h, [] => h = none
  | h, x :: l => h = some x ∧ Chain next (next x) l

/-- The links lead from `h` to the node. -/
inductive Leads (next : Node → Option Node) : Option Node → Node → Prop
  | head (x : Node) : Leads next (some x) x
  | link {x y : Node} (h : Leads next (next y) x) : Leads next (some y) x

/-- The list has the nodes of a place, each once. -/
structure Owns (place : Node → Place) (p : Place) (l : List Node) : Prop where
  nodup : l.Nodup
  mem_iff : ∀ x, x ∈ l ↔ place x = p

/-- The nodes of a place form the stack with this top. -/
structure IsStack (next : Node → Option Node) (place : Node → Place) (p : Place) (h : Option Node) (l : List Node) :
    Prop where
  chain : Chain next h l
  owns : Owns place p l

/-! ## Chains -/

theorem Chain.leads_iff (hc : Chain next h l) : Leads next h x ↔ x ∈ l := by
  induction l generalizing h with
  | nil =>
    obtain rfl : h = none := hc
    constructor
    · intro hl
      cases hl
    · intro hx
      cases hx
  | cons y l ih =>
    obtain ⟨rfl, hc⟩ := hc
    constructor
    · intro hl
      cases hl with
      | head => exact List.mem_cons_self
      | link hl => exact List.mem_cons_of_mem _ ((ih hc).mp hl)
    · intro hx
      cases List.mem_cons.mp hx with
      | inl he => exact he ▸ .head x
      | inr hx => exact .link ((ih hc).mpr hx)

theorem Chain.congr {next' : Node → Option Node} (hc : Chain next h l) (hn : ∀ x ∈ l, next' x = next x) :
    Chain next' h l := by
  induction l generalizing h with
  | nil => exact hc
  | cons x l ih =>
    refine ⟨hc.1, ?_⟩
    rw [hn x List.mem_cons_self]
    exact ih hc.2 fun y hy => hn y (List.mem_cons_of_mem _ hy)

theorem Chain.eq_nil (hc : Chain next none l) : l = [] := by
  cases l with
  | nil => rfl
  | cons x l => cases hc.1

theorem Chain.eq_cons (hc : Chain next (some x) l) : ∃ l', l = x :: l' ∧ Chain next (next x) l' := by
  cases l with
  | nil => cases hc
  | cons y l =>
    obtain rfl := Option.some.inj hc.1
    exact ⟨l, rfl, hc.2⟩

theorem Owns.place_eq (ho : Owns place p l) (hx : x ∈ l) : place x = p := (ho.mem_iff x).mp hx

/-! ## Moving one node -/

section Move
variable [DecidableEq Node]

theorem Owns.keep (ho : Owns place p l) (hx : place x ≠ p) (hq : q ≠ p) : Owns (Function.update place x q) p l where
  nodup := ho.nodup
  mem_iff y := by
    by_cases hy : y = x
    · subst hy
      rw [Function.update_self, ho.mem_iff]
      exact iff_of_false hx hq
    · rw [Function.update_of_ne hy]
      exact ho.mem_iff y

theorem Owns.put (ho : Owns place p l) (hx : place x ≠ p) : Owns (Function.update place x p) p (x :: l) where
  nodup := List.nodup_cons.mpr ⟨fun hm => hx ((ho.mem_iff x).mp hm), ho.nodup⟩
  mem_iff y := by
    by_cases hy : y = x
    · subst hy
      rw [Function.update_self]
      exact iff_of_true List.mem_cons_self rfl
    · rw [Function.update_of_ne hy, List.mem_cons, ho.mem_iff]
      exact or_iff_right hy

theorem Owns.erase (ho : Owns place p l) (hq : q ≠ p) : Owns (Function.update place x q) p (l.erase x) where
  nodup := ho.nodup.erase x
  mem_iff y := by
    rw [ho.nodup.mem_erase_iff, ho.mem_iff]
    by_cases hy : y = x
    · subst hy
      rw [Function.update_self]
      exact iff_of_false (fun h => h.1 rfl) hq
    · rw [Function.update_of_ne hy]
      exact and_iff_right hy

theorem Owns.take (ho : Owns place p (x :: l)) (hq : q ≠ p) : Owns (Function.update place x q) p l := by
  have := ho.erase hq (x := x)
  rwa [List.erase_cons_head] at this

theorem IsStack.write (hs : IsStack next place p h l) (hx : place x ≠ p) (v : Option Node) :
    IsStack (Function.update next x v) place p h l where
  chain := by
    apply hs.chain.congr
    intro y hy
    apply Function.update_of_ne
    rintro rfl
    exact hx (hs.owns.place_eq hy)
  owns := hs.owns

theorem IsStack.keep (hs : IsStack next place p h l) (hx : place x ≠ p) (hq : q ≠ p) :
    IsStack next (Function.update place x q) p h l where
  chain := hs.chain
  owns := hs.owns.keep hx hq

theorem IsStack.push (hs : IsStack next place p h l) (hx : place x ≠ p) (hn : next x = h) :
    IsStack next (Function.update place x p) p (some x) (x :: l) where
  chain := ⟨rfl, hn ▸ hs.chain⟩
  owns := hs.owns.put hx

theorem IsStack.pop (hs : IsStack next place p (some x) l) (hq : q ≠ p) :
    ∃ l', l = x :: l' ∧ place x = p ∧ IsStack next (Function.update place x q) p (next x) l' := by
  have ⟨l', he, hc⟩ := hs.chain.eq_cons
  subst he
  exact ⟨l', rfl, hs.owns.place_eq List.mem_cons_self, hc, hs.owns.take hq⟩

end Move

theorem IsStack.leads_iff (hs : IsStack next place p h l) : Leads next h x ↔ place x = p :=
  hs.chain.leads_iff.trans (hs.owns.mem_iff x)

end LinkedStack
