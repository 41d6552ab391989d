import Mathlib.Data.List.Count
import Mathlib.Data.List.FinRange
import Mathlib.Data.List.GetD

/-!
# Greedy matching

The members of one list are gone through in order. Each takes the first member of the other
list that no earlier one has taken and that it accepts.
-/
namespace GreedyMatching
variable {α β : Type*} (same : α → β → Bool) (ys : List β)

/-- The first free member that is accepted. -/
def first (used : Fin ys.length → Bool) (x : α) : Option (Fin ys.length) :=
  (List.finRange ys.length).find? fun j => !used j && same x ys[j]

def take (used : Fin ys.length → Bool) : Option (Fin ys.length) → Fin ys.length → Bool
  | none => used
  | some j => Function.update used j true

/-- What each member takes. -/
def partners (used : Fin ys.length → Bool) : List α → List (Option (Fin ys.length))
  | [] => []
  | x :: xs => first same ys used x :: partners (take ys used (first same ys used x)) xs

/-- Which members are taken in the end. -/
def usedBy (used : Fin ys.length → Bool) : List α → Fin ys.length → Bool
  | [] => used
  | x :: xs => usedBy (take ys used (first same ys used x)) xs

def left (used : Fin ys.length → Bool) : List (Fin ys.length) :=
  (List.finRange ys.length).filter fun j => !used j

/-- Each member of the first list with what it takes, then what is left of the second. -/
def pairs (xs : List α) : List (Option (Fin xs.length) × Option (Fin ys.length)) :=
  ((List.finRange xs.length).map some).zip (partners same ys (fun _ => false) xs) ++
    (left ys (usedBy same ys (fun _ => false) xs)).map fun j => (none, some j)

variable {same ys} {used : Fin ys.length → Bool} {x : α} {xs : List α} {j : Fin ys.length}

/-- A loop that looks up its partner and goes on with it. -/
theorem foldl_eq {σ : Type*} (f : σ → α → Option (Fin ys.length) → σ) (s : σ) :
    xs.foldl (fun p x => (f p.1 x (first same ys p.2 x), take ys p.2 (first same ys p.2 x))) (s, used) =
      ((xs.zip (partners same ys used xs)).foldl (fun s p => f s p.1 p.2) s, usedBy same ys used xs) := by
  induction xs generalizing s used with
  | nil => rfl
  | cons x xs ih => simp only [List.foldl_cons, partners, usedBy, List.zip_cons_cons, ih]

theorem of_first (h : first same ys used x = some j) : used j = false ∧ same x ys[j] = true := by
  have hp := List.find?_some h
  simpa using hp

end GreedyMatching
