import Mathlib.Data.Finset.Max
import Mathlib.Data.Set.Finite.Basic

/-!
# Finite maps with ordered keys

A finite partial function, the operations of an ordered container on it, and runs of them. A position is a key or the
end.
-/
namespace Zpc
/-- A partial function that is defined at finitely many keys. -/
@[ext] structure FiniteMap (K V : Type*) where
  lookup : K → Option V
  finite : {k | (lookup k).isSome}.Finite

namespace FiniteMap
variable {K V : Type*}

def empty : FiniteMap K V := ⟨fun _ => none, by simp⟩

theorem lookup_empty (k : K) : (empty : FiniteMap K V).lookup k = none := rfl

noncomputable def keys (M : FiniteMap K V) : Finset K := M.finite.toFinset

@[simp] theorem mem_keys {M : FiniteMap K V} {k : K} : k ∈ M.keys ↔ (M.lookup k).isSome := by
  simp [keys]

noncomputable def card (M : FiniteMap K V) : ℕ := M.keys.card

theorem card_eq_zero {M : FiniteMap K V} : M.card = 0 ↔ ∀ k, M.lookup k = none := by
  simp [card, Finset.card_eq_zero, Finset.eq_empty_iff_forall_notMem]

/-- The keys that satisfy a predicate are taken out. -/
def eraseWhere (M : FiniteMap K V) (g : K → Prop) [DecidablePred g] : FiniteMap K V :=
  ⟨fun k => if g k then none else M.lookup k, M.finite.subset fun k hk => by
    by_cases hg : g k
    · simp [hg] at hk
    · simpa [hg] using hk⟩

theorem lookup_eraseWhere (M : FiniteMap K V) (g : K → Prop) [DecidablePred g] (k : K) :
    (M.eraseWhere g).lookup k = if g k then none else M.lookup k := rfl

variable [LinearOrder K]

def insert (M : FiniteMap K V) (k : K) (v : V) : FiniteMap K V :=
  ⟨Function.update M.lookup k (some v), (M.finite.insert k).subset fun k' hk => by
    by_cases h : k' = k
    · exact .inl h
    · exact .inr (by simpa [Function.update_of_ne h] using hk)⟩

theorem lookup_insert (M : FiniteMap K V) (k k' : K) (v : V) :
    (M.insert k v).lookup k' = if k' = k then some v else M.lookup k' := Function.update_apply ..

/-- The key is taken out. -/
def erase (M : FiniteMap K V) (k : K) : FiniteMap K V := M.eraseWhere (· = k)

/-- The keys from a position to before another one are taken out. -/
def eraseRange (M : FiniteMap K V) (lo hi : WithTop K) : FiniteMap K V := M.eraseWhere fun k => lo ≤ k ∧ k < hi

/-- The position after a key. -/
noncomputable def next (M : FiniteMap K V) (k : K) : WithTop K := (M.keys.filter (k < ·)).min

theorem min_toFinset {L : List K} (h : L.Pairwise (· < ·)) : L.toFinset.min = (L.map WithTop.some).headD ⊤ := by
  cases L with
  | nil => rfl
  | cons k L =>
    refine le_antisymm (Finset.min_le (by simp)) (Finset.le_min fun k' hk => ?_)
    rcases List.mem_cons.mp (List.mem_toFinset.mp hk) with rfl | hk
    · exact le_rfl
    · exact WithTop.coe_le_coe.mpr (le_of_lt ((List.pairwise_cons.mp h).1 k' hk))

/-- An operation of a client. -/
inductive Op (K V : Type*)
  | insert (k : K) (v : V)
  | access (k : K) (assigned : Option V)
  | erase (k : K)
  | eraseAt (position : WithTop K)
  | eraseRange (first last : WithTop K)
  | clear

/-- What a client gets back. -/
inductive Result (K V : Type*)
  | unit
  | value (v : V)
  | removed (n : ℕ)
  | position (p : WithTop K)

variable [Inhabited V]

/-- `access` makes a missing key with the default value and gives the value, and may then assign. -/
noncomputable def step (M : FiniteMap K V) : Op K V → FiniteMap K V × Result K V
  | .insert k v => (M.insert k v, .unit)
  | .access k assigned => (M.insert k (assigned.getD ((M.lookup k).getD default)), .value ((M.lookup k).getD default))
  | .erase k => (M.erase k, .removed (if (M.lookup k).isSome then 1 else 0))
  | .eraseAt none => (M, .position ⊤)
  | .eraseAt (some k) => (M.erase k, .position (M.next k))
  | .eraseRange first last => (M.eraseRange first last, .position last)
  | .clear => (empty, .unit)

/-- The results of a run and the map at its end. -/
noncomputable def run (M : FiniteMap K V) : List (Op K V) → List (Result K V) × FiniteMap K V
  | [] => ([], M)
  | op :: ops => ((M.step op).2 :: ((M.step op).1.run ops).1, ((M.step op).1.run ops).2)

end FiniteMap

end Zpc
