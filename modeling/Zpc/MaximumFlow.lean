import Zpc.SparseMatrix
import Zpc.MaxFlowMinCut
import Mathlib.Algebra.BigOperators.Group.Finset.Piecewise
import Mathlib.Tactic.Ring

/-!
# Maximum flow

`find_augmented_path` and `maximum_flow` under the sequential policy. The values of the
matrix are the residual capacities; sums of them are taken not to overflow. Every insertion
into the hash table succeeds, so that a query gives the index of the entry. The loops have
fuel.
-/
namespace Zpc.MaximumFlow
open MaxFlowMinCut

section Code
variable {V : Type*} (m : SparseMatrix V) (source sink : ℕ)

/-- `outerSize()`. -/
def outerSize : ℕ := if m.rowMajor then m.nrows else m.ncols

def row (v : ℕ) : List ℕ := List.range' (m.ptrs.get v) (m.ptrs.get (v + 1) - m.ptrs.get v)

/-- What `kernel_initialize_hashtable` puts into the table, with the buffer. -/
def table : List ((ℕ × ℕ) × ℕ) := (List.range (outerSize m)).flatMap fun v => (row m v).map fun j => ((v, m.inds.get j), j)

/-- `hashBuffer` at a query of the table. -/
def query (u v : ℕ) : Option ℕ := ((table m).find? fun e => e.1 = (u, v)).map (·.2)

structure Search where
  visited : ℕ → Bool
  frontier : ℕ → Bool
  parents : ℕ → ℤ
  potentialFlows : ℕ → ℤ
  isSinkFound : Bool

/-- One turn of the loop of `kernel_bfs_augmented_path`. -/
def visit (vals : ℕ → ℤ) (vi : ℕ) (st : Search) (i : ℕ) : Search :=
  if vals i ≤ 0 then st
  else if st.visited (m.inds.get i) then st
  else {
    visited := Function.update st.visited (m.inds.get i) true
    frontier := Function.update st.frontier (m.inds.get i) true
    parents := Function.update st.parents (m.inds.get i) vi
    potentialFlows := Function.update st.potentialFlows (m.inds.get i)
      (if vals i < st.potentialFlows vi then vals i else st.potentialFlows vi)
    isSinkFound := st.isSinkFound || m.inds.get i == sink }

def bfsAugmentedPath (vals : ℕ → ℤ) (st : Search) (vi : ℕ) : Search :=
  if st.frontier vi then
    (row m vi).foldl (visit m sink vals vi) {st with frontier := Function.update st.frontier vi false}
  else st

def sweep (vals : ℕ → ℤ) (st : Search) : Search :=
  (List.range (outerSize m)).foldl (bfsAugmentedPath m sink vals) {st with isSinkFound := false}

/-- The loop of `find_augmented_path`. -/
def search (vals : ℕ → ℤ) : ℕ → Search → Option Search
  | 0, _ => none
  | fuel + 1, st =>
    if (List.range (outerSize m)).all fun v => !st.frontier v then some st
    else if (sweep m sink vals st).isSinkFound then some (sweep m sink vals st)
    else search vals fuel (sweep m sink vals st)

/-- `max` is the largest number of the type. -/
def start (max : ℤ) (parents : ℕ → ℤ) : Search where
  visited v := v == source
  frontier v := v == source
  parents := Function.update parents source (-1)
  potentialFlows := Function.update (fun _ => 0) source max
  isSinkFound := false

/-- The loop over the augmenting path, from the sink on. -/
def augment (parents : ℕ → ℤ) (minFlow : ℤ) : ℕ → ℕ → (ℕ → ℤ) → Option (ℕ → ℤ)
  | 0, _, _ => none
  | fuel + 1, vi, vals =>
    if parents vi < 0 then some vals
    else
      let pvi := (parents vi).toNat
      (query m pvi vi).bind fun edge => (query m vi pvi).bind fun reverse =>
        let vals := Function.update vals edge (vals edge - minFlow)
        augment parents minFlow fuel pvi (Function.update vals reverse (vals reverse + minFlow))

/-- The loop of `maximum_flow`: the residual capacities and the value. -/
def maximumFlow (max : ℤ) : ℕ → (ℕ → ℤ) → (ℕ → ℤ) → ℤ → Option ((ℕ → ℤ) × ℤ)
  | 0, _, _, _ => none
  | fuel + 1, parents, vals, res =>
    (search m sink vals fuel (start source max parents)).bind fun st =>
      if 0 < st.potentialFlows sink then
        (augment m st.parents (st.potentialFlows sink) fuel sink vals).bind fun vals =>
          maximumFlow max fuel st.parents vals (res + st.potentialFlows sink)
      else some (vals, res)

end Code

/-- Square and symmetric: a row has an entry of a column once, and then the other row has one too. -/
structure Symmetric {V : Type*} (m : SparseMatrix V) : Prop where
  mono : ∀ v, m.ptrs.get v ≤ m.ptrs.get (v + 1)
  lt : ∀ v < outerSize m, ∀ j ∈ row m v, m.inds.get j < outerSize m
  once : ∀ v < outerSize m, ∀ j ∈ row m v, ∀ j' ∈ row m v, m.inds.get j = m.inds.get j' → j = j'
  symm : ∀ v < outerSize m, ∀ j ∈ row m v, ∃ j' ∈ row m (m.inds.get j), m.inds.get j' = v

section Table
variable {V : Type*} {m : SparseMatrix V} {u v j : ℕ}

theorem mem_row : j ∈ row m v ↔ m.ptrs.get v ≤ j ∧ j < m.ptrs.get (v + 1) := by
  rw [row, List.mem_range'_1]
  omega

theorem row_unique (hm : Symmetric m) (hu : j ∈ row m u) (hv : j ∈ row m v) : u = v := by
  have hmono : Monotone m.ptrs.get := monotone_nat_of_le_succ hm.mono
  rw [mem_row] at hu hv
  rcases Nat.lt_trichotomy u v with h | h | h
  · have := hmono (show u + 1 ≤ v from h)
    omega
  · exact h
  · have := hmono (show v + 1 ≤ u from h)
    omega

theorem mem_table : ((u, v), j) ∈ table m ↔ u < outerSize m ∧ j ∈ row m u ∧ m.inds.get j = v := by
  simp only [table, List.mem_flatMap, List.mem_range, List.mem_map, Prod.mk.injEq]
  constructor
  · rintro ⟨w, hw, i, hi, ⟨rfl, rfl⟩, rfl⟩
    exact ⟨hw, hi, rfl⟩
  · rintro ⟨hu, hj, rfl⟩
    exact ⟨u, hu, j, hj, ⟨rfl, rfl⟩, rfl⟩

/-- The table gives the index of the entry. -/
theorem query_eq_some (hm : Symmetric m) : query m u v = some j ↔ u < outerSize m ∧ j ∈ row m u ∧ m.inds.get j = v := by
  unfold query
  constructor
  · intro h
    obtain ⟨⟨key, i⟩, he, rfl⟩ := Option.map_eq_some_iff.mp h
    have hkey : key = (u, v) := by simpa using List.find?_some he
    subst hkey
    exact mem_table.mp (List.mem_of_find?_eq_some he)
  · rintro ⟨hu, hj, hv⟩
    have hmem := mem_table.mpr ⟨hu, hj, hv⟩
    have hsome : ((table m).find? fun e => e.1 = (u, v)).isSome :=
      List.find?_isSome.mpr ⟨_, hmem, decide_eq_true rfl⟩
    obtain ⟨⟨key, i⟩, he⟩ := Option.isSome_iff_exists.mp hsome
    have hkey : key = (u, v) := by simpa using List.find?_some he
    subst hkey
    obtain ⟨-, hi, hiv⟩ := mem_table.mp (List.mem_of_find?_eq_some he)
    obtain rfl := hm.once u hu i hi j hj (hiv.trans hv.symm)
    rw [he]
    rfl

/-- Different entries have different indices. -/
theorem query_inj (hm : Symmetric m) {u' v' : ℕ} (h : query m u v = some j) (h' : query m u' v' = some j) :
    u = u' ∧ v = v' := by
  obtain ⟨-, hj, rfl⟩ := (query_eq_some hm).mp h
  obtain ⟨-, hj', rfl⟩ := (query_eq_some hm).mp h'
  exact ⟨row_unique hm hj hj', rfl⟩

theorem query_symm (hm : Symmetric m) (h : query m u v = some j) : ∃ i, query m v u = some i := by
  obtain ⟨hu, hj, rfl⟩ := (query_eq_some hm).mp h
  obtain ⟨i, hi, hiu⟩ := hm.symm u hu j hj
  exact ⟨i, (query_eq_some hm).mpr ⟨hm.lt u hu j hj, hi, hiu⟩⟩

end Table

section Residual
variable {V : Type*} {m : SparseMatrix V} {u v j : ℕ} {vals : ℕ → ℤ}

/-- The value between two vertices. -/
def residual (m : SparseMatrix V) (vals : ℕ → ℤ) (u v : ℕ) : ℤ := ((query m u v).map vals).getD 0

theorem residual_of_query (h : query m u v = some j) : residual m vals u v = vals j := by
  rw [residual, h]
  rfl

theorem residual_update (hm : Symmetric m) (h : query m u v = some j) (x : ℤ) (a b : ℕ) :
    residual m (Function.update vals j x) a b = if a = u ∧ b = v then x else residual m vals a b := by
  unfold residual
  split
  next heq =>
    obtain ⟨rfl, rfl⟩ := heq
    rw [h, Option.map_some, Function.update_self]
    rfl
  next hne =>
    cases hq : query m a b with
    | none => rfl
    | some i =>
      have hij : i ≠ j := fun he => hne (query_inj hm hq (he ▸ h))
      rw [Option.map_some, Function.update_of_ne hij, Option.map_some]

end Residual

section Search
variable {V : Type*} (m : SparseMatrix V) (source sink : ℕ) (vals : ℕ → ℤ)

/-- The visited vertices are a tree, by the ranks of its vertices; the potential flows are what passes
down to them. -/
structure Tree (st : Search) (rank : ℕ → ℕ) (bound : ℕ) : Prop where
  origin : st.visited source = true
  root : st.parents source = -1
  lt : ∀ w, st.visited w = true → w < outerSize m
  rank_lt : ∀ w, st.visited w = true → rank w < bound
  pos : ∀ w, st.visited w = true → 0 < st.potentialFlows w
  parent : ∀ w, st.visited w = true → w ≠ source → ∃ u j, st.parents w = (u : ℕ) ∧ st.visited u = true ∧
    rank u < rank w ∧ query m u w = some j ∧ st.potentialFlows w ≤ vals j ∧ st.potentialFlows w ≤ st.potentialFlows u
  unvisited : ∀ w, st.visited w = false → st.potentialFlows w = 0
  frontier : ∀ w, st.frontier w = true → st.visited w = true
  found : st.isSinkFound = st.visited sink

/-- All that can be reached from a vertex has been visited when it has been visited and is not in the frontier. -/
def Closed (st : Search) : Prop :=
  ∀ w, st.visited w = true → st.frontier w = false → ∀ j ∈ row m w, 0 < vals j → st.visited (m.inds.get j) = true

structure Extends (st st' : Search) : Prop where
  visited : ∀ w, st.visited w = true → st'.visited w = true
  frontier : ∀ w, st.visited w = true → st'.frontier w = st.frontier w
  fresh : ∀ w, st.visited w = false → st'.visited w = true → st'.frontier w = true

structure Grows (st st' : Search) : Prop where
  visited : ∀ w, st.visited w = true → st'.visited w = true
  processed : ∀ w, st.visited w = true → st.frontier w = false → st'.frontier w = false

variable {m source sink vals} {st st' st'' : Search} {rank : ℕ → ℕ} {bound vi i : ℕ}

theorem Extends.refl (st : Search) : Extends st st :=
  ⟨fun _ h => h, fun _ _ => rfl, fun w h h' => by rw [h] at h'; cases h'⟩

theorem Extends.trans (h : Extends st st') (h' : Extends st' st'') : Extends st st'' := by
  refine ⟨fun w hw => h'.visited w (h.visited w hw), fun w hw => ?_, fun w hw hw' => ?_⟩
  · rw [h'.frontier w (h.visited w hw), h.frontier w hw]
  · cases hmid : st'.visited w with
    | true => rw [h'.frontier w hmid, h.fresh w hw hmid]
    | false => exact h'.fresh w hmid hw'

theorem Grows.refl (st : Search) : Grows st st := ⟨fun _ h => h, fun _ _ h => h⟩

theorem Grows.trans (h : Grows st st') (h' : Grows st' st'') : Grows st st'' :=
  ⟨fun w hw => h'.visited w (h.visited w hw), fun w hw hf => h'.processed w (h.visited w hw) (h.processed w hw hf)⟩

/-- A new vertex becomes a leaf. -/
theorem visit_spec (hm : Symmetric m) (ht : Tree m source sink vals st rank bound) (hv : st.visited vi = true)
    (hi : i ∈ row m vi) : (∃ rank' bound', Tree m source sink vals (visit m sink vals vi st i) rank' bound') ∧
      Extends st (visit m sink vals vi st i) ∧
      (0 < vals i → (visit m sink vals vi st i).visited (m.inds.get i) = true) := by
  have hlt := ht.lt vi hv
  unfold visit
  split
  next hle => exact ⟨⟨rank, bound, ht⟩, .refl st, fun h => absurd h hle.not_gt⟩
  next hpos =>
    split
    next hvisited => exact ⟨⟨rank, bound, ht⟩, .refl st, fun _ => hvisited⟩
    next hnew =>
      have hne : ∀ w, st.visited w = true → w ≠ m.inds.get i := fun w hw he => hnew (he ▸ hw)
      have hcases : ∀ w, Function.update st.visited (m.inds.get i) true w = true →
          w = m.inds.get i ∨ w ≠ m.inds.get i ∧ st.visited w = true := by
        intro w hw
        by_cases he : w = m.inds.get i
        · exact .inl he
        · rw [Function.update_of_ne he] at hw
          exact .inr ⟨he, hw⟩
      refine ⟨⟨Function.update rank (m.inds.get i) bound, bound + 1, ?_⟩, ⟨fun w hw => ?_, fun w hw => ?_, fun w hw hw' => ?_⟩,
        fun _ => Function.update_self ..⟩
      · constructor
        · show Function.update st.visited _ _ source = true
          rw [Function.update_of_ne (hne _ ht.origin)]
          exact ht.origin
        · show Function.update st.parents _ _ source = -1
          rw [Function.update_of_ne (hne _ ht.origin)]
          exact ht.root
        · intro w hw
          rcases hcases w hw with rfl | ⟨-, hw⟩
          · exact hm.lt vi hlt i hi
          · exact ht.lt w hw
        · intro w hw
          rcases hcases w hw with rfl | ⟨he, hw⟩
          · rw [Function.update_self]
            exact Nat.lt_succ_self _
          · rw [Function.update_of_ne he]
            exact Nat.lt_succ_of_lt (ht.rank_lt w hw)
        · intro w hw
          show 0 < Function.update st.potentialFlows _ _ w
          rcases hcases w hw with rfl | ⟨he, hw⟩
          · rw [Function.update_self]
            split
            · exact not_le.mp hpos
            · exact ht.pos vi hv
          · rw [Function.update_of_ne he]
            exact ht.pos w hw
        · intro w hw hsource
          rcases hcases w hw with rfl | ⟨he, hw⟩
          · refine ⟨vi, i, Function.update_self .., ?_, ?_, (query_eq_some hm).mpr ⟨hlt, hi, rfl⟩, ?_, ?_⟩
            · show Function.update st.visited _ _ vi = true
              rw [Function.update_of_ne (hne _ hv)]
              exact hv
            · rw [Function.update_self, Function.update_of_ne (hne _ hv)]
              exact ht.rank_lt vi hv
            · show Function.update st.potentialFlows _ _ _ ≤ _
              rw [Function.update_self]
              split <;> omega
            · show Function.update st.potentialFlows _ _ _ ≤ Function.update st.potentialFlows _ _ _
              rw [Function.update_self, Function.update_of_ne (hne _ hv)]
              split <;> omega
          · obtain ⟨u, j, hparent, hu, hrank, hq, hle, hle'⟩ := ht.parent w hw hsource
            refine ⟨u, j, ?_, ?_, ?_, hq, ?_, ?_⟩
            · show Function.update st.parents _ _ w = _
              rw [Function.update_of_ne he]
              exact hparent
            · show Function.update st.visited _ _ u = true
              rw [Function.update_of_ne (hne _ hu)]
              exact hu
            · rw [Function.update_of_ne he, Function.update_of_ne (hne _ hu)]
              exact hrank
            · show Function.update st.potentialFlows _ _ w ≤ _
              rw [Function.update_of_ne he]
              exact hle
            · show Function.update st.potentialFlows _ _ w ≤ Function.update st.potentialFlows _ _ u
              rw [Function.update_of_ne he, Function.update_of_ne (hne _ hu)]
              exact hle'
        · intro w hw
          have he : w ≠ m.inds.get i := by
            rintro rfl
            have hself : Function.update st.visited (m.inds.get i) true (m.inds.get i) = false := hw
            rw [Function.update_self] at hself
            cases hself
          have hw' : Function.update st.visited (m.inds.get i) true w = false := hw
          rw [Function.update_of_ne he] at hw'
          show Function.update st.potentialFlows _ _ w = 0
          rw [Function.update_of_ne he]
          exact ht.unvisited w hw'
        · intro w hw
          show Function.update st.visited _ _ w = true
          by_cases he : w = m.inds.get i
          · rw [he, Function.update_self]
          · have hw' : Function.update st.frontier (m.inds.get i) true w = true := hw
            rw [Function.update_of_ne he] at hw'
            rw [Function.update_of_ne he]
            exact ht.frontier w hw'
        · show (st.isSinkFound || m.inds.get i == sink) = Function.update st.visited _ _ sink
          by_cases he : m.inds.get i = sink
          · rw [he, Function.update_self, beq_self_eq_true, Bool.or_true]
          · rw [Function.update_of_ne (Ne.symm he), beq_eq_false_iff_ne.mpr he, Bool.or_false]
            exact ht.found
      · show Function.update st.visited _ _ w = true
        rw [Function.update_of_ne (hne w hw)]
        exact hw
      · show Function.update st.frontier _ _ w = _
        rw [Function.update_of_ne (hne w hw)]
      · rcases hcases w hw' with rfl | ⟨-, hw'⟩
        · exact Function.update_self ..
        · rw [hw] at hw'
          cases hw'

theorem foldl_visit_spec (hm : Symmetric m) {l : List ℕ} (hl : ∀ i ∈ l, i ∈ row m vi)
    (ht : ∃ rank bound, Tree m source sink vals st rank bound) (hv : st.visited vi = true) :
    (∃ rank bound, Tree m source sink vals (l.foldl (visit m sink vals vi) st) rank bound) ∧
      Extends st (l.foldl (visit m sink vals vi) st) ∧
      ∀ i ∈ l, 0 < vals i → (l.foldl (visit m sink vals vi) st).visited (m.inds.get i) = true := by
  induction l generalizing st with
  | nil => exact ⟨ht, .refl st, fun i hi => (by cases hi)⟩
  | cons i l ih =>
    obtain ⟨rank, bound, ht⟩ := ht
    obtain ⟨h1, h2, h3⟩ := visit_spec hm ht hv (hl i (List.mem_cons_self ..))
    obtain ⟨k1, k2, k3⟩ := ih (fun j hj => hl j (List.mem_cons_of_mem _ hj)) h1 (h2.visited vi hv)
    refine ⟨k1, h2.trans k2, fun j hj hpos => ?_⟩
    rcases List.mem_cons.mp hj with rfl | hj
    · exact k2.visited _ (h3 hpos)
    · exact k3 j hj hpos

/-- After its turn a visited vertex is done with. -/
theorem bfs_spec (hm : Symmetric m) (ht : ∃ rank bound, Tree m source sink vals st rank bound) (hc : Closed m vals st)
    (vi : ℕ) : (∃ rank bound, Tree m source sink vals (bfsAugmentedPath m sink vals st vi) rank bound) ∧
      Closed m vals (bfsAugmentedPath m sink vals st vi) ∧ Grows st (bfsAugmentedPath m sink vals st vi) ∧
      (st.visited vi = true → (bfsAugmentedPath m sink vals st vi).frontier vi = false) := by
  unfold bfsAugmentedPath
  split
  next hf =>
    obtain ⟨rank, bound, ht⟩ := ht
    have hv := ht.frontier vi hf
    have ht' : Tree m source sink vals {st with frontier := Function.update st.frontier vi false} rank bound := by
      refine ⟨ht.origin, ht.root, ht.lt, ht.rank_lt, ht.pos, ht.parent, ht.unvisited, fun w hw => ?_, ht.found⟩
      by_cases he : w = vi
      · exact he ▸ hv
      · have hw' : Function.update st.frontier vi false w = true := hw
        rw [Function.update_of_ne he] at hw'
        exact ht.frontier w hw'
    obtain ⟨h1, h2, h3⟩ := foldl_visit_spec hm (fun i hi => hi) ⟨rank, bound, ht'⟩ hv
    have hdone := (h2.frontier vi hv).trans (Function.update_self ..)
    refine ⟨h1, fun w hw hfw j hj hpos => ?_, ⟨h2.visited, fun w hw hfw => ?_⟩, fun _ => hdone⟩
    · by_cases he : w = vi
      · subst he
        exact h3 j hj hpos
      · cases hold : st.visited w with
        | true =>
          rw [h2.frontier w hold] at hfw
          have hfw' : Function.update st.frontier vi false w = false := hfw
          rw [Function.update_of_ne he] at hfw'
          exact h2.visited _ (hc w hold hfw' j hj hpos)
        | false =>
          rw [h2.fresh w hold hw] at hfw
          cases hfw
    · rw [h2.frontier w hw]
      show Function.update st.frontier vi false w = false
      by_cases he : w = vi
      · rw [he, Function.update_self]
      · rw [Function.update_of_ne he]
        exact hfw
  next hf => exact ⟨ht, hc, .refl st, fun _ => by simpa using hf⟩

theorem foldl_bfs_spec (hm : Symmetric m) (l : List ℕ) (ht : ∃ rank bound, Tree m source sink vals st rank bound)
    (hc : Closed m vals st) :
    (∃ rank bound, Tree m source sink vals (l.foldl (bfsAugmentedPath m sink vals) st) rank bound) ∧
      Closed m vals (l.foldl (bfsAugmentedPath m sink vals) st) ∧
      Grows st (l.foldl (bfsAugmentedPath m sink vals) st) ∧
      ∀ w ∈ l, st.visited w = true → (l.foldl (bfsAugmentedPath m sink vals) st).frontier w = false := by
  induction l generalizing st with
  | nil => exact ⟨ht, hc, .refl st, fun w hw => (by cases hw)⟩
  | cons v l ih =>
    obtain ⟨h1, h2, h3, h4⟩ := bfs_spec hm ht hc v
    obtain ⟨k1, k2, k3, k4⟩ := ih h1 h2
    refine ⟨k1, k2, h3.trans k3, fun w hw hv => ?_⟩
    rcases List.mem_cons.mp hw with rfl | hw
    · exact k3.processed w (h3.visited w hv) (h4 hv)
    · exact k4 w hw (h3.visited w hv)

def unprocessed (m : SparseMatrix V) (st : Search) : ℕ :=
  ((Finset.range (outerSize m)).filter fun w => ¬ (st.visited w = true ∧ st.frontier w = false)).card

theorem tree_unflagged (ht : ∃ rank bound, Tree m source sink vals st rank bound) (hs : st.visited sink = false) :
    ∃ rank bound, Tree m source sink vals {st with isSinkFound := false} rank bound := by
  obtain ⟨rank, bound, ht⟩ := ht
  exact ⟨rank, bound, ht.origin, ht.root, ht.lt, ht.rank_lt, ht.pos, ht.parent, ht.unvisited, ht.frontier, hs.symm⟩

/-- A sweep with a frontier gets done with more vertices. -/
theorem unprocessed_lt (ht : ∃ rank bound, Tree m source sink vals st rank bound) (hg : Grows st st')
    (hdone : ∀ w < outerSize m, st.visited w = true → st'.frontier w = false) {v : ℕ} (hv : v < outerSize m)
    (hf : st.frontier v = true) : unprocessed m st' < unprocessed m st := by
  obtain ⟨rank, bound, ht⟩ := ht
  refine Finset.card_lt_card ((Finset.ssubset_iff_of_subset fun w hw => ?_).mpr ⟨v, ?_, ?_⟩)
  · obtain ⟨hlt, hw⟩ := Finset.mem_filter.mp hw
    refine Finset.mem_filter.mpr ⟨hlt, fun h => hw ⟨hg.visited w h.1, hg.processed w h.1 h.2⟩⟩
  · refine Finset.mem_filter.mpr ⟨Finset.mem_range.mpr hv, fun h => ?_⟩
    rw [hf] at h
    cases h.2
  · intro hw
    have hvisited := ht.frontier v hf
    exact (Finset.mem_filter.mp hw).2 ⟨hg.visited v hvisited, hdone v hv hvisited⟩

/-- A search comes to an end: with the sink in the tree, or with everything in the tree that can be reached. -/
theorem search_spec (hm : Symmetric m) (k : ℕ) (st : Search) (ht : ∃ rank bound, Tree m source sink vals st rank bound)
    (hc : Closed m vals st) (hs : st.visited sink = false) (hk : unprocessed m st ≤ k) :
    ∃ F st', (∀ fuel, F ≤ fuel → search m sink vals fuel st = some st') ∧
      (∃ rank bound, Tree m source sink vals st' rank bound) ∧
      (st'.visited sink = true ∨ st'.visited sink = false ∧
        ∀ w, st'.visited w = true → ∀ j ∈ row m w, 0 < vals j → st'.visited (m.inds.get j) = true) := by
  induction k generalizing st with
  | zero =>
    refine ⟨1, st, fun fuel hfuel => ?_, ht, .inr ⟨hs, fun w hw => ?_⟩⟩
    all_goals
      have hnone : ∀ v < outerSize m, st.frontier v = false := by
        intro v hv
        by_contra hf
        refine absurd (Nat.le_zero.mp hk) (Finset.card_pos.mpr ⟨v, ?_⟩).ne'
        exact Finset.mem_filter.mpr ⟨Finset.mem_range.mpr hv, fun h => hf h.2⟩
    · obtain ⟨fuel, rfl⟩ := Nat.exists_eq_succ_of_ne_zero (Nat.ne_of_gt hfuel)
      rw [search, if_pos]
      exact List.all_eq_true.mpr fun v hv => by rw [hnone v (List.mem_range.mp hv)]; rfl
    · obtain ⟨rank, bound, ht⟩ := ht
      exact hc w hw (hnone w (ht.lt w hw))
  | succ k ih =>
    by_cases hall : (List.range (outerSize m)).all fun v => !st.frontier v
    · refine ⟨1, st, fun fuel hfuel => ?_, ht, .inr ⟨hs, fun w hw => ?_⟩⟩
      · obtain ⟨fuel, rfl⟩ := Nat.exists_eq_succ_of_ne_zero (Nat.ne_of_gt hfuel)
        rw [search, if_pos hall]
      · obtain ⟨rank, bound, ht⟩ := ht
        have hf := List.all_eq_true.mp hall w (List.mem_range.mpr (ht.lt w hw))
        exact hc w hw (by simpa using hf)
    · obtain ⟨v, hv, hf⟩ : ∃ v < outerSize m, st.frontier v = true := by
        simpa using hall
      obtain ⟨h1, h2, h3, h4⟩ := foldl_bfs_spec hm (List.range (outerSize m)) (tree_unflagged ht hs) hc
      obtain ⟨rank, bound, ht'⟩ := h1
      have hfound := ht'.found
      by_cases hflag : (sweep m sink vals st).isSinkFound
      · refine ⟨1, sweep m sink vals st, fun fuel hfuel => ?_, ⟨rank, bound, ht'⟩, .inl (hfound.symm.trans hflag)⟩
        obtain ⟨fuel, rfl⟩ := Nat.exists_eq_succ_of_ne_zero (Nat.ne_of_gt hfuel)
        rw [search, if_neg hall, if_pos hflag]
      · have hlt : unprocessed m (sweep m sink vals st) < unprocessed m st :=
          unprocessed_lt ht (⟨h3.visited, h3.processed⟩ : Grows st (sweep m sink vals st))
            (fun w hw => h4 w (List.mem_range.mpr hw)) hv hf
        have hs' : (sweep m sink vals st).visited sink = false :=
          hfound.symm.trans (Bool.eq_false_iff.mpr hflag)
        obtain ⟨F, st', hrun, hend⟩ := ih (sweep m sink vals st) ⟨rank, bound, ht'⟩ h2 hs' (by omega)
        refine ⟨F + 1, st', fun fuel hfuel => ?_, hend⟩
        obtain ⟨fuel, rfl⟩ := Nat.exists_eq_succ_of_ne_zero (Nat.ne_of_gt (Nat.zero_lt_of_lt hfuel))
        rw [search, if_neg hall, if_neg hflag]
        exact hrun fuel (Nat.le_of_succ_le_succ hfuel)

theorem tree_start {max : ℤ} (hmax : 0 < max) (hsource : source < outerSize m) (hne : source ≠ sink) (parents : ℕ → ℤ) :
    Tree m source sink vals (start source max parents) (fun _ => 0) 1 := by
  have hself : ∀ w, (start source max parents).visited w = true → w = source := fun w hw => of_decide_eq_true hw
  refine ⟨beq_self_eq_true _, Function.update_self .., fun w hw => (hself w hw).symm ▸ hsource, fun _ _ => Nat.one_pos,
    fun w hw => ?_, fun w hw hns => absurd (hself w hw) hns, fun w hw => ?_, fun w hw => hw, ?_⟩
  · obtain rfl := hself w hw
    show 0 < Function.update (fun _ => (0 : ℤ)) w max w
    rwa [Function.update_self]
  · have hns : w ≠ source := fun he => by
      subst he
      exact absurd hw (by simp [start])
    show Function.update (fun _ => (0 : ℤ)) source max w = 0
    rw [Function.update_of_ne hns]
  · exact (beq_eq_false_iff_ne.mpr hne.symm).symm

theorem closed_start {max : ℤ} (parents : ℕ → ℤ) : Closed m vals (start source max parents) := by
  intro w hw hf
  have heq : (start source max parents).frontier w = (start source max parents).visited w := rfl
  rw [heq, hw] at hf
  cases hf

end Search

section Augment
variable {V : Type*} {m : SparseMatrix V} {source sink p v e r : ℕ} {vals vals₀ vals₁ : ℕ → ℤ} {st : Search}
  {rank : ℕ → ℕ} {bound : ℕ} {δ : ℤ}

/-- The net flow is what has gone from the capacities. -/
def flow (m : SparseMatrix V) (vals₀ vals : ℕ → ℤ) (u v : ℕ) : ℤ := residual m vals₀ u v - residual m vals u v

/-- No residual capacity is negative, what one direction has lost the other has gained, and each vertex has its balance. -/
structure Balanced (m : SparseMatrix V) (vals₀ vals : ℕ → ℤ) (balance : ℕ → ℤ) : Prop where
  nonneg : ∀ u v, 0 ≤ residual m vals u v
  sum : ∀ u v, residual m vals u v + residual m vals v u = residual m vals₀ u v + residual m vals₀ v u
  net : ∀ w < outerSize m, net (Finset.range (outerSize m)) (flow m vals₀ vals) w = balance w

/-- A flow over one entry, and back over the reverse. -/
def push (vals : ℕ → ℤ) (δ : ℤ) (edge reverse : ℕ) : ℕ → ℤ :=
  Function.update (Function.update vals edge (vals edge - δ)) reverse (Function.update vals edge (vals edge - δ) reverse + δ)

theorem residual_push (hm : Symmetric m) (hpv : p ≠ v) (he : query m p v = some e) (hr : query m v p = some r) (a b : ℕ) :
    residual m (push vals δ e r) a b =
      residual m vals a b - (if a = p ∧ b = v then δ else 0) + (if a = v ∧ b = p then δ else 0) := by
  have hre : r ≠ e := fun h => hpv (query_inj hm he (h ▸ hr)).1
  rw [push, residual_update hm hr, residual_update hm he, Function.update_of_ne hre]
  by_cases h1 : a = v ∧ b = p
  · rw [if_pos h1, if_pos h1, if_neg (fun h => hpv (h.1.symm.trans h1.1)), h1.1, h1.2, residual_of_query hr, Int.sub_zero]
  · rw [if_neg h1, if_neg h1, Int.add_zero]
    by_cases h2 : a = p ∧ b = v
    · rw [if_pos h2, if_pos h2, h2.1, h2.2, residual_of_query he]
    · rw [if_neg h2, if_neg h2, Int.sub_zero]

/-- A push takes from one balance and gives to the other. -/
theorem Balanced.push (hm : Symmetric m) (hpv : p ≠ v) (he : query m p v = some e) (hr : query m v p = some r)
    {balance : ℕ → ℤ} (h : Balanced m vals₀ vals balance) (hδ : 0 ≤ δ) (hle : δ ≤ vals e) :
    Balanced m vals₀ (push vals δ e r)
      fun w => balance w + (if w = p then δ else 0) - (if w = v then δ else 0) := by
  have hp : p < outerSize m := ((query_eq_some hm).mp he).1
  have hv : v < outerSize m := ((query_eq_some hm).mp hr).1
  refine ⟨fun a b => ?_, fun a b => ?_, fun w hw => ?_⟩
  · rw [residual_push hm hpv he hr]
    have hab := h.nonneg a b
    by_cases h2 : a = p ∧ b = v
    · rw [if_pos h2, h2.1, h2.2, residual_of_query he]
      split <;> omega
    · rw [if_neg h2]
      split <;> omega
  · rw [residual_push hm hpv he hr, residual_push hm hpv he hr]
    have hab := h.sum a b
    by_cases h1 : a = p ∧ b = v
    · have h2 : ¬ (a = v ∧ b = p) := fun h => hpv (h1.1.symm.trans h.1)
      have h3 : b = v ∧ a = p := ⟨h1.2, h1.1⟩
      have h4 : ¬ (b = p ∧ a = v) := fun h => hpv (h1.1.symm.trans h.2)
      rw [if_pos h1, if_neg h2, if_pos h3, if_neg h4]
      omega
    · by_cases h2 : a = v ∧ b = p
      · have h3 : ¬ (b = v ∧ a = p) := fun h => h1 ⟨h.2, h.1⟩
        have h4 : b = p ∧ a = v := ⟨h2.2, h2.1⟩
        rw [if_neg h1, if_pos h2, if_neg h3, if_pos h4]
        omega
      · have h3 : ¬ (b = v ∧ a = p) := fun h => h1 ⟨h.2, h.1⟩
        have h4 : ¬ (b = p ∧ a = v) := fun h => h2 ⟨h.2, h.1⟩
        rw [if_neg h1, if_neg h2, if_neg h3, if_neg h4]
        omega
  · rw [← h.net w hw]
    have hflow : ∀ u, flow m vals₀ (MaximumFlow.push vals δ e r) w u =
        flow m vals₀ vals w u + (if w = p then if u = v then δ else 0 else 0) -
          (if w = v then if u = p then δ else 0 else 0) := by
      intro u
      rw [flow, flow, residual_push hm hpv he hr, ite_and, ite_and]
      ring
    simp only [MaxFlowMinCut.net, hflow, Finset.sum_sub_distrib, Finset.sum_add_distrib]
    have hsum : ∀ (x : ℕ), x < outerSize m → ∀ y : ℕ,
        ∑ u ∈ Finset.range (outerSize m), (if w = y then if u = x then δ else 0 else 0) = if w = y then δ else 0 := by
      intro x hx y
      split
      · rw [Finset.sum_ite_eq' (Finset.range (outerSize m)) x, if_pos (Finset.mem_range.mpr hx)]
      · exact Finset.sum_const_zero
    rw [hsum v hv p, hsum p hp v]

/-- Along the tree the flow is pushed to the source; on the way the surplus is at the vertex that the loop has come to. -/
theorem augment_spec (hm : Symmetric m) (ht : Tree m source sink vals₁ st rank bound) (hδ : 0 ≤ δ) {base : ℕ → ℤ} (k : ℕ)
    (vi : ℕ) (vals : ℕ → ℤ) (hk : rank vi ≤ k) (hv : st.visited vi = true) (hle : δ ≤ st.potentialFlows vi)
    (hkeep : ∀ u w j, st.visited w = true → rank w ≤ rank vi → query m u w = some j → rank u < rank w → vals₁ j ≤ vals j)
    (hb : Balanced m vals₀ vals fun w => base w + if w = vi then δ else 0) :
    ∃ F vals', (∀ fuel, F ≤ fuel → augment m st.parents δ fuel vi vals = some vals') ∧
      Balanced m vals₀ vals' fun w => base w + if w = source then δ else 0 := by
  induction k using Nat.strong_induction_on generalizing vi vals with
  | h k ih =>
    by_cases hvs : vi = source
    · subst hvs
      refine ⟨1, vals, fun fuel hfuel => ?_, hb⟩
      obtain ⟨fuel, rfl⟩ := Nat.exists_eq_succ_of_ne_zero (Nat.ne_of_gt hfuel)
      rw [augment, if_pos]
      rw [ht.root]
      decide
    · obtain ⟨u, e, hparent, hu, hrank, he, hpot, hpot'⟩ := ht.parent vi hv hvs
      obtain ⟨r, hr⟩ := query_symm hm he
      have huv : u ≠ vi := fun h => absurd hrank (by rw [h]; exact Nat.lt_irrefl _)
      have hroom : δ ≤ vals e := (hle.trans hpot).trans (hkeep u vi e hv le_rfl he hrank)
      have hb' := hb.push hm huv he hr hδ hroom
      have hbalance : (fun w => base w + (if w = vi then δ else 0) + (if w = u then δ else 0) - (if w = vi then δ else 0)) =
          fun w => base w + if w = u then δ else 0 := by
        funext w
        ring
      rw [hbalance] at hb'
      have hkeep' : ∀ a w j, st.visited w = true → rank w ≤ rank u → query m a w = some j → rank a < rank w →
          vals₁ j ≤ push vals δ e r j := by
        intro a w j hw hwu hj haw
        have hold := hkeep a w j hw (hwu.trans hrank.le) hj haw
        have hje : j ≠ e := fun h => absurd (query_inj hm hj (h ▸ he)).2 fun h => by
          subst h
          omega
        unfold push
        by_cases hjr : j = r
        · rw [hjr, Function.update_self, ← hjr, Function.update_of_ne hje]
          omega
        · rw [Function.update_of_ne hjr, Function.update_of_ne hje]
          exact hold
      obtain ⟨F, vals', hrun, hend⟩ := ih (rank u) (hrank.trans_le hk) u (push vals δ e r) le_rfl hu (hle.trans hpot')
        hkeep' hb'
      refine ⟨F + 1, vals', fun fuel hfuel => ?_, hend⟩
      obtain ⟨fuel, rfl⟩ := Nat.exists_eq_succ_of_ne_zero (Nat.ne_of_gt (Nat.zero_lt_of_lt hfuel))
      have hnonneg : ¬ st.parents vi < 0 := by
        rw [hparent]
        omega
      have htoNat : (st.parents vi).toNat = u := by
        rw [hparent]
        rfl
      rw [augment, if_neg hnonneg, htoNat]
      dsimp only
      rw [he, Option.bind_some, hr, Option.bind_some]
      exact hrun fuel (Nat.le_of_succ_le_succ hfuel)

end Augment

section Result
variable {V : Type*} {m : SparseMatrix V} {source sink : ℕ} {vals vals₀ : ℕ → ℤ}

def balanceOf (source sink : ℕ) (res : ℤ) (w : ℕ) : ℤ := if w = source then res else if w = sink then -res else 0

/-- When no vertex outside of a cut can be reached from inside, the flow is a maximum flow. -/
theorem optimum_of_closed (hm : Symmetric m) {res : ℤ} (hsource : source < outerSize m)
    (hb : Balanced m vals₀ vals (balanceOf source sink res)) {visited : ℕ → Bool} (hin : visited source = true)
    (hout : visited sink = false)
    (hclosed : ∀ w, visited w = true → ∀ j ∈ row m w, 0 < vals j → visited (m.inds.get j) = true) :
    IsFlow (Finset.range (outerSize m)) (residual m vals₀) source sink (flow m vals₀ vals) ∧
      net (Finset.range (outerSize m)) (flow m vals₀ vals) source = res ∧
      IsOptimum (Finset.range (outerSize m)) (residual m vals₀) source sink res := by
  have hflow : IsFlow (Finset.range (outerSize m)) (residual m vals₀) source sink (flow m vals₀ vals) := by
    refine ⟨fun u v => ?_, fun u _ v _ => ?_, fun v hv hvs hvt => ?_⟩
    · have := hb.sum u v
      unfold flow
      omega
    · have := hb.nonneg u v
      unfold flow
      omega
    · rw [hb.net v (Finset.mem_range.mp hv), balanceOf, if_neg hvs, if_neg hvt]
  have hvalue : net (Finset.range (outerSize m)) (flow m vals₀ vals) source = res := by
    rw [hb.net source hsource, balanceOf, if_pos rfl]
  refine ⟨hflow, hvalue, hvalue ▸ hflow.optimum (S := (Finset.range (outerSize m)).filter fun w => visited w = true) ?_ ?_⟩
  · refine ⟨Finset.filter_subset _ _, Finset.mem_filter.mpr ⟨Finset.mem_range.mpr hsource, hin⟩, fun h => ?_⟩
    rw [(Finset.mem_filter.mp h).2] at hout
    cases hout
  · intro u hu v hv
    have huv : residual m vals u v = 0 := by
      obtain ⟨hvn, hvS⟩ := Finset.mem_sdiff.mp hv
      cases hq : query m u v with
      | none =>
        rw [residual, hq]
        rfl
      | some j =>
        rw [residual_of_query hq]
        obtain ⟨-, hj, rfl⟩ := (query_eq_some hm).mp hq
        have hnot : ¬ 0 < vals j := fun hpos =>
          hvS (Finset.mem_filter.mpr ⟨hvn, hclosed u (Finset.mem_filter.mp hu).2 j hj hpos⟩)
        have hge := hb.nonneg u (m.inds.get j)
        rw [residual_of_query hq] at hge
        omega
    rw [flow, huv, Int.sub_zero]

/-- No flow has more value than leaves the source. -/
theorem res_le (hsource : source < outerSize m) {res : ℤ} (hb : Balanced m vals₀ vals (balanceOf source sink res)) :
    res ≤ ∑ u ∈ Finset.range (outerSize m), residual m vals₀ source u := by
  have hnet := hb.net source hsource
  rw [balanceOf, if_pos rfl] at hnet
  rw [← hnet]
  refine Finset.sum_le_sum fun u _ => ?_
  have := hb.nonneg source u
  unfold flow
  omega

/-- The loop of `maximum_flow`: each turn adds to a value that is bounded, and the last leaves a flow that fills a cut. -/
theorem maximumFlow_spec (hm : Symmetric m) (hsource : source < outerSize m) (hne : source ≠ sink) {max : ℤ} (hmax : 0 < max) (k : ℕ) (parents : ℕ → ℤ) (vals : ℕ → ℤ) (res : ℤ)
    (hb : Balanced m vals₀ vals (balanceOf source sink res))
    (hk : (∑ u ∈ Finset.range (outerSize m), residual m vals₀ source u - res).toNat ≤ k) :
    ∃ F vals' res', (∀ fuel, F ≤ fuel → maximumFlow m source sink max fuel parents vals res = some (vals', res')) ∧
      Balanced m vals₀ vals' (balanceOf source sink res') ∧
      IsFlow (Finset.range (outerSize m)) (residual m vals₀) source sink (flow m vals₀ vals') ∧
      net (Finset.range (outerSize m)) (flow m vals₀ vals') source = res' ∧
      IsOptimum (Finset.range (outerSize m)) (residual m vals₀) source sink res' := by
  induction k using Nat.strong_induction_on generalizing parents vals res with
  | h k ih =>
    have hstart : Tree m source sink vals (start source max parents) (fun _ => 0) 1 := tree_start hmax hsource hne parents
    have hns : (start source max parents).visited sink = false := beq_eq_false_iff_ne.mpr hne.symm
    obtain ⟨F₁, st, hsearch, ⟨rank, bound, ht⟩, hend⟩ := search_spec hm _ _ ⟨_, _, hstart⟩
      (closed_start parents) hns le_rfl
    rcases hend with hvisited | ⟨hnot, hclosed⟩
    · have hpos := ht.pos sink hvisited
      -- the surplus is at first at the sink
      have hbase : Balanced m vals₀ vals fun w =>
          (if w = source then res else if w = sink then -(res + st.potentialFlows sink) else 0) +
            if w = sink then st.potentialFlows sink else 0 := by
        have heq : (fun w => (if w = source then res else if w = sink then -(res + st.potentialFlows sink) else 0) +
            if w = sink then st.potentialFlows sink else 0) = balanceOf source sink res := by
          funext w
          unfold balanceOf
          by_cases h1 : w = source
          · rw [if_pos h1, if_pos h1, if_neg (fun h => hne (h1.symm.trans h)), Int.add_zero]
          · rw [if_neg h1, if_neg h1]
            split <;> omega
        rw [heq]
        exact hb
      obtain ⟨F₂, vals', haugment, hb'⟩ := augment_spec hm ht hpos.le _ sink vals le_rfl hvisited le_rfl
        (fun _ _ _ _ _ _ _ => le_rfl) hbase
      have heq : (fun w => (if w = source then res else if w = sink then -(res + st.potentialFlows sink) else 0) +
          if w = source then st.potentialFlows sink else 0) = balanceOf source sink (res + st.potentialFlows sink) := by
        funext w
        unfold balanceOf
        by_cases h1 : w = source
        · rw [if_pos h1, if_pos h1, if_pos h1]
        · rw [if_neg h1, if_neg h1, if_neg h1, Int.add_zero]
      rw [heq] at hb'
      have hle := res_le hsource hb'
      obtain ⟨F₃, vals'', res', hrest, hresult⟩ := ih _ (by omega) st.parents vals' _ hb' le_rfl
      refine ⟨F₁ + F₂ + F₃ + 1, vals'', res', fun fuel hfuel => ?_, hresult⟩
      obtain ⟨fuel, rfl⟩ := Nat.exists_eq_succ_of_ne_zero (Nat.ne_of_gt (Nat.zero_lt_of_lt hfuel))
      rw [maximumFlow, hsearch fuel (by omega), Option.bind_some, if_pos hpos, haugment fuel (by omega), Option.bind_some]
      exact hrest fuel (by omega)
    · refine ⟨F₁ + 1, vals, res, fun fuel hfuel => ?_, hb, optimum_of_closed hm hsource hb ht.origin hnot hclosed⟩
      obtain ⟨fuel, rfl⟩ := Nat.exists_eq_succ_of_ne_zero (Nat.ne_of_gt (Nat.zero_lt_of_lt hfuel))
      rw [maximumFlow, hsearch fuel (by omega), Option.bind_some, if_neg]
      rw [ht.unvisited sink hnot]
      exact Int.lt_irrefl 0

/-- Before anything has gone over the entries. -/
theorem balanced_start (hm : Symmetric m) (hnonneg : ∀ v < outerSize m, ∀ j ∈ row m v, 0 ≤ vals j) :
    Balanced m vals vals (balanceOf source sink 0) := by
  refine ⟨fun u v => ?_, fun _ _ => rfl, fun w _ => ?_⟩
  · cases hq : query m u v with
    | none =>
      rw [residual, hq]
      exact le_rfl
    | some j =>
      rw [residual_of_query hq]
      obtain ⟨hu, hj, -⟩ := (query_eq_some hm).mp hq
      exact hnonneg u hu j hj
  · have hzero : ∀ u, flow m vals vals w u = 0 := fun u => Int.sub_self _
    rw [net, Finset.sum_eq_zero fun u _ => hzero u, balanceOf, Int.neg_zero, ite_self, ite_self]

/-- `maximum_flow` comes to an end. Its value is that of a maximum flow and of a minimum cut, and the matrix is left
with the residual capacities of such a flow. -/
theorem maximumFlow_optimum (m : SparseMatrix ℤ) (source sink : ℕ) (hm : Symmetric m)
    (hnonneg : ∀ v < outerSize m, ∀ j ∈ row m v, 0 ≤ m.vals.get j) (hsource : source < outerSize m)
    (hne : source ≠ sink) (max : ℤ) (hmax : 0 < max) (parents : ℕ → ℤ) :
    ∃ F vals res, (∀ fuel, F ≤ fuel →
        maximumFlow m source sink max fuel (Function.update parents source (-1)) m.vals.get 0 = some (vals, res)) ∧
      (∀ u v, 0 ≤ residual m vals u v) ∧
      (∀ u v, residual m vals u v = residual m m.vals.get u v - flow m m.vals.get vals u v) ∧
      IsFlow (Finset.range (outerSize m)) (residual m m.vals.get) source sink (flow m m.vals.get vals) ∧
      net (Finset.range (outerSize m)) (flow m m.vals.get vals) source = res ∧
      IsOptimum (Finset.range (outerSize m)) (residual m m.vals.get) source sink res := by
  obtain ⟨F, vals, res, hrun, hb, hflow, hvalue, hoptimum⟩ :=
    maximumFlow_spec hm hsource hne hmax _ (Function.update parents source (-1)) _ 0 (balanced_start hm hnonneg) le_rfl
  refine ⟨F, vals, res, hrun, hb.nonneg, fun u v => ?_, hflow, hvalue, hoptimum⟩
  unfold flow
  omega

/-- Two vertices with a capacity of three. -/
def pipe : SparseMatrix ℤ := ⟨true, 2, 2, ⟨3, id⟩, ⟨2, fun i => 1 - i⟩, ⟨2, fun i => if i = 0 then 3 else 0⟩⟩

theorem symmetric_pipe : Symmetric pipe := by
  refine ⟨fun v => Nat.le_succ v, ?_, ?_, ?_⟩ <;> decide

theorem maximumFlow_pipe : ∃ F vals res, (∀ fuel, F ≤ fuel → maximumFlow pipe 0 1 (2 ^ 31 - 1) fuel
      (Function.update (fun _ => 0) 0 (-1)) pipe.vals.get 0 = some (vals, res)) ∧
    (∀ u v, 0 ≤ residual pipe vals u v) ∧
    (∀ u v, residual pipe vals u v = residual pipe pipe.vals.get u v - flow pipe pipe.vals.get vals u v) ∧
    IsFlow (Finset.range 2) (residual pipe pipe.vals.get) 0 1 (flow pipe pipe.vals.get vals) ∧
    net (Finset.range 2) (flow pipe pipe.vals.get vals) 0 = res ∧
    IsOptimum (Finset.range 2) (residual pipe pipe.vals.get) 0 1 res :=
  maximumFlow_optimum pipe 0 1 symmetric_pipe (by decide) (by decide) (by decide) (2 ^ 31 - 1) (by decide) fun _ => 0

end Result

end Zpc.MaximumFlow
