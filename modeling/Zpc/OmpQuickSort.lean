import Zpc.ArraySlice
import Zpc.StableSort

/-!
# The quick sort of the execution policies

`quick_sort_impl` is the same in the sequential and in the OpenMP policy. It sorts a part
of the keys, with their values, by the `<` of the keys, here `lt` on entries; `compOp` is
handed on in the recursion and never called.
-/
namespace Zpc.OmpExecutionPolicy
open ArraySlice StableSort

variable {α : Type*}

section Definition
variable (lt : α → α → Bool)

/-- The loop over `[l, r)` and its final exchange, with the place of the pivot `keys[r]`. -/
def partitionLoop (l r : ℕ) (f : ℕ → α) : (ℕ → α) × ℕ :=
  (List.range' l (r - l)).foldl
    (fun s j => if lt (s.1 j) (s.1 r) then (swapAt s.1 s.2 j, s.2 + 1) else s) (f, l)

def partition (l r : ℕ) (f : ℕ → α) : (ℕ → α) × ℕ :=
  let s := partitionLoop lt l r f
  (swapAt s.1 s.2 r, s.2)

end Definition

section Partition
variable {lt : α → α → Bool} {l r j : ℕ} {f : ℕ → α}

/-- Before pass `j` of the loop: the entries less than the pivot, then the others. -/
structure Split (lt : α → α → Bool) (l r : ℕ) (f : ℕ → α) (j : ℕ) (s : (ℕ → α) × ℕ) : Prop where
  rearranged : Rearranged l r f s.1
  le_place : l ≤ s.2
  place_le : s.2 ≤ j
  smaller : ∀ k, l ≤ k → k < s.2 → lt (s.1 k) (f r) = true
  others : ∀ k, s.2 ≤ k → k < j → lt (s.1 k) (f r) = false

theorem Split.pivot {s : (ℕ → α) × ℕ} (h : Split lt l r f j s) : s.1 r = f r :=
  h.rearranged.frame fun hr => lt_irrefl r hr.2

theorem Split.pass {s : (ℕ → α) × ℕ} (h : Split lt l r f j s) (hj : j < r) :
    Split lt l r f (j+1) (if lt (s.1 j) (s.1 r) then (swapAt s.1 s.2 j, s.2 + 1) else s) := by
  have hlj := h.le_place.trans h.place_le
  have hplace := h.place_le
  rw [h.pivot]
  split
  next hless =>
    refine ⟨h.rearranged.trans (rearranged_swapAt ⟨h.le_place, by omega⟩ ⟨hlj, hj⟩), ?_, ?_, ?_, ?_⟩
    · exact h.le_place.trans (Nat.le_succ _)
    · exact Nat.succ_le_succ h.place_le
    · intro k hl hk
      dsimp only at hk ⊢
      rcases Nat.lt_or_eq_of_le (Nat.le_of_lt_succ hk) with hlt | rfl
      · rw [swapAt_of_ne (by omega) (by omega)]
        exact h.smaller k hl hlt
      · rw [swapAt_left]
        exact hless
    · intro k hk hkj
      dsimp only at hk ⊢
      rcases Nat.lt_or_eq_of_le (Nat.le_of_lt_succ hkj) with hlt | rfl
      · rw [swapAt_of_ne (by omega) (by omega)]
        exact h.others k (by omega) hlt
      · rw [swapAt_right]
        exact h.others _ le_rfl (by omega)
  next hless =>
    refine ⟨h.rearranged, h.le_place, h.place_le.trans (Nat.le_succ j), h.smaller, fun k hk hkj => ?_⟩
    rcases Nat.lt_or_eq_of_le (Nat.le_of_lt_succ hkj) with hlt | rfl
    · exact h.others k hk hlt
    · exact Bool.eq_false_of_not_eq_true hless

theorem split_partitionLoop (lt : α → α → Bool) (hlr : l ≤ r) (f : ℕ → α) :
    Split lt l r f r (partitionLoop lt l r f) := by
  have hloop : ∀ n, l + n ≤ r → Split lt l r f (l + n) ((List.range' l n).foldl
      (fun s j => if lt (s.1 j) (s.1 r) then (swapAt s.1 s.2 j, s.2 + 1) else s) (f, l)) := by
    intro n hn
    induction n with
    | zero =>
      refine ⟨Rearranged.refl l r f, le_rfl, le_rfl, fun k hl hk => ?_, fun k hl hk => ?_⟩
      · exact absurd hk (Nat.not_lt_of_le hl)
      · exact absurd hk (Nat.not_lt_of_le hl)
    | succ n ih =>
      rw [List.range'_concat, List.foldl_append, List.foldl_cons, List.foldl_nil, Nat.one_mul]
      exact (ih (by omega)).pass (by omega)
  have h := hloop (r - l) (by omega)
  rwa [Nat.add_sub_cancel' hlr] at h

/-- The pivot is in its place, the smaller entries before it. -/
structure Partitioned (lt : α → α → Bool) (l r : ℕ) (f g : ℕ → α) (pi : ℕ) : Prop where
  rearranged : Rearranged l (r+1) f g
  le_place : l ≤ pi
  place_le : pi ≤ r
  pivot : g pi = f r
  smaller : ∀ k, l ≤ k → k < pi → lt (g k) (f r) = true
  others : ∀ k, pi < k → k ≤ r → lt (g k) (f r) = false

theorem partition_spec (lt : α → α → Bool) (hlr : l ≤ r) (f : ℕ → α) :
    Partitioned lt l r f (partition lt l r f).1 (partition lt l r f).2 := by
  have h := split_partitionLoop lt hlr f
  have hle := h.le_place
  have hplace := h.place_le
  refine ⟨?_, hle, hplace, ?_, fun k hl hk => ?_, fun k hk hr => ?_⟩
  · refine (h.rearranged.mono fun k hl hr => ⟨hl, by omega⟩).trans ?_
    exact rearranged_swapAt ⟨hle, by omega⟩ ⟨hlr, r.lt_succ_self⟩
  · exact (swapAt_left _ _ _).trans h.pivot
  · change k < (partitionLoop lt l r f).2 at hk
    refine (congrArg (lt · (f r)) (swapAt_of_ne (by omega) (by omega))).trans ?_
    exact h.smaller k hl hk
  · change (partitionLoop lt l r f).2 < k at hk
    rcases Nat.lt_or_eq_of_le hr with hlt | rfl
    · refine (congrArg (lt · (f r)) (swapAt_of_ne (by omega) (by omega))).trans ?_
      exact h.others k (by omega) hlt
    · refine (congrArg (lt · (f k)) (swapAt_right _ _ _)).trans ?_
      exact h.others _ le_rfl hk

end Partition

/-- `quick_sort_impl` on the positions from `l` up to `r`. The source lets `pi - 1` be less than `l`,
also `-1`; here it is cut off at 0, and both make the first recursive call do nothing. -/
def quickSort (lt : α → α → Bool) (l r : ℕ) (f : ℕ → α) : ℕ → α :=
  if l < r then
    let s := partition lt l r f
    quickSort lt (s.2 + 1) r (quickSort lt l (s.2 - 1) s.1)
  else f
termination_by r - l
decreasing_by
  · have := (partition_spec lt (l := l) (r := r) (by omega) f).place_le
    omega
  · have := (partition_spec lt (l := l) (r := r) (by omega) f).le_place
    omega

section Sorting
variable {lt : α → α → Bool} {l r : ℕ} {f : ℕ → α}

theorem quickSort_of_lt (lt : α → α → Bool) (h : l < r) (f : ℕ → α) : quickSort lt l r f =
    quickSort lt ((partition lt l r f).2 + 1) r (quickSort lt l ((partition lt l r f).2 - 1) (partition lt l r f).1) := by
  rw [quickSort, if_pos h]

theorem quickSort_of_le (lt : α → α → Bool) (h : r ≤ l) (f : ℕ → α) : quickSort lt l r f = f := by
  rw [quickSort, if_neg (Nat.not_lt_of_le h)]

theorem rearranged_before {pi : ℕ} {g : ℕ → α} (h : Rearranged l (pi - 1 + 1) f g) (hnot : pi - 1 ≤ l → g = f) :
    Rearranged l pi f g := by
  rcases Nat.lt_or_ge l (pi - 1) with hlt | hge
  · exact h.mono fun k hl hk => ⟨hl, by omega⟩
  · rw [hnot hge]
    exact Rearranged.refl l pi f

theorem quickSort_rearranged (lt : α → α → Bool) (l r : ℕ) (f : ℕ → α) : Rearranged l (r+1) f (quickSort lt l r f) := by
  induction l, r, f using quickSort.induct lt with
  | case1 l r f hlt s _ ihl ihr =>
    have hpart := partition_spec lt hlt.le f
    have hle : l ≤ s.2 := hpart.le_place
    have hplace : s.2 ≤ r := hpart.place_le
    have hbefore : Rearranged l s.2 s.1 (quickSort lt l (s.2 - 1) s.1) :=
      rearranged_before ihl fun h => quickSort_of_le lt h _
    rw [quickSort_of_lt lt hlt]
    refine (hpart.rearranged.trans (hbefore.mono fun k hl hk => ⟨hl, ?_⟩)).trans (ihr.mono fun k hl hk => ⟨?_, hk⟩)
    · omega
    · omega
  | case2 l r f hge =>
    rw [quickSort_of_le lt (by omega)]
    exact Rearranged.refl l (r+1) f

theorem quickSort_before (lt : α → α → Bool) (hlr : l < r) (f : ℕ → α) {k : ℕ} (hk : k ≤ (partition lt l r f).2) :
    quickSort lt l r f k = quickSort lt l ((partition lt l r f).2 - 1) (partition lt l r f).1 k := by
  rw [quickSort_of_lt lt hlr]
  exact (quickSort_rearranged lt _ r _).frame (by omega)

/-- The last entry ends between the smaller ones and the others. -/
theorem quickSort_partitioned (lt : α → α → Bool) (hlr : l < r) (f : ℕ → α) :
    Partitioned lt l r f (quickSort lt l r f) (partition lt l r f).2 := by
  have hpart := partition_spec lt hlr.le f
  have hbefore : Rearranged l (partition lt l r f).2 (partition lt l r f).1 _ :=
    rearranged_before (quickSort_rearranged lt l _ _) fun h => quickSort_of_le lt h _
  have hafter := quickSort_rearranged lt ((partition lt l r f).2 + 1) r
    (quickSort lt l ((partition lt l r f).2 - 1) (partition lt l r f).1)
  rw [← quickSort_of_lt lt hlr] at hafter
  refine ⟨quickSort_rearranged lt l r f, hpart.le_place, hpart.place_le, ?_, fun k hl hk => ?_, fun k hk hr => ?_⟩
  · rw [hafter.frame (by omega), hbefore.frame (by omega)]
    exact hpart.pivot
  · obtain ⟨j, hl', hj, hfrom⟩ := hbefore.source hl hk
    rw [hafter.frame (by omega), hfrom]
    exact hpart.smaller j hl' hj
  · obtain ⟨j, hl', hj, hfrom⟩ := hafter.source (Nat.succ_le_of_lt hk) (Nat.lt_succ_of_le hr)
    rw [hfrom, hbefore.frame (by omega)]
    exact hpart.others j hl' (Nat.le_of_lt_succ hj)

theorem quickSort_sorted (h : StrictWeak lt) (l r : ℕ) (f : ℕ → α) :
    ∀ i j, l ≤ i → i < j → j ≤ r → lt (quickSort lt l r f j) (quickSort lt l r f i) = false := by
  induction l, r, f using quickSort.induct lt with
  | case1 l r f hlt s _ ihl ihr =>
    intro i j hl hij hr
    have hpart := quickSort_partitioned lt hlt f
    rcases Nat.lt_or_ge s.2 i with hi | hi
    · -- both behind the pivot
      rw [quickSort_of_lt lt hlt]
      exact ihr i j hi hij hr
    rcases Nat.lt_or_ge j s.2 with hj | hj
    · rw [quickSort_before lt hlt f hj.le, quickSort_before lt hlt f hi]
      exact ihl i j hl hij (Nat.le_sub_one_of_lt hj)
    -- the first is not behind the pivot, the second not before it
    have hfirst : lt (f r) (quickSort lt l r f i) = false := by
      rcases Nat.lt_or_eq_of_le hi with hi | rfl
      · exact h.asymm (hpart.smaller i hl hi)
      · rw [hpart.pivot]
        exact h.irrefl _
    have hsecond : lt (quickSort lt l r f j) (f r) = false := by
      rcases Nat.lt_or_eq_of_le hj with hj | rfl
      · exact hpart.others j hj hr
      · rw [hpart.pivot]
        exact h.irrefl _
    exact h.not_less hfirst hsecond
  | case2 l r f hge =>
    intro i j hl hij hr
    omega

/-- When no entry is less than the last one, that one goes to the front. -/
theorem quickSort_first (lt : α → α → Bool) (hlr : l < r) (f : ℕ → α) (hno : ∀ k, l ≤ k → k ≤ r → lt (f k) (f r) = false) :
    quickSort lt l r f l = f r := by
  have hpart := quickSort_partitioned lt hlr f
  rcases Nat.lt_or_eq_of_le hpart.le_place with hlt | heq
  · obtain ⟨j, hl, hj, hfrom⟩ := hpart.rearranged.source le_rfl (Nat.lt_succ_of_lt hlr)
    have hless := hpart.smaller l le_rfl hlt
    rw [hfrom, hno j hl (Nat.le_of_lt_succ hj)] at hless
    cases hless
  · rw [← hpart.pivot, ← heq]

end Sorting

end Zpc.OmpExecutionPolicy
