import Mathlib.Data.List.Range
import Mathlib.Data.Nat.Count
import Mathlib.Order.Nat

/-!
# Stable sorting

The stable sort of a list by a total preorder is its merge sort. It is the only sorted
list with the same subsequence of entries tied with any given one, so stable sorts
compose to the lexicographic order, and an array that holds each entry at its rank
holds the stable sort.
-/
namespace StableSort
variable {α : Type*} {le le₁ le₂ : α → α → Bool} {xs ys zs : List α}

/-- A total preorder. -/
structure Preordered (le : α → α → Bool) : Prop where
  trans : ∀ a b c, le a b → le b c → le a c
  total : ∀ a b, le a b || le b a

theorem Preordered.refl (h : Preordered le) (a : α) : le a a = true := by
  have ht := h.total a a
  rwa [Bool.or_self] at ht

/-- The preorder of a key. -/
def byKey {κ : Type*} [LinearOrder κ] (key : α → κ) (a b : α) : Bool := decide (key a ≤ key b)

theorem preordered_key {κ : Type*} [LinearOrder κ] (key : α → κ) : Preordered (byKey key) where
  trans a b c hab hbc := by
    rw [byKey, decide_eq_true_eq] at *
    exact le_trans hab hbc
  total a b := by
    rw [byKey, byKey, Bool.or_eq_true, decide_eq_true_eq, decide_eq_true_eq]
    exact le_total _ _

/-- The order tells the two entries apart in neither direction. -/
def tied (le : α → α → Bool) (a b : α) : Bool := le a b && le b a

theorem tied_iff {a b : α} : tied le a b = true ↔ le a b = true ∧ le b a = true := Bool.and_eq_true_iff

theorem Preordered.tied_refl (h : Preordered le) (a : α) : tied le a a = true := tied_iff.mpr ⟨h.refl a, h.refl a⟩

theorem Preordered.tied_of_tied (h : Preordered le) {a b p : α} (ha : tied le p a) (hb : tied le p b) :
    le a b = true := by
  rw [tied_iff] at ha hb
  exact h.trans a p b ha.2 hb.1

theorem mem_of_filter (h : Preordered le) (hf : ∀ p, ys.filter (tied le p) = zs.filter (tied le p)) {p : α}
    (hp : p ∈ ys) : p ∈ zs := by
  have hin : p ∈ ys.filter (tied le p) := List.mem_filter.mpr ⟨hp, h.tied_refl p⟩
  rw [hf p] at hin
  exact (List.mem_filter.mp hin).1

/-- A sorted list is determined by its classes of tied entries. -/
theorem eq_of_filter (h : Preordered le) (hy : ys.Pairwise fun a b => le a b) (hz : zs.Pairwise fun a b => le a b)
    (hf : ∀ p, ys.filter (tied le p) = zs.filter (tied le p)) : ys = zs := by
  induction ys generalizing zs with
  | nil =>
    refine (List.eq_nil_iff_forall_not_mem.mpr fun p hp => ?_).symm
    exact List.not_mem_nil (mem_of_filter h (fun p => (hf p).symm) hp)
  | cons y ys ih =>
    cases zs with
    | nil => exact absurd (mem_of_filter h hf List.mem_cons_self) List.not_mem_nil
    | cons z zs =>
      have hle : ∀ {a b : α} {l : List α}, (a :: l).Pairwise (fun a b => le a b) → b ∈ a :: l → le a b = true := by
        intro a b l hp hb
        rcases List.mem_cons.mp hb with rfl | hb
        · exact h.refl b
        · exact List.rel_of_pairwise_cons hp hb
      -- the first entries are tied, and first in their class
      have hyz : tied le y z = true := tied_iff.mpr
        ⟨hle hy (mem_of_filter h (fun p => (hf p).symm) List.mem_cons_self), hle hz (mem_of_filter h hf List.mem_cons_self)⟩
      have hfirst := hf y
      rw [List.filter_cons_of_pos (h.tied_refl y), List.filter_cons_of_pos hyz] at hfirst
      obtain rfl : y = z := (List.cons.inj hfirst).1
      have hrest : ∀ p, ys.filter (tied le p) = zs.filter (tied le p) := by
        intro p
        have hp := hf p
        rw [List.filter_cons, List.filter_cons] at hp
        split at hp
        · exact (List.cons.inj hp).2
        · exact hp
      rw [ih hy.tail hz.tail hrest, List.tail_cons]

theorem pairwise_mergeSort (h : Preordered le) (xs : List α) : (xs.mergeSort le).Pairwise fun a b => le a b :=
  List.pairwise_mergeSort h.trans h.total xs

theorem filter_mergeSort (h : Preordered le) (xs : List α) (p : α) :
    (xs.mergeSort le).filter (tied le p) = xs.filter (tied le p) := by
  have hsorted : (xs.filter (tied le p)).Pairwise fun a b => le a b :=
    List.pairwise_of_forall_mem_list fun a ha b hb =>
      h.tied_of_tied (List.mem_filter.mp ha).2 (List.mem_filter.mp hb).2
  have hsub := (List.sublist_mergeSort h.trans h.total hsorted List.filter_sublist).filter (tied le p)
  rw [List.filter_filter] at hsub
  simp only [Bool.and_self] at hsub
  exact (hsub.eq_of_length ((List.mergeSort_perm xs le).filter _).length_eq.symm).symm

/-- How a stable sort is recognized. -/
theorem eq_mergeSort (h : Preordered le) (hy : ys.Pairwise fun a b => le a b)
    (hf : ∀ p, ys.filter (tied le p) = xs.filter (tied le p)) : ys = xs.mergeSort le :=
  eq_of_filter h hy (pairwise_mergeSort h xs) fun p => (hf p).trans (filter_mergeSort h xs p).symm

theorem mergeSort_congr (h : ∀ a ∈ xs, ∀ b ∈ xs, le₁ a b = le₂ a b) : xs.mergeSort le₁ = xs.mergeSort le₂ := by
  have hm := List.map_mergeSort (f := id) (r := le₁) (s := le₂) (l := xs) h
  rwa [List.map_id, List.map_id] at hm

/-- First by `le₂`, ties by `le₁`. -/
def lex (le₂ le₁ : α → α → Bool) (a b : α) : Bool := le₂ a b && (!le₂ b a || le₁ a b)

theorem lex_iff {a b : α} : lex le₂ le₁ a b = true ↔ le₂ a b = true ∧ (le₂ b a = true → le₁ a b = true) := by
  simp [lex, Bool.or_eq_true, Decidable.imp_iff_not_or]

theorem lex_preordered (h₂ : Preordered le₂) (h₁ : Preordered le₁) : Preordered (lex le₂ le₁) where
  trans a b c hab hbc := by
    rw [lex_iff] at *
    refine ⟨h₂.trans a b c hab.1 hbc.1, fun hca => ?_⟩
    exact h₁.trans a b c (hab.2 (h₂.trans b c a hbc.1 hca)) (hbc.2 (h₂.trans c a b hca hab.1))
  total a b := by
    rw [Bool.or_eq_true, lex_iff, lex_iff]
    have := h₁.total a b
    have := h₂.total a b
    grind

/-- Sorting by `le₁` and then stably by `le₂` sorts lexicographically. -/
theorem mergeSort_mergeSort (h₂ : Preordered le₂) (h₁ : Preordered le₁) (xs : List α) :
    (xs.mergeSort le₁).mergeSort le₂ = xs.mergeSort (lex le₂ le₁) := by
  have htied : ∀ p a, tied (lex le₂ le₁) p a = (tied le₂ p a && tied le₁ p a) := by
    intro p a
    rw [Bool.eq_iff_iff, Bool.and_eq_true, tied_iff, tied_iff, tied_iff, lex_iff, lex_iff]
    tauto
  have hfilter : ∀ p (l : List α),
      l.filter (tied (lex le₂ le₁) p) = (l.filter (tied le₂ p)).filter (tied le₁ p) := by
    intro p l
    rw [List.filter_filter]
    exact List.filter_congr fun a _ => by rw [htied, Bool.and_comm]
  refine eq_mergeSort (lex_preordered h₂ h₁) ?_ fun p => ?_
  · -- within a class of `le₂` the order of the first sort is kept
    rw [List.pairwise_iff_forall_sublist]
    intro a b hab
    have hle := List.pairwise_iff_forall_sublist.mp (pairwise_mergeSort h₂ (xs.mergeSort le₁)) hab
    refine lex_iff.mpr ⟨hle, fun hba => ?_⟩
    have ht : tied le₂ a b = true := tied_iff.mpr ⟨hle, hba⟩
    have hsub := hab.filter (tied le₂ a)
    rw [filter_mergeSort h₂, List.filter_cons_of_pos (h₂.tied_refl a), List.filter_cons_of_pos ht] at hsub
    exact List.pairwise_iff_forall_sublist.mp (pairwise_mergeSort h₁ xs) (hsub.trans List.filter_sublist)
  · rw [hfilter, hfilter, filter_mergeSort h₂, List.filter_comm, filter_mergeSort h₁, List.filter_comm]

section Merge
/-- Merging keeps the order within each class, the left list first. -/
theorem filter_merge (h : Preordered le) (p : α) (hx : xs.Pairwise fun a b => le a b) :
    (xs.merge ys le).filter (tied le p) = xs.filter (tied le p) ++ ys.filter (tied le p) := by
  fun_induction List.merge xs ys le with
  | case1 => rfl
  | case2 => rw [List.filter_nil, List.append_nil]
  | case3 x xs y ys hle ih =>
    rw [List.filter_cons, List.filter_cons, ih hx.tail]
    split <;> rfl
  | case4 x xs y ys hle ih =>
    rw [List.filter_cons, ih hx, List.filter_cons (x := y)]
    split
    next hy =>
      -- an entry tied with `y` does not come before `x`
      have hnil : (x :: xs).filter (tied le p) = [] := by
        refine List.filter_eq_nil_iff.mpr fun z hz htied => hle ?_
        have hxz : le x z = true := by
          rcases List.mem_cons.mp hz with rfl | hz
          · exact h.refl z
          · exact List.rel_of_pairwise_cons hx hz
        exact h.trans x z y hxz (h.tied_of_tied htied hy)
      rw [hnil]
      rfl
    next => rfl

/-- Merging the stable sorts of two lists sorts both together. -/
theorem merge_mergeSort (h : Preordered le) (xs ys : List α) :
    (xs.mergeSort le).merge (ys.mergeSort le) le = (xs ++ ys).mergeSort le := by
  refine eq_mergeSort h ?_ fun p => ?_
  · exact List.pairwise_merge h.trans h.total _ _ (pairwise_mergeSort h xs) (pairwise_mergeSort h ys)
  · rw [filter_merge h p (pairwise_mergeSort h xs), filter_mergeSort h, filter_mergeSort h, List.filter_append]

end Merge

/-- The stable sort by a strict comparison. -/
def stableSort (less : α → α → Bool) (l : List α) : List α := l.mergeSort fun a b => !less b a

/-- The merge that takes from the left list unless the entry of the right one is less. -/
def mergeBy (less : α → α → Bool) (xs ys : List α) : List α := xs.merge ys fun a b => !less b a

/-- A strict weak order. -/
structure StrictWeak (less : α → α → Bool) : Prop where
  irrefl : ∀ a, less a a = false
  trans : ∀ a b c, less a b → less b c → less a c
  incomparable : ∀ a b c, less a b = false → less b a = false → less b c = false → less c b = false →
    less a c = false

section StrictWeak
variable {less : α → α → Bool}

theorem StrictWeak.asymm (h : StrictWeak less) {a b : α} (hab : less a b = true) : less b a = false := by
  by_contra hba
  rw [Bool.not_eq_false] at hba
  have := h.trans a b a hab hba
  rw [h.irrefl] at this
  cases this

theorem StrictWeak.not_less (h : StrictWeak less) {a b c : α} (hab : less b a = false) (hbc : less c b = false) :
    less c a = false := by
  by_contra hca
  rw [Bool.not_eq_false] at hca
  by_cases hba : less a b = true
  · rw [h.trans c a b hca hba] at hbc
    cases hbc
  · rw [Bool.not_eq_true] at hba
    by_cases hcb : less b c = true
    · rw [h.trans b c a hcb hca] at hab
      cases hab
    · rw [Bool.not_eq_true] at hcb
      rw [h.incomparable c b a hbc hcb hab hba] at hca
      cases hca

theorem StrictWeak.preordered (h : StrictWeak less) : Preordered fun a b => !less b a where
  trans a b c hab hbc := by
    rw [Bool.not_eq_true'] at *
    exact h.not_less hab hbc
  total a b := by
    rw [Bool.or_eq_true, Bool.not_eq_true', Bool.not_eq_true']
    by_contra hno
    rw [not_or, Bool.not_eq_false, Bool.not_eq_false] at hno
    rw [h.asymm hno.1] at hno
    cases hno.2

/-- The order of keys is one of the entries that have them. -/
theorem StrictWeak.comap {κ : Type*} {comp : κ → κ → Bool} (h : StrictWeak comp) (key : α → κ) :
    StrictWeak fun a b => comp (key a) (key b) :=
  ⟨fun _ => h.irrefl _, fun _ _ _ => h.trans _ _ _, fun _ _ _ => h.incomparable _ _ _⟩

theorem StrictWeak.flip (h : StrictWeak less) : StrictWeak fun a b => less b a :=
  ⟨h.irrefl, fun _ _ _ hab hbc => h.trans _ _ _ hbc hab, fun _ _ _ hab hba hbc hcb => h.incomparable _ _ _ hbc hcb hab hba⟩

theorem strictWeak_lt {κ : Type*} [LinearOrder κ] : StrictWeak fun a b : κ => decide (a < b) := by
  refine ⟨fun a => ?_, fun a b c hab hbc => ?_, fun a b c hab hba hbc hcb => ?_⟩ <;> simp only [decide_eq_true_eq,
    decide_eq_false_iff_not, not_lt] at *
  · exact le_rfl
  · exact lt_trans hab hbc
  · exact le_trans hbc hab

theorem mergeBy_stableSort (h : StrictWeak less) (xs ys : List α) :
    mergeBy less (stableSort less xs) (stableSort less ys) = stableSort less (xs ++ ys) :=
  merge_mergeSort h.preordered xs ys

theorem stableSort_of_pairwise (h : xs.Pairwise fun a b => less b a = false) : stableSort less xs = xs :=
  List.mergeSort_of_pairwise (h.imp fun hab => by rw [hab]; rfl)

theorem mergeBy_of_le (h : ∀ a ∈ xs, ∀ b ∈ ys, less b a = false) : mergeBy less xs ys = xs ++ ys :=
  List.merge_of_le fun a b ha hb => by rw [h a ha b hb]; rfl

end StrictWeak

section Rank
variable {x f : ℕ → α} {n i j : ℕ}

/-- The place of entry `i` in the stable sort: after the smaller ones and the earlier ones tied with it. -/
def rank (le : α → α → Bool) (x : ℕ → α) (n i : ℕ) : ℕ :=
  Nat.count (fun j => le (x i) (x j) = false) n + Nat.count (fun j => tied le (x i) (x j) = true) i

theorem count_add_count_le {p q r : ℕ → Prop} [DecidablePred p] [DecidablePred q] [DecidablePred r]
    (hp : ∀ j, p j → r j) (hq : ∀ j, q j → r j) (hpq : ∀ j, p j → ¬ q j) (n : ℕ) :
    Nat.count p n + Nat.count q n ≤ Nat.count r n := by
  induction n with
  | zero => simp
  | succ n ih =>
    rw [Nat.count_succ, Nat.count_succ, Nat.count_succ]
    have hp := hp n
    have hq := hq n
    have hpq := hpq n
    split_ifs <;> first | omega | tauto

theorem not_tied_of_lt {a b : α} (h : le a b = false) : tied le a b = false := by rw [tied, h, Bool.false_and]

theorem rank_lt (h : Preordered le) (hi : i < n) : rank le x n i < n := by
  have hlt : Nat.count (fun j => tied le (x i) (x j) = true) i < Nat.count (fun j => tied le (x i) (x j) = true) n :=
    Nat.count_strict_mono (h.tied_refl (x i)) hi
  have hle := count_add_count_le (p := fun j => le (x i) (x j) = false) (q := fun j => tied le (x i) (x j) = true)
    (r := fun _ => True) (fun _ _ => trivial) (fun _ _ => trivial)
    (fun j hj => by rw [not_tied_of_lt hj]; exact Bool.false_ne_true) n
  rw [Nat.count_true] at hle
  unfold rank
  omega

theorem rank_lt_rank (h : Preordered le) (hi : i < n) (hle : le (x i) (x j) = true)
    (hij : le (x j) (x i) = true → i < j) : rank le x n i < rank le x n j := by
  unfold rank
  by_cases hji : le (x j) (x i) = true
  · -- tied entries have the same smaller ones
    have hlt : (fun k => le (x i) (x k) = false) = fun k => le (x j) (x k) = false := by
      funext k
      rw [eq_iff_iff, ← Bool.not_eq_true, ← Bool.not_eq_true, not_iff_not]
      exact ⟨h.trans _ _ _ hji, h.trans _ _ _ hle⟩
    have htied : (fun k => tied le (x i) (x k) = true) = fun k => tied le (x j) (x k) = true := by
      funext k
      rw [eq_iff_iff, tied_iff, tied_iff]
      exact ⟨fun hk => ⟨h.trans _ _ _ hji hk.1, h.trans _ _ _ hk.2 hle⟩,
        fun hk => ⟨h.trans _ _ _ hle hk.1, h.trans _ _ _ hk.2 hji⟩⟩
    simp only [hlt, htied]
    exact Nat.add_lt_add_left (Nat.count_strict_mono (tied_iff.mpr ⟨hji, hle⟩) (hij hji)) _
  · have hlt : Nat.count (fun k => tied le (x i) (x k) = true) i < Nat.count (fun k => tied le (x i) (x k) = true) n :=
      Nat.count_strict_mono (h.tied_refl (x i)) hi
    -- what is smaller than `x i` or tied with it is smaller than `x j`
    have hsum := count_add_count_le (p := fun k => le (x i) (x k) = false) (q := fun k => tied le (x i) (x k) = true)
      (r := fun k => le (x j) (x k) = false) ?_ ?_ (fun k hk => by rw [not_tied_of_lt hk]; exact Bool.false_ne_true) n
    · omega
    · intro k hk
      by_contra hjk
      rw [Bool.not_eq_false] at hjk
      rw [h.trans _ _ _ hle hjk] at hk
      cases hk
    · intro k hk
      by_contra hjk
      rw [Bool.not_eq_false] at hjk
      exact hji (h.trans _ _ _ hjk (tied_iff.mp hk).2)

theorem rank_injective (h : Preordered le) (hi : i < n) (hj : j < n) (he : rank le x n i = rank le x n j) : i = j := by
  by_contra hne
  wlog hij : le (x i) (x j) = true ∧ (le (x j) (x i) = true → i < j) generalizing i j with hwlog
  · refine hwlog hj hi he.symm (Ne.symm hne) ?_
    have ht := h.total (x i) (x j)
    rw [Bool.or_eq_true] at ht
    by_cases hle : le (x i) (x j) = true
    · have hnlt : ¬ (le (x j) (x i) = true → i < j) := fun hlt => hij ⟨hle, hlt⟩
      rw [Classical.not_imp] at hnlt
      exact ⟨hnlt.1, fun _ => by omega⟩
    · exact ⟨ht.resolve_left hle, fun h' => absurd h' hle⟩
  exact absurd he (Nat.ne_of_lt (rank_lt_rank h hi hij.1 hij.2))

/-- An array that holds every entry at its rank holds the stable sort. -/
theorem map_eq_mergeSort (h : Preordered le) (hf : ∀ i < n, f (rank le x n i) = x i) :
    (List.range n).map f = ((List.range n).map x).mergeSort le := by
  have hr : Preordered fun i j => le (x i) (x j) := ⟨fun _ _ _ => h.trans _ _ _, fun _ _ => h.total _ _⟩
  have hnat : Preordered fun i j : ℕ => decide (i ≤ j) := preordered_key id
  let order := (List.range n).mergeSort fun i j => le (x i) (x j)
  have hmem : ∀ {i}, i ∈ order ↔ i < n := by
    intro i
    rw [List.mem_mergeSort, List.mem_range]
  have hnodup : order.Nodup := (List.mergeSort_perm _ _).nodup_iff.mpr List.nodup_range
  have hlex : order.Pairwise fun i j => lex (fun i j => le (x i) (x j)) (fun i j => decide (i ≤ j)) i j := by
    have hsort : (List.range n).mergeSort (fun i j => decide (i ≤ j)) = List.range n :=
      List.mergeSort_of_pairwise (List.pairwise_le_range.imp fun h => decide_eq_true h)
    have := pairwise_mergeSort (lex_preordered hr hnat) (List.range n)
    rwa [← mergeSort_mergeSort hr hnat, hsort] at this
  have hrank : (order.map (rank le x n)).Pairwise (· < ·) := by
    rw [List.pairwise_map]
    refine (hlex.and hnodup).imp_of_mem fun {i j} hi _ hij => ?_
    obtain ⟨hle, htie⟩ := lex_iff.mp hij.1
    refine rank_lt_rank h (hmem.mp hi) hle fun hji => ?_
    have := of_decide_eq_true (htie hji)
    have := hij.2
    omega
  have hrange : order.map (rank le x n) = List.range n := by
    have hsub : order.map (rank le x n) ⊆ List.range n := by
      intro k hk
      obtain ⟨i, hi, rfl⟩ := List.mem_map.mp hk
      exact List.mem_range.mpr (rank_lt h (hmem.mp hi))
    have hlen : (List.range n).length ≤ (order.map (rank le x n)).length := by
      rw [List.length_map, List.length_mergeSort]
    have hdistinct : (order.map (rank le x n)).Nodup := hrank.imp fun hlt => Nat.ne_of_lt hlt
    have hperm := (hdistinct.subperm hsub).perm_of_length_le hlen
    exact hperm.eq_of_pairwise (fun a b _ _ hab hba => absurd hab (Nat.lt_asymm hba)) hrank
      List.pairwise_lt_range
  calc (List.range n).map f = (order.map (rank le x n)).map f := by rw [hrange]
    _ = order.map x := by
      rw [List.map_map]
      exact List.map_congr_left fun i hi => hf i (hmem.mp hi)
    _ = ((List.range n).map x).mergeSort le := List.map_mergeSort fun _ _ _ _ => rfl

end Rank

end StableSort
