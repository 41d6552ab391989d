import Zpc.OmpMergeSortResult
import Zpc.OmpQuickSort

/-!
# `sort_pair` of the execution policies

`sort_pair` is the merge sort of pairs with another first phase: every block is put in
order by `quick_sort_impl`, that is by the `<` of the keys, and the blocks are merged by
`compOp`. The sequential policy has one block and nothing to merge.
-/
namespace Zpc.OmpExecutionPolicy
open ArraySlice StableSort ThreadTeam

variable {K V : Type*} {lt comp : K → K → Bool} {dist nths t : ℕ}

def byKeys (comp : K → K → Bool) (a b : K × V) : Bool := comp a.1 b.1

def quickSortBlock (lt : K → K → Bool) (dist nths tid : ℕ) (s : SortState (K × V)) : SortState (K × V) :=
  { s with
    first := quickSort (byKeys lt) (st dist nths tid) (ed dist nths tid - 1) s.first
    flipped := Function.update s.flipped tid false }

def sortPair (lt comp : K → K → Bool) (dist nths : ℕ) : List (Segment (SortState (K × V))) :=
  mergeRounds (byKeys comp) dist nths 1 (quickSortBlock lt dist nths)

namespace SequentialExecutionPolicy
/-- Nothing flips, so nothing is copied back. -/
def sortPair (lt : K → K → Bool) (dist : ℕ) (first : ℕ → K × V) : ℕ → K × V :=
  quickSort (byKeys lt) 0 (dist - 1) first

end SequentialExecutionPolicy

/-- The keys of `out` are in the order `comp`, and its pairs are those of `first`. -/
def SortsPairs (comp : K → K → Bool) (dist : ℕ) (first out : ℕ → K × V) : Prop :=
  ((List.range dist).map out).Pairwise (fun a b => comp b.1 a.1 = false) ∧
    ((List.range dist).map out).Perm ((List.range dist).map first)

section Part
theorem strictWeak_byKeys (h : StrictWeak comp) : StrictWeak (byKeys (V := V) comp) := h.comap Prod.fst

theorem rearranged_part (f : ℕ → K × V) {l r : ℕ} (hlr : l < r) :
    Rearranged l r f (quickSort (byKeys lt) l (r - 1) f) := by
  have h := quickSort_rearranged (byKeys lt) l (r - 1) f
  rwa [Nat.sub_add_cancel (by omega)] at h

/-- A part in the order `lt` is in every order that `lt` respects. -/
theorem pairwise_part (hlt : StrictWeak lt) (hle : ∀ a b, comp a b = true → lt a b = true) (f : ℕ → K × V) (l r : ℕ) :
    (slice (quickSort (byKeys lt) l (r - 1) f) l r).Pairwise fun a b => byKeys comp b a = false := by
  refine pairwise_slice.mpr fun i j hl hij hr => ?_
  have hsorted := quickSort_sorted (strictWeak_byKeys hlt) l (r - 1) f i j hl hij (by omega)
  refine Bool.eq_false_of_not_eq_true fun hless => ?_
  exact Bool.false_ne_true (hsorted.symm.trans (hle _ _ hless))

/-- The entries that break the order when `comp` tells `a` from `b` and `lt` does not: `b` at the end. -/
theorem not_pairwise_part {a b : K × V} (hlt : StrictWeak lt) (hcomp : StrictWeak comp) (hab : comp a.1 b.1 = true)
    (hno : lt a.1 b.1 = false) {l r : ℕ} (hlr : l + 1 < r) {f : ℕ → K × V} (hf : ∀ k, l ≤ k → k < r → f k = if k = r - 1 then b else a) :
    ¬ (slice (quickSort (byKeys lt) l (r - 1) f) l r).Pairwise fun x y => byKeys comp y x = false := by
  intro hsorted
  have hlast : f (r - 1) = b := (hf _ (by omega) (by omega)).trans (if_pos rfl)
  have hfront : quickSort (byKeys lt) l (r - 1) f l = b := by
    rw [quickSort_first (byKeys lt) (by omega), hlast]
    intro k hl hr
    rw [hlast, hf k hl (by omega)]
    split
    · exact hlt.irrefl _
    · exact hno
  -- `a` is somewhere behind
  have ha : a ∈ slice (quickSort (byKeys lt) l (r - 1) f) l r := by
    rw [(rearranged_part f (by omega)).perm.mem_iff, mem_slice]
    exact ⟨l, le_rfl, by omega, (hf l le_rfl (by omega)).trans (if_neg (by omega))⟩
  obtain ⟨k, hl, hr, hk⟩ := mem_slice.mp ha
  rcases Nat.lt_or_eq_of_le hl with hlk | rfl
  · have hpair := pairwise_slice.mp hsorted l k le_rfl hlk hr
    rw [hfront, hk] at hpair
    exact Bool.false_ne_true (hpair.symm.trans hab)
  · rw [hfront] at hk
    rw [hk, hcomp.irrefl] at hab
    cases hab

end Part

section Blocks
variable {s s' s₁ : SortState (K × V)}

theorem quickSortBlock_frame (lt : K → K → Bool) (dist nths u : ℕ) (s : SortState (K × V)) (b : Bool) {k : ℕ} (hk : ¬ Owns dist nths u k) :
    (quickSortBlock lt dist nths u s).buffer b k = s.buffer b k := by
  cases b with
  | true => rfl
  | false =>
    rcases Nat.lt_or_ge (st dist nths u) (ed dist nths u) with hlt | hge
    · exact (rearranged_part s.first hlt).frame hk
    · exact congrFun (quickSort_of_le (byKeys lt) (by omega) s.first) k

theorem quickSortBlock_private : Private (quickSortBlock (V := V) lt dist nths) :=
  fun _ _ => ⟨rfl, fun _ ht => Function.update_of_ne ht _ _⟩

theorem quickSortBlock_agree (hn : 0 < nths) {u : ℕ} (hu : u ≠ t) (s : SortState (K × V)) :
    Agree (st dist nths t) (ed dist nths t) t s (quickSortBlock lt dist nths u s) :=
  ⟨fun b _ hl hr => quickSortBlock_frame lt dist nths u s b (not_owns_other hn ⟨hl, hr⟩ hu),
    (quickSortBlock_private u s).2 t hu.symm⟩

/-- The block of thread `t` is as its quick sort leaves the entries that were there. -/
def BlockSorted (lt : K → K → Bool) (dist nths t : ℕ) (s s₁ : SortState (K × V)) : Prop :=
  ∃ f : ℕ → K × V, slice f (st dist nths t) (ed dist nths t) = slice s.first (st dist nths t) (ed dist nths t) ∧
    slice s₁.first (st dist nths t) (ed dist nths t) =
      slice (quickSort (byKeys lt) (st dist nths t) (ed dist nths t - 1) f) (st dist nths t) (ed dist nths t)

theorem sortPair_result (hn : 0 < nths) (hrun : Passes nths (sortPair lt comp dist nths) s s') :
    ∃ s₁ : SortState (K × V), (∀ t < nths, BlockSorted lt dist nths t s s₁) ∧
      (List.range dist).map s'.first =
        merged (byKeys comp) nths 1 fun t => slice s₁.first (st dist nths t) (ed dist nths t) := by
  obtain ⟨s₁, hacted, hresult⟩ := mergeRounds_result hn quickSortBlock_private Nat.one_pos hrun
  have hdone : ∀ t < nths, Acted (quickSortBlock lt dist nths) (st dist nths t) (ed dist nths t) t s s₁ :=
    fun t ht => hacted t ht _ _ fun _ _ hu s => quickSortBlock_agree hn hu s
  have hflag : ∀ t < nths, s₁.flipped t = false := by
    intro t ht
    obtain ⟨s₀, -, hafter⟩ := hdone t ht
    exact hafter.2.trans (Function.update_self _ _ _)
  refine ⟨s₁, fun t ht => ?_, hresult false _ (fun t ht _ => ⟨fun _ => rfl, fun _ => ?_, fun _ => ?_⟩) fun t ht => ?_⟩
  · obtain ⟨s₀, hbefore, hafter⟩ := hdone t ht
    exact ⟨s₀.first, hbefore.slice false le_rfl le_rfl, hafter.slice false le_rfl le_rfl⟩
  · rw [hflag t ht]
    rfl
  · exact .inl (hflag t ht)
  · exact slice_of_le ((Nat.min_le_right _ _).trans ht)

theorem lt_of_entries (hn : 0 < nths) (h : st dist nths t < ed dist nths t) : t < nths := by
  obtain ⟨hd, htid⟩ := (owns_iff hn).mp (show Owns dist nths t (st dist nths t) from ⟨le_rfl, h⟩)
  rw [← htid]
  exact owner_lt hn hd

theorem block_perm (hn : 0 < nths) (h : ∀ t < nths, BlockSorted lt dist nths t s s₁) (t : ℕ) :
    (slice s₁.first (st dist nths t) (ed dist nths t)).Perm (slice s.first (st dist nths t) (ed dist nths t)) := by
  rcases Nat.lt_or_ge (st dist nths t) (ed dist nths t) with hlt | hge
  · obtain ⟨f, hf, hs₁⟩ := h t (lt_of_entries hn hlt)
    rw [hs₁, ← hf]
    exact (rearranged_part f hlt).perm
  · rw [slice_of_le hge, slice_of_le hge]

theorem sortPair_perm (hn : 0 < nths) (hrun : Passes nths (sortPair lt comp dist nths) s s') :
    ((List.range dist).map s'.first).Perm ((List.range dist).map s.first) := by
  obtain ⟨s₁, hdone, hresult⟩ := sortPair_result hn hrun
  rw [hresult, ← slice_zero]
  exact merged_perm hn Nat.one_pos (block_perm hn hdone)

/-- When all blocks are in the order `comp`, so is what they merge to. -/
theorem sortPair_pairwise (hcomp : StrictWeak comp) (hn : 0 < nths) (hrun : Passes nths (sortPair lt comp dist nths) s s')
    (hblock : ∀ (f : ℕ → K × V) (t : ℕ), (slice (quickSort (byKeys lt) (st dist nths t) (ed dist nths t - 1) f)
      (st dist nths t) (ed dist nths t)).Pairwise fun a b => byKeys comp b a = false) :
    ((List.range dist).map s'.first).Pairwise fun a b => byKeys comp b a = false := by
  obtain ⟨s₁, hdone, hresult⟩ := sortPair_result hn hrun
  have hL : ∀ t, slice s₁.first (st dist nths t) (ed dist nths t) =
      stableSort (byKeys comp) (slice s₁.first (st dist nths t) (partEnd dist nths 1 t)) := by
    intro t
    rw [partEnd_one]
    refine (stableSort_of_pairwise ?_).symm
    rcases Nat.lt_or_ge (st dist nths t) (ed dist nths t) with hlt | hge
    · obtain ⟨f, -, hs₁⟩ := hdone t (lt_of_entries hn hlt)
      rw [hs₁]
      exact hblock f t
    · rw [slice_of_le hge]
      exact List.Pairwise.nil
  rw [hresult, merged_sorted (strictWeak_byKeys hcomp) hn Nat.one_pos hL]
  exact pairwise_stableSort (strictWeak_byKeys hcomp) _

end Blocks

section Result
theorem pairwise_of_subsingleton {R : K × V → K × V → Prop} {f : ℕ → K × V} {l r : ℕ} (h : r ≤ l + 1) : (slice f l r).Pairwise R :=
  pairwise_slice.mpr fun i j hl hij hr => by omega

theorem ed_le_of_le (hn : 0 < nths) (h : dist ≤ nths) (t : ℕ) : ed dist nths t ≤ st dist nths t + 1 := by
  have hw : nwork dist nths ≤ 1 := by
    unfold nwork
    exact Nat.le_of_lt_succ ((Nat.div_lt_iff_lt_mul hn).mpr (by omega))
  unfold ed
  omega

/-- The input that fails when `comp` puts `a` before `b` and `lt` does not. -/
def breaking (last : ℕ) (a b : K × V) (k : ℕ) : K × V := if k = last then b else a

theorem sequential_sorts_iff [Nonempty V] (hlt : StrictWeak lt) (hcomp : StrictWeak comp) :
    (∀ first : ℕ → K × V, SortsPairs comp dist first (SequentialExecutionPolicy.sortPair lt dist first)) ↔
      dist ≤ 1 ∨ ∀ a b, comp a b = true → lt a b = true := by
  constructor
  · intro h
    refine or_iff_not_imp_left.mpr fun hd a b hab => ?_
    by_contra hno
    rw [Bool.not_eq_true] at hno
    obtain ⟨v⟩ := ‹Nonempty V›
    have hsorted := (h (breaking (dist - 1) (a, v) (b, v))).1
    rw [← slice_zero] at hsorted
    exact not_pairwise_part (a := (a, v)) (b := (b, v)) hlt hcomp hab hno (by omega) (fun _ _ _ => rfl) hsorted
  · intro h first
    refine ⟨?_, ?_⟩
    · rw [← slice_zero]
      rcases h with hd | hle
      · exact pairwise_of_subsingleton (by omega)
      · exact pairwise_part hlt hle first 0 dist
    · rw [← slice_zero, ← slice_zero]
      rcases Nat.eq_zero_or_pos dist with rfl | hd
      · exact List.Perm.refl _
      · exact (rearranged_part first hd).perm

theorem omp_sorts_iff [Nonempty V] (hlt : StrictWeak lt) (hcomp : StrictWeak comp) (hn : 0 < nths) :
    (∀ s s' : SortState (K × V), Passes nths (sortPair lt comp dist nths) s s' → SortsPairs comp dist s.first s'.first) ↔
      dist ≤ nths ∨ ∀ a b, comp a b = true → lt a b = true := by
  constructor
  · intro h
    refine or_iff_not_imp_left.mpr fun hd a b hab => ?_
    by_contra hno
    rw [Bool.not_eq_true] at hno
    obtain ⟨v⟩ := ‹Nonempty V›
    -- the first block has two entries
    have hst : st dist nths 0 = 0 := Nat.mul_zero _
    have hed : 2 ≤ ed dist nths 0 := by
      have : 2 ≤ _ := two_le_nwork hn (Nat.lt_of_not_le hd)
      unfold ed
      omega
    let s : SortState (K × V) := ⟨breaking (ed dist nths 0 - 1) (a, v) (b, v), fun _ => (a, v), fun _ => false, false⟩
    obtain ⟨s', hrun⟩ := exists_passes nths (sortPair lt comp dist nths) s
    obtain ⟨s₁, hdone, hresult⟩ := sortPair_result hn hrun
    have hsub : (slice s₁.first (st dist nths 0) (ed dist nths 0)).Sublist
        (merged (byKeys comp) nths 1 fun t => slice s₁.first (st dist nths t) (ed dist nths t)) :=
      sublist_merged (L := fun t => slice s₁.first (st dist nths t) (ed dist nths t)) Nat.one_pos hn (Nat.zero_mod 1)
    obtain ⟨f, hf, hs₁⟩ := hdone 0 hn
    rw [← hresult, hs₁, hst] at hsub
    rw [hst] at hf
    refine not_pairwise_part (a := (a, v)) (b := (b, v)) hlt hcomp hab hno (by omega) (fun k hl hr => ?_)
      ((h s s' hrun).1.sublist hsub)
    exact eq_of_slice hf hl hr
  · intro h s s' hrun
    refine ⟨?_, sortPair_perm hn hrun⟩
    refine sortPair_pairwise hcomp hn hrun fun f t => ?_
    rcases h with hd | hle
    · exact pairwise_of_subsingleton (ed_le_of_le hn hd t)
    · exact pairwise_part hlt hle f _ _

/-- For which orders `sort_pair` sorts whatever pairs it is given: those that the `<` of the
keys respects, unless every thread has one pair at most. -/
theorem sortPair_sorts_iff [Nonempty V] (hlt : StrictWeak lt) (hcomp : StrictWeak comp) (hn : 0 < nths) :
    ((∀ first : ℕ → K × V, SortsPairs comp dist first (SequentialExecutionPolicy.sortPair lt dist first)) ↔
      dist ≤ 1 ∨ ∀ a b, comp a b = true → lt a b = true) ∧
    ((∀ s s' : SortState (K × V), Passes nths (sortPair lt comp dist nths) s s' → SortsPairs comp dist s.first s'.first) ↔
      dist ≤ nths ∨ ∀ a b, comp a b = true → lt a b = true) :=
  ⟨sequential_sorts_iff hlt hcomp, omp_sorts_iff hlt hcomp hn⟩

theorem sortPair_sorts_iff_descending :
    ((∀ first : ℕ → ℕ × Bool, SortsPairs (fun a b => decide (b < a)) 1000 first
        (SequentialExecutionPolicy.sortPair (fun a b => decide (a < b)) 1000 first)) ↔
      1000 ≤ 1 ∨ ∀ a b : ℕ, decide (b < a) = true → decide (a < b) = true) ∧
    ((∀ s s' : SortState (ℕ × Bool), Passes 3 (sortPair (fun a b => decide (a < b)) (fun a b => decide (b < a)) 1000 3) s s' →
        SortsPairs (fun a b => decide (b < a)) 1000 s.first s'.first) ↔
      1000 ≤ 3 ∨ ∀ a b : ℕ, decide (b < a) = true → decide (a < b) = true) :=
  sortPair_sorts_iff strictWeak_lt strictWeak_lt.flip (by decide)

/-- Two keys in descending order, to be sorted by `>`, end in ascending order. -/
theorem descending_keys_reversed : ¬ SortsPairs (fun a b : ℕ => decide (b < a)) 2 (breaking 1 (2, false) (1, true))
    (SequentialExecutionPolicy.sortPair (fun a b => decide (a < b)) 2 (breaking 1 (2, false) (1, true))) := by
  intro h
  have hsorted := h.1
  rw [← slice_zero] at hsorted
  exact not_pairwise_part (a := (2, false)) (b := (1, true)) strictWeak_lt strictWeak_lt.flip (by decide) (by decide)
    (by decide) (fun _ _ _ => rfl) hsorted

end Result

end Zpc.OmpExecutionPolicy
