import Zpc.OmpBlocks
import Zpc.ThreadTeam
import Zpc.ArraySlice
import Zpc.StableSort

/-!
# Merge sort of the OpenMP policy

Each thread sorts its block bottom-up between the range and a buffer of the same size,
then the blocks are merged pairwise. A thread remembers in `flipped` where its result
is. What a thread does between two barriers is one action here, as no other thread
touches the part of the arrays it works on. In `merge_sort_pair` an entry is a key with
its value, and `less` compares the keys.
-/
namespace Zpc.OmpExecutionPolicy
open ThreadTeam

variable {α : Type*}

section Runs
variable (less : α → α → Bool)

/-- Entry `ll + n` moves down to its place among the entries from `ll` on. -/
def insertKey (ll : ℕ) : ℕ → (ℕ → α) → ℕ → α
  | 0, f => f
  | n + 1, f =>
    if less (f (ll+n+1)) (f (ll+n)) then
      insertKey ll n (Function.update (Function.update f (ll+n+1) (f (ll+n))) (ll+n) (f (ll+n+1)))
    else f

/-- Insertion sort of the positions from `ll` to `rr`. -/
def insertionSort (ll rr : ℕ) (f : ℕ → α) : ℕ → α :=
  (List.range' (ll+1) (rr - (ll+1))).foldl (fun f i => insertKey less ll (i - ll) f) f

/-- The merge of `[left, mid)` and `[right, rr)` of `src` into `dst` from `k` on, `n` being
the number of entries left. -/
def mergeLoop (src : ℕ → α) (mid rr : ℕ) : ℕ → ℕ → ℕ → ℕ → (ℕ → α) → ℕ → α
  | 0, _, _, _, dst => dst
  | n + 1, left, right, k, dst =>
    if left < mid ∧ right < rr then
      if !less (src right) (src left) then
        mergeLoop src mid rr n (left+1) right (k+1) (Function.update dst k (src left))
      else mergeLoop src mid rr n left (right+1) (k+1) (Function.update dst k (src right))
    else if left < mid then mergeLoop src mid rr n (left+1) right (k+1) (Function.update dst k (src left))
    else if right < rr then mergeLoop src mid rr n left (right+1) (k+1) (Function.update dst k (src right))
    else dst

def mergeInto (src : ℕ → α) (ll mid rr : ℕ) (dst : ℕ → α) : ℕ → α :=
  mergeLoop less src mid rr ((mid - ll) + (rr - mid)) ll mid ll dst

/-- The values of `for (ll = l; ll < r; ll += step)`. -/
def starts (step l r : ℕ) : List ℕ := (List.range ((r - l + step - 1) / step)).map fun i => l + step * i

def sortSegments (l r : ℕ) (f : ℕ → α) : ℕ → α :=
  (starts 16 l r).foldl (fun f ll => insertionSort less ll (min (ll+16) r) f) f

/-- One pass: the runs of `half` entries in `src` are merged in pairs into `dst`. -/
def mergeRuns (half l r : ℕ) (src dst : ℕ → α) : ℕ → α :=
  (starts (2*half) l r).foldl (fun dst ll => mergeInto less src ll (min (ll+half) r) (min (ll+2*half) r) dst) dst

end Runs

/-- The range, the buffer, and each thread's memory of where its result is. -/
structure SortState (α : Type*) where
  first : ℕ → α
  ofirst : ℕ → α
  flipped : ℕ → Bool
  switched : Bool

namespace SortState
def buffer (s : SortState α) (b : Bool) : ℕ → α := if b then s.ofirst else s.first

/-- Write to the buffer that thread `tid` does not read, and flip. -/
def turn (s : SortState α) (tid : ℕ) (write : (ℕ → α) → (ℕ → α) → ℕ → α) : SortState α :=
  if s.flipped tid then
    { s with first := write s.ofirst s.first, flipped := Function.update s.flipped tid false }
  else { s with ofirst := write s.first s.ofirst, flipped := Function.update s.flipped tid true }

end SortState

section Threads
variable (less : α → α → Bool) (dist nths : ℕ)

/-- The passes over a block `[l, r)` from runs of `half` entries on. -/
def mergePasses (l r tid half : ℕ) (s : SortState α) : SortState α :=
  if 0 < half ∧ half < r - l then mergePasses l r tid (2*half) (s.turn tid (mergeRuns less half l r)) else s
termination_by r - l - half

/-- What a thread does before the first barrier. -/
def sortBlock (tid : ℕ) (s : SortState α) : SortState α :=
  mergePasses less (st dist nths tid) (ed dist nths tid) tid 16
    { s with
      first := sortSegments less (st dist nths tid) (ed dist nths tid) s.first
      flipped := Function.update s.flipped tid false }

/-- Every `2*half`-th thread merges its part with the next one. -/
def mergeBlocks (half tid : ℕ) (s : SortState α) : SortState α :=
  if tid % (2*half) = 0 then
    s.turn tid fun src dst => mergeInto less src (st dist nths tid) (min (nwork dist nths * (tid + half)) dist)
      (min (nwork dist nths * (tid + 2*half)) dist) dst
  else s

def setSwitched (tid : ℕ) (s : SortState α) : SortState α :=
  if tid = 0 then { s with switched := s.flipped tid } else s

def copyBack (tid : ℕ) (s : SortState α) : SortState α :=
  if s.switched then
    { s with first := fun k => if st dist nths tid ≤ k ∧ k < ed dist nths tid then s.ofirst k else s.first k }
  else s

/-- The merges of blocks, a barrier before each; `pending` is what runs before the first of them. -/
def mergeRounds (half : ℕ) (pending : ℕ → SortState α → SortState α) : List (Segment (SortState α)) :=
  if 0 < half ∧ half < nths then
    (fun tid => [pending tid]) :: mergeRounds (2*half) (mergeBlocks less dist nths half)
  else [fun tid => [fun s => setSwitched tid (pending tid s)], fun tid => [copyBack dist nths tid]]
termination_by nths - half

def mergeSort : List (Segment (SortState α)) := mergeRounds less dist nths 1 (sortBlock less dist nths)

end Threads

end Zpc.OmpExecutionPolicy

/-!
## The block of one thread in the OpenMP merge sort

Insertion sort makes runs of 16 entries, and every pass merges the runs of one buffer in
pairs into the other. After the passes the buffer that `flipped` names holds the stable
sort of the block; the other one still holds the runs of the last pass, or what it held
before when there was none.
-/
namespace Zpc.OmpExecutionPolicy
open ArraySlice StableSort

variable {α : Type*} {less : α → α → Bool}

section Insertion
theorem insertKey_frame {ll k : ℕ} (n : ℕ) (f : ℕ → α) (hk : k < ll ∨ ll + n < k) : insertKey less ll n f k = f k := by
  induction n generalizing f with
  | zero => rfl
  | succ n ih =>
    rw [insertKey]
    split
    · rw [ih _ (by omega), Function.update_of_ne (by omega), Function.update_of_ne (by omega)]
    · rfl

theorem mergeBy_concat {x y : α} (h : less x y = true) (xs : List α) :
    mergeBy less (xs ++ [y]) [x] = mergeBy less xs [x] ++ [y] := by
  induction xs with
  | nil => simp [mergeBy, h]
  | cons a xs ih =>
    rw [mergeBy, mergeBy, List.cons_append, List.cons_merge_cons, List.cons_merge_cons]
    split
    · exact congrArg (a :: ·) ih
    · rw [List.merge_right, List.merge_right]
      rfl

/-- An entry that moves down merges with the sorted entries before it. -/
theorem slice_insertKey (h : StrictWeak less) (ll n : ℕ) (f : ℕ → α)
    (hs : (slice f ll (ll+n)).Pairwise fun a b => less b a = false) :
    slice (insertKey less ll n f) ll (ll+n+1) = mergeBy less (slice f ll (ll+n)) [f (ll+n)] := by
  induction n generalizing f with
  | zero =>
    show slice f ll (ll+1) = mergeBy less (slice f ll ll) [f ll]
    rw [slice_single, slice_of_le le_rfl, mergeBy, List.nil_merge]
  | succ n ih =>
    have hlast : slice f ll (ll+n+1) = slice f ll (ll+n) ++ [f (ll+n)] := slice_succ (Nat.le_add_right ll n)
    rw [insertKey, ← Nat.add_assoc]
    split
    next hless =>
      -- the two entries change places
      let g := Function.update (Function.update f (ll+n+1) (f (ll+n))) (ll+n) (f (ll+n+1))
      have hg : slice g ll (ll+n) = slice f ll (ll+n) :=
        (slice_update (.inr le_rfl)).trans (slice_update (.inr (by omega)))
      have hx : g (ll+n) = f (ll+n+1) := Function.update_self _ _ _
      have hy : insertKey less ll n g (ll+n+1) = f (ll+n) :=
        (insertKey_frame n g (.inr (by omega))).trans
          ((Function.update_of_ne (by omega) _ _).trans (Function.update_self _ _ _))
      rw [hlast, mergeBy_concat hless, slice_succ (by omega), hy, ih g, hg, hx]
      rw [hg]
      rw [← Nat.add_assoc, hlast] at hs
      exact (List.pairwise_append.mp hs).1
    next hless =>
      -- the entry is not less than the one before it, hence than none
      rw [Bool.not_eq_true] at hless
      rw [slice_succ (by omega)]
      refine (mergeBy_of_le fun a ha b hb => ?_).symm
      rw [List.mem_singleton] at hb
      rw [hb]
      rw [← Nat.add_assoc, hlast] at hs
      rw [hlast, List.mem_append, List.mem_singleton] at ha
      rcases ha with ha | rfl
      · exact h.not_less ((List.pairwise_append.mp hs).2.2 a ha _ (List.mem_singleton.mpr rfl)) hless
      · exact hless

theorem pairwise_stableSort (h : StrictWeak less) (l : List α) :
    (stableSort less l).Pairwise fun a b => less b a = false :=
  (pairwise_mergeSort h.preordered l).imp fun hab => by simpa using hab

theorem stableSort_singleton (a : α) : stableSort less [a] = [a] := List.mergeSort_singleton a

theorem insertionSort_loop (h : StrictWeak less) (ll m : ℕ) (f : ℕ → α) :
    slice ((List.range' (ll+1) m).foldl (fun f i => insertKey less ll (i - ll) f) f) ll (ll+1+m) =
        stableSort less (slice f ll (ll+1+m)) ∧
      ∀ k, k < ll ∨ ll + 1 + m ≤ k → (List.range' (ll+1) m).foldl (fun f i => insertKey less ll (i - ll) f) f k = f k := by
  induction m with
  | zero =>
    refine ⟨?_, fun _ _ => rfl⟩
    rw [List.range'_zero, List.foldl_nil, Nat.add_zero, slice_single, stableSort_singleton]
  | succ m ih =>
    rw [List.range'_concat, List.foldl_append, List.foldl_cons, List.foldl_nil, Nat.one_mul,
      show ll + 1 + m - ll = m + 1 by omega]
    constructor
    · rw [show ll + 1 + (m + 1) = ll + (m + 1) + 1 by omega, slice_insertKey h, show ll + (m + 1) = ll + 1 + m by omega,
        ih.1, ih.2 _ (.inr le_rfl), slice_succ (by omega), ← mergeBy_stableSort h, stableSort_singleton]
      rw [show ll + (m + 1) = ll + 1 + m by omega, ih.1]
      exact pairwise_stableSort h _
    · intro k hk
      rw [insertKey_frame _ _ (by omega)]
      exact ih.2 k (by omega)

theorem slice_insertionSort (h : StrictWeak less) {ll rr : ℕ} (hr : ll < rr) (f : ℕ → α) :
    slice (insertionSort less ll rr f) ll rr = stableSort less (slice f ll rr) := by
  have hloop := (insertionSort_loop h ll (rr - (ll+1)) f).1
  rwa [show ll + 1 + (rr - (ll+1)) = rr by omega] at hloop

theorem insertionSort_frame (h : StrictWeak less) {ll rr k : ℕ} (f : ℕ → α) (hk : ¬ (ll ≤ k ∧ k < rr)) :
    insertionSort less ll rr f k = f k := by
  rcases Nat.lt_or_ge ll rr with hr | hr
  · exact (insertionSort_loop h ll (rr - (ll+1)) f).2 k (by omega)
  · rw [insertionSort, Nat.sub_eq_zero_of_le (by omega)]
    rfl

end Insertion

section Merging
variable {src dst : ℕ → α} {mid rr : ℕ}

theorem mergeLoop_frame (n : ℕ) {left right k j : ℕ} (dst : ℕ → α) (hj : j < k ∨ k + n ≤ j) :
    mergeLoop less src mid rr n left right k dst j = dst j := by
  induction n generalizing left right k dst with
  | zero => rfl
  | succ n ih =>
    have hput : ∀ l r x, mergeLoop less src mid rr n l r (k+1) (Function.update dst k x) j = dst j := by
      intro l r x
      rw [ih _ (by omega), Function.update_of_ne (by omega)]
    rw [mergeLoop]
    split_ifs <;> first | rfl | exact hput _ _ _

/-- The loop writes the merge of what is left of both runs. -/
theorem slice_mergeLoop (less : α → α → Bool) (src : ℕ → α) (n : ℕ) {left right : ℕ} (k : ℕ) (dst : ℕ → α) (hn : (mid - left) + (rr - right) = n) :
    slice (mergeLoop less src mid rr n left right k dst) k (k+n) =
      mergeBy less (slice src left mid) (slice src right rr) := by
  induction n generalizing left right k dst with
  | zero =>
    rw [slice_of_le (by omega : k + 0 ≤ k), slice_of_le (by omega : mid ≤ left), slice_of_le (by omega : rr ≤ right),
      mergeBy, List.nil_merge]
  | succ n ih =>
    have hput : ∀ l r x, (mid - l) + (rr - r) = n →
        slice (mergeLoop less src mid rr n l r (k+1) (Function.update dst k x)) k (k+(n+1)) =
          x :: mergeBy less (slice src l mid) (slice src r rr) := by
      intro l r x hlr
      rw [slice_cons (by omega), mergeLoop_frame n _ (.inl k.lt_succ_self), Function.update_self,
        show k + (n+1) = k + 1 + n by omega, ih _ _ hlr]
    rw [mergeLoop]
    split_ifs with hboth hless hl hr
    · rw [hput _ _ _ (by omega), slice_cons hboth.1, slice_cons hboth.2, mergeBy, mergeBy, List.cons_merge_cons,
        if_pos hless]
    · rw [hput _ _ _ (by omega), slice_cons hboth.1, slice_cons hboth.2, mergeBy, mergeBy, List.cons_merge_cons,
        if_neg hless]
    · have hnil : slice src right rr = [] := slice_of_le (by omega)
      rw [hput _ _ _ (by omega), slice_cons hl, hnil, mergeBy, mergeBy, List.merge_right, List.merge_right]
    · have hnil : slice src left mid = [] := slice_of_le (by omega)
      rw [hput _ _ _ (by omega), slice_cons hr, hnil, mergeBy, mergeBy, List.nil_merge, List.nil_merge]
    · omega

theorem slice_mergeInto {ll : ℕ} (hl : ll ≤ mid) (hr : mid ≤ rr) (dst : ℕ → α) :
    slice (mergeInto less src ll mid rr dst) ll rr = mergeBy less (slice src ll mid) (slice src mid rr) := by
  have hloop := slice_mergeLoop less src _ ll dst (rfl : (mid - ll) + (rr - mid) = _)
  rwa [show ll + ((mid - ll) + (rr - mid)) = rr by omega] at hloop

theorem mergeInto_frame {ll k : ℕ} (hr : mid ≤ rr) (hl : ll ≤ mid ∨ mid = rr) (dst : ℕ → α)
    (hk : ¬ (ll ≤ k ∧ k < rr)) : mergeInto less src ll mid rr dst k = dst k := by
  rcases Nat.lt_or_ge mid ll with hlt | hge
  · -- a thread without entries
    rw [mergeInto, show (mid - ll) + (rr - mid) = 0 by omega]
    rfl
  · exact mergeLoop_frame _ dst (by omega)

end Merging

end Zpc.OmpExecutionPolicy
