import Mathlib.Data.Nat.Bits
import Zpc.OmpMergeRuns

/-!
# The passes of one thread over its block

After `passCount` passes the buffer that `flipped` names holds the stable sort of the
block. The other buffer still holds the runs that the last pass has merged; without any
pass it is untouched.
-/
namespace Zpc.OmpExecutionPolicy
open ArraySlice StableSort

variable {α : Type*} {less : α → α → Bool} {half l r tid : ℕ} {f₀ src dst : ℕ → α} {s : SortState α}

/-- The number of passes over a block of `len` entries whose runs have `half` entries. -/
def passCount (half len : ℕ) : ℕ := if 0 < half ∧ half < len then passCount (2*half) len + 1 else 0
termination_by len - half

/-- Every run of `half` entries of `[l, r)` is the stable sort of the entries that `f₀` has there. -/
def SortedRuns (less : α → α → Bool) (half l r : ℕ) (f₀ f : ℕ → α) : Prop := ∀ i, l + half * i < r →
  slice f (l + half * i) (runEnd half l r i) = stableSort less (slice f₀ (l + half * i) (runEnd half l r i))

theorem stableSort_nil : stableSort less [] = [] := List.mergeSort_nil

theorem SortedRuns.whole (h : SortedRuns less half l r f₀ src) (hr : r - l ≤ half) :
    slice src l r = stableSort less (slice f₀ l r) := by
  rcases Nat.lt_or_ge l r with hlt | hge
  · have h0 := h 0 hlt
    rwa [Nat.mul_zero, Nat.add_zero, runEnd, Nat.mul_zero, Nat.add_zero, Nat.min_eq_right (by omega)] at h0
  · rw [slice_of_le hge, slice_of_le hge, stableSort_nil]

theorem lt_count {step i : ℕ} (hs : 0 < step) : i < (r - l + step - 1) / step ↔ l + step * i < r := by
  rw [← Nat.succ_le_iff, Nat.le_div_iff_mul_le hs, Nat.succ_mul, Nat.mul_comm]
  omega

theorem sortSegments_spec (h : StrictWeak less) (f : ℕ → α) :
    SortedRuns less 16 l r f (sortSegments less l r f) ∧ ∀ k, ¬ (l ≤ k ∧ k < r) → sortSegments less l r f k = f k := by
  have hfold := slice_foldl 16 l r (fun i f => insertionSort less (l + 16 * i) (runEnd 16 l r i) f) (fun _ => stableSort less)
    (fun i f k hk => insertionSort_frame h f hk) ?_ ((r - l + 16 - 1) / 16) f
  · rw [sortSegments, starts, List.foldl_map]
    exact ⟨fun i hi => hfold.1 i ((lt_count (by omega)).mpr hi), fun k hk => hfold.2 k (by omega)⟩
  · intro i f
    rcases Nat.lt_or_ge (l + 16 * i) (runEnd 16 l r i) with hlt | hge
    · exact slice_insertionSort h hlt f
    · rw [slice_of_le hge, slice_of_le hge, stableSort_nil]

theorem mergeRuns_spec (hh : 0 < half) (src dst : ℕ → α) :
    (∀ i, l + 2 * half * i < r → slice (mergeRuns less half l r src dst) (l + 2 * half * i) (runEnd (2*half) l r i) =
      mergeBy less (slice src (l + 2 * half * i) (min (l + 2 * half * i + half) r))
        (slice src (min (l + 2 * half * i + half) r) (runEnd (2*half) l r i))) ∧
    ∀ k, ¬ (l ≤ k ∧ k < r) → mergeRuns less half l r src dst k = dst k := by
  have hfold := slice_foldl (2 * half) l r
    (fun i dst => mergeInto less src (l + 2 * half * i) (min (l + 2 * half * i + half) r) (runEnd (2*half) l r i) dst)
    (fun i _ => mergeBy less (slice src (l + 2 * half * i) (min (l + 2 * half * i + half) r))
      (slice src (min (l + 2 * half * i + half) r) (runEnd (2*half) l r i))) ?_ ?_ ((r - l + 2 * half - 1) / (2 * half)) dst
  · rw [mergeRuns, starts, List.foldl_map]
    exact ⟨fun i hi => hfold.1 i ((lt_count (by omega)).mpr hi), fun k hk => hfold.2 k (by omega)⟩
  · intro i f k hk
    exact mergeInto_frame (by unfold runEnd; omega) (by unfold runEnd; omega) f hk
  · intro i f
    rcases Nat.lt_or_ge (l + 2 * half * i) r with hlt | hge
    · exact slice_mergeInto (by omega) (by unfold runEnd; omega) f
    · have hend : runEnd (2*half) l r i = r := Nat.min_eq_right (by omega)
      rw [hend, Nat.min_eq_right (by omega), slice_of_le hge, slice_of_le hge, slice_of_le le_rfl, mergeBy,
        List.nil_merge]

/-- A pass doubles the runs. -/
theorem SortedRuns.merge (h : StrictWeak less) (hh : 0 < half) (hs : SortedRuns less half l r f₀ src) (dst : ℕ → α) :
    SortedRuns less (2*half) l r f₀ (mergeRuns less half l r src dst) := by
  intro i hi
  have heven : l + half * (2 * i) = l + 2 * half * i := by rw [Nat.mul_comm 2 half, Nat.mul_assoc]
  have hodd : l + half * (2 * i + 1) = l + 2 * half * i + half := by rw [Nat.mul_succ, ← Nat.add_assoc, heven]
  have hfirst := hs (2*i)
  have hsecond := hs (2*i+1)
  unfold runEnd at hfirst hsecond
  rw [heven] at hfirst
  rw [hodd] at hsecond
  have hmid : slice src (min (l + 2 * half * i + half) r) (runEnd (2*half) l r i) =
      stableSort less (slice f₀ (min (l + 2 * half * i + half) r) (runEnd (2*half) l r i)) := by
    rcases Nat.lt_or_ge (l + 2 * half * i + half) r with hlt | hge
    · rw [Nat.min_eq_left hlt.le, runEnd, show l + 2 * half * i + 2 * half = l + 2 * half * i + half + half by omega]
      exact hsecond hlt
    · rw [Nat.min_eq_right hge, slice_of_le (by unfold runEnd; omega), slice_of_le (by unfold runEnd; omega),
        stableSort_nil]
  rw [(mergeRuns_spec hh src dst).1 i hi, hfirst hi, hmid, mergeBy_stableSort h,
    slice_append (by omega) (by unfold runEnd; omega)]

section Turn
variable {write : (ℕ → α) → (ℕ → α) → ℕ → α}

@[simp] theorem SortState.turn_flipped : (s.turn tid write).flipped = Function.update s.flipped tid (!s.flipped tid) := by
  rw [turn]
  split
  next h => rw [h]; rfl
  next h => rw [Bool.not_eq_true] at h; rw [h]; rfl

@[simp] theorem SortState.turn_switched : (s.turn tid write).switched = s.switched := by
  rw [turn]
  split <;> rfl

theorem SortState.turn_written :
    (s.turn tid write).buffer (!s.flipped tid) = write (s.buffer (s.flipped tid)) (s.buffer (!s.flipped tid)) := by
  rw [turn]
  split
  next h => rw [h]; rfl
  next h => rw [Bool.not_eq_true] at h; rw [h]; rfl

theorem SortState.turn_read : (s.turn tid write).buffer (s.flipped tid) = s.buffer (s.flipped tid) := by
  rw [turn]
  split
  next h => rw [h]; rfl
  next h => rw [Bool.not_eq_true] at h; rw [h]; rfl

theorem SortState.turn_frame {k : ℕ} (h : ∀ src dst, write src dst k = dst k) (b : Bool) :
    (s.turn tid write).buffer b k = s.buffer b k := by
  rcases Bool.eq_or_eq_not b (s.flipped tid) with rfl | rfl
  · rw [turn_read]
  · rw [turn_written, h]

end Turn

/-- The state of a thread after its passes from runs of `half` entries on. -/
structure Passed (less : α → α → Bool) (l r tid half : ℕ) (f₀ : ℕ → α) (s s' : SortState α) : Prop where
  flipped : s'.flipped = Function.update s.flipped tid (s.flipped tid ^^ (passCount half (r - l)).bodd)
  switched : s'.switched = s.switched
  frame : ∀ b k, ¬ (l ≤ k ∧ k < r) → s'.buffer b k = s.buffer b k
  sorted : slice (s'.buffer (s'.flipped tid)) l r = stableSort less (slice f₀ l r)
  unread : passCount half (r - l) = 0 → s' = s
  stale : 0 < passCount half (r - l) →
    ∃ m, 0 < m ∧ m < r - l ∧ SortedRuns less m l r f₀ (s'.buffer (!s'.flipped tid))

theorem mergePasses_spec (h : StrictWeak less) (hh : 0 < half)
    (hs : SortedRuns less half l r f₀ (s.buffer (s.flipped tid))) :
    Passed less l r tid half f₀ s (mergePasses less l r tid half s) := by
  induction half, s using mergePasses.induct less l r tid with
  | case1 half s hlt ih =>
    have hnew : SortedRuns less (2*half) l r f₀
        ((s.turn tid (mergeRuns less half l r)).buffer ((s.turn tid (mergeRuns less half l r)).flipped tid)) := by
      rw [SortState.turn_flipped, Function.update_self, SortState.turn_written]
      exact hs.merge h hh _
    obtain ⟨hflipped, hswitched, hframe, hsorted, hunread, hstale⟩ := ih (by omega) hnew
    rw [mergePasses, if_pos hlt]
    have hcount : passCount half (r - l) = passCount (2*half) (r - l) + 1 := by rw [passCount, if_pos hlt]
    refine ⟨?_, ?_, ?_, hsorted, fun h0 => by omega, fun _ => ?_⟩
    · rw [hflipped, SortState.turn_flipped, Function.update_self, Function.update_idem, hcount, Nat.bodd_succ]
      congr 1
      cases s.flipped tid <;> cases (passCount (2*half) (r - l)).bodd <;> rfl
    · rw [hswitched, SortState.turn_switched]
    · intro b k hk
      rw [hframe b k hk]
      exact SortState.turn_frame (fun src dst => (mergeRuns_spec hh src dst).2 k hk) b
    · rcases Nat.eq_zero_or_pos (passCount (2*half) (r - l)) with h0 | hpos
      · -- this was the last pass
        refine ⟨half, hh, hlt.2, ?_⟩
        rw [hunread h0, SortState.turn_flipped, Function.update_self, Bool.not_not, SortState.turn_read]
        exact hs
      · exact hstale hpos
  | case2 half s hge =>
    have hcount : passCount half (r - l) = 0 := by rw [passCount, if_neg hge]
    rw [mergePasses, if_neg hge]
    refine ⟨?_, rfl, fun _ _ _ => rfl, hs.whole (by omega), fun _ => rfl, fun hpos => by omega⟩
    rw [hcount, Nat.bodd_zero, Bool.xor_false, Function.update_eq_self]

section Block
variable {dist nths : ℕ}

theorem sortBlock_spec (dist nths : ℕ) (h : StrictWeak less) (tid : ℕ) (s : SortState α) :
    Passed less (st dist nths tid) (ed dist nths tid) tid 16 s.first
      { s with
        first := sortSegments less (st dist nths tid) (ed dist nths tid) s.first
        flipped := Function.update s.flipped tid false }
      (sortBlock less dist nths tid s) := by
  refine mergePasses_spec h (by decide) ?_
  dsimp only
  rw [Function.update_self]
  exact (sortSegments_spec h s.first).1

theorem sortBlock_flipped (h : StrictWeak less) (tid : ℕ) (s : SortState α) : (sortBlock less dist nths tid s).flipped =
    Function.update s.flipped tid (passCount 16 (ed dist nths tid - st dist nths tid)).bodd := by
  rw [(sortBlock_spec _ _ h tid s).flipped]
  dsimp only
  rw [Function.update_self, Bool.false_xor, Function.update_idem]

theorem sortBlock_frame (h : StrictWeak less) (tid : ℕ) (s : SortState α) (b : Bool) {k : ℕ}
    (hk : ¬ Owns dist nths tid k) : (sortBlock less dist nths tid s).buffer b k = s.buffer b k := by
  rw [(sortBlock_spec _ _ h tid s).frame b k hk]
  cases b with
  | true => rfl
  | false => exact (sortSegments_spec h s.first).2 k hk

end Block

end Zpc.OmpExecutionPolicy
