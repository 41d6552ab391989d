import Zpc.OmpMergeBlock

/-!
# Merging the blocks of the threads

A round reads the part of a thread and that of its partner from the buffer that the
thread's own `flipped` names. Before each round there is a buffer from which the parts
that get absorbed are read; a thread that reads from the other one has nothing to absorb.
-/
namespace Zpc.OmpExecutionPolicy
open ArraySlice StableSort ThreadTeam

variable {α : Type*} {less : α → α → Bool} {dist nths half tid t lo hi : ℕ} {s s' : SortState α}

/-- The end of the part that thread `t` holds when `half` threads share one. -/
def partEnd (dist nths half t : ℕ) : ℕ := min (nwork dist nths * (t + half)) dist

/-- The states agree on `[lo, hi)` of both buffers and on where the result of `tid` is. -/
def Agree (lo hi tid : ℕ) (s s' : SortState α) : Prop :=
  (∀ b k, lo ≤ k → k < hi → s'.buffer b k = s.buffer b k) ∧ s'.flipped tid = s.flipped tid

theorem Agree.refl (s : SortState α) : Agree lo hi tid s s := ⟨fun _ _ _ _ => rfl, rfl⟩

theorem Agree.trans {s₁ s₂ s₃ : SortState α} (h : Agree lo hi tid s₁ s₂) (h' : Agree lo hi tid s₂ s₃) :
    Agree lo hi tid s₁ s₃ :=
  ⟨fun b k hl hr => (h'.1 b k hl hr).trans (h.1 b k hl hr), h'.2.trans h.2⟩

theorem Agree.slice (h : Agree lo hi tid s s') (b : Bool) {l r : ℕ} (hl : lo ≤ l) (hr : r ≤ hi) :
    slice (s'.buffer b) l r = slice (s.buffer b) l r :=
  slice_congr fun k hk hk' => h.1 b k (hl.trans hk) (by omega)

/-- Thread `tid` has taken its action on its own part of the arrays. -/
def Acted (f : ℕ → SortState α → SortState α) (lo hi tid : ℕ) (s s' : SortState α) : Prop :=
  ∃ s₁, Agree lo hi tid s s₁ ∧ Agree lo hi tid (f tid s₁) s'

/-- An action on the memory of one thread. -/
def Private (f : ℕ → SortState α → SortState α) : Prop :=
  ∀ u s, (f u s).switched = s.switched ∧ ∀ t, t ≠ u → (f u s).flipped t = s.flipped t

theorem sortBlock_private (h : StrictWeak less) : Private (sortBlock less dist nths) := by
  intro u s
  refine ⟨(sortBlock_spec _ _ h u s).switched, fun t ht => ?_⟩
  rw [sortBlock_flipped h, Function.update_of_ne ht]

theorem mergeBlocks_private : Private (mergeBlocks less dist nths half) := by
  intro u s
  rw [mergeBlocks]
  split
  · exact ⟨SortState.turn_switched, fun t ht => by rw [SortState.turn_flipped, Function.update_of_ne ht]⟩
  · exact ⟨rfl, fun _ _ => rfl⟩

section Arranged
/-- Parts before a round: `L t` is the part of thread `t`, read from buffer `b` when its
partner absorbs it; a thread that merges holds its own, and reads from `b` too unless it
is the last one. -/
structure Arranged (dist nths half : ℕ) (b : Bool) (L : ℕ → List α) (s : SortState α) (t : ℕ) : Prop where
  absorbed : t % (2*half) ≠ 0 → slice (s.buffer b) (st dist nths t) (partEnd dist nths half t) = L t
  merging : t % (2*half) = 0 → slice (s.buffer (s.flipped t)) (st dist nths t) (partEnd dist nths half t) = L t
  reads : t % (2*half) = 0 → s.flipped t = b ∨ dist ≤ nwork dist nths * (t + half)

theorem partEnd_le_dist (t : ℕ) : partEnd dist nths half t ≤ dist := Nat.min_le_right _ _

theorem partEnd_le (hh : 0 < half) (t : ℕ) : partEnd dist nths half t ≤ partEnd dist nths (2*half) t := by
  have : nwork dist nths * (t + half) ≤ nwork dist nths * (t + 2*half) := Nat.mul_le_mul_left _ (by omega)
  unfold partEnd
  omega

theorem partEnd_whole (hn : 0 < nths) (hge : nths ≤ half) : partEnd dist nths half 0 = dist := by
  have := (dist_le hn).trans (Nat.mul_le_mul_left (nwork dist nths) (show nths ≤ 0 + half by omega))
  exact Nat.min_eq_right this

theorem mergeBlocks_frame (hh : 0 < half) (u : ℕ) (s : SortState α) (b : Bool) {k : ℕ}
    (hk : u % (2*half) = 0 → ¬ (st dist nths u ≤ k ∧ k < partEnd dist nths (2*half) u)) :
    (mergeBlocks less dist nths half u s).buffer b k = s.buffer b k := by
  rw [mergeBlocks]
  split
  next hu =>
    refine SortState.turn_frame (fun src dst => ?_) b
    refine mergeInto_frame (partEnd_le hh u) ?_ dst (hk hu)
    have hst : st dist nths u ≤ nwork dist nths * (u + half) := Nat.mul_le_mul_left _ (Nat.le_add_right u half)
    have hle : partEnd dist nths half u ≤ partEnd dist nths (2*half) u := partEnd_le hh u
    unfold partEnd at hle ⊢
    omega
  next => rfl

theorem add_le_of_mod {m u : ℕ} (ht : t % m = 0) (hu : u % m = 0) (hlt : t < u) : t + m ≤ u := by
  obtain ⟨a, rfl⟩ := Nat.dvd_of_mod_eq_zero ht
  obtain ⟨c, rfl⟩ := Nat.dvd_of_mod_eq_zero hu
  rw [← Nat.mul_succ]
  exact Nat.mul_le_mul_left m (Nat.lt_of_mul_lt_mul_left hlt)

theorem mergeBlocks_agree (hh : 0 < half) (ht : t % (2*half) = 0) {u : ℕ} (hu : u ≠ t) (s : SortState α) :
    Agree (st dist nths t) (partEnd dist nths (2*half) t) t s (mergeBlocks less dist nths half u s) := by
  refine ⟨fun b k hl hr => mergeBlocks_frame hh u s b fun hu0 hk => ?_, (mergeBlocks_private u s).2 t hu.symm⟩
  unfold partEnd at hr hk
  rcases Nat.lt_or_gt_of_ne hu with hlt | hlt
  · have : nwork dist nths * (u + 2*half) ≤ st dist nths t := Nat.mul_le_mul_left _ (add_le_of_mod hu0 ht hlt)
    omega
  · have : nwork dist nths * (t + 2*half) ≤ st dist nths u := Nat.mul_le_mul_left _ (add_le_of_mod ht hu0 hlt)
    omega

theorem partner_mod (hh : 0 < half) (ht : t % (2*half) = 0) : (t + half) % (2*half) ≠ 0 := by
  rw [Nat.add_mod, ht, Nat.zero_add, Nat.mod_mod, Nat.mod_eq_of_lt (by omega)]
  omega

/-- What a merging thread finds beside its own part. -/
theorem Arranged.partner (hn : 0 < nths) (hh : 0 < half) {b : Bool} {L : ℕ → List α}
    (h : ∀ t < nths, t % half = 0 → Arranged dist nths half b L s t) (hL : ∀ t, dist ≤ st dist nths t → L t = [])
    (ht : t < nths) (ht0 : t % (2*half) = 0) :
    slice (s.buffer (s.flipped t)) (partEnd dist nths half t) (partEnd dist nths (2*half) t) = L (t+half) := by
  have hthalf : t % half = 0 := Nat.mod_eq_zero_of_dvd (dvd_of_mul_left_dvd (Nat.dvd_of_mod_eq_zero ht0))
  rcases Nat.lt_or_ge (st dist nths (t+half)) dist with hlt | hge
  · -- the partner has entries, so the thread is not the last
    have hlt' : nwork dist nths * (t + half) < dist := hlt
    have hpn : t + half < nths := by
      by_contra hge
      have := (dist_le hn).trans (Nat.mul_le_mul_left (nwork dist nths) (Nat.le_of_not_lt hge))
      omega
    have hflag := ((h t ht hthalf).reads ht0).resolve_right (Nat.not_le_of_lt hlt')
    have hread := (h (t+half) hpn (by rw [Nat.add_mod_right, hthalf])).absorbed (partner_mod hh ht0)
    rw [hflag, ← hread, partEnd, partEnd, partEnd, Nat.min_eq_left hlt'.le, st,
      show t + half + half = t + 2*half by omega]
  · have hge' : dist ≤ nwork dist nths * (t + half) := hge
    rw [hL _ hge, slice_of_le]
    exact (partEnd_le_dist t).trans (Nat.le_min.mpr ⟨hge', le_rfl⟩)

/-- A round merges the parts in pairs and changes the buffer. -/
theorem Arranged.round (hn : 0 < nths) (hh : 0 < half) {b : Bool} {L : ℕ → List α}
    (h : ∀ t < nths, t % half = 0 → Arranged dist nths half b L s t) (hL : ∀ t, dist ≤ st dist nths t → L t = [])
    (ht : t < nths) (ht0 : t % (2*half) = 0)
    (ha : Acted (mergeBlocks less dist nths half) (st dist nths t) (partEnd dist nths (2*half) t) t s s') :
    Arranged dist nths (2*half) (!b) (fun t => mergeBy less (L t) (L (t+half))) s' t := by
  have hthalf : t % half = 0 := Nat.mod_eq_zero_of_dvd (dvd_of_mul_left_dvd (Nat.dvd_of_mod_eq_zero ht0))
  obtain ⟨s₁, hbefore, hafter⟩ := ha
  rw [mergeBlocks, if_pos ht0] at hafter
  have hflipped : s'.flipped t = !s.flipped t := by
    rw [hafter.2, SortState.turn_flipped, Function.update_self, hbefore.2]
  have hle : partEnd dist nths half t ≤ _ := partEnd_le hh t
  have hmerged : slice (s'.buffer (!s.flipped t)) (st dist nths t) (partEnd dist nths (2*half) t) =
      mergeBy less (L t) (L (t+half)) := by
    rcases Nat.lt_or_ge (st dist nths t) dist with hact | hidle
    · have hst : st dist nths t ≤ partEnd dist nths half t :=
        Nat.le_min.mpr ⟨Nat.mul_le_mul_left _ (Nat.le_add_right t half), hact.le⟩
      rw [hafter.slice _ le_rfl le_rfl, ← hbefore.2, SortState.turn_written, hbefore.2]
      refine (slice_mergeInto hst hle _).trans ?_
      congr 1
      · exact (hbefore.slice _ le_rfl hle).trans ((h t ht hthalf).merging ht0)
      · exact (hbefore.slice _ hst le_rfl).trans (Arranged.partner hn hh h hL ht ht0)
    · have hidle' : dist ≤ st dist nths (t+half) := hidle.trans (Nat.mul_le_mul_left _ (Nat.le_add_right t half))
      rw [hL t hidle, hL _ hidle', slice_of_le ((partEnd_le_dist t).trans hidle), mergeBy, List.nil_merge]
  -- a thread with nothing to absorb now has its part in both buffers
  have hkept : dist ≤ nwork dist nths * (t + half) →
      slice (s'.buffer (s.flipped t)) (st dist nths t) (partEnd dist nths (2*half) t) = mergeBy less (L t) (L (t+half)) := by
    intro hlast
    have hend : partEnd dist nths (2*half) t = partEnd dist nths half t :=
      le_antisymm ((partEnd_le_dist t).trans (Nat.le_min.mpr ⟨hlast, le_rfl⟩)) hle
    rw [hL _ hlast, mergeBy, List.merge_right, hafter.slice _ le_rfl le_rfl, ← hbefore.2, SortState.turn_read,
      hbefore.2, hend, hbefore.slice _ le_rfl hle]
    exact (h t ht hthalf).merging ht0
  have hlast : dist ≤ nwork dist nths * (t + half) → dist ≤ nwork dist nths * (t + 2*half) :=
    fun hd => hd.trans (Nat.mul_le_mul_left _ (by omega))
  refine ⟨fun _ => ?_, fun _ => by rw [hflipped]; exact hmerged, fun _ => ?_⟩
  · rcases (h t ht hthalf).reads ht0 with hflag | hd
    · rw [← hflag]
      exact hmerged
    · rcases Bool.eq_or_eq_not b (s.flipped t) with rfl | rfl
      · exact hmerged
      · rw [Bool.not_not]
        exact hkept hd
  · rcases (h t ht hthalf).reads ht0 with hflag | hd
    · exact .inl (by rw [hflipped, hflag])
    · exact .inr (hlast hd)

end Arranged

section Rounds
/-- The parts of the threads merged pairwise, then those of pairs, and so on. -/
def merged (less : α → α → Bool) (nths half : ℕ) (L : ℕ → List α) : List α :=
  if 0 < half ∧ half < nths then merged less nths (2*half) fun t => mergeBy less (L t) (L (t+half)) else L 0
termination_by nths - half

theorem acted_of_runs {f g : ℕ → SortState α → SortState α} (hg : ∀ u s lo hi t, Agree lo hi t (f u s) (g u s))
    (h : Runs nths (fun u => [g u]) s s') (ht : t < nths)
    (hkeep : ∀ u < nths, u ≠ t → ∀ s, Agree lo hi t s (f u s)) : Acted f lo hi t s s' := by
  obtain ⟨s₁, hs, hs'⟩ := h.owned (Agree lo hi t) ht Agree.refl (fun _ _ _ => Agree.trans)
    (fun u hu hut s => (hkeep u hu hut s).trans (hg u s lo hi t))
  exact ⟨s₁, hs, (hg t s₁ lo hi t).trans hs'⟩

theorem setSwitched_agree (u : ℕ) (s : SortState α) (lo hi t : ℕ) : Agree lo hi t s (setSwitched u s) := by
  rw [setSwitched]
  split <;> exact ⟨fun _ _ _ _ => rfl, rfl⟩

/-- Thread 0 announces where its result is. -/
theorem switched_of_runs {f : ℕ → SortState α → SortState α} (hf : Private f) (hn : 0 < nths)
    (h : Runs nths (fun u => [fun s => setSwitched u (f u s)]) s s') : s'.switched = s'.flipped 0 := by
  obtain ⟨s₁, -, hs'⟩ := h.owned (fun a b => b.switched = a.switched ∧ b.flipped 0 = a.flipped 0) hn
    (fun _ => ⟨rfl, rfl⟩) (fun _ _ _ hab hbc => ⟨hbc.1.trans hab.1, hbc.2.trans hab.2⟩) (fun u _ hu s => by
      rw [setSwitched, if_neg hu]
      exact ⟨(hf u s).1, (hf u s).2 0 hu.symm⟩)
  rw [hs'.1, hs'.2]
  rfl

/-- At the end the range holds what the buffer of thread 0 holds. -/
theorem first_of_copyBack (hn : 0 < nths) (h : Runs nths (fun u => [copyBack dist nths u]) s s') {k : ℕ} (hk : k < dist) :
    s'.first k = s.buffer s.switched k := by
  have hown : Owns dist nths (k / nwork dist nths) k := (owns_iff hn).mpr ⟨hk, rfl⟩
  obtain ⟨s₁, hs, hs'⟩ := h.owned
    (fun a b => b.switched = a.switched ∧ b.first k = a.first k ∧ b.ofirst k = a.ofirst k) (owner_lt hn hk)
    (fun _ => ⟨rfl, rfl, rfl⟩)
    (fun _ _ _ hab hbc => ⟨hbc.1.trans hab.1, hbc.2.1.trans hab.2.1, hbc.2.2.trans hab.2.2⟩) (fun u _ hu s => by
      rw [copyBack]
      split
      · exact ⟨rfl, if_neg (not_owns_other hn hown hu), rfl⟩
      · exact ⟨rfl, rfl, rfl⟩)
  rw [hs'.2.1, copyBack, SortState.buffer, ← hs.1]
  split
  · exact (if_pos hown).trans hs.2.2
  · exact hs.2.1

/-- Every run ends with the merge of the parts that are ready after the first segment. -/
theorem mergeRounds_result (hn : 0 < nths) {pending : ℕ → SortState α → SortState α} (hp : Private pending)
    (hh : 0 < half) (h : Passes nths (mergeRounds less dist nths half pending) s s') :
    ∃ s₁, (∀ t < nths, ∀ lo hi, (∀ u < nths, u ≠ t → ∀ s, Agree lo hi t s (pending u s)) → Acted pending lo hi t s s₁) ∧
      ∀ b L, (∀ t < nths, t % half = 0 → Arranged dist nths half b L s₁ t) → (∀ t, dist ≤ st dist nths t → L t = []) →
        (List.range dist).map s'.first = merged less nths half L := by
  induction half, pending using mergeRounds.induct less dist nths generalizing s with
  | case1 half pending hlt ih =>
    rw [mergeRounds, if_pos hlt] at h
    cases h with
    | @cons _ _ _ s₁ _ h h' =>
      obtain ⟨s₂, hacted, hresult⟩ := ih mergeBlocks_private (by omega) h'
      refine ⟨s₁, fun t ht lo hi => acted_of_runs (fun u s _ _ _ => Agree.refl _) h ht, fun b L hready hL => ?_⟩
      rw [merged, if_pos hlt]
      refine hresult (!b) _ (fun t ht ht0 => ?_) fun t ht => ?_
      · exact Arranged.round hn hh hready hL ht ht0
          (hacted t ht _ _ fun u _ hu s => mergeBlocks_agree hh ht0 hu s)
      · rw [hL t ht, hL _ (ht.trans (Nat.mul_le_mul_left _ (Nat.le_add_right t half))), mergeBy, List.nil_merge]
  | case2 half pending hge =>
    rw [mergeRounds, if_neg hge] at h
    cases h with
    | @cons _ _ _ s₁ _ h h' =>
    cases h' with
    | @cons _ _ _ s₂ _ h' hnil =>
    cases hnil
    refine ⟨s₁, fun t ht lo hi => acted_of_runs (fun u s => setSwitched_agree u (pending u s)) h ht, fun b L hready _ => ?_⟩
    have hall : partEnd dist nths half 0 = dist := partEnd_whole hn (by omega)
    have hresult := (hready 0 hn (Nat.zero_mod half)).merging (Nat.zero_mod _)
    rw [hall, ← switched_of_runs hp hn h, st, Nat.mul_zero] at hresult
    rw [merged, if_neg hge, ← hresult, ← slice_zero]
    exact slice_congr fun k _ hk => first_of_copyBack hn h' hk

end Rounds

end Zpc.OmpExecutionPolicy
