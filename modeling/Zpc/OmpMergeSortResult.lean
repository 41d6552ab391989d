import Zpc.OmpMergeRounds

/-!
# When the OpenMP merge sort sorts

The first round reads a block at an odd place from the buffer in which a full block
ends. When the last block is at an odd place and makes another number of passes than a
full one, modulo two, its stale buffer is merged instead.
-/
namespace Zpc.OmpExecutionPolicy
open ArraySlice StableSort ThreadTeam

variable {α : Type*} {less : α → α → Bool} {dist nths half t : ℕ} {s s' s₁ : SortState α}

def lastBlock (dist nths : ℕ) : ℕ := (dist - 1) / nwork dist nths

/-- The last block makes as many passes as a full one, modulo two, unless no thread absorbs it in the first round. -/
def Aligned (dist nths : ℕ) : Prop := lastBlock dist nths % 2 = 0 ∨
  passCount 16 (dist - st dist nths (lastBlock dist nths)) % 2 = passCount 16 (nwork dist nths) % 2

/-- What the rounds read as the block of each thread. -/
def parts (dist nths : ℕ) (s : SortState α) (t : ℕ) : List α :=
  slice (s.buffer (if t % 2 = 0 then s.flipped t else (passCount 16 (nwork dist nths)).bodd))
    (st dist nths t) (ed dist nths t)

/-- Every run on `dist` entries sorts them stably by their keys; `buffer` is what the
temporary array holds at first. -/
def Sorts {κ : Type*} (key : α → κ) (dist nths : ℕ) (buffer : ℕ → α) : Prop :=
  ∀ comp : κ → κ → Bool, StrictWeak comp → ∀ s s' : SortState α, s.ofirst = buffer →
    Passes nths (mergeSort (fun a b => comp (key a) (key b)) dist nths) s s' →
      (List.range dist).map s'.first = stableSort (fun a b => comp (key a) (key b)) ((List.range dist).map s.first)

theorem partEnd_one (t : ℕ) : partEnd dist nths 1 t = ed dist nths t := rfl

section Blocks
/-- What a thread has done to its block before the rounds. -/
structure BlockDone (less : α → α → Bool) (dist nths t : ℕ) (s s₁ : SortState α) : Prop where
  flipped : s₁.flipped t = (passCount 16 (ed dist nths t - st dist nths t)).bodd
  sorted : slice (s₁.buffer (s₁.flipped t)) (st dist nths t) (ed dist nths t) =
    stableSort less (slice s.first (st dist nths t) (ed dist nths t))
  unread : passCount 16 (ed dist nths t - st dist nths t) = 0 →
    slice s₁.ofirst (st dist nths t) (ed dist nths t) = slice s.ofirst (st dist nths t) (ed dist nths t)
  stale : 0 < passCount 16 (ed dist nths t - st dist nths t) → ∃ m, 0 < m ∧ m < ed dist nths t - st dist nths t ∧
    SortedRuns less m (st dist nths t) (ed dist nths t) s.first (s₁.buffer (!s₁.flipped t))

theorem SortedRuns.congr {m l r : ℕ} {f₀ g₀ f g : ℕ → α} (h : SortedRuns less m l r f₀ f)
    (h₀ : ∀ k, l ≤ k → k < r → g₀ k = f₀ k) (hg : ∀ k, l ≤ k → k < r → g k = f k) : SortedRuns less m l r g₀ g := by
  intro i hi
  have hend : runEnd m l r i ≤ r := Nat.min_le_right _ _
  rw [slice_congr fun k hk hk' => hg k (by omega) (by omega), slice_congr fun k hk hk' => h₀ k (by omega) (by omega)]
  exact h i hi

theorem blockDone_of_acted (h : StrictWeak less)
    (ha : Acted (sortBlock less dist nths) (st dist nths t) (ed dist nths t) t s s₁) : BlockDone less dist nths t s s₁ := by
  obtain ⟨s₀, hbefore, hafter⟩ := ha
  obtain ⟨-, -, -, hsorted, hunread, hstale⟩ := sortBlock_spec dist nths h t s₀
  have hflag := hafter.2
  refine ⟨?_, ?_, fun h0 => ?_, fun hpos => ?_⟩
  · rw [hflag, sortBlock_flipped h, Function.update_self]
  · rw [hflag, hafter.slice _ le_rfl le_rfl, hsorted]
    exact congrArg _ (hbefore.slice false le_rfl le_rfl)
  · refine (hafter.slice true le_rfl le_rfl).trans (Eq.trans ?_ (hbefore.slice true le_rfl le_rfl))
    rw [hunread h0]
    rfl
  · obtain ⟨m, hm, hlt, hruns⟩ := hstale hpos
    refine ⟨m, hm, hlt, hruns.congr (fun k hk hk' => (hbefore.1 false k hk hk').symm) fun k hk hk' => ?_⟩
    rw [hflag]
    exact hafter.1 _ k hk hk'

theorem sortBlock_agree (h : StrictWeak less) (hn : 0 < nths) {u : ℕ} (hu : u ≠ t) (s : SortState α) :
    Agree (st dist nths t) (ed dist nths t) t s (sortBlock less dist nths u s) :=
  ⟨fun b _ hl hr => sortBlock_frame h u s b (not_owns_other hn ⟨hl, hr⟩ hu), (sortBlock_private h u s).2 t hu.symm⟩

theorem parts_nil (ht : dist ≤ st dist nths t) : parts dist nths s t = [] :=
  slice_of_le ((Nat.min_le_right _ _).trans ht)

theorem ed_full (h : ¬ dist ≤ nwork dist nths * (t + 1)) : ed dist nths t - st dist nths t = nwork dist nths := by
  rw [Nat.mul_succ] at h
  unfold ed st
  omega

theorem mergeSort_result (h : StrictWeak less) (hn : 0 < nths) (hrun : Passes nths (mergeSort less dist nths) s s') :
    ∃ s₁, (∀ t < nths, BlockDone less dist nths t s s₁) ∧
      (List.range dist).map s'.first = merged less nths 1 (parts dist nths s₁) := by
  obtain ⟨s₁, hacted, hresult⟩ := mergeRounds_result hn (sortBlock_private h) Nat.one_pos hrun
  have hdone : ∀ t < nths, BlockDone less dist nths t s s₁ := fun t ht =>
    blockDone_of_acted h (hacted t ht _ _ fun _ _ hu s => sortBlock_agree h hn hu s)
  refine ⟨s₁, hdone, hresult (passCount 16 (nwork dist nths)).bodd _ (fun t ht _ => ⟨fun ht0 => ?_, fun ht0 => ?_, fun _ => ?_⟩)
    fun t => parts_nil⟩
  · rw [parts, if_neg ht0, partEnd_one]
  · rw [parts, if_pos ht0, partEnd_one]
  · by_cases hlast : dist ≤ nwork dist nths * (t + 1)
    · exact .inr hlast
    · exact .inl (by rw [(hdone t ht).flipped, ed_full hlast])

end Blocks

section Aligned
/-- The parts of a thread and of its partner make up the part for twice as many threads. -/
theorem slice_partEnd (hh : 0 < half) (f : ℕ → α) (t : ℕ) :
    slice f (st dist nths t) (partEnd dist nths half t) ++ slice f (st dist nths (t+half)) (partEnd dist nths half (t+half)) =
      slice f (st dist nths t) (partEnd dist nths (2*half) t) := by
  have hst : st dist nths t ≤ st dist nths (t+half) := Nat.mul_le_mul_left _ (Nat.le_add_right t half)
  rcases Nat.lt_or_ge (st dist nths (t+half)) dist with hact | hidle
  · have hmid : partEnd dist nths half t = st dist nths (t+half) := Nat.min_eq_left hact.le
    have hend : partEnd dist nths half (t+half) = partEnd dist nths (2*half) t := by
      rw [partEnd, partEnd, show t + half + half = t + 2 * half by omega]
    rw [hmid, hend]
    refine slice_append hst (Nat.le_min.mpr ⟨Nat.mul_le_mul_left _ (by omega), hact.le⟩)
  · have hend : partEnd dist nths half t = dist := Nat.min_eq_right hidle
    have hend' : partEnd dist nths (2*half) t = dist := le_antisymm (partEnd_le_dist t) (hend.ge.trans (partEnd_le hh t))
    rw [hend, hend', slice_of_le ((partEnd_le_dist _).trans hidle), List.append_nil]

/-- Stable sorts of all parts merge to the stable sort of the whole. -/
theorem merged_sorted (h : StrictWeak less) (hn : 0 < nths) {f : ℕ → α} (hh : 0 < half) {L : ℕ → List α}
    (hL : ∀ t, L t = stableSort less (slice f (st dist nths t) (partEnd dist nths half t))) :
    merged less nths half L = stableSort less (slice f 0 dist) := by
  induction half, L using merged.induct less nths with
  | case1 half L hlt ih =>
    rw [merged, if_pos hlt]
    refine ih (by omega) fun t => ?_
    refine (congrArg₂ (mergeBy less) (hL t) (hL (t+half))).trans ?_
    rw [mergeBy_stableSort h, slice_partEnd hh]
  | case2 half L hge =>
    rw [merged, if_neg hge, hL, partEnd_whole hn (by omega), st, Nat.mul_zero]

/-- Whatever the order, the merges lose and make up no entry. -/
theorem merged_perm (hn : 0 < nths) {f : ℕ → α} (hh : 0 < half) {L : ℕ → List α}
    (hL : ∀ t, (L t).Perm (slice f (st dist nths t) (partEnd dist nths half t))) :
    (merged less nths half L).Perm (slice f 0 dist) := by
  induction half, L using merged.induct less nths with
  | case1 half L hlt ih =>
    rw [merged, if_pos hlt]
    refine ih (by omega) fun t => ?_
    rw [← slice_partEnd hh]
    exact (List.merge_perm_append _).trans ((hL t).append (hL (t+half)))
  | case2 half L hge =>
    rw [merged, if_neg hge]
    have hwhole := hL 0
    rwa [partEnd_whole hn (by omega), st, Nat.mul_zero] at hwhole

theorem le_lastBlock (hn : 0 < nths) (ht : st dist nths t < dist) : t ≤ lastBlock dist nths := by
  have hd : 0 < dist := by omega
  rw [lastBlock, Nat.le_div_iff_mul_le (nwork_pos hn hd), Nat.mul_comm]
  exact Nat.le_sub_one_of_lt ht

theorem st_lastBlock_lt (hd : 0 < dist) : st dist nths (lastBlock dist nths) < dist := by
  have := Nat.mul_div_le (dist - 1) (nwork dist nths)
  unfold lastBlock st
  omega

theorem ed_lastBlock (hn : 0 < nths) (hd : 0 < dist) : ed dist nths (lastBlock dist nths) = dist := by
  have := Nat.lt_mul_div_succ (dist - 1) (nwork_pos hn hd)
  rw [Nat.mul_succ] at this
  unfold ed st lastBlock
  omega

theorem passes_eq_iff {a b : ℕ} : a % 2 = b % 2 ↔ a.bodd = b.bodd := by
  rw [Nat.mod_two_of_bodd, Nat.mod_two_of_bodd]
  cases a.bodd <;> cases b.bodd <;> decide

theorem parts_sorted (hn : 0 < nths) (hal : Aligned dist nths) (h : ∀ t < nths, BlockDone less dist nths t s s₁) (t : ℕ) :
    parts dist nths s₁ t = stableSort less (slice s.first (st dist nths t) (partEnd dist nths 1 t)) := by
  rcases Nat.lt_or_ge (st dist nths t) dist with hact | hidle
  · have htn : t < nths := by
      by_contra hge
      have : nwork dist nths * nths ≤ st dist nths t := Nat.mul_le_mul_left _ (Nat.le_of_not_lt hge)
      have hle : dist ≤ _ := dist_le hn
      omega
    rw [parts, partEnd_one, ← (h t htn).sorted]
    split
    · rfl
    next hodd =>
      -- the block is full, or the last one and aligned
      congr 2
      rw [(h t htn).flipped]
      by_cases hlast : dist ≤ nwork dist nths * (t + 1)
      · have ht : t = lastBlock dist nths := by
          refine le_antisymm (le_lastBlock hn hact) (Nat.le_of_not_lt fun hlt => ?_)
          have hstart : st dist nths (lastBlock dist nths) < dist := st_lastBlock_lt (show 0 < dist by omega)
          have : nwork dist nths * (t + 1) ≤ st dist nths (lastBlock dist nths) := Nat.mul_le_mul_left _ hlt
          omega
        subst ht
        rw [ed_lastBlock hn (by omega)]
        exact (passes_eq_iff.mp (hal.resolve_left hodd)).symm
      · rw [ed_full hlast]
  · rw [parts_nil hidle, slice_of_le ((partEnd_le_dist t).trans hidle), stableSort_nil]

end Aligned

section Misaligned
theorem sublist_merge {le : α → α → Bool} (xs ys : List α) :
    xs.Sublist (xs.merge ys le) ∧ ys.Sublist (xs.merge ys le) := by
  fun_induction List.merge xs ys le with
  | case1 ys => exact ⟨List.nil_sublist ys, List.Sublist.refl ys⟩
  | case2 xs => exact ⟨List.Sublist.refl xs, List.nil_sublist xs⟩
  | case3 x xs y ys _ ih => exact ⟨ih.1.cons_cons x, ih.2.cons x⟩
  | case4 x xs y ys _ ih => exact ⟨ih.1.cons y, ih.2.cons_cons y⟩

/-- No entry of a part gets lost or overtakes another one of its part. -/
theorem sublist_merged {L : ℕ → List α} (hh : 0 < half) (ht : t < nths) (ht0 : t % half = 0) :
    (L t).Sublist (merged less nths half L) := by
  induction half, L using merged.induct less nths generalizing t with
  | case1 half L hlt ih =>
    rw [merged, if_pos hlt]
    obtain ⟨i, rfl⟩ := Nat.dvd_of_mod_eq_zero ht0
    have hmod : ∀ j, half * (2 * j) % (2 * half) = 0 := by
      intro j
      rw [Nat.mul_left_comm, ← Nat.mul_assoc]
      exact Nat.mul_mod_right _ _
    obtain ⟨j, rfl | rfl⟩ : ∃ j, i = 2 * j ∨ i = 2 * j + 1 := ⟨i / 2, by omega⟩
    · exact (sublist_merge (L (half * (2 * j))) (L (half * (2 * j) + half))).1.trans (ih (by omega) ht (hmod j))
    · rw [Nat.mul_succ] at ht ⊢
      exact (sublist_merge (L (half * (2 * j))) (L (half * (2 * j) + half))).2.trans (ih (by omega) (by omega) (hmod j))
  | case2 half L hge =>
    rw [merged, if_neg hge, show t = 0 by rw [← ht0, Nat.mod_eq_of_lt (by omega)]]

/-- Of a last block that is not aligned the rounds read the other buffer. -/
theorem parts_misaligned (hn : 0 < nths) (hd : 0 < dist) (hal : ¬ Aligned dist nths)
    (h : BlockDone less dist nths (lastBlock dist nths) s s₁) :
    parts dist nths s₁ (lastBlock dist nths) =
      slice (s₁.buffer (!s₁.flipped (lastBlock dist nths))) (st dist nths (lastBlock dist nths)) dist := by
  rw [Aligned, not_or, passes_eq_iff] at hal
  rw [parts, if_neg hal.1, h.flipped, ed_lastBlock hn hd]
  congr 2
  exact Bool.eq_not_of_ne (Ne.symm hal.2)

theorem lastBlock_lt (hn : 0 < nths) (hd : 0 < dist) : lastBlock dist nths < nths := owner_lt hn (by omega)

theorem dist_pos_of_misaligned (hal : ¬ Aligned dist nths) : 0 < dist := by
  refine Nat.pos_of_ne_zero fun h0 => hal (.inl ?_)
  rw [lastBlock, h0, Nat.zero_sub, Nat.zero_div, Nat.zero_mod]

/-- A large entry in front of the last block stays before a smaller one. -/
theorem misaligned_stale (h : StrictWeak less) (hn : 0 < nths) (hal : ¬ Aligned dist nths) {x y : α} (hxy : less x y = true)
    (hp : 0 < passCount 16 (dist - st dist nths (lastBlock dist nths)))
    (hs : s.first = fun k => if k = st dist nths (lastBlock dist nths) then y else x)
    (hrun : Passes nths (mergeSort less dist nths) s s') :
    (List.range dist).map s'.first ≠ stableSort less ((List.range dist).map s.first) := by
  intro hsort
  have hd := dist_pos_of_misaligned hal
  have hq := lastBlock_lt hn hd
  obtain ⟨s₁, hdone, hresult⟩ := mergeSort_result h hn hrun
  have hsub : (parts dist nths s₁ (lastBlock dist nths)).Sublist (merged less nths 1 (parts dist nths s₁)) :=
    sublist_merged Nat.one_pos hq (Nat.mod_one _)
  rw [← hresult, hsort, parts_misaligned hn hd hal (hdone _ hq)] at hsub
  have hpair := (pairwise_stableSort h _).sublist hsub
  have hstale := (hdone _ hq).stale
  rw [ed_lastBlock hn hd] at hstale
  obtain ⟨m, hm, hlt, hruns⟩ := hstale hp
  -- `y` is in the first run, and the second one has `x` alone
  have hrun₀ := hruns 0 (by omega)
  have hrun₁ := hruns 1 (by omega)
  rw [Nat.mul_zero, Nat.add_zero] at hrun₀
  rw [Nat.mul_one] at hrun₁
  unfold runEnd at hrun₀ hrun₁
  have hy : y ∈ slice (s₁.buffer (!s₁.flipped (lastBlock dist nths))) (st dist nths (lastBlock dist nths))
      (min (st dist nths (lastBlock dist nths) + m * 0 + m) dist) := by
    rw [hrun₀, stableSort, List.mem_mergeSort, mem_slice]
    exact ⟨_, le_rfl, by omega, by rw [hs]; exact if_pos rfl⟩
  obtain ⟨k, hk, hk', hky⟩ := mem_slice.mp hy
  have hx : s₁.buffer (!s₁.flipped (lastBlock dist nths)) (st dist nths (lastBlock dist nths) + m) = x := by
    have hmem : s₁.buffer (!s₁.flipped (lastBlock dist nths)) (st dist nths (lastBlock dist nths) + m) ∈
        slice (s₁.buffer (!s₁.flipped (lastBlock dist nths))) (st dist nths (lastBlock dist nths) + m)
          (min (st dist nths (lastBlock dist nths) + m * 1 + m) dist) := mem_slice.mpr ⟨_, le_rfl, by omega, rfl⟩
    rw [hrun₁, stableSort, List.mem_mergeSort, mem_slice] at hmem
    obtain ⟨j, hj, -, hjx⟩ := hmem
    rw [← hjx, hs]
    exact if_neg (by omega)
  have hno := pairwise_slice.mp hpair k (st dist nths (lastBlock dist nths) + m) hk (by omega) (by omega)
  rw [hky, hx, hxy] at hno
  exact absurd hno (by decide)

/-- A last block without passes is not in the result. -/
theorem misaligned_unread (h : StrictWeak less) (hn : 0 < nths) (hal : ¬ Aligned dist nths) {x : α}
    (hp : passCount 16 (dist - st dist nths (lastBlock dist nths)) = 0) (hs : s.first = fun _ => x)
    (hx : s.ofirst (st dist nths (lastBlock dist nths)) ≠ x) (hrun : Passes nths (mergeSort less dist nths) s s') :
    (List.range dist).map s'.first ≠ stableSort less ((List.range dist).map s.first) := by
  intro hsort
  have hd := dist_pos_of_misaligned hal
  have hq := lastBlock_lt hn hd
  have hlt : st dist nths _ < dist := st_lastBlock_lt hd
  obtain ⟨s₁, hdone, hresult⟩ := mergeSort_result h hn hrun
  have hsub : (parts dist nths s₁ (lastBlock dist nths)).Sublist (merged less nths 1 (parts dist nths s₁)) :=
    sublist_merged Nat.one_pos hq (Nat.mod_one _)
  rw [← hresult, hsort, parts_misaligned hn hd hal (hdone _ hq)] at hsub
  obtain ⟨hflipped, -, hunread, -⟩ := hdone _ hq
  rw [ed_lastBlock hn hd] at hflipped hunread
  rw [hflipped, hp] at hsub
  have hmem : s.ofirst (st dist nths (lastBlock dist nths)) ∈ slice s₁.ofirst (st dist nths (lastBlock dist nths)) dist := by
    rw [hunread hp]
    exact mem_slice.mpr ⟨_, le_rfl, hlt, rfl⟩
  have hin := hsub.subset hmem
  rw [stableSort, List.mem_mergeSort, List.mem_map] at hin
  obtain ⟨k, -, hk⟩ := hin
  rw [hs] at hk
  exact hx hk.symm

end Misaligned

section Result
variable {κ : Type*} {key : α → κ} {buffer : ℕ → α}

theorem sorts_of_aligned (hn : 0 < nths) (hal : Aligned dist nths) : Sorts key dist nths buffer := by
  intro comp hcomp s s' _ hrun
  have h := hcomp.comap key
  obtain ⟨s₁, hdone, hresult⟩ := mergeSort_result h hn hrun
  rw [hresult, ← slice_zero]
  exact merged_sorted h hn Nat.one_pos (parts_sorted hn hal hdone)

theorem strictWeak_below [DecidableEq κ] (b : κ) : StrictWeak fun x y : κ => decide (x ≠ b ∧ y = b) := by
  refine ⟨fun x => ?_, fun x y z hxy hyz => ?_, fun x y z hxy hyx hyz hzy => ?_⟩ <;> simp only [decide_eq_true_eq,
    decide_eq_false_iff_not] at *
  · exact fun h => h.1 h.2
  · exact absurd hxy.2 hyz.1
  · tauto

theorem aligned_of_sorts (hn : 0 < nths) {a b : α} (hab : key a ≠ key b) (h : Sorts key dist nths buffer) :
    Aligned dist nths := by
  classical
  by_contra hal
  rcases Nat.eq_zero_or_pos (passCount 16 (dist - st dist nths (lastBlock dist nths))) with hp | hp
  · -- all keys alike, but for the entry of the buffer
    obtain ⟨x, hx⟩ : ∃ x, buffer (st dist nths (lastBlock dist nths)) ≠ x := by
      by_contra hall
      rw [not_exists] at hall
      exact hab (congrArg key ((not_not.mp (hall a)).symm.trans (not_not.mp (hall b))))
    have hcomp : StrictWeak fun _ _ : κ => false := ⟨fun _ => rfl, fun _ _ _ h => absurd h (by decide), fun _ _ _ _ _ _ _ => rfl⟩
    let s : SortState α := ⟨fun _ => x, buffer, fun _ => false, false⟩
    obtain ⟨s', hrun⟩ := exists_passes nths (mergeSort (fun a b => (fun _ _ : κ => false) (key a) (key b)) dist nths) s
    exact misaligned_unread (hcomp.comap key) hn hal hp rfl hx hrun (h _ hcomp s s' rfl hrun)
  · have hcomp : StrictWeak fun x y : κ => decide (x ≠ key b ∧ y = key b) := strictWeak_below (key b)
    let s : SortState α := ⟨fun k => if k = st dist nths (lastBlock dist nths) then b else a, buffer, fun _ => false, false⟩
    obtain ⟨s', hrun⟩ := exists_passes nths
      (mergeSort (fun x y => decide (key x ≠ key b ∧ key y = key b)) dist nths) s
    exact misaligned_stale (hcomp.comap key) hn hal (decide_eq_true ⟨hab, rfl⟩) hp rfl hrun (h _ hcomp s s' rfl hrun)

/-- For which numbers of threads and entries `merge_sort` and `merge_sort_pair` sort
whatever they are given, be the temporary arrays as they may. -/
theorem mergeSort_sorts_iff {K V : Type*} [Nontrivial K] (keys : ℕ → K) (entries : ℕ → K × V) (hn : 0 < nths) :
    (Sorts id dist nths keys ↔ Aligned dist nths) ∧ (Sorts Prod.fst dist nths entries ↔ Aligned dist nths) := by
  obtain ⟨a, b, hab⟩ := exists_pair_ne K
  refine ⟨⟨aligned_of_sorts hn hab, sorts_of_aligned hn⟩, ⟨?_, sorts_of_aligned hn⟩⟩
  exact aligned_of_sorts hn (a := (a, (entries 0).2)) (b := (b, (entries 0).2)) hab

theorem mergeSort_sorts_iff_three :
    (Sorts id 1000 3 (fun _ => 0 : ℕ → ℕ) ↔ Aligned 1000 3) ∧
    (Sorts Prod.fst 1000 3 (fun _ => (0, true) : ℕ → ℕ × Bool) ↔ Aligned 1000 3) :=
  mergeSort_sorts_iff _ _ (by decide)

/-- Two threads on 513 entries: 257 entries take five passes, 256 take four. -/
theorem mergeSort_of_513 : ¬ ∀ s s' : SortState ℕ, Team 2 (2 * 256 < 513) 2 →
    s.first = (fun k => if k = 257 then 1 else 0) → Passes 2 (mergeSort (fun a b => decide (a < b)) 513 2) s s' →
      (List.range 513).map s'.first = stableSort (fun a b => decide (a < b)) ((List.range 513).map s.first) := by
  intro h
  have hless : StrictWeak fun a b : ℕ => decide (a < b) := strictWeak_lt
  have hfive : passCount 16 257 = 5 := by simp [passCount]
  have hfour : passCount 16 256 = 4 := by simp [passCount]
  have hlast : lastBlock 513 2 = 1 := rfl
  have hst : st 513 2 1 = 257 := rfl
  have hal : ¬ Aligned 513 2 := by
    rw [Aligned, hlast, hst, show nwork 513 2 = 257 from rfl, hfour, hfive]
    decide
  let s : SortState ℕ := ⟨fun k => if k = 257 then 1 else 0, fun _ => 0, fun _ => false, false⟩
  obtain ⟨s', hrun⟩ := exists_passes 2 (mergeSort (fun a b => decide (a < b)) 513 2) s
  refine misaligned_stale hless (by decide) hal (x := 0) (y := 1) (by decide) ?_ rfl hrun
    (h s s' ⟨by decide, le_rfl, .inl (by decide)⟩ rfl hrun)
  rw [hlast, hst, hfour]
  decide

end Result

end Zpc.OmpExecutionPolicy
