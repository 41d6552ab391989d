import Zpc.OmpRadix
import Zpc.StableSort

/-!
# One pass of the radix sorts

A pass of either policy leaves every entry at its rank by the digit, for any number of
threads and any interleaving: it is the stable sort by the digit.
-/
namespace Zpc
open ThreadTeam StableSort

variable {E : Type*}

section Counting
variable (bin : E → ℕ) (cur : ℕ → E)

/-- How many of the first `i` entries have digit `b`. -/
def countUpTo (b i : ℕ) : ℕ := Nat.count (fun j => bin (cur j) = b) i

/-- Where the entries with digit `b` begin. -/
def binStart (dist b : ℕ) : ℕ := Nat.count (fun j => bin (cur j) < b) dist

variable {bin cur} {dist b i : ℕ}

theorem countUpTo_zero : countUpTo bin cur b 0 = 0 := Nat.count_zero _

theorem countUpTo_succ : countUpTo bin cur b (i+1) = countUpTo bin cur b i + if bin (cur i) = b then 1 else 0 :=
  Nat.count_succ _ _

theorem binStart_succ : binStart bin cur dist (b+1) = binStart bin cur dist b + countUpTo bin cur b dist := by
  unfold binStart
  induction dist with
  | zero => rfl
  | succ n ih =>
    rw [Nat.count_succ, Nat.count_succ, countUpTo_succ, ih]
    split_ifs <;> omega

theorem binStart_zero : binStart bin cur dist 0 = 0 :=
  Nat.count_iff_forall_not.mpr fun _ _ => Nat.not_lt_zero _

theorem rank_eq : rank (byKey bin) cur dist i = binStart bin cur dist (bin (cur i)) + countUpTo bin cur (bin (cur i)) i := by
  have hlt : (fun j => byKey bin (cur i) (cur j) = false) = fun j => bin (cur j) < bin (cur i) := by
    funext j
    rw [byKey, decide_eq_false_iff_not, Nat.not_le]
  have htied : (fun j => tied (byKey bin) (cur i) (cur j) = true) = fun j => bin (cur j) = bin (cur i) := by
    funext j
    rw [tied_iff, byKey, byKey, decide_eq_true_eq, decide_eq_true_eq, eq_iff_iff]
    omega
  unfold rank binStart countUpTo
  simp only [hlt, htied]

/-- A digit that all entries share leaves nothing to sort. -/
theorem mergeSort_of_constant (h : countUpTo bin cur b dist = dist) :
    ((List.range dist).map cur).mergeSort (byKey bin) = (List.range dist).map cur := by
  have hb : ∀ j < dist, bin (cur j) = b := Nat.count_iff_forall.mp h
  refine List.mergeSort_of_pairwise (List.pairwise_of_forall_mem_list fun x hx y hy => ?_)
  obtain ⟨i, hi, rfl⟩ := List.mem_map.mp hx
  obtain ⟨j, hj, rfl⟩ := List.mem_map.mp hy
  rw [byKey, hb i (List.mem_range.mp hi), hb j (List.mem_range.mp hj)]
  exact decide_eq_true le_rfl

end Counting

namespace SequentialExecutionPolicy
variable {bin : E → ℕ} {binCount dist : ℕ} {cur next : ℕ → E}

theorem binSizes_eq (n b : ℕ) : binSizes bin n cur b = countUpTo bin cur b n := by
  induction n with
  | zero => exact countUpTo_zero.symm
  | succ n ih =>
    rw [binSizes, List.range_succ, List.foldl_append, List.foldl_cons, List.foldl_nil, countUpTo_succ]
    by_cases hb : bin (cur n) = b
    · rw [hb, Function.update_self, if_pos rfl, ← ih, binSizes]
    · rw [Function.update_of_ne (Ne.symm hb), if_neg hb, ← ih, binSizes, Nat.add_zero]

theorem binOffset_eq {sizes : ℕ → ℕ} (h : ∀ b, sizes b = countUpTo bin cur b dist) (b : ℕ) :
    binOffset sizes b = binStart bin cur dist b := by
  induction b with
  | zero => exact binStart_zero.symm
  | succ b ih => rw [binOffset, ih, h, binStart_succ]

/-- The entries still to be placed are the first `m`, and each bin has room for its share of them. -/
theorem distribute_places (m : ℕ) (hm : m ≤ dist) {sizes : ℕ → ℕ}
    (hs : ∀ b, sizes b = binStart bin cur dist b + countUpTo bin cur b m) (next : ℕ → E) :
    (∀ j < m, (distribute bin m cur sizes next).2 (rank (byKey bin) cur dist j) = cur j) ∧
      ∀ p, (∀ j < m, p ≠ rank (byKey bin) cur dist j) → (distribute bin m cur sizes next).2 p = next p := by
  induction m generalizing sizes next with
  | zero => exact ⟨fun j hj => absurd hj (Nat.not_lt_zero j), fun p _ => rfl⟩
  | succ m ih =>
    have hloc : sizes (bin (cur m)) - 1 = rank (byKey bin) cur dist m := by
      rw [hs, countUpTo_succ, if_pos rfl, rank_eq]
      rfl
    have hstep : distribute bin (m+1) cur sizes next = distribute bin m cur
        (Function.update sizes (bin (cur m)) (sizes (bin (cur m)) - 1))
        (Function.update next (rank (byKey bin) cur dist m) (cur m)) := by
      rw [← hloc, distribute, List.range_succ, List.reverse_append]
      rfl
    have hs' : ∀ b, Function.update sizes (bin (cur m)) (sizes (bin (cur m)) - 1) b =
        binStart bin cur dist b + countUpTo bin cur b m := by
      intro b
      by_cases hb : bin (cur m) = b
      · rw [hb, Function.update_self, hs, countUpTo_succ, if_pos hb]
        omega
      · rw [Function.update_of_ne (Ne.symm hb), hs, countUpTo_succ, if_neg hb, Nat.add_zero]
    obtain ⟨hplaced, hkept⟩ := ih (by omega) hs' (Function.update next (rank (byKey bin) cur dist m) (cur m))
    have hne : ∀ j < m, rank (byKey bin) cur dist m ≠ rank (byKey bin) cur dist j := by
      intro j hj he
      have := rank_injective (preordered_key bin) (by omega) (by omega) he
      omega
    rw [hstep]
    refine ⟨fun j hj => ?_, fun p hp => ?_⟩
    · rcases Nat.lt_succ_iff_lt_or_eq.mp hj with hj | rfl
      · exact hplaced j hj
      · rw [hkept _ hne, Function.update_self]
    · rw [hkept p fun j hj => hp j (by omega), Function.update_of_ne (hp m m.lt_succ_self)]

theorem radixPass_sorts (binCount : ℕ) (cur next : ℕ → E) :
    (List.range dist).map (radixPass bin binCount dist (cur, next)).1 =
      ((List.range dist).map cur).mergeSort (byKey bin) := by
  simp only [radixPass]
  split
  next hskip =>
    obtain ⟨b, -, hb⟩ := List.any_eq_true.mp hskip
    rw [beq_iff_eq, binSizes_eq] at hb
    exact (mergeSort_of_constant hb).symm
  next =>
    refine map_eq_mergeSort (preordered_key bin) fun i hi => ?_
    refine (distribute_places dist le_rfl (fun b => ?_) next).1 i hi
    rw [binSizes_eq, binOffset_eq fun b => binSizes_eq dist b, Nat.add_comm]

end SequentialExecutionPolicy

namespace OmpExecutionPolicy
variable {bin : E → ℕ} {binCount dist n tid : ℕ} {s s' : RadixState E}

/-- While counting: thread `tid` changes its own sizes. -/
structure Counts (tid : ℕ) (s s' : RadixState E) : Prop where
  cur : s'.cur = s.cur
  next : s'.next = s.next
  skip : s'.skip = s.skip
  binSizes : ∀ u, u ≠ tid → s'.binSizes u = s.binSizes u

/-- While distributing: it also writes the places of its block. -/
structure Distributes (bin : E → ℕ) (dist n tid : ℕ) (s s' : RadixState E) : Prop where
  cur : s'.cur = s.cur
  next : ∀ p, (∀ j, Owns dist n tid j → p ≠ rank (byKey bin) s.cur dist j) → s'.next p = s.next p
  skip : s'.skip = s.skip
  binSizes : ∀ u, u ≠ tid → s'.binSizes u = s.binSizes u

/-- The sizes of thread `tid` make up the count from the start of its block to position `i`. -/
def Counted (bin : E → ℕ) (s₀ : RadixState E) (sizes : ℕ → ℕ) (a i : ℕ) : Prop :=
  ∀ b, sizes b + countUpTo bin s₀.cur b a = countUpTo bin s₀.cur b i

theorem countBins_outline (hn : 0 < n) (s₀ : RadixState E) :
    Outline (rely n Counts tid) (Counts tid)
      (fun s => s.cur = s₀.cur ∧ s.next = s₀.next ∧ s.skip = s₀.skip) (countBins bin dist n tid)
      fun s => (s.cur = s₀.cur ∧ s.next = s₀.next ∧ s.skip = s₀.skip) ∧
        Counted bin s₀ (s.binSizes tid) (min (st dist n tid) dist) (ed dist n tid) := by
  let I (i : ℕ) (s : RadixState E) : Prop := (s.cur = s₀.cur ∧ s.next = s₀.next ∧ s.skip = s₀.skip) ∧
    Counted bin s₀ (s.binSizes tid) (min (st dist n tid) dist) i
  have hI : ∀ i, Stable (rely n Counts tid) (I i) := by
    rintro i s s' ⟨⟨hc, hnx, hsk⟩, hs⟩ ⟨u, _, hu, hk⟩
    refine ⟨⟨hk.cur.trans hc, hk.next.trans hnx, hk.skip.trans hsk⟩, ?_⟩
    rwa [hk.binSizes tid hu.symm]
  have hguar : ∀ (s : RadixState E) row, Counts tid s { s with binSizes := Function.update s.binSizes tid row } :=
    fun s row => ⟨rfl, rfl, rfl, fun u hu => Function.update_of_ne hu _ _⟩
  refine .cons (hI (min (st dist n tid) dist)) (fun s hs => ⟨hguar s _, hs, fun b => ?_⟩) ?_
  · show Function.update s.binSizes tid (fun _ => 0) tid b + _ = _
    rw [Function.update_self, Nat.zero_add]
  · split
    next hlt =>
      have hact : st dist n tid < ed dist n tid := (active_iff hn).mpr hlt
      have hloop : Outline (rely n Counts tid) (Counts tid) (I (st dist n tid)) _
          (I (st dist n tid + (ed dist n tid - st dist n tid))) :=
        Outline.loop hI (f := fun i s => { s with binSizes := countBin tid (bin (s.cur i)) s.binSizes }) ?_
      · rw [Nat.min_eq_left hlt.le]
        rw [Nat.add_sub_cancel' hact.le] at hloop
        refine hloop.mono fun s hs => ?_
        have hs' := hs
        simp only [I, Nat.min_eq_left hlt.le] at hs'
        exact hs'
      · rintro i s - - ⟨hs, hcount⟩
        refine ⟨hguar s _, hs, fun b => ?_⟩
        show countBin tid (bin (s.cur i)) s.binSizes tid b + _ = _
        have hb := hcount b
        rw [countUpTo_succ, ← hs.1, countBin, Function.update_self]
        rw [← hs.1] at hb
        rcases eq_or_ne b (bin (s.cur i)) with rfl | hne
        · rw [Function.update_self, if_pos rfl]
          omega
        · rw [Function.update_of_ne hne, if_neg hne.symm]
          omega
    next hge =>
      have hed : ed dist n tid = min (st dist n tid) dist := by
        rw [ed]
        omega
      rw [hed]
      exact .nil fun s hs => hs

section Offsets
variable {s₀ : RadixState E} {sizes : ℕ → ℕ → ℕ}

theorem ed_eq (t : ℕ) : ed dist n t = min (st dist n (t+1)) dist := by
  rw [ed, st, st, Nat.mul_succ]

theorem binGlobalSize_eq (hn : 0 < n)
    (h : ∀ t < n, Counted bin s₀ (sizes t) (min (st dist n t) dist) (ed dist n t)) (b : ℕ) :
    binGlobalSize n sizes b = countUpTo bin s₀.cur b dist := by
  have hfold : ∀ m ≤ n, (List.range m).foldl (fun k j => k + sizes j b) 0 =
      countUpTo bin s₀.cur b (min (st dist n m) dist) := by
    intro m hm
    induction m with
    | zero => rw [st, Nat.mul_zero, Nat.zero_min]; exact countUpTo_zero.symm
    | succ m ih =>
      have hb := h m hm b
      rw [List.range_succ, List.foldl_append, List.foldl_cons, List.foldl_nil, ih (by omega), ← ed_eq]
      omega
  rw [binGlobalSize, hfold n le_rfl, Nat.min_eq_right]
  exact dist_le hn

theorem binOffset_eq (hn : 0 < n)
    (h : ∀ t < n, Counted bin s₀ (sizes t) (min (st dist n t) dist) (ed dist n t)) (b : ℕ) :
    binOffset n sizes b = binStart bin s₀.cur dist b := by
  induction b with
  | zero => exact binStart_zero.symm
  | succ b ih => rw [binOffset, ih, binGlobalSize_eq hn h, binStart_succ]

theorem localOffset_eq (hn : 0 < n)
    (h : ∀ t < n, Counted bin s₀ (sizes t) (min (st dist n t) dist) (ed dist n t)) (b : ℕ) {j : ℕ} (hj : j < n) :
    localOffset n sizes j b = binStart bin s₀.cur dist b + countUpTo bin s₀.cur b (ed dist n j) := by
  induction j with
  | zero =>
    have hb := h 0 hj b
    rw [st, Nat.mul_zero, Nat.zero_min, countUpTo_zero, Nat.add_zero] at hb
    rw [localOffset, binOffset_eq hn h, hb, Nat.add_comm]
  | succ j ih =>
    have hb := h (j+1) hj b
    rw [← ed_eq] at hb
    rw [localOffset, ih (by omega)]
    omega

end Offsets

/-- The entries of block `tid` from position `i` on are at their ranks, and each bin has
room for those before it. -/
def Placed (bin : E → ℕ) (binCount dist n tid : ℕ) (s₀ : RadixState E) (i : ℕ) (s : RadixState E) : Prop :=
  (s.cur = s₀.cur ∧ ∀ b < binCount, s.binSizes tid b = binStart bin s₀.cur dist b + countUpTo bin s₀.cur b i) ∧
    ∀ j, Owns dist n tid j → i ≤ j → s.next (rank (byKey bin) s₀.cur dist j) = s₀.cur j

theorem stable_placed (hn : 0 < n) (s₀ : RadixState E) (i : ℕ) :
    Stable (rely n (Distributes bin dist n) tid) (Placed bin binCount dist n tid s₀ i) := by
  rintro s s' ⟨⟨hc, hs⟩, hp⟩ ⟨u, _, hu, hk⟩
  refine ⟨⟨hk.cur.trans hc, ?_⟩, fun j hj hij => ?_⟩
  · rwa [hk.binSizes tid hu.symm]
  · rw [hk.next, hp j hj hij]
    -- ranks differ, so another thread writes elsewhere
    intro j' hj' he
    rw [hc] at he
    have hlt := (owns_iff hn).mp hj
    have hlt' := (owns_iff hn).mp hj'
    have := rank_injective (preordered_key bin) hlt.1 hlt'.1 he
    exact hu (by rw [← hlt.2, ← hlt'.2, this])

theorem distribute_outline (hbin : ∀ e, bin e < binCount) (hn : 0 < n) (s₀ : RadixState E) :
    Outline (rely n (Distributes bin dist n) tid) (Distributes bin dist n tid)
      (Placed bin binCount dist n tid s₀ (ed dist n tid)) (distribute bin dist n tid)
      fun s => s.cur = s₀.cur ∧ ∀ j, Owns dist n tid j → s.next (rank (byKey bin) s₀.cur dist j) = s₀.cur j := by
  unfold distribute
  split
  next hlt =>
    have hact : st dist n tid < ed dist n tid := (active_iff hn).mpr hlt
    have hloop : Outline (rely n (Distributes bin dist n) tid) (Distributes bin dist n tid)
        (Placed bin binCount dist n tid s₀ (st dist n tid + (ed dist n tid - st dist n tid))) _
        (Placed bin binCount dist n tid s₀ (st dist n tid)) :=
      Outline.loopDown (fun i => stable_placed hn s₀ i) (f := fun i s =>
        { s with
          binSizes := takeBin tid (bin (s.cur i)) s.binSizes
          next := Function.update s.next (s.binSizes tid (bin (s.cur i)) - 1) (s.cur i) }) ?_
    · rw [Nat.add_sub_cancel' hact.le] at hloop
      exact hloop.mono fun s hs => ⟨hs.1.1, fun j hj => hs.2 j hj hj.1⟩
    · rintro i s hi hi' ⟨⟨hc, hs⟩, hp⟩
      have hown : Owns dist n tid i := ⟨hi, by omega⟩
      have hloc : s.binSizes tid (bin (s.cur i)) - 1 = rank (byKey bin) s₀.cur dist i := by
        rw [hs _ (hbin _), hc, countUpTo_succ, if_pos rfl, rank_eq]
        rfl
      refine ⟨⟨rfl, fun p hp => ?_, rfl, fun u hu => Function.update_of_ne hu _ _⟩, ⟨hc, fun b hb => ?_⟩, ?_⟩
      · refine Function.update_of_ne ?_ _ _
        rw [hloc]
        have := hp i hown
        rwa [hc] at this
      · show takeBin tid (bin (s.cur i)) s.binSizes tid b = _
        have hb' := hs b hb
        rw [countUpTo_succ] at hb'
        rw [takeBin, Function.update_self, ← hc]
        rw [← hc] at hb'
        rcases eq_or_ne b (bin (s.cur i)) with rfl | hne
        · rw [Function.update_self, hb', if_pos rfl]
          rfl
        · rw [Function.update_of_ne hne, hb', if_neg hne.symm, Nat.add_zero]
      · intro j hj hij
        show Function.update s.next _ _ _ = _
        rw [hloc]
        rcases Nat.eq_or_lt_of_le hij with rfl | hlt
        · rw [Function.update_self, hc]
        · rw [Function.update_of_ne, hp j hj hlt]
          intro he
          have := rank_injective (preordered_key bin) ((owns_iff hn).mp hj).1 ((owns_iff hn).mp hown).1 he
          omega
  next hge =>
    refine .nil fun s hs => ⟨hs.1.1, fun j hj => ?_⟩
    exact absurd ((active_iff hn).mp (active_of_owns hj)) hge

/-- A pass of any team sorts stably by the digit. -/
theorem Pass.sorts {dop : ℕ} (hbin : ∀ e, bin e < binCount) (h : Pass bin binCount dist dop s s') :
    (List.range dist).map s'.cur = ((List.range dist).map s.cur).mergeSort (byKey bin) := by
  obtain ⟨n, s₃, hteam, hregion, hrest⟩ := h
  have hn := hteam.1
  cases hregion with
  | @cons _ _ _ s₁ _ hclear hregion =>
    cases hregion with
    | @cons _ _ _ s₂ _ hcount hregion =>
      cases hregion with
      | cons hreduce hnil =>
        cases hnil
        have h₁ := runs_single hn hclear
        have h₃ := runs_single hn hreduce
        have hcur₁ : s₁.cur = s.cur := by rw [h₁]; rfl
        have hcounted := hcount.establishes Counts
          (fun _ s' => s'.cur = s₁.cur ∧ s'.next = s₁.next ∧ s'.skip = s₁.skip) (fun _ _ => ⟨rfl, rfl, rfl⟩)
          (fun t _ s s' hs ⟨u, _, _, hk⟩ => ⟨hk.cur.trans hs.1, hk.next.trans hs.2.1, hk.skip.trans hs.2.2⟩)
          fun t _ => countBins_outline hn s₁
        have hsizes : ∀ t < n, Counted bin s₁ (s₂.binSizes t) (min (st dist n t) dist) (ed dist n t) := fun t ht =>
          (hcounted t ht).2
        have hcur₂ : s₂.cur = s₁.cur := (hcounted 0 hn).1.1
        have hskip₂ : s₂.skip = false := by rw [(hcounted 0 hn).1.2.2, h₁]; rfl
        rw [← hcur₁]
        unfold reduceBins at h₃
        split at h₃
        next hskip =>
          obtain ⟨b, -, hb⟩ := List.any_eq_true.mp hskip
          rw [beq_iff_eq, binGlobalSize_eq hn hsizes] at hb
          rw [h₃, if_pos rfl] at hrest
          rw [hrest, mergeSort_of_constant hb]
          exact congrArg (fun f => (List.range dist).map f) hcur₂
        next =>
          have hskip₃ : s₃.skip = false := by rw [h₃]; exact hskip₂
          have hcur₃ : s₃.cur = s₁.cur := by rw [h₃]; exact hcur₂
          rw [hskip₃, if_neg Bool.false_ne_true] at hrest
          cases hrest with
          | @cons _ _ _ s₄ _ hdistribute hrest =>
            cases hrest with
            | cons hswap hnil =>
              cases hnil
              have hplaced := hdistribute.establishes (Distributes bin dist n)
                (fun t => Placed bin binCount dist n t s₁ (ed dist n t)) (fun t ht => ⟨⟨hcur₃, fun b hb => ?_⟩, fun j hj hij => ?_⟩)
                (fun t _ => stable_placed hn s₁ _) fun t _ => distribute_outline hbin hn s₁
              · rw [runs_single hn hswap]
                refine map_eq_mergeSort (preordered_key bin) fun i hi => ?_
                exact (hplaced _ (owner_lt hn hi)).2 i ((owns_iff hn).mpr ⟨hi, rfl⟩)
              · rw [h₃]
                show (if t < n ∧ b < binCount then _ else _) = _
                rw [if_pos ⟨ht, hb⟩, localOffset_eq hn hsizes b ht]
              · exact absurd hj.2 (by omega)

end OmpExecutionPolicy

end Zpc
