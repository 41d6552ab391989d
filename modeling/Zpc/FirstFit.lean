import Mathlib.Data.List.Range

/-!
# Greedy grouping

The numbers below a bound are gone through in order. One that is in no group yet opens a
group as its leader and takes in every later free number that fits it. A number is thus
in the group of the first leader it fits, and nothing is asked of two followers.
-/
namespace FirstFit
variable (fits : ℕ → ℕ → Bool) (n : ℕ)

structure State where
  groups : List (List ℕ) := []
  assigned : ℕ → Bool := fun _ => false

/-- Take a number into the group that is being gathered. -/
def join (l : ℕ) (s : List ℕ × (ℕ → Bool)) (j : ℕ) : List ℕ × (ℕ → Bool) :=
  if s.2 j then s else if fits l j then (s.1 ++ [j], Function.update s.2 j true) else s

def gather (s : State) (l : ℕ) : State :=
  if s.assigned l then s else
    let r := (List.range' (l + 1) (n - (l + 1))).foldl (join fits l) ([l], Function.update s.assigned l true)
    ⟨s.groups ++ [r.1], r.2⟩

def groups : List (List ℕ) := ((List.range n).foldl (gather fits n) {}).groups

/-- The numbers below a bound that fit no leader before them. -/
def leaders : ℕ → List ℕ
  | 0 => []
  | n + 1 => if (leaders n).any (fits · n) then leaders n else leaders n ++ [n]

/-- A number follows the first leader that it fits. -/
def Follows (l j : ℕ) : Prop := l < j ∧ fits l j = true ∧ ∀ l' ∈ leaders fits l, fits l' j = false

instance (l j : ℕ) : Decidable (Follows fits l j) :=
  inferInstanceAs (Decidable (_ ∧ _ ∧ _))

def members (l : ℕ) : List ℕ := l :: (List.range' (l + 1) (n - (l + 1))).filter (Follows fits l ·)

variable {fits n} {l j : ℕ}

theorem mem_leaders : j ∈ leaders fits n ↔ j < n ∧ ∀ l ∈ leaders fits j, fits l j = false := by
  induction n with
  | zero => simp [leaders]
  | succ n ih =>
    rw [leaders]
    by_cases hn : (leaders fits n).any (fits · n) = true
    · rw [if_pos hn, ih]
      refine and_congr_left fun h => ⟨fun hj => by omega, fun hj => ?_⟩
      by_contra hjn
      obtain rfl : j = n := by omega
      obtain ⟨l, hl, hf⟩ := List.any_eq_true.mp hn
      simp [h l hl] at hf
    · rw [if_neg hn, List.mem_append, ih, List.mem_singleton]
      constructor
      · rintro (⟨hj, h⟩ | rfl)
        · exact ⟨by omega, h⟩
        · exact ⟨by omega, fun l hl => by simpa using fun hf => hn (List.any_eq_true.mpr ⟨l, hl, hf⟩)⟩
      · rintro ⟨hj, h⟩
        by_cases hjn : j = n
        · exact .inr hjn
        · exact .inl ⟨by omega, h⟩

/-- What one leader gathers from a range of numbers not before it. -/
theorem foldl_join {js : List ℕ} (hn : js.Nodup) (group : List ℕ) (assigned : ℕ → Bool) :
    js.foldl (join fits l) (group, assigned) =
      (group ++ js.filter (fun j => assigned j = false ∧ fits l j = true),
        fun j => assigned j || decide (j ∈ js ∧ fits l j = true)) := by
  induction js generalizing group assigned with
  | nil => simp
  | cons j js ih =>
    obtain ⟨hj, hn⟩ := List.nodup_cons.mp hn
    rw [List.foldl_cons, join]
    by_cases ha : assigned j = true
    · rw [if_pos ha, ih hn]
      refine Prod.ext (by simp [ha]) (funext fun k => ?_)
      by_cases hk : k = j
      · subst hk
        simp [ha]
      · simp [hk]
    · by_cases hf : fits l j = true
      · rw [if_neg ha, if_pos hf, ih hn]
        refine Prod.ext ?_ (funext fun k => ?_)
        · have hsame : js.filter (fun k => Function.update assigned j true k = false ∧ fits l k = true) =
              js.filter fun k => assigned k = false ∧ fits l k = true := by
            refine List.filter_congr fun k hk => ?_
            have hne : k ≠ j := fun he => hj (he ▸ hk)
            rw [Function.update_of_ne hne]
          rw [hsame]
          simp [ha, hf]
        · by_cases hk : k = j
          · subst hk
            simp [hf]
          · simp [hk]
      · rw [if_neg ha, if_neg hf, ih hn]
        refine Prod.ext (by simp [hf]) (funext fun k => ?_)
        by_cases hk : k = j
        · subst hk
          simp [hf]
        · simp [hk]

/-- After the first numbers: the groups of their leaders, and who is in them. -/
structure Invariant (fits : ℕ → ℕ → Bool) (n k : ℕ) (s : State) : Prop where
  groups : s.groups = (leaders fits k).map (members fits n)
  assigned : ∀ j, k ≤ j → j < n → (s.assigned j = true ↔ ∃ l ∈ leaders fits k, fits l j = true)

theorem invariant_gather {k : ℕ} {s : State} (h : Invariant fits n k s) (hk : k < n) :
    Invariant fits n (k + 1) (gather fits n s k) := by
  have hassigned := h.assigned k le_rfl hk
  rw [gather]
  by_cases ha : s.assigned k = true
  · obtain ⟨l, hl, hf⟩ := hassigned.mp ha
    have hleaders : leaders fits (k + 1) = leaders fits k := by
      rw [leaders, if_pos (List.any_eq_true.mpr ⟨l, hl, hf⟩)]
    rw [if_pos ha]
    exact ⟨hleaders ▸ h.groups, fun j hj hjn => hleaders ▸ h.assigned j (by omega) hjn⟩
  · have hnone : ¬ (leaders fits k).any (fits · k) = true := fun hn => by
      obtain ⟨l, hl, hf⟩ := List.any_eq_true.mp hn
      exact ha (hassigned.mpr ⟨l, hl, hf⟩)
    have hleaders : leaders fits (k + 1) = leaders fits k ++ [k] := by
      rw [leaders, if_neg hnone]
    rw [if_neg ha, foldl_join List.nodup_range']
    refine ⟨?_, fun j hj hjn => ?_⟩
    · have hmembers : members fits n k = [k] ++ (List.range' (k + 1) (n - (k + 1))).filter
          fun j => Function.update s.assigned k true j = false ∧ fits k j = true := by
        rw [members, List.singleton_append]
        congr 1
        refine List.filter_congr fun j hj => ?_
        have hj := List.mem_range'_1.mp hj
        have hold := h.assigned j (by omega) (by omega)
        rw [Function.update_of_ne (by omega)]
        refine decide_eq_decide.mpr ?_
        constructor
        · rintro ⟨-, hf, hn⟩
          refine ⟨by_contra fun hs => ?_, hf⟩
          obtain ⟨l, hl, hlj⟩ := hold.mp (by simpa using hs)
          simp [hn l hl] at hlj
        · rintro ⟨hs, hf⟩
          refine ⟨by omega, hf, fun l hl => by_contra fun hlj => ?_⟩
          have := hold.mpr ⟨l, hl, by simpa using hlj⟩
          simp [hs] at this
      simp only [h.groups, hleaders, List.map_append, List.map_cons, List.map_nil, hmembers]
    · have hold := h.assigned j (by omega) hjn
      have hmem : j ∈ List.range' (k + 1) (n - (k + 1)) := List.mem_range'_1.mpr ⟨by omega, by omega⟩
      have hne : j ≠ k := by omega
      simp only [hleaders, Function.update_of_ne hne, hmem, true_and, Bool.or_eq_true, hold, decide_eq_true_eq, List.mem_append, List.mem_singleton]
      constructor
      · rintro (⟨l, hl, hf⟩ | hf)
        · exact ⟨l, .inl hl, hf⟩
        · exact ⟨k, .inr rfl, hf⟩
      · rintro ⟨l, hl | rfl, hf⟩
        · exact .inl ⟨l, hl, hf⟩
        · exact .inr hf

/-- Every leader gathers the numbers that follow it. -/
theorem groups_eq (fits : ℕ → ℕ → Bool) (n : ℕ) : groups fits n = (leaders fits n).map (members fits n) := by
  have hi : ∀ k ≤ n, Invariant fits n k ((List.range k).foldl (gather fits n) {}) := by
    intro k
    induction k with
    | zero => exact fun _ => ⟨rfl, fun j _ _ => by simp [leaders]⟩
    | succ k ih =>
      intro hk
      rw [List.range_succ, List.foldl_append]
      exact invariant_gather (ih (by omega)) (by omega)
  exact (hi n le_rfl).groups

/-- Two numbers of one group are a leader and a follower of it, or two followers of one leader. -/
theorem pairwise_groups_iff {R : ℕ → ℕ → Prop} (hR : ∀ a b, fits a b = true → R a b) :
    (∀ group ∈ groups fits n, group.Pairwise R) ↔ ∀ l ∈ leaders fits n, ∀ j k, j < k → k < n →
      Follows fits l j → Follows fits l k → R j k := by
  have hfollow : ∀ l, (members fits n l).Pairwise R ↔
      ∀ j k, j < k → k < n → Follows fits l j → Follows fits l k → R j k := by
    intro l
    rw [members, List.pairwise_cons, List.pairwise_filter]
    constructor
    · rintro ⟨-, h⟩ j k hjk hk hj hlk
      have hlt := hj.1
      have hpair := List.pairwise_iff_getElem.mp h (j - (l + 1)) (k - (l + 1)) (by rw [List.length_range']; omega)
        (by rw [List.length_range']; omega) (by omega)
      simp only [List.getElem_range', Nat.one_mul, decide_eq_true_eq] at hpair
      rw [show l + 1 + (j - (l + 1)) = j by omega, show l + 1 + (k - (l + 1)) = k by omega] at hpair
      exact hpair hj hlk
    · intro h
      refine ⟨fun j hj => hR l j ?_, List.Pairwise.imp_of_mem (fun {j k} _ hk hjk hj hlk => ?_)
        List.pairwise_lt_range'⟩
      · have := (List.mem_filter.mp hj).2
        simp only [decide_eq_true_eq] at this
        exact this.2.1
      · have := List.mem_range'_1.mp hk
        exact h j k hjk (by omega) (by simpa using hj) (by simpa using hlk)
  rw [groups_eq]
  simp only [List.forall_mem_map, hfollow]

theorem leaders_congr {fits' : ℕ → ℕ → Bool} (h : ∀ i j, i < j → j < n → fits i j = fits' i j) :
    leaders fits n = leaders fits' n := by
  induction n with
  | zero => rfl
  | succ n ih =>
    have hold := ih fun i j hij hj => h i j hij (by omega)
    have hany : (leaders fits' n).any (fits · n) = (leaders fits' n).any (fits' · n) := by
      rw [Bool.eq_iff_iff, List.any_eq_true, List.any_eq_true]
      refine exists_congr fun l => and_congr_right fun hl => ?_
      rw [h l n (mem_leaders.mp hl).1 (by omega)]
    rw [leaders, leaders, hold, hany]

/-- The groups below a bound depend on what fits below it only. -/
theorem groups_congr {fits' : ℕ → ℕ → Bool} (h : ∀ i j, i < j → j < n → fits i j = fits' i j) :
    groups fits n = groups fits' n := by
  rw [groups_eq, groups_eq, leaders_congr h]
  refine List.map_congr_left fun l hl => ?_
  have hln := (mem_leaders.mp hl).1
  rw [members, members]
  congr 1
  refine List.filter_congr fun j hj => ?_
  have hj := List.mem_range'_1.mp hj
  have hleaders : leaders fits l = leaders fits' l := leaders_congr fun i k hik hk => h i k hik (by omega)
  have hfits : ∀ l' ∈ leaders fits' l, fits l' j = fits' l' j := fun l' hl' =>
    h l' j (by have := (mem_leaders.mp hl').1; omega) (by omega)
  refine decide_eq_decide.mpr ?_
  rw [Follows, Follows, hleaders, h l j (by omega) (by omega)]
  refine and_congr_right fun _ => and_congr_right fun _ => forall₂_congr fun l' hl' => ?_
  rw [hfits l' hl']

end FirstFit
