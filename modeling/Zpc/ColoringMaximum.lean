import Zpc.Coloring

/-!
# Coloring by maximal independent sets

`maximum_independent_sets` fills one color after the other: it takes the local minima of what is left, shuts out their
neighbours until the color is done, and takes the minima of what remains until nothing does. Each color becomes a
maximal independent set of the vertices that have no smaller one.
-/
namespace Zpc.Coloring
variable {V W : Type*} [LinearOrder W]

section Definitions
/-- The memory of a launch with the flag `expanded`. -/
structure MaximumMemory extends Memory where
  expanded : ℕ

/-- The kernel that colors the local minima, at the start of a color and in its expansion. -/
def colorMinima (adj : ℕ → List ℕ) (ws : ℕ → W) (color : ℕ) (s : MaximumMemory) (row : ℕ) : MaximumMemory :=
  if s.maskOut row ≠ 0 then s
  else if colorMin adj ws s.maskOut row then {s with toMemory := s.paint row (color + 1), expanded := 1}
  else s

/-- The kernel that masks what has got the color. -/
def maskMinima (color : ℕ) (m : Memory) (row : ℕ) : Memory :=
  if m.maskOut row ≠ 0 then m else if m.colors row = color + 1 then m.mask row 1 else m

/-- The kernel that excludes the neighbours of the color. -/
def excludeNeighbors (adj : ℕ → List ℕ) (color : ℕ) (m : Memory) (row : ℕ) : Memory :=
  if m.maskOut row ≠ 0 then m
  else if (adj row).any fun neighbor => m.colors neighbor = color + 1 then m.mask row 2
  else m

/-- The reset of the exclusions. -/
def resetExcluded (m : Memory) : Memory :=
  {m with maskOut := fun row => if m.maskOut row = 2 then 0 else m.maskOut row}

/-- The iterative expansion of a color. -/
def expand (adj : ℕ → List ℕ) (ws : ℕ → W) (rows : List ℕ) (color : ℕ) : ℕ → Memory → Option Memory
  | 0, _ => none
  | fuel + 1, m =>
    let s := rows.foldl (colorMinima adj ws color) ⟨rows.foldl (excludeNeighbors adj color) m, 0⟩
    let m' := rows.foldl (maskMinima color) s.toMemory
    if s.expanded = 1 then expand adj ws rows color fuel m' else some m'

/-- The vertices of color `c` are a maximal independent set among those without a smaller color. -/
structure MaximalClass (adj : ℕ → List ℕ) (n : ℕ) (colors : ℕ → ℕ) (c : ℕ) : Prop where
  used : ∃ v < n, colors v = c
  independent : ∀ u < n, ∀ v ∈ adj u, colors u = c → colors v ≠ c
  maximal : ∀ v < n, c < colors v → ∃ u ∈ adj v, colors u = c

end Definitions

section Launches
variable {adj : ℕ → List ℕ} {n color maxColor : ℕ} {ws : ℕ → W} {rows : List ℕ} {m : Memory} {s : MaximumMemory}

/-- What a launch of the kernel for minima leaves behind. -/
structure Spread (adj : ℕ → List ℕ) (ws : ℕ → W) (color : ℕ) (rows : List ℕ) (s s' : MaximumMemory) : Prop where
  maskOut : s'.maskOut = s.maskOut
  colors : ∀ v, s'.colors v =
    if v ∈ rows ∧ s.maskOut v = 0 ∧ colorMin adj ws s.maskOut v = true then color + 1 else s.colors v
  expanded : s'.expanded =
    if ∃ v ∈ rows, s.maskOut v = 0 ∧ colorMin adj ws s.maskOut v = true then 1 else s.expanded

theorem colorMinima_spread (adj : ℕ → List ℕ) (ws : ℕ → W) (color : ℕ) (s : MaximumMemory) (row : ℕ) :
    Spread adj ws color [row] s (colorMinima adj ws color s row) := by
  have hcolors : ∀ c v, (Function.update s.colors row c) v = if v = row then c else s.colors v := fun c v =>
    Function.update_apply ..
  rw [colorMinima]
  by_cases hm : s.maskOut row = 0
  · by_cases hmin : colorMin adj ws s.maskOut row = true
    · constructor <;> simp_all [Memory.paint]
      intro v
      by_cases hv : v = row
      · subst hv
        simp [hm, hmin]
      · simp [hv]
    · constructor <;> simp_all
  · constructor <;> simp_all

theorem spread_foldl (rows : List ℕ) (s : MaximumMemory) :
    Spread adj ws color rows s (rows.foldl (colorMinima adj ws color) s) := by
  induction rows generalizing s with
  | nil => constructor <;> simp
  | cons row rows ih =>
    have h₁ := colorMinima_spread adj ws color s row
    have h₂ := ih (colorMinima adj ws color s row)
    rw [List.foldl_cons]
    constructor
    · rw [h₂.maskOut, h₁.maskOut]
    · intro v
      rw [h₂.colors v, h₁.colors v, h₁.maskOut]
      by_cases hm : s.maskOut v = 0 ∧ colorMin adj ws s.maskOut v = true
      · by_cases hv : v ∈ rows <;> simp [hm, hv]
      · rw [if_neg fun h => hm h.2, if_neg fun h => hm h.2, if_neg fun h => hm h.2]
    · rw [h₂.expanded, h₁.expanded, h₁.maskOut]
      by_cases hr : ∃ v ∈ rows, s.maskOut v = 0 ∧ colorMin adj ws s.maskOut v = true <;> simp [hr]

theorem foldl_maskMinima (color : ℕ) (rows : List ℕ) (m : Memory) :
    (rows.foldl (maskMinima color) m).colors = m.colors ∧ ∀ v, (rows.foldl (maskMinima color) m).maskOut v =
      if v ∈ rows ∧ m.maskOut v = 0 ∧ m.colors v = color + 1 then 1 else m.maskOut v :=
  foldl_mask (p := fun colors v => colors v = color + 1) one_ne_zero
    (fun _ _ h => if_neg (not_not.mpr h)) (fun _ _ h => if_pos h) rows m

theorem foldl_excludeNeighbors (adj : ℕ → List ℕ) (color : ℕ) (rows : List ℕ) (m : Memory) :
    (rows.foldl (excludeNeighbors adj color) m).colors = m.colors ∧
      ∀ v, (rows.foldl (excludeNeighbors adj color) m).maskOut v =
        if v ∈ rows ∧ m.maskOut v = 0 ∧ ((adj v).any fun u => m.colors u = color + 1) = true then 2 else m.maskOut v :=
  foldl_mask (p := fun colors v => ((adj v).any fun u => colors u = color + 1) = true) two_ne_zero
    (fun _ _ h => if_neg (not_not.mpr h)) (fun _ _ h => if_pos h) rows m

def Minimum (adj : ℕ → List ℕ) (n : ℕ) (ws : ℕ → W) (m : Memory) (v : ℕ) : Prop :=
  IsMin adj ws (fun u => u < n ∧ m.maskOut u = 0) v

/-- The local minima are colored and masked, and the flag tells whether there were any. -/
structure Grown (adj : ℕ → List ℕ) (n : ℕ) (ws : ℕ → W) (color : ℕ) (m m' : Memory) : Prop where
  minima : ∀ v < n, Minimum adj n ws m v → m'.colors v = color + 1 ∧ m'.maskOut v = 1
  other : ∀ v < n, ¬ Minimum adj n ws m v → m'.colors v = m.colors v ∧ m'.maskOut v = m.maskOut v

/-- The launches that color and mask, where what is not masked has another color. -/
theorem launch_grown (ws : ℕ → W) (hu : Undirected adj n) (hrows : rows.Perm (List.range n))
    (hfree : ∀ v < n, m.maskOut v = 0 → m.colors v ≠ color + 1) :
    let s := rows.foldl (colorMinima adj ws color) ⟨m, 0⟩
    Grown adj n ws color m (rows.foldl (maskMinima color) s.toMemory) ∧ s.maskOut = m.maskOut ∧
      (s.expanded = 0 ∧ (∀ v < n, ¬ Minimum adj n ws m v) ∧ (∀ v, s.colors v = m.colors v) ∨
        s.expanded = 1 ∧ ∃ v < n, Minimum adj n ws m v) := by
  intro s
  have hmem : ∀ v, v ∈ rows ↔ v < n := fun v => hrows.mem_iff.trans List.mem_range
  have hs : Spread adj ws color rows ⟨m, 0⟩ s := spread_foldl rows ⟨m, 0⟩
  have hmin : ∀ v, (v ∈ rows ∧ m.maskOut v = 0 ∧ colorMin adj ws m.maskOut v = true) ↔ v < n ∧ Minimum adj n ws m v := by
    intro v
    rw [hmem]
    refine and_congr_right fun hv => ?_
    have hiff : ∀ u < n, m.maskOut u = 0 ↔ u < n ∧ m.maskOut u = 0 := fun u hlt => (and_iff_right hlt).symm
    constructor
    · exact fun ⟨h0, hc⟩ => (colorMin_iff hu hiff hv ⟨hv, h0⟩).mp hc
    · exact fun h => ⟨h.1.2, (colorMin_iff hu hiff hv h.1).mpr h⟩
  obtain ⟨hcolors, hmask⟩ := foldl_maskMinima color rows s.toMemory
  refine ⟨⟨fun v hv h => ?_, fun v hv h => ?_⟩, hs.maskOut, ?_⟩
  · have hpaint : s.colors v = color + 1 := (hs.colors v).trans (if_pos ((hmin v).mpr ⟨hv, h⟩))
    rw [hcolors, hmask v, hpaint, hs.maskOut, if_pos ⟨(hmem v).mpr hv, h.1.2, rfl⟩]
    exact ⟨rfl, rfl⟩
  · have hkeep : s.colors v = m.colors v := (hs.colors v).trans (if_neg fun h' => h ((hmin v).mp h').2)
    rw [hcolors, hmask v, hkeep, hs.maskOut, if_neg fun h' => hfree v hv h'.2.1 h'.2.2]
    exact ⟨rfl, rfl⟩
  · have hexp := hs.expanded
    by_cases hany : ∃ v < n, Minimum adj n ws m v
    · obtain ⟨v, hv, h⟩ := hany
      rw [if_pos ⟨v, (hmin v).mpr ⟨hv, h⟩⟩] at hexp
      exact .inr ⟨hexp, v, hv, h⟩
    · have hnone : ∀ v < n, ¬ Minimum adj n ws m v := fun v hv h => hany ⟨v, hv, h⟩
      rw [if_neg fun ⟨v, h'⟩ => hnone v ((hmin v).mp h').1 ((hmin v).mp h').2] at hexp
      exact .inl ⟨hexp, hnone, fun v => (hs.colors v).trans
        (if_neg fun h' => hnone v ((hmin v).mp h').1 ((hmin v).mp h').2)⟩

end Launches

section Expansion
variable {adj : ℕ → List ℕ} {n c color maxColor : ℕ} {ws : ℕ → W} {rows : List ℕ} {m m' : Memory}

theorem exists_minimum (adj : ℕ → List ℕ) (ws : ℕ → W) {v : ℕ} (hv : v < n) (h : m.maskOut v = 0) :
    ∃ u < n, Minimum adj n ws m u := by
  obtain ⟨u, hu, hmin⟩ := Finset.exists_min_image (unmasked n m) ws ⟨v, mem_unmasked.mpr ⟨hv, h⟩⟩
  have hfree := mem_unmasked.mp hu
  exact ⟨u, hfree.1, hfree, fun x _ hx => hmin x (mem_unmasked.mpr hx)⟩

def uncolored (n : ℕ) (m : Memory) : Finset ℕ := (Finset.range n).filter fun v => m.maskOut v ≠ 1

theorem mem_uncolored {v : ℕ} : v ∈ uncolored n m ↔ v < n ∧ m.maskOut v ≠ 1 := by
  rw [uncolored, Finset.mem_filter, Finset.mem_range]

/-- Between two colors: `c` of them are complete. -/
structure Settled (adj : ℕ → List ℕ) (n maxColor c : ℕ) (m : Memory) : Prop where
  cases : ∀ v < n, m.maskOut v = 0 ∧ m.colors v = maxColor ∨ m.maskOut v = 1 ∧ 1 ≤ m.colors v ∧ m.colors v ≤ c
  classes : ∀ j, 1 ≤ j → j ≤ c → MaximalClass adj n m.colors j
  count : c + (uncolored n m).card ≤ n

/-- While the color `c + 1` spreads; what is excluded has a neighbour of this color. -/
structure Expanding (adj : ℕ → List ℕ) (n maxColor c : ℕ) (m : Memory) : Prop where
  cases : ∀ v < n, m.maskOut v = 0 ∧ m.colors v = maxColor ∨
    m.maskOut v = 1 ∧ 1 ≤ m.colors v ∧ m.colors v ≤ c + 1 ∨
    m.maskOut v = 2 ∧ m.colors v = maxColor ∧ ∃ u ∈ adj v, m.colors u = c + 1
  classes : ∀ j, 1 ≤ j → j ≤ c → MaximalClass adj n m.colors j
  used : ∃ v < n, m.colors v = c + 1
  independent : ∀ u < n, ∀ v ∈ adj u, m.colors u = c + 1 → m.colors v ≠ c + 1
  count : c + 1 + (uncolored n m).card ≤ n

/-- A complete color stays so when vertices without color get a later one. -/
theorem MaximalClass.mono {colors colors' : ℕ → ℕ} {j : ℕ} (h : MaximalClass adj n colors j) (hu : Undirected adj n)
    (hj : j < maxColor) (hjc : j < c)
    (hstep : ∀ v < n, colors' v = colors v ∨ colors v = maxColor ∧ colors' v = c) : MaximalClass adj n colors' j := by
  have hkeep : ∀ v < n, colors v = j → colors' v = j := fun v hv he => by
    rcases hstep v hv with h' | ⟨h', -⟩
    · rw [h', he]
    · omega
  have hback : ∀ v < n, colors' v = j → colors v = j := fun v hv he => by
    rcases hstep v hv with h' | ⟨-, h'⟩
    · rw [← h', he]
    · omega
  refine ⟨?_, fun u hlt v hv he he' => ?_, fun v hv hlt => ?_⟩
  · obtain ⟨v, hv, he⟩ := h.used
    exact ⟨v, hv, hkeep v hv he⟩
  · exact h.independent u hlt v hv (hback u hlt he) (hback v (hu.lt u hlt v hv) he')
  · have hcov : j < colors v := by
      rcases hstep v hv with h' | ⟨h', -⟩ <;> omega
    obtain ⟨u, hmem, he⟩ := h.maximal v hv hcov
    exact ⟨u, hmem, hkeep u (hu.lt v hv u hmem) he⟩

theorem Grown.color_step (h : Grown adj n ws c m m') (hfree : ∀ v < n, m.maskOut v = 0 → m.colors v = maxColor) :
    ∀ v < n, m'.colors v = m.colors v ∨ m.colors v = maxColor ∧ m'.colors v = c + 1 := fun v hv => by
  by_cases hmin : Minimum adj n ws m v
  · exact .inr ⟨hfree v hv hmin.1.2, (h.minima v hv hmin).1⟩
  · exact .inl (h.other v hv hmin).1

/-- Neighbours of different weights are not both minima, and no minimum touches the color. -/
theorem Grown.independent (hu : Undirected adj n) (hne : ∀ u < n, ∀ v ∈ adj u, ws u ≠ ws v) (h : Grown adj n ws c m m')
    (hind : ∀ u < n, ∀ v ∈ adj u, m.colors u = c + 1 → m.colors v ≠ c + 1)
    (hapart : ∀ v < n, m.maskOut v = 0 → ∀ u ∈ adj v, m.colors u ≠ c + 1) :
    ∀ u < n, ∀ v ∈ adj u, m'.colors u = c + 1 → m'.colors v ≠ c + 1 := by
  intro u hlt v hv he he'
  have hvlt := hu.lt u hlt v hv
  have hback := hu.symm u hlt v hv
  by_cases hmu : Minimum adj n ws m u
  · by_cases hmv : Minimum adj n ws m v
    · exact hne u hlt v hv (le_antisymm (hmu.2 v hv hmv.1) (hmv.2 u hback hmu.1))
    · exact hapart u hlt hmu.1.2 v hv ((h.other v hvlt hmv).1.symm.trans he')
  · have hcu := (h.other u hlt hmu).1.symm.trans he
    by_cases hmv : Minimum adj n ws m v
    · exact hapart v hvlt hmv.1.2 u hback hcu
    · exact hind u hlt v hv hcu ((h.other v hvlt hmv).1.symm.trans he')

theorem Grown.uncolored_subset (h : Grown adj n ws c m m') : uncolored n m' ⊆ uncolored n m := fun v hv => by
  obtain ⟨hlt, hm⟩ := mem_uncolored.mp hv
  by_cases hmin : Minimum adj n ws m v
  · exact absurd (h.minima v hlt hmin).2 hm
  · exact mem_uncolored.mpr ⟨hlt, (h.other v hlt hmin).2 ▸ hm⟩

theorem Grown.card_lt (h : Grown adj n ws c m m') {v : ℕ} (hv : v < n) (hmin : Minimum adj n ws m v) :
    (uncolored n m').card < (uncolored n m).card := by
  have hmem : v ∈ uncolored n m := mem_uncolored.mpr ⟨hv, by rw [hmin.1.2]; exact zero_ne_one⟩
  refine Finset.card_lt_card (Finset.ssubset_iff_of_subset h.uncolored_subset |>.mpr ⟨v, hmem, fun h' => ?_⟩)
  exact (mem_uncolored.mp h').2 (h.minima v hv hmin).2

/-- The first minima of a color. -/
theorem Settled.start (hu : Undirected adj n) (hne : ∀ u < n, ∀ v ∈ adj u, ws u ≠ ws v) (hwide : n < maxColor)
    (hs : Settled adj n maxColor c m) (h : Grown adj n ws c m m') {v : ℕ} (hv : v < n) (hmin : Minimum adj n ws m v) :
    Expanding adj n maxColor c m' := by
  have hcard := h.card_lt hv hmin
  have hcount := hs.count
  have hother : ∀ u < n, m.colors u ≠ c + 1 := fun u hlt => by
    rcases hs.cases u hlt with ⟨-, h'⟩ | ⟨-, -, h'⟩ <;> omega
  have hfree : ∀ v < n, m.maskOut v = 0 → m.colors v = maxColor := fun v hv h0 => by
    rcases hs.cases v hv with ⟨-, h'⟩ | ⟨h', -⟩
    · exact h'
    · omega
  refine ⟨fun u hlt => ?_, fun j h1 hj => ?_, ⟨v, hv, (h.minima v hv hmin).1⟩, ?_, by omega⟩
  · by_cases hm : Minimum adj n ws m u
    · obtain ⟨hc, hmask⟩ := h.minima u hlt hm
      exact .inr (.inl ⟨hmask, by omega, by omega⟩)
    · obtain ⟨hc, hmask⟩ := h.other u hlt hm
      rw [hc, hmask]
      exact (hs.cases u hlt).imp_right fun ⟨h', h1, hle⟩ => .inl ⟨h', h1, by omega⟩
  · exact (hs.classes j h1 hj).mono hu (by omega) (Nat.lt_succ_of_le hj) (h.color_step hfree)
  · exact h.independent hu hne (fun u hlt _ _ he => absurd he (hother u hlt))
      fun v hv _ u hmem => hother u (hu.lt v hv u hmem)

/-- After the exclusion nothing that is free touches the color. -/
theorem Expanding.exclude (hrows : rows.Perm (List.range n)) (h : Expanding adj n maxColor c m) :
    let m' := rows.foldl (excludeNeighbors adj c) m
    Expanding adj n maxColor c m' ∧ (∀ v < n, m'.maskOut v = 0 → ∀ u ∈ adj v, m'.colors u ≠ c + 1) ∧
      uncolored n m' = uncolored n m := by
  intro m'
  obtain ⟨hcolors, hmask⟩ := foldl_excludeNeighbors adj c rows m
  have hone : ∀ v, m'.maskOut v = 1 ↔ m.maskOut v = 1 := fun v => by
    rw [hmask v]
    split
    next h' => exact iff_of_false (by decide) (by rw [h'.2.1]; exact zero_ne_one)
    next => rfl
  have hsame : uncolored n m' = uncolored n m := by
    ext v
    rw [mem_uncolored, mem_uncolored, ne_eq, hone]
  refine ⟨⟨fun v hv => ?_, ?_, ?_, ?_, ?_⟩, fun v hv h0 u hmem he => ?_, hsame⟩
  · rw [hcolors, hmask v]
    split
    next h' =>
      obtain ⟨u, hmem, he⟩ := List.any_eq_true.mp h'.2.2
      rcases h.cases v hv with ⟨-, hc⟩ | ⟨h1, -⟩ | ⟨h2, -⟩
      · exact .inr (.inr ⟨rfl, hc, u, hmem, of_decide_eq_true he⟩)
      · omega
      · omega
    next => exact h.cases v hv
  · rw [hcolors]
    exact h.classes
  · rw [hcolors]
    exact h.used
  · rw [hcolors]
    exact h.independent
  · rw [hsame]
    exact h.count
  · have hany : ((adj v).any fun u => m.colors u = c + 1) = true :=
      List.any_eq_true.mpr ⟨u, hmem, decide_eq_true (hcolors ▸ he)⟩
    rw [hmask v] at h0
    split at h0
    next => cases h0
    next hn => exact hn ⟨hrows.mem_iff.mpr (List.mem_range.mpr hv), h0, hany⟩

/-- The minima of what is free extend the color. -/
theorem Expanding.grow (hu : Undirected adj n) (hne : ∀ u < n, ∀ v ∈ adj u, ws u ≠ ws v) (hwide : n < maxColor)
    (he : Expanding adj n maxColor c m) (hapart : ∀ v < n, m.maskOut v = 0 → ∀ u ∈ adj v, m.colors u ≠ c + 1)
    (h : Grown adj n ws c m m') : Expanding adj n maxColor c m' := by
  have hcount := he.count
  have hfree : ∀ v < n, m.maskOut v = 0 → m.colors v = maxColor := fun v hv h0 => by
    rcases he.cases v hv with ⟨-, h'⟩ | ⟨h', -⟩ | ⟨h', -⟩
    · exact h'
    · omega
    · omega
  have hkeep : ∀ v < n, m.colors v = c + 1 → m'.colors v = c + 1 := fun v hv hc => by
    rcases h.color_step hfree v hv with h' | ⟨-, h'⟩
    · rw [h', hc]
    · exact h'
  have hcard := Finset.card_le_card h.uncolored_subset
  refine ⟨fun v hv => ?_, fun j h1 hj => ?_, ?_, h.independent hu hne he.independent hapart, by omega⟩
  · by_cases hm : Minimum adj n ws m v
    · obtain ⟨hc, hmask⟩ := h.minima v hv hm
      exact .inr (.inl ⟨hmask, by omega, by omega⟩)
    · obtain ⟨hc, hmask⟩ := h.other v hv hm
      rw [hc, hmask]
      refine (he.cases v hv).imp_right (Or.imp_right fun ⟨h2, hmax, u, hmem, hcu⟩ => ⟨h2, hmax, u, hmem, ?_⟩)
      exact hkeep u (hu.lt v hv u hmem) hcu
  · exact (he.classes j h1 hj).mono hu (by omega) (Nat.lt_succ_of_le hj) (h.color_step hfree)
  · obtain ⟨v, hv, hc⟩ := he.used
    exact ⟨v, hv, hkeep v hv hc⟩

/-- With nothing left to extend it by, the color is complete. -/
theorem Expanding.finish (h : Expanding adj n maxColor c m)
    (hnone : ∀ v < n, m.maskOut v ≠ 0) : Settled adj n maxColor (c + 1) (resetExcluded m) ∧
      uncolored n (resetExcluded m) = uncolored n m := by
  have hone : ∀ v, (resetExcluded m).maskOut v = 1 ↔ m.maskOut v = 1 := fun v => by
    simp only [resetExcluded]
    split
    next h2 => exact iff_of_false zero_ne_one (by rw [h2]; decide)
    next => rfl
  have hsame : uncolored n (resetExcluded m) = uncolored n m := by
    ext v
    rw [mem_uncolored, mem_uncolored, ne_eq, hone]
  refine ⟨⟨fun v hv => ?_, fun j h1 hj => ?_, by rw [hsame]; exact h.count⟩, hsame⟩
  · rcases h.cases v hv with ⟨h0, -⟩ | ⟨h1, hc⟩ | ⟨h2, hc, -⟩
    · exact absurd h0 (hnone v hv)
    · exact .inr ⟨(hone v).mpr h1, hc⟩
    · exact .inl ⟨if_pos h2, hc⟩
  · rcases hj.eq_or_lt with rfl | hlt
    · refine ⟨h.used, h.independent, fun v hv hlt => ?_⟩
      rcases h.cases v hv with ⟨h0, -⟩ | ⟨-, -, hle⟩ | ⟨-, -, hcov⟩
      · exact absurd h0 (hnone v hv)
      · exact absurd hlt (by show ¬ c + 1 < m.colors v; omega)
      · exact hcov
    · exact h.classes j h1 (Nat.le_of_lt_succ hlt)

theorem Expanding.color_ne (hwide : n < maxColor) (h : Expanding adj n maxColor c m) {v : ℕ} (hv : v < n)
    (h0 : m.maskOut v = 0) : m.colors v ≠ c + 1 := by
  have hcount := h.count
  rcases h.cases v hv with ⟨-, hc⟩ | ⟨h1, -⟩ | ⟨h2, -⟩ <;> omega

/-- The expansion of a color ends when the color is complete. -/
theorem expand_spec (hu : Undirected adj n) (hne : ∀ u < n, ∀ v ∈ adj u, ws u ≠ ws v) (hwide : n < maxColor)
    (hrows : rows.Perm (List.range n)) (m : Memory) (h : Expanding adj n maxColor c m) :
    ∃ m', Settled adj n maxColor (c + 1) (resetExcluded m') ∧
      (uncolored n (resetExcluded m')).card ≤ (uncolored n m).card ∧
      ∀ fuel, (uncolored n m).card < fuel → expand adj ws rows c fuel m = some m' := by
  induction hcard : (uncolored n m).card using Nat.strong_induction_on generalizing m with
  | _ d ih =>
    subst hcard
    obtain ⟨hexcluded, hapart, hsame⟩ := h.exclude hrows
    obtain ⟨hgrown, -, hflag⟩ := launch_grown ws hu hrows fun v hv => hexcluded.color_ne hwide hv
    have hnext := hexcluded.grow hu hne hwide hapart hgrown
    rcases hflag with ⟨hflag, hnone, -⟩ | ⟨hflag, v, hv, hmin⟩
    · have hfree := fun v (hv : v < n) (h0 : (rows.foldl (excludeNeighbors adj c) m).maskOut v = 0) =>
        (exists_minimum adj ws hv h0).elim fun u hu => hnone u hu.1 hu.2
      obtain ⟨hsettled, hreset⟩ := hnext.finish fun v hv => by
        rw [(hgrown.other v hv (hnone v hv)).2]
        exact hfree v hv
      refine ⟨_, hsettled, ?_, fun fuel hf => ?_⟩
      · rw [hreset, ← hsame]
        exact Finset.card_le_card hgrown.uncolored_subset
      · obtain _ | fuel := fuel
        · omega
        · exact if_neg (by rw [hflag]; decide)
    · have hlt := hgrown.card_lt hv hmin
      rw [hsame] at hlt
      obtain ⟨m', hsettled, hle, hrun⟩ := ih _ hlt _ hnext rfl
      refine ⟨m', hsettled, hle.trans hlt.le, fun fuel hf => ?_⟩
      obtain _ | fuel := fuel
      · omega
      · exact (if_pos hflag).trans (hrun fuel (by omega))

end Expansion
end Zpc.Coloring
