import Zpc.SparseMatrix
import Mathlib.Data.Finset.Max
import Mathlib.Order.Interval.Finset.Nat

/-!
# Coloring by local extrema

`fast_independent_sets` colors in each round the local maxima of what is left of the graph with one color and the local
minima with the next. Neighbours of equal weight do not count against each other, so that both can be extrema of one
kind; that this never happens is what the coloring needs to be proper.
-/
namespace Zpc.Coloring
variable {V W : Type*} [LinearOrder W]

section Definitions
/-- The columns of the entries of a row. -/
def neighbors (spmat : SparseMatrix V) (row : ℕ) : List ℕ :=
  (List.range' (spmat.ptrs.get row) (spmat.ptrs.get (row + 1) - spmat.ptrs.get row)).map spmat.inds.get

/-- The colors and the mask of the vertices. -/
structure Memory where
  colors : ℕ → ℕ
  maskOut : ℕ → ℕ

/-- The memory of a launch with the two flags of `done`. -/
structure FastMemory extends Memory where
  done0 : ℕ
  done1 : ℕ

def Memory.paint (m : Memory) (row color : ℕ) : Memory := {m with colors := Function.update m.colors row color}

def Memory.mask (m : Memory) (row value : ℕ) : Memory := {m with maskOut := Function.update m.maskOut row value}

/-- The flag `colorMax`: no neighbour that is not masked has a greater weight. -/
def colorMax (adj : ℕ → List ℕ) (ws : ℕ → W) (maskOut : ℕ → ℕ) (row : ℕ) : Bool :=
  (adj row).all fun neighbor => maskOut neighbor ≠ 0 ∨ ¬ ws neighbor > ws row

/-- The flag `colorMin`. -/
def colorMin (adj : ℕ → List ℕ) (ws : ℕ → W) (maskOut : ℕ → ℕ) (row : ℕ) : Bool :=
  (adj row).all fun neighbor => maskOut neighbor ≠ 0 ∨ ¬ ws neighbor < ws row

/-- The first kernel of `fast_independent_sets`. -/
def colorExtrema (adj : ℕ → List ℕ) (ws : ℕ → W) (color : ℕ) (s : FastMemory) (row : ℕ) : FastMemory :=
  if s.maskOut row ≠ 0 then s
  else if colorMax adj ws s.maskOut row then {s with toMemory := s.paint row (color + 1), done0 := 1}
  else if colorMin adj ws s.maskOut row then {s with toMemory := s.paint row (color + 2), done1 := 1}
  else s

/-- The second kernel of `fast_independent_sets`. -/
def maskExtrema (color : ℕ) (m : Memory) (row : ℕ) : Memory :=
  if m.maskOut row ≠ 0 then m
  else if m.colors row = color + 1 ∨ m.colors row = color + 2 then m.mask row 1 else m

/-- The loop over the colors; the rows of a launch are handled in the order of `rows`. -/
def fastRounds (adj : ℕ → List ℕ) (ws : ℕ → W) (rows : List ℕ) : ℕ → ℕ → Memory → Option (ℕ × Memory)
  | 0, _, _ => none
  | fuel + 1, color, m =>
    let s := rows.foldl (colorExtrema adj ws color) ⟨m, 0, 0⟩
    if s.done0 = 0 then some (color, s.toMemory)
    else if s.done1 = 0 then some (color + 1, s.toMemory)
    else fastRounds adj ws rows fuel (color + 2) (rows.foldl (maskExtrema color) s.toMemory)

/-- The checks before the rounds, and the rounds from uncolored vertices. -/
def colorGraph (rounds : Memory → Option (ℕ × Memory)) (spmat : SparseMatrix V) (n : ℕ) (compatible : Bool)
    (maxColor : ℕ) : Except String (Option (ℕ × (ℕ → ℕ))) :=
  if n ≠ spmat.nrows ∨ n ≠ spmat.ncols then .error "spmat and weight size mismatch"
  else if compatible = false then .error "current memory location not compatible with the execution policy"
  else .ok ((rounds ⟨fun _ => maxColor, fun _ => 0⟩).map fun r => (r.1, r.2.colors))

/-- `fast_independent_sets` of `n` weights, with the returned number and the colors; `maxColor` is the greatest value
of the color type. -/
def fastIndependentSets (spmat : SparseMatrix V) (n : ℕ) (ws : ℕ → W) (compatible : Bool) (maxColor : ℕ)
    (rows : List ℕ) (fuel : ℕ) : Except String (Option (ℕ × (ℕ → ℕ))) :=
  colorGraph (fastRounds (neighbors spmat) ws rows fuel 0) spmat n compatible maxColor

/-- An undirected graph without loops on the vertices below `n`. -/
structure Undirected (adj : ℕ → List ℕ) (n : ℕ) : Prop where
  lt : ∀ u < n, ∀ v ∈ adj u, v < n
  symm : ∀ u < n, ∀ v ∈ adj u, u ∈ adj v
  irrefl : ∀ u < n, u ∉ adj u

def IsMax (adj : ℕ → List ℕ) (ws : ℕ → W) (free : ℕ → Prop) (v : ℕ) : Prop :=
  free v ∧ ∀ u ∈ adj v, free u → ws u ≤ ws v

def IsMin (adj : ℕ → List ℕ) (ws : ℕ → W) (free : ℕ → Prop) (v : ℕ) : Prop :=
  free v ∧ ∀ u ∈ adj v, free u → ws v ≤ ws u

/-- What is left of the graph when local maxima and minima have been removed `k` times. -/
def Peeled (adj : ℕ → List ℕ) (n : ℕ) (ws : ℕ → W) : ℕ → ℕ → Prop
  | 0, v => v < n
  | k + 1, v => Peeled adj n ws k v ∧ ¬ IsMax adj ws (Peeled adj n ws k) v ∧ ¬ IsMin adj ws (Peeled adj n ws k) v

/-- Both vertices are maxima of what is left, or both are minima and no maxima. -/
def Tied (adj : ℕ → List ℕ) (n : ℕ) (ws : ℕ → W) (k u v : ℕ) : Prop :=
  IsMax adj ws (Peeled adj n ws k) u ∧ IsMax adj ws (Peeled adj n ws k) v ∨
    (IsMin adj ws (Peeled adj n ws k) u ∧ ¬ IsMax adj ws (Peeled adj n ws k) u) ∧
      IsMin adj ws (Peeled adj n ws k) v ∧ ¬ IsMax adj ws (Peeled adj n ws k) v

/-- The run ends, every vertex has a color between one and the returned number, and neighbours differ. -/
def Colors (adj : ℕ → List ℕ) (n : ℕ) (run : ℕ → Except String (Option (ℕ × (ℕ → ℕ)))) : Prop :=
  ∃ fuel r colors, (∀ more, run (fuel + more) = .ok (some (r, colors))) ∧ (∀ v < n, 1 ≤ colors v ∧ colors v ≤ r) ∧
    ∀ u < n, ∀ v ∈ adj u, colors u ≠ colors v

end Definitions

section Launches
variable {adj : ℕ → List ℕ} {ws : ℕ → W} {color row : ℕ} {rows : List ℕ} {m : Memory} {s : FastMemory}

/-- The color of a row after the first kernel. -/
def extremeColor (adj : ℕ → List ℕ) (ws : ℕ → W) (color : ℕ) (m : Memory) (v : ℕ) : ℕ :=
  if m.maskOut v ≠ 0 then m.colors v
  else if colorMax adj ws m.maskOut v then color + 1
  else if colorMin adj ws m.maskOut v then color + 2
  else m.colors v

/-- What a launch of the first kernel leaves behind. -/
structure Scanned (adj : ℕ → List ℕ) (ws : ℕ → W) (color : ℕ) (rows : List ℕ) (s s' : FastMemory) : Prop where
  maskOut : s'.maskOut = s.maskOut
  colors : ∀ v, s'.colors v = if v ∈ rows then extremeColor adj ws color s.toMemory v else s.colors v
  done0 : s'.done0 = 0 ↔ s.done0 = 0 ∧ ∀ v ∈ rows, s.maskOut v = 0 → colorMax adj ws s.maskOut v = false
  done1 : s'.done1 = 0 ↔ s.done1 = 0 ∧ ∀ v ∈ rows, s.maskOut v = 0 → colorMax adj ws s.maskOut v = false →
    colorMin adj ws s.maskOut v = false

theorem colorExtrema_scanned (adj : ℕ → List ℕ) (ws : ℕ → W) (color : ℕ) (s : FastMemory) (row : ℕ) :
    Scanned adj ws color [row] s (colorExtrema adj ws color s row) := by
  have hcolors : ∀ c v, (Function.update s.colors row c) v = if v = row then c else s.colors v := fun c v =>
    Function.update_apply ..
  rw [colorExtrema]
  by_cases hm : s.maskOut row = 0
  · by_cases hmax : colorMax adj ws s.maskOut row = true
    · constructor <;> simp_all [Memory.paint, extremeColor]
    · by_cases hmin : colorMin adj ws s.maskOut row = true
      · constructor <;> simp_all [Memory.paint, extremeColor]
      · constructor <;> simp_all [extremeColor]
  · constructor <;> simp_all [extremeColor]

theorem scanned_foldl (adj : ℕ → List ℕ) (ws : ℕ → W) (color : ℕ) (rows : List ℕ) (s : FastMemory) :
    Scanned adj ws color rows s (rows.foldl (colorExtrema adj ws color) s) := by
  induction rows generalizing s with
  | nil => constructor <;> simp
  | cons row rows ih =>
    have h₁ := colorExtrema_scanned adj ws color s row
    have h₂ := ih (colorExtrema adj ws color s row)
    rw [List.foldl_cons]
    constructor
    · rw [h₂.maskOut, h₁.maskOut]
    · intro v
      have hv := h₁.colors v
      have hagain : extremeColor adj ws color (colorExtrema adj ws color s row).toMemory v =
          extremeColor adj ws color s.toMemory v := by
        simp only [extremeColor, h₁.maskOut, hv]
        split_ifs <;> simp_all [extremeColor]
      rw [h₂.colors v, hagain, hv]
      by_cases hr : v = row <;> simp [hr]
    · simp [h₂.done0, h₁.done0, h₁.maskOut, and_assoc]
    · simp [h₂.done1, h₁.done1, h₁.maskOut, and_assoc]

/-- A launch that masks rows by the colors alone. -/
theorem foldl_mask {mark : Memory → ℕ → Memory} {p : (ℕ → ℕ) → ℕ → Prop} [∀ f v, Decidable (p f v)]
    {value : ℕ} (hvalue : value ≠ 0) (hmark : ∀ m row, m.maskOut row = 0 → mark m row = if p m.colors row then m.mask row value else m)
    (hskip : ∀ m row, m.maskOut row ≠ 0 → mark m row = m) (rows : List ℕ) (m : Memory) :
    (rows.foldl mark m).colors = m.colors ∧ ∀ v, (rows.foldl mark m).maskOut v =
      if v ∈ rows ∧ m.maskOut v = 0 ∧ p m.colors v then value else m.maskOut v := by
  induction rows generalizing m with
  | nil => simp
  | cons row rows ih =>
    obtain ⟨hcolors, hmask⟩ := ih (mark m row)
    have hstep : (mark m row).colors = m.colors ∧ ∀ v, (mark m row).maskOut v =
        if v = row ∧ m.maskOut v = 0 ∧ p m.colors v then value else m.maskOut v := by
      by_cases hm : m.maskOut row = 0
      · rw [hmark m row hm]
        by_cases hp : p m.colors row
        · rw [if_pos hp]
          refine ⟨rfl, fun v => ?_⟩
          show Function.update m.maskOut row value v = _
          rw [Function.update_apply]
          by_cases hv : v = row
          · subst hv
            rw [if_pos rfl, if_pos ⟨rfl, hm, hp⟩]
          · rw [if_neg hv, if_neg fun h => hv h.1]
        · rw [if_neg hp]
          refine ⟨rfl, fun v => (if_neg ?_).symm⟩
          rintro ⟨rfl, -, h⟩
          exact hp h
      · rw [hskip m row hm]
        refine ⟨rfl, fun v => (if_neg ?_).symm⟩
        rintro ⟨rfl, h, -⟩
        exact hm h
    rw [List.foldl_cons]
    refine ⟨hcolors.trans hstep.1, fun v => ?_⟩
    rw [hmask v, hstep.1, hstep.2 v]
    by_cases hv : v = row
    · subst hv
      by_cases h : m.maskOut v = 0 ∧ p m.colors v
      · simp [h, hvalue]
      · rw [if_neg (fun h' : v = v ∧ _ => h h'.2), if_neg fun h' => h h'.2, if_neg fun h' => h h'.2]
    · simp [hv]

theorem foldl_maskExtrema (color : ℕ) (rows : List ℕ) (m : Memory) :
    (rows.foldl (maskExtrema color) m).colors = m.colors ∧ ∀ v, (rows.foldl (maskExtrema color) m).maskOut v =
      if v ∈ rows ∧ m.maskOut v = 0 ∧ (m.colors v = color + 1 ∨ m.colors v = color + 2) then 1 else m.maskOut v :=
  foldl_mask (p := fun colors v => colors v = color + 1 ∨ colors v = color + 2) one_ne_zero
    (fun _ _ h => if_neg (not_not.mpr h)) (fun _ _ h => if_pos h) rows m

end Launches

section Extrema
variable {adj : ℕ → List ℕ} {n v u i j k c c' : ℕ} {ws : ℕ → W} {free : ℕ → Prop} {maskOut : ℕ → ℕ}

theorem colorMax_iff (hu : Undirected adj n) (hfree : ∀ v < n, maskOut v = 0 ↔ free v) (hv : v < n) (h : free v) :
    colorMax adj ws maskOut v = true ↔ IsMax adj ws free v := by
  simp only [colorMax, List.all_eq_true, decide_eq_true_eq, not_lt, gt_iff_lt, IsMax, h, true_and]
  refine forall₂_congr fun u hmem => ?_
  rw [← hfree u (hu.lt v hv u hmem), ne_eq, ← imp_iff_not_or]

theorem colorMin_iff (hu : Undirected adj n) (hfree : ∀ v < n, maskOut v = 0 ↔ free v) (hv : v < n) (h : free v) :
    colorMin adj ws maskOut v = true ↔ IsMin adj ws free v := by
  simp only [colorMin, List.all_eq_true, decide_eq_true_eq, not_lt, IsMin, h, true_and]
  refine forall₂_congr fun u hmem => ?_
  rw [← hfree u (hu.lt v hv u hmem), ne_eq, ← imp_iff_not_or]

/-- What is left has a maximum. -/
theorem exists_isMax (adj : ℕ → List ℕ) (ws : ℕ → W) (hfree : ∀ v, free v → v < n) (h : free v) :
    ∃ u, IsMax adj ws free u := by
  classical
  obtain ⟨u, hu, hmax⟩ := Finset.exists_max_image ((Finset.range n).filter free) ws
    ⟨v, Finset.mem_filter.mpr ⟨Finset.mem_range.mpr (hfree v h), h⟩⟩
  exact ⟨u, (Finset.mem_filter.mp hu).2, fun x _ hx =>
    hmax x (Finset.mem_filter.mpr ⟨Finset.mem_range.mpr (hfree x hx), hx⟩)⟩

/-- Where every minimum is a maximum, all are maxima: the least one that is not has no smaller neighbour. -/
theorem isMax_of_isMin (hu : Undirected adj n) (hfree : ∀ v, free v → v < n)
    (hmin : ∀ v, IsMin adj ws free v → IsMax adj ws free v) (h : free v) : IsMax adj ws free v := by
  classical
  by_contra hmax
  obtain ⟨x, hx, hleast⟩ := Finset.exists_min_image ((Finset.range n).filter fun v => free v ∧ ¬ IsMax adj ws free v) ws
    ⟨v, Finset.mem_filter.mpr ⟨Finset.mem_range.mpr (hfree v h), h, hmax⟩⟩
  obtain ⟨-, hxfree, hxmax⟩ := Finset.mem_filter.mp hx
  refine hxmax (hmin x ⟨hxfree, fun y hy hyfree => ?_⟩)
  by_contra hlt
  have hymax : ¬ IsMax adj ws free y := fun hm =>
    hlt (hm.2 x (hu.symm x (hfree x hxfree) y hy) hxfree)
  exact hlt (hleast y (Finset.mem_filter.mpr ⟨Finset.mem_range.mpr (hfree y hyfree), hyfree, hymax⟩))

theorem peeled_lt (h : Peeled adj n ws k v) : v < n := by
  induction k with
  | zero => exact h
  | succ k ih => exact ih h.1

theorem peeled_of_le (hle : j ≤ k) (h : Peeled adj n ws k v) : Peeled adj n ws j v := by
  induction k with
  | zero =>
    obtain rfl := Nat.le_zero.mp hle
    exact h
  | succ k ih =>
    rcases hle.eq_or_lt with rfl | hlt
    · exact h
    · exact ih (Nat.le_of_lt_succ hlt) h.1

/-- The vertex is removed in the round `j`, with the color `c`. -/
def Leaves (adj : ℕ → List ℕ) (n : ℕ) (ws : ℕ → W) (j v c : ℕ) : Prop :=
  IsMax adj ws (Peeled adj n ws j) v ∧ c = 2 * j + 1 ∨
    (IsMin adj ws (Peeled adj n ws j) v ∧ ¬ IsMax adj ws (Peeled adj n ws j) v) ∧ c = 2 * j + 2

theorem Leaves.peeled (h : Leaves adj n ws j v c) : Peeled adj n ws j v ∧ ¬ Peeled adj n ws (j + 1) v := by
  rcases h with ⟨hmax, -⟩ | ⟨⟨hmin, -⟩, -⟩
  · exact ⟨hmax.1, fun h => h.2.1 hmax⟩
  · exact ⟨hmin.1, fun h => h.2.2 hmin⟩

theorem Leaves.le (h : Leaves adj n ws i v c) (h' : Leaves adj n ws j v c') : i ≤ j := by
  by_contra hlt
  exact h'.peeled.2 (peeled_of_le (by omega) h.peeled.1)

theorem Leaves.unique (h : Leaves adj n ws i v c) (h' : Leaves adj n ws j v c') : i = j ∧ c = c' := by
  obtain rfl : i = j := Nat.le_antisymm (h.le h') (h'.le h)
  refine ⟨rfl, ?_⟩
  rcases h with ⟨hmax, rfl⟩ | ⟨⟨-, hmax⟩, rfl⟩
  · rcases h' with ⟨-, rfl⟩ | ⟨⟨-, hnmax⟩, -⟩
    · rfl
    · exact absurd hmax hnmax
  · rcases h' with ⟨hnmax, -⟩ | ⟨-, rfl⟩
    · exact absurd hnmax hmax
    · rfl

theorem Leaves.tied (h : Leaves adj n ws i u c) (h' : Leaves adj n ws j v c) : Tied adj n ws i u v := by
  rcases h with ⟨hmax, hc⟩ | ⟨hmin, hc⟩
  · rcases h' with ⟨hmax', hc'⟩ | ⟨-, hc'⟩
    · obtain rfl : i = j := by omega
      exact .inl ⟨hmax, hmax'⟩
    · omega
  · rcases h' with ⟨-, hc'⟩ | ⟨hmin', hc'⟩
    · omega
    · obtain rfl : i = j := by omega
      exact .inr ⟨hmin, hmin'⟩

theorem Tied.leaves (h : Tied adj n ws j u v) : ∃ c, Leaves adj n ws j u c ∧ Leaves adj n ws j v c := by
  rcases h with ⟨hu, hv⟩ | ⟨hu, hv⟩
  · exact ⟨_, .inl ⟨hu, rfl⟩, .inl ⟨hv, rfl⟩⟩
  · exact ⟨_, .inr ⟨hu, rfl⟩, .inr ⟨hv, rfl⟩⟩

end Extrema

section Rounds
variable {adj : ℕ → List ℕ} {n k maxColor : ℕ} {ws : ℕ → W} {m : Memory} {s : FastMemory} {rows : List ℕ}

def unmasked (n : ℕ) (m : Memory) : Finset ℕ := (Finset.range n).filter fun v => m.maskOut v = 0

theorem mem_unmasked {v : ℕ} : v ∈ unmasked n m ↔ v < n ∧ m.maskOut v = 0 := by
  rw [unmasked, Finset.mem_filter, Finset.mem_range]

/-- Before the round `k`, the mask and the colors are those of what has left. -/
structure Round (adj : ℕ → List ℕ) (n : ℕ) (ws : ℕ → W) (maxColor k : ℕ) (m : Memory) : Prop where
  free : ∀ v < n, m.maskOut v = 0 ↔ Peeled adj n ws k v
  uncolored : ∀ v < n, m.maskOut v = 0 → m.colors v = maxColor
  colored : ∀ v < n, m.maskOut v ≠ 0 → ∃ j < k, Leaves adj n ws j v (m.colors v)
  count : 2 * k + (unmasked n m).card ≤ n

/-- The launch of the first kernel colors the extrema of what is left. -/
structure Launched (adj : ℕ → List ℕ) (n : ℕ) (ws : ℕ → W) (k : ℕ) (m : Memory) (s : FastMemory) : Prop where
  maskOut : s.maskOut = m.maskOut
  max : ∀ v < n, IsMax adj ws (Peeled adj n ws k) v → s.colors v = 2 * k + 1
  min : ∀ v < n, IsMin adj ws (Peeled adj n ws k) v → ¬ IsMax adj ws (Peeled adj n ws k) v → s.colors v = 2 * k + 2
  other : ∀ v < n, ¬ IsMax adj ws (Peeled adj n ws k) v → ¬ IsMin adj ws (Peeled adj n ws k) v →
    s.colors v = m.colors v
  done0 : s.done0 = 0 ↔ ∀ v < n, ¬ IsMax adj ws (Peeled adj n ws k) v
  done1 : s.done1 = 0 ↔ ∀ v < n, IsMin adj ws (Peeled adj n ws k) v → IsMax adj ws (Peeled adj n ws k) v

theorem Round.launched (hu : Undirected adj n) (hrows : rows.Perm (List.range n)) (h : Round adj n ws maxColor k m) :
    Launched adj n ws k m (rows.foldl (colorExtrema adj ws (2 * k)) ⟨m, 0, 0⟩) := by
  have hs := scanned_foldl adj ws (2 * k) rows ⟨m, 0, 0⟩
  have hmem : ∀ v, v ∈ rows ↔ v < n := fun v => hrows.mem_iff.trans List.mem_range
  have hcolors : ∀ v < n, _ = extremeColor adj ws (2 * k) m v := fun v hv =>
    (hs.colors v).trans (if_pos ((hmem v).mpr hv))
  have hmax : ∀ v < n, m.maskOut v = 0 → (colorMax adj ws m.maskOut v = true ↔ IsMax adj ws (Peeled adj n ws k) v) :=
    fun v hv h0 => colorMax_iff hu h.free hv ((h.free v hv).mp h0)
  have hmin : ∀ v < n, m.maskOut v = 0 → (colorMin adj ws m.maskOut v = true ↔ IsMin adj ws (Peeled adj n ws k) v) :=
    fun v hv h0 => colorMin_iff hu h.free hv ((h.free v hv).mp h0)
  refine ⟨hs.maskOut, fun v hv hm => ?_, fun v hv hm hn => ?_, fun v hv hm hn => ?_, ?_, ?_⟩
  · have h0 := (h.free v hv).mpr hm.1
    rw [hcolors v hv, extremeColor, if_neg (not_not.mpr h0), if_pos ((hmax v hv h0).mpr hm)]
  · have h0 := (h.free v hv).mpr hm.1
    rw [hcolors v hv, extremeColor, if_neg (not_not.mpr h0), if_neg fun h' => hn ((hmax v hv h0).mp h'),
      if_pos ((hmin v hv h0).mpr hm)]
  · rw [hcolors v hv, extremeColor]
    by_cases h0 : m.maskOut v = 0
    · rw [if_neg (not_not.mpr h0), if_neg fun h' => hm ((hmax v hv h0).mp h'), if_neg fun h' => hn ((hmin v hv h0).mp h')]
    · exact if_pos h0
  · rw [hs.done0]
    refine ⟨fun ⟨_, hd⟩ v hv hm => ?_, fun hd => ⟨rfl, fun v hv h0 => ?_⟩⟩
    · have h0 := (h.free v hv).mpr hm.1
      exact Bool.false_ne_true ((hd v ((hmem v).mpr hv) h0).symm.trans ((hmax v hv h0).mpr hm))
    · exact Bool.eq_false_iff.mpr fun h' => hd v ((hmem v).mp hv) ((hmax v ((hmem v).mp hv) h0).mp h')
  · rw [hs.done1]
    refine ⟨fun ⟨_, hd⟩ v hv hm => ?_, fun hd => ⟨rfl, fun v hv h0 hn => ?_⟩⟩
    · have h0 := (h.free v hv).mpr hm.1
      by_contra hnot
      have hfalse := hd v ((hmem v).mpr hv) h0 (Bool.eq_false_iff.mpr fun h' => hnot ((hmax v hv h0).mp h'))
      exact Bool.false_ne_true (hfalse.symm.trans ((hmin v hv h0).mpr hm))
    · have hlt := (hmem v).mp hv
      refine Bool.eq_false_iff.mpr fun h' => ?_
      rw [(hmax v hlt h0).mpr (hd v hlt ((hmin v hlt h0).mp h'))] at hn
      cases hn

def Finished (adj : ℕ → List ℕ) (n : ℕ) (ws : ℕ → W) (r : ℕ) (colors : ℕ → ℕ) : Prop :=
  ∀ v < n, (∃ j, Leaves adj n ws j v (colors v)) ∧ colors v ≤ r

theorem Launched.old (hr : Round adj n ws maxColor k m) (h : Launched adj n ws k m s) {v : ℕ} (hv : v < n)
    (hfree : ¬ Peeled adj n ws k v) : ∃ j < k, Leaves adj n ws j v (s.colors v) := by
  rw [h.other v hv (fun hm => hfree hm.1) fun hm => hfree hm.1]
  exact hr.colored v hv fun h0 => hfree ((hr.free v hv).mp h0)

theorem Leaves.color_le {j v c : ℕ} (h : Leaves adj n ws j v c) (hj : j < k) : c ≤ 2 * k := by
  rcases h with ⟨-, rfl⟩ | ⟨-, rfl⟩ <;> omega

theorem Launched.finished_of_done0 (hr : Round adj n ws maxColor k m) (h : Launched adj n ws k m s)
    (hd : s.done0 = 0) : Finished adj n ws (2 * k) s.colors := fun v hv => by
  have hfree : ¬ Peeled adj n ws k v := fun hp => by
    obtain ⟨u, hu⟩ := exists_isMax adj ws (fun _ => peeled_lt) hp
    exact h.done0.mp hd u (peeled_lt hu.1) hu
  obtain ⟨j, hj, hl⟩ := h.old hr hv hfree
  exact ⟨⟨j, hl⟩, hl.color_le hj⟩

theorem Launched.finished_of_done1 (hu : Undirected adj n) (hr : Round adj n ws maxColor k m)
    (h : Launched adj n ws k m s) (hd : s.done1 = 0) : Finished adj n ws (2 * k + 1) s.colors := fun v hv => by
  by_cases hp : Peeled adj n ws k v
  · have hmax : IsMax adj ws (Peeled adj n ws k) v :=
      isMax_of_isMin hu (fun _ => peeled_lt) (fun u hmin => h.done1.mp hd u (peeled_lt hmin.1) hmin) hp
    rw [h.max v hv hmax]
    exact ⟨⟨k, .inl ⟨hmax, rfl⟩⟩, le_rfl⟩
  · obtain ⟨j, hj, hl⟩ := h.old hr hv hp
    exact ⟨⟨j, hl⟩, (hl.color_le hj).trans (Nat.le_succ _)⟩

/-- In a round that goes on, the vertices that get a color are the extrema. -/
theorem Launched.painted_iff (hr : Round adj n ws maxColor k m) (h : Launched adj n ws k m s)
    (hcolor : 2 * k + 2 < maxColor) {v : ℕ} (hp : Peeled adj n ws k v) :
    s.colors v = 2 * k + 1 ∨ s.colors v = 2 * k + 2 ↔ ¬ Peeled adj n ws (k + 1) v := by
  have hv := peeled_lt hp
  constructor
  · rintro hc ⟨-, hmax, hmin⟩
    rw [h.other v hv hmax hmin, hr.uncolored v hv ((hr.free v hv).mpr hp)] at hc
    omega
  · intro hn
    by_cases hmax : IsMax adj ws (Peeled adj n ws k) v
    · exact .inl (h.max v hv hmax)
    · refine .inr (h.min v hv ?_ hmax)
      by_contra hmin
      exact hn ⟨hp, hmax, hmin⟩

/-- A maximum and a minimum that is no maximum. -/
theorem Launched.exists_pair (hr : Round adj n ws maxColor k m) (h : Launched adj n ws k m s) (hd0 : s.done0 ≠ 0)
    (hd1 : s.done1 ≠ 0) : ∃ a b, a ≠ b ∧ {a, b} ⊆ unmasked n m ∧ ∀ v ∈ ({a, b} : Finset ℕ),
      ¬ Peeled adj n ws (k + 1) v := by
  obtain ⟨a, ha, hamax⟩ : ∃ a < n, IsMax adj ws (Peeled adj n ws k) a := by
    by_contra hnone
    exact hd0 (h.done0.mpr fun v hv hmax => hnone ⟨v, hv, hmax⟩)
  obtain ⟨b, hb, hbmin, hbmax⟩ : ∃ b < n, IsMin adj ws (Peeled adj n ws k) b ∧ ¬ IsMax adj ws (Peeled adj n ws k) b := by
    by_contra hnone
    refine hd1 (h.done1.mpr fun v hv hmin => ?_)
    by_contra hmax
    exact hnone ⟨v, hv, hmin, hmax⟩
  refine ⟨a, b, fun he => hbmax (he ▸ hamax), ?_, fun v hv => ?_⟩
  · refine Finset.insert_subset (mem_unmasked.mpr ⟨ha, (hr.free a ha).mpr hamax.1⟩) ?_
    exact Finset.singleton_subset_iff.mpr (mem_unmasked.mpr ⟨hb, (hr.free b hb).mpr hbmin.1⟩)
  · rintro ⟨-, hmax, hmin⟩
    rcases Finset.mem_insert.mp hv with rfl | hv
    · exact hmax hamax
    · exact hmin (Finset.mem_singleton.mp hv ▸ hbmin)

/-- The second kernel masks what the first has colored. -/
theorem Launched.masked (hrows : rows.Perm (List.range n)) (hr : Round adj n ws maxColor k m)
    (h : Launched adj n ws k m s) (hcolor : 2 * k + 2 < maxColor) {v : ℕ} (hv : v < n) :
    (rows.foldl (maskExtrema (2 * k)) s.toMemory).maskOut v = 0 ↔ Peeled adj n ws (k + 1) v := by
  rw [(foldl_maskExtrema (2 * k) rows s.toMemory).2 v, h.maskOut]
  by_cases h0 : m.maskOut v = 0
  · have hpainted := h.painted_iff hr hcolor ((hr.free v hv).mp h0)
    by_cases hc : s.colors v = 2 * k + 1 ∨ s.colors v = 2 * k + 2
    · rw [if_pos ⟨hrows.mem_iff.mpr (List.mem_range.mpr hv), h0, hc⟩]
      exact iff_of_false one_ne_zero (hpainted.mp hc)
    · rw [if_neg fun h' => hc h'.2.2]
      exact iff_of_true h0 (not_not.mp fun hn => hc (hpainted.mpr hn))
  · rw [if_neg fun h' => h0 h'.2.1]
    exact iff_of_false h0 fun hp => h0 ((hr.free v hv).mpr hp.1)

/-- A round that finds extrema of both kinds leaves two vertices less. -/
theorem Launched.next (hrows : rows.Perm (List.range n)) (hwide : n < maxColor) (hr : Round adj n ws maxColor k m)
    (h : Launched adj n ws k m s) (hd0 : s.done0 ≠ 0) (hd1 : s.done1 ≠ 0) :
    Round adj n ws maxColor (k + 1) (rows.foldl (maskExtrema (2 * k)) s.toMemory) ∧
      (unmasked n (rows.foldl (maskExtrema (2 * k)) s.toMemory)).card < (unmasked n m).card := by
  obtain ⟨a, b, hab, hpair, hgone⟩ := h.exists_pair hr hd0 hd1
  have htwo : 2 ≤ (unmasked n m).card := (Finset.card_pair hab).symm.le.trans (Finset.card_le_card hpair)
  have hcount := hr.count
  have hcolors := (foldl_maskExtrema (2 * k) rows s.toMemory).1
  have hfree := fun v hv => h.masked hrows hr (by omega) (v := v) hv
  have hsub : unmasked n (rows.foldl (maskExtrema (2 * k)) s.toMemory) ⊆ unmasked n m \ {a, b} := by
    intro v hv
    obtain ⟨hlt, h0⟩ := mem_unmasked.mp hv
    have hp := (hfree v hlt).mp h0
    exact Finset.mem_sdiff.mpr ⟨mem_unmasked.mpr ⟨hlt, (hr.free v hlt).mpr hp.1⟩, fun hv => hgone v hv hp⟩
  have hcard := Finset.card_le_card hsub
  rw [Finset.card_sdiff_of_subset hpair, Finset.card_pair hab] at hcard
  refine ⟨⟨hfree, fun v hv h0 => ?_, fun v hv h0 => ?_, by omega⟩, by omega⟩
  · obtain ⟨hp, hmax, hmin⟩ := (hfree v hv).mp h0
    rw [hcolors, h.other v hv hmax hmin, hr.uncolored v hv ((hr.free v hv).mpr hp)]
  · rw [hcolors]
    by_cases hp : Peeled adj n ws k v
    · refine ⟨k, Nat.lt_succ_self k, ?_⟩
      by_cases hmax : IsMax adj ws (Peeled adj n ws k) v
      · exact .inl ⟨hmax, h.max v hv hmax⟩
      · have hmin : IsMin adj ws (Peeled adj n ws k) v := by
          by_contra hmin
          exact h0 ((hfree v hv).mpr ⟨hp, hmax, hmin⟩)
        exact .inr ⟨⟨hmin, hmax⟩, h.min v hv hmin hmax⟩
    · obtain ⟨j, hj, hl⟩ := h.old hr hv hp
      exact ⟨j, hj.trans (Nat.lt_succ_self k), hl⟩

/-- The rounds end, with every vertex colored in the round in which it leaves. -/
theorem fastRounds_spec (hu : Undirected adj n) (hrows : rows.Perm (List.range n)) (hwide : n < maxColor) (k : ℕ)
    (m : Memory) (hr : Round adj n ws maxColor k m) : ∃ r m', Finished adj n ws r m'.colors ∧
      ∀ fuel, (unmasked n m).card < fuel → fastRounds adj ws rows fuel (2 * k) m = some (r, m') := by
  induction hc : (unmasked n m).card using Nat.strong_induction_on generalizing k m with
  | _ c ih =>
    subst hc
    have hs := hr.launched hu hrows
    generalize hdef : rows.foldl (colorExtrema adj ws (2 * k)) ⟨m, 0, 0⟩ = s at hs
    by_cases hd0 : s.done0 = 0
    · refine ⟨2 * k, s.toMemory, hs.finished_of_done0 hr hd0, fun fuel hf => ?_⟩
      obtain _ | fuel := fuel
      · omega
      · rw [fastRounds, hdef]
        exact if_pos hd0
    · by_cases hd1 : s.done1 = 0
      · refine ⟨2 * k + 1, s.toMemory, hs.finished_of_done1 hu hr hd1, fun fuel hf => ?_⟩
        obtain _ | fuel := fuel
        · omega
        · rw [fastRounds, hdef]
          exact (if_neg hd0).trans (if_pos hd1)
      · obtain ⟨hnext, hlt⟩ := hs.next hrows hwide hr hd0 hd1
        obtain ⟨r, m', hfin, hrun⟩ := ih _ hlt (k + 1) _ hnext rfl
        refine ⟨r, m', hfin, fun fuel hf => ?_⟩
        obtain _ | fuel := fuel
        · omega
        · rw [fastRounds, hdef]
          exact (if_neg hd0).trans ((if_neg hd1).trans (hrun fuel (by omega)))

theorem round_start (adj : ℕ → List ℕ) (n : ℕ) (ws : ℕ → W) (maxColor : ℕ) :
    Round adj n ws maxColor 0 ⟨fun _ => maxColor, fun _ => 0⟩ where
  free v hv := iff_of_true rfl hv
  uncolored _ _ _ := rfl
  colored _ _ h := absurd rfl h
  count := by simp [unmasked]

end Rounds

section Result
variable {adj : ℕ → List ℕ} {n maxColor : ℕ} {ws : ℕ → W} {rows : List ℕ} {spmat : SparseMatrix V}

theorem Finished.one_le {r v : ℕ} {colors : ℕ → ℕ} (h : Finished adj n ws r colors) (hv : v < n) : 1 ≤ colors v := by
  obtain ⟨⟨j, ⟨-, hc⟩ | ⟨-, hc⟩⟩, -⟩ := h v hv <;> omega

theorem Finished.color_eq_iff {r u v : ℕ} {colors : ℕ → ℕ} (h : Finished adj n ws r colors) (hu : u < n) (hv : v < n) :
    colors u = colors v ↔ ∃ k, Tied adj n ws k u v := by
  obtain ⟨⟨i, hi⟩, -⟩ := h u hu
  obtain ⟨⟨j, hj⟩, -⟩ := h v hv
  constructor
  · intro he
    rw [← he] at hj
    exact ⟨i, hi.tied hj⟩
  · rintro ⟨k, hk⟩
    obtain ⟨c, hcu, hcv⟩ := hk.leaves
    rw [(hi.unique hcu).2, (hj.unique hcv).2]

/-- The run always ends, with all vertices colored as they leave. -/
theorem fastIndependentSets_finished (hn : n = spmat.nrows ∧ n = spmat.ncols) (hu : Undirected (neighbors spmat) n)
    (hwide : n < maxColor) (hrows : rows.Perm (List.range n)) (ws : ℕ → W) : ∃ r colors,
      Finished (neighbors spmat) n ws r colors ∧
      ∀ fuel, n < fuel → fastIndependentSets spmat n ws true maxColor rows fuel = .ok (some (r, colors)) := by
  have hstart := round_start (neighbors spmat) n ws maxColor
  obtain ⟨r, m, hfin, hrun⟩ := fastRounds_spec hu hrows hwide 0 _ hstart
  refine ⟨r, m.colors, hfin, fun fuel hf => ?_⟩
  have hcount := hstart.count
  rw [fastIndependentSets, colorGraph, if_neg (by omega), if_neg Bool.noConfusion]
  rw [hrun fuel (by omega)]
  rfl

/-- The run ends with a coloring, a proper one exactly when no neighbours ever tie. -/
theorem fastIndependentSets_colors_iff (spmat : SparseMatrix V) (n : ℕ) (ws : ℕ → W) (maxColor : ℕ) (rows : List ℕ)
    (hn : n = spmat.nrows ∧ n = spmat.ncols) (hu : Undirected (neighbors spmat) n) (hwide : n < maxColor)
    (hrows : rows.Perm (List.range n)) :
    Colors (neighbors spmat) n (fastIndependentSets spmat n ws true maxColor rows) ↔
      ∀ k, ∀ u < n, ∀ v ∈ neighbors spmat u, ¬ Tied (neighbors spmat) n ws k u v := by
  obtain ⟨r, colors, hfin, hrun⟩ := fastIndependentSets_finished hn hu hwide hrows ws
  constructor
  · rintro ⟨fuel, r', colors', hrun', -, hproper⟩ k u hlt v hv htied
    have he := (hrun' (n + 1)).symm.trans (hrun _ (by omega))
    cases he
    exact hproper u hlt v hv ((hfin.color_eq_iff hlt (hu.lt u hlt v hv)).mpr ⟨k, htied⟩)
  · intro hties
    refine ⟨n + 1, r, colors, fun more => hrun _ (by omega), fun v hv => ⟨hfin.one_le hv, (hfin v hv).2⟩,
      fun u hlt v hv he => ?_⟩
    obtain ⟨k, hk⟩ := (hfin.color_eq_iff hlt (hu.lt u hlt v hv)).mp he
    exact hties k u hlt v hv hk

/-- Two vertices with an entry each way. -/
def edge : SparseMatrix Unit := ⟨true, 2, 2, ⟨3, id⟩, ⟨2, fun i => 1 - i⟩, ⟨2, fun _ => ()⟩⟩

theorem undirected_edge : Undirected (neighbors edge) 2 := by
  constructor <;> decide

theorem fastIndependentSets_colors_iff_edge :
    Colors (neighbors edge) 2 (fastIndependentSets edge 2 id true 255 [1, 0]) ↔
      ∀ k, ∀ u < 2, ∀ v ∈ neighbors edge u, ¬ Tied (neighbors edge) 2 id k u v :=
  fastIndependentSets_colors_iff edge 2 id 255 [1, 0] ⟨rfl, rfl⟩ undirected_edge (by decide) (by decide)

/-- Two neighbours of equal weight get the same color. -/
theorem not_colors_of_equal_weights :
    ¬ Colors (neighbors edge) 2 (fastIndependentSets edge 2 (fun _ => 5) true 255 [0, 1]) := by
  rintro ⟨fuel, r, colors, hrun, -, hproper⟩
  have he : fastIndependentSets edge 2 (fun _ => 5) true 255 [0, 1] (fuel + 1) =
      .ok (some (1, Function.update (Function.update (fun _ => 255) 0 1) 1 1)) := rfl
  cases (hrun 1).symm.trans he
  exact hproper 0 (by decide) 1 (by decide) rfl

end Result
end Zpc.Coloring
