import Zpc.LBvhLayout
import Zpc.OmpRadixSort

/-!
# The boxes of the nodes

In whatever order the leaves climb, `refit` gives every leaf the box of its primitive and every inner node a box around
those of its leaves: the first leaf to come to a node stops there, and the second one finds both children done.
-/
namespace Zpc.LBvh
open SplitTree

/-- A box around another one. -/
def Covers {d : ℕ} {T : Type*} [LinearOrder T] (b c : Box d T) : Prop := b.min ≤ c.min ∧ c.max ≤ b.max

/-- All leaves of an interval have climbed. -/
def Full (D : ℕ → Prop) (i j : ℕ) : Prop := ∀ x, i ≤ x → x ≤ j → D x

section Refit
variable {d : ℕ} {T α : Type*} [LinearOrder T] [LinearOrder α] {w : ℕ → α} {m : ℕ} {prim : ℕ → ℕ}
  {primBvs : ℕ → Box d T} {D : ℕ → Prop} {i j g k a b c x : ℕ} {t : Arrays (Box d T)} {flags : ℕ → ℕ}

theorem covers_mergeChildren (t : Arrays (Box d T)) (node : ℕ) :
    Covers (mergeChildren t node) (t.orderedBvs (node + 1)) ∧
    Covers (mergeChildren t node)
      (t.orderedBvs (if t.levels (node + 1) ≠ 0 then (t.auxIndices (node + 1)).toNat else node + 1 + 1)) :=
  ⟨⟨inf_le_left.trans inf_le_left, le_sup_left.trans le_sup_left⟩, ⟨inf_le_left.trans inf_le_right, le_sup_right⟩⟩

theorem Covers.mergeChildren {b : Box d T} {t : Arrays (Box d T)} {node : ℕ} (h₁ : Covers b (t.orderedBvs (node + 1)))
    (h₂ : Covers b (t.orderedBvs (if t.levels (node + 1) ≠ 0 then (t.auxIndices (node + 1)).toNat else node + 1 + 1))) :
    Covers b (mergeChildren t node) :=
  ⟨le_inf (le_inf h₁.1 h₂.1) (h₂.1.trans (Box.le _)), sup_le (sup_le h₁.2 ((Box.le _).trans h₂.2)) h₂.2⟩

theorem Covers.trans {b₁ b₂ b₃ : Box d T} (h : Covers b₁ b₂) (h' : Covers b₂ b₃) : Covers b₁ b₃ :=
  ⟨h.1.trans h'.1, h'.2.trans h.2⟩

/-- The box of a node is the least one around the boxes of its leaves. -/
structure Boxed (w : ℕ → α) (m : ℕ) (prim : ℕ → ℕ) (primBvs : ℕ → Box d T) (t : Arrays (Box d T)) (i j : ℕ) : Prop where
  leaf : i = j → t.orderedBvs (place w m i j) = primBvs (prim i)
  covers : ∀ x, i ≤ x → x ≤ j → Covers (t.orderedBvs (place w m i j)) (primBvs (prim x))
  least : ∀ b, (∀ x, i ≤ x → x ≤ j → Covers b (primBvs (prim x))) → Covers b (t.orderedBvs (place w m i j))

/-- Where the right child of a node stands. -/
theorem Laid.rightChild (h : Laid w m prim t) (hs : Spans w m i j) (hg : Splits w i j g) :
    (if t.levels (place w m i j + 1) ≠ 0 then (t.auxIndices (place w m i j + 1)).toNat else place w m i j + 1 + 1) =
      place w m (g + 1) j := by
  rw [← place_left hs hg, place_right hs hg]
  have hle := hg.lt.le.trans hs.le_last
  rcases hg.le.eq_or_lt with rfl | hlt
  · rw [if_neg (not_not.mpr (h.leafLevel i hle)), place_leaf]
  · have hrank := rank_lt (hs.leftChild hg) le_rfl hlt
    rw [rank_self] at hrank
    rw [if_pos (by rw [h.level i g (hs.leftChild hg) hlt]; exact hrank.ne'), h.aux i g (hs.leftChild hg) hlt,
      if_neg (hg.lt.trans_le hs.le_last).ne, Int.toNat_natCast]

theorem Laid.setBoxes (h : Laid w m prim t) (bvs : ℕ → Box d T) : Laid w m prim {t with orderedBvs := bvs} :=
  ⟨h.last, h.numLeaves, h.ind, h.leafLevel, h.leafAux, h.level, h.aux, h.left, h.right, h.root⟩

/-- A node is boxed no less when boxes change that are not its own. -/
theorem Boxed.update (h : Boxed w m prim primBvs t i j) {p : ℕ} (hp : place w m i j ≠ p) (bv : Box d T) :
    Boxed w m prim primBvs {t with orderedBvs := Function.update t.orderedBvs p bv} i j where
  leaf hij := (Function.update_of_ne hp _ _).trans (h.leaf hij)
  covers x hi hj := by
    show Covers (Function.update t.orderedBvs p bv (place w m i j)) _
    rw [Function.update_of_ne hp]
    exact h.covers x hi hj
  least b hb := by
    show Covers b (Function.update t.orderedBvs p bv (place w m i j))
    rw [Function.update_of_ne hp]
    exact h.least b hb

/-- A node is boxed when its children are merged into it. -/
theorem Boxed.merge (hl : Laid w m prim t) (hs : Spans w m i j) (hg : Splits w i j g)
    (h₁ : Boxed w m prim primBvs t i g) (h₂ : Boxed w m prim primBvs t (g + 1) j) :
    Boxed w m prim primBvs
      {t with orderedBvs := Function.update t.orderedBvs (place w m i j) (mergeChildren t (place w m i j))} i j where
  leaf hij := absurd (hg.le.trans_lt hg.lt) (hij ▸ lt_irrefl i)
  covers x hi hj := by
    show Covers (Function.update t.orderedBvs (place w m i j) _ (place w m i j)) _
    rw [Function.update_self]
    obtain ⟨hleft, hright⟩ := covers_mergeChildren t (place w m i j)
    rw [hl.rightChild hs hg] at hright
    rw [← place_left hs hg] at hleft
    rcases Nat.lt_or_ge g x with hgx | hxg
    · exact hright.trans (h₂.covers x hgx hj)
    · exact hleft.trans (h₁.covers x hi hxg)
  least b hb := by
    show Covers b (Function.update t.orderedBvs (place w m i j) _ (place w m i j))
    rw [Function.update_self]
    apply Covers.mergeChildren
    · rw [← place_left hs hg]
      exact h₁.least b fun x hx hx' => hb x hx (hx'.trans hg.lt.le)
    · rw [hl.rightChild hs hg]
      exact h₂.least b fun x hx hx' => hb x (hg.le.trans (Nat.le_of_lt hx)) hx'

/-- What holds when some leaves have climbed. -/
structure Refitted (w : ℕ → α) (m : ℕ) (prim : ℕ → ℕ) (primBvs : ℕ → Box d T) (D : ℕ → Prop)
    (s : Arrays (Box d T) × (ℕ → ℕ)) : Prop where
  laid : Laid w m prim s.1
  boxed : ∀ i j, Spans w m i j → Full D i j → Boxed w m prim primBvs s.1 i j
  flag : ∀ i j g, Spans w m i j → Splits w i j g → (s.2 (place w m i j) ≠ 0 ↔ Full D i g ∨ Full D (g + 1) j)

/-- What holds while leaf `k` climbs and the node over `a..b` is done. -/
structure Climbing (w : ℕ → α) (m : ℕ) (prim : ℕ → ℕ) (primBvs : ℕ → Box d T) (D : ℕ → Prop) (k a b : ℕ)
    (s : Arrays (Box d T) × (ℕ → ℕ)) : Prop where
  laid : Laid w m prim s.1
  spans : Spans w m a b
  left : a ≤ k
  right : k ≤ b
  full : Full (fun x => D x ∨ x = k) a b
  boxed : ∀ i j, Spans w m i j → (k < i ∨ j < k ∨ (a ≤ i ∧ j ≤ b)) → Full (fun x => D x ∨ x = k) i j →
    Boxed w m prim primBvs s.1 i j
  flagIn : ∀ i j g, Spans w m i j → Splits w i j g → (k < i ∨ j < k ∨ (a ≤ i ∧ j ≤ b)) →
    (s.2 (place w m i j) ≠ 0 ↔ Full (fun x => D x ∨ x = k) i g ∨ Full (fun x => D x ∨ x = k) (g + 1) j)
  flagOut : ∀ i j g, Spans w m i j → Splits w i j g → i ≤ k → k ≤ j → ¬ (a ≤ i ∧ j ≤ b) →
    (s.2 (place w m i j) ≠ 0 ↔ Full D i g ∨ Full D (g + 1) j)

theorem full_away (h : k < i ∨ j < k) : Full (fun x => D x ∨ x = k) i j ↔ Full D i j :=
  ⟨fun hf x hi hj => (hf x hi hj).resolve_right (by omega), fun hf x hi hj => .inl (hf x hi hj)⟩

theorem not_full (hk : ¬ D k) (hi : i ≤ k) (hj : k ≤ j) : ¬ Full D i j := fun hf => hk (hf k hi hj)

variable {s : Arrays (Box d T) × (ℕ → ℕ)}

/-- A leaf starts to climb. -/
theorem Refitted.start (h : Refitted w m prim primBvs D s) (hk : k ≤ m) (hD : ¬ D k) :
    Climbing w m prim primBvs D k k k
      ({s.1 with orderedBvs := Function.update s.1.orderedBvs (place w m k k) (primBvs (prim k))}, s.2) where
  laid := h.laid.setBoxes _
  spans := spans_leaf hk
  left := le_rfl
  right := le_rfl
  full x hx hx' := .inr (hx'.antisymm hx)
  boxed i j hs haway hf := by
    by_cases hkk : i = k ∧ j = k
    · obtain ⟨rfl, rfl⟩ := hkk
      have hself : Function.update s.1.orderedBvs (place w m j j) (primBvs (prim j)) (place w m j j) =
          primBvs (prim j) :=
        Function.update_self _ _ _
      refine ⟨fun _ => hself, fun x hx hx' => ?_, fun b hb => ?_⟩
      · obtain rfl := hx'.antisymm hx
        show Covers (Function.update s.1.orderedBvs (place w m x x) (primBvs (prim x)) (place w m x x)) _
        rw [hself]
        exact ⟨le_rfl, le_rfl⟩
      · show Covers b (Function.update s.1.orderedBvs (place w m j j) (primBvs (prim j)) (place w m j j))
        rw [hself]
        exact hb j le_rfl le_rfl
    · have hle := hs.le
      have haway' : k < i ∨ j < k := by omega
      refine (h.boxed i j hs ((full_away haway').mp hf)).update (fun heq => hkk ?_) _
      exact place_inj hs (spans_leaf hk) heq
  flagIn i j g hs hg haway := by
    have hlt := hg.lt
    have hle := hg.le
    have haway' : k < i ∨ j < k := by omega
    rw [full_away (by omega), full_away (by omega)]
    exact h.flag i j g hs hg
  flagOut i j g hs hg _ _ _ := h.flag i j g hs hg

/-- The climb has come to its end at a node whose other child is not done. -/
theorem Climbing.stop (h : Climbing w m prim primBvs D k a b s) (hD : ¬ D k) (hs : Spans w m i j) (hg : Splits w i j g)
    (hchild : (a = i ∧ b = g) ∨ (a = g + 1 ∧ b = j)) (h0 : s.2 (place w m i j) = 0) :
    Refitted w m prim primBvs (fun x => D x ∨ x = k) (s.1, Function.update s.2 (place w m i j) 1) := by
  have hka := h.left
  have hkb := h.right
  have hg1 := hg.le
  have hg2 := hg.lt
  have hik : i ≤ k := by omega
  have hkj : k ≤ j := by omega
  have hout : ¬ (a ≤ i ∧ j ≤ b) := by omega
  -- the other child is not done
  have hother : ¬ (Full D i g ∨ Full D (g + 1) j) := fun hf => (h.flagOut i j g hs hg hik hkj hout).mpr hf h0
  have hbig : ∀ x y, x ≤ i → j ≤ y → ¬ Full (fun x => D x ∨ x = k) x y := by
    intro x y hx hy hf
    apply hother
    rcases hchild with ⟨rfl, rfl⟩ | ⟨rfl, rfl⟩
    · exact .inr fun z hz hz' => (hf z (by omega) (by omega)).resolve_right (by omega)
    · exact .inl fun z hz hz' => (hf z (by omega) (by omega)).resolve_right (by omega)
  have hcases : ∀ i' j', Spans w m i' j' →
      (k < i' ∨ j' < k ∨ (a ≤ i' ∧ j' ≤ b)) ∨ (i' ≤ k ∧ k ≤ j' ∧ i' ≤ i ∧ j ≤ j') := by
    intro i' j' hs'
    by_cases haway : k < i' ∨ j' < k
    · exact .inl (by omega)
    · have := hs'.around_or_inside hs hg (k := k) (by omega) (by omega) hik hkj
      omega
  refine ⟨h.laid, fun i' j' hs' hf => ?_, fun i' j' g' hs' hg' => ?_⟩
  · rcases hcases i' j' hs' with hin | ⟨-, -, hi, hj⟩
    · exact h.boxed i' j' hs' hin hf
    · exact absurd hf (hbig i' j' hi hj)
  · show Function.update s.2 (place w m i j) 1 (place w m i' j') ≠ 0 ↔ _
    by_cases heq : i' = i ∧ j' = j
    · obtain ⟨rfl, rfl⟩ := heq
      rw [Function.update_self, ← hg.eq hg']
      refine iff_of_true Nat.one_ne_zero ?_
      rcases hchild with ⟨rfl, rfl⟩ | ⟨rfl, rfl⟩
      · exact .inl h.full
      · exact .inr h.full
    · rw [Function.update_of_ne fun hp => heq (place_inj hs' hs hp)]
      rcases hcases i' j' hs' with hin | ⟨hik', hkj', hi, hj⟩
      · exact h.flagIn i' j' g' hs' hg' hin
      · rw [h.flagOut i' j' g' hs' hg' hik' hkj' (by omega)]
        have hg1' := hg'.le
        have hg2' := hg'.lt
        have hsub := hs.around_or_inside hs' hg' (k := k) hik hkj hik' hkj'
        rcases hsub with hsub | ⟨-, hsub⟩ | ⟨hsub, -⟩
        · omega
        · rw [full_away (i := g' + 1) (.inl (by omega))]
          exact or_congr_left (iff_of_false (not_full hD hik' (by omega)) (hbig i' g' hi hsub))
        · rw [full_away (j := g') (.inr (by omega))]
          exact or_congr_right (iff_of_false (not_full hD (by omega) hkj') (hbig (g' + 1) j' hsub hj))

/-- The climb goes on over a node whose other child is done. -/
theorem Climbing.step (h : Climbing w m prim primBvs D k a b s) (hD : ¬ D k) (hs : Spans w m i j) (hg : Splits w i j g)
    (hchild : (a = i ∧ b = g) ∨ (a = g + 1 ∧ b = j)) (h0 : s.2 (place w m i j) ≠ 0) :
    Climbing w m prim primBvs D k i j
      ({s.1 with
        orderedBvs := Function.update s.1.orderedBvs (place w m i j) (mergeChildren s.1 (place w m i j))}, s.2) := by
  have hka := h.left
  have hkb := h.right
  have hg1 := hg.le
  have hg2 := hg.lt
  have hik : i ≤ k := by omega
  have hkj : k ≤ j := by omega
  have hout : ¬ (a ≤ i ∧ j ≤ b) := by omega
  have hother := (h.flagOut i j g hs hg hik hkj hout).mp h0
  have hboth : Full (fun x => D x ∨ x = k) i g ∧ Full (fun x => D x ∨ x = k) (g + 1) j := by
    rcases hchild with ⟨rfl, rfl⟩ | ⟨rfl, rfl⟩
    · exact ⟨h.full, fun x hx hx' => .inl (hother.resolve_left (not_full hD hka hkb) x hx hx')⟩
    · exact ⟨fun x hx hx' => .inl (hother.resolve_right (not_full hD hka hkb) x hx hx'), h.full⟩
  have hboxed : ∀ i' j', Spans w m i' j' → (i' = i ∧ j' = g) ∨ (i' = g + 1 ∧ j' = j) →
      Boxed w m prim primBvs s.1 i' j' := by
    intro i' j' hs' hc
    rcases hc with ⟨rfl, rfl⟩ | ⟨rfl, rfl⟩
    · exact h.boxed _ _ hs' (by omega) hboth.1
    · exact h.boxed _ _ hs' (by omega) hboth.2
  have hmerged := Boxed.merge h.laid hs hg (hboxed _ _ (hs.leftChild hg) (.inl ⟨rfl, rfl⟩))
    (hboxed _ _ (hs.rightChild hg) (.inr ⟨rfl, rfl⟩))
  have hcases : ∀ i' j', Spans w m i' j' → (k < i' ∨ j' < k ∨ (i ≤ i' ∧ j' ≤ j)) →
      (i' = i ∧ j' = j) ∨ (k < i' ∨ j' < k ∨ (a ≤ i' ∧ j' ≤ b)) := by
    intro i' j' hs' hin
    by_cases haway : k < i' ∨ j' < k
    · exact .inr (by omega)
    · have := hs'.around_or_inside hs hg (k := k) (by omega) (by omega) hik hkj
      omega
  refine ⟨h.laid.setBoxes _, hs, hik, hkj, fun x hx hx' => ?_, fun i' j' hs' hin hf => ?_,
    fun i' j' g' hs' hg' hin => ?_,
    fun i' j' g' hs' hg' hi hj hnot => h.flagOut i' j' g' hs' hg' hi hj (by omega)⟩
  · rcases Nat.lt_or_ge g x with hgx | hxg
    · exact hboth.2 x hgx hx'
    · exact hboth.1 x hx hxg
  · rcases hcases i' j' hs' hin with ⟨rfl, rfl⟩ | hin'
    · exact hmerged
    · by_cases heq : i' = i ∧ j' = j
      · obtain ⟨rfl, rfl⟩ := heq
        exact hmerged
      · exact (h.boxed i' j' hs' hin' hf).update (fun hp => heq (place_inj hs' hs hp)) _
  · rcases hcases i' j' hs' hin with ⟨rfl, rfl⟩ | hin'
    · rw [← hg.eq hg']
      exact iff_of_true h0 (.inl hboth.1)
    · exact h.flagIn i' j' g' hs' hg' hin'

theorem Climbing.refitted (h : Climbing w m prim primBvs D k 0 m s) :
    Refitted w m prim primBvs (fun x => D x ∨ x = k) s where
  laid := h.laid
  boxed i j hs hf := h.boxed i j hs (.inr (.inr ⟨i.zero_le, hs.le_last⟩)) hf
  flag i j g hs hg := h.flagIn i j g hs hg (.inr (.inr ⟨i.zero_le, hs.le_last⟩))

theorem refitLoop_spec (hw : Function.Injective w) (hD : ¬ D k) (fuel : ℕ) :
    ∀ (a b : ℕ) (s : Arrays (Box d T) × (ℕ → ℕ)),
    Climbing w m prim primBvs D k a b s → place w m a b < fuel →
    ∃ s', refitLoop fuel s (s.1.parents (place w m a b)) = some s' ∧
      Refitted w m prim primBvs (fun x => D x ∨ x = k) s' := by
  induction fuel with
  | zero => exact fun _ _ _ _ h => absurd h (Nat.not_lt_zero _)
  | succ fuel ih =>
    intro a b s h hfuel
    by_cases hroot : a = 0 ∧ b = m
    · obtain ⟨rfl, rfl⟩ := hroot
      refine ⟨s, ?_, h.refitted⟩
      rw [place_root, h.laid.root, refitLoop, if_pos rfl]
    obtain ⟨i, j, g, hs, -, hg, hends⟩ := h.spans.exists_parent hw hroot
    have hchild : (a = i ∧ b = g) ∨ (a = g + 1 ∧ b = j) :=
      hends.imp (fun h => ⟨h.1.symm, h.2.symm⟩) fun h => ⟨h.1.symm, h.2.symm⟩
    have hparent : s.1.parents (place w m a b) = place w m i j := by
      rcases hchild with ⟨rfl, rfl⟩ | ⟨rfl, rfl⟩
      · exact h.laid.left _ _ _ hs hg
      · exact h.laid.right _ _ _ hs hg
    have hlt := place_lt_of_child hs hg hchild
    rw [hparent, refitLoop, if_neg (by omega), Int.toNat_natCast]
    split
    case isTrue h0 => exact ⟨_, rfl, h.stop hD hs hg hchild h0⟩
    case isFalse h0 => exact ih i j _ (h.step hD hs hg hchild h0) (by omega)

theorem refitBottomUp_spec (hw : Function.Injective w) (h : Refitted w m prim primBvs D s) (hk : k ≤ m) (hm : 2 ≤ m)
    (hD : ¬ D k) :
    ∃ s', refitBottomUp primBvs s k = some s' ∧ Refitted w m prim primBvs (fun x => D x ∨ x = k) s' := by
  have hfuel : place w m k k < s.1.numNodes + 1 := by
    have hleaf := place_leaf (w := w) (m := m) k
    have hmono := (offset_strictMono (w := w) (m := m)).monotone (Nat.succ_le_succ hk)
    rw [Nat.succ_eq_add_one, Nat.succ_eq_add_one, h.laid.last] at hmono
    rw [Arrays.numNodes, h.laid.numLeaves, if_pos (by omega)]
    omega
  obtain ⟨s', hs', hrefitted⟩ := refitLoop_spec hw hD (s.1.numNodes + 1) k k _ (h.start hk hD) hfuel
  refine ⟨s', ?_, hrefitted⟩
  rw [refitBottomUp, h.laid.ind k hk, h.laid.leafAux k hk, Int.toNat_natCast]
  exact hs'

/-- `refit` in any order of the leaves. -/
theorem refit_spec (policy : Policy) (primBvs : ℕ → Box d T) (hw : Function.Injective w) (h : Laid w m prim t)
    (hm : 2 ≤ m) :
    ∃ t', refit policy primBvs t = some t' ∧ Laid w m prim t' ∧
      ∀ i j, Spans w m i j → Boxed w m prim primBvs t' i j := by
  have hlist : ∀ (l : List ℕ) (D : ℕ → Prop) (s : Arrays (Box d T) × (ℕ → ℕ)), Refitted w m prim primBvs D s → l.Nodup →
      (∀ x ∈ l, x ≤ m ∧ ¬ D x) →
      ∃ s', l.foldlM (refitBottomUp primBvs) s = some s' ∧ Refitted w m prim primBvs (fun x => D x ∨ x ∈ l) s' := by
    intro l
    induction l with
    | nil =>
      intro D s h _ _
      simp only [List.not_mem_nil, or_false]
      exact ⟨s, rfl, h⟩
    | cons k l ih =>
      intro D s h hnodup hl
      obtain ⟨hkl, hnodup⟩ := List.nodup_cons.mp hnodup
      obtain ⟨hk, hD⟩ := hl k List.mem_cons_self
      obtain ⟨s₁, h₁, hs₁⟩ := refitBottomUp_spec hw h hk hm hD
      obtain ⟨s', h', hs'⟩ := ih (fun x => D x ∨ x = k) s₁ hs₁ hnodup fun x hx => by
        obtain ⟨hx1, hx2⟩ := hl x (List.mem_cons_of_mem _ hx)
        exact ⟨hx1, fun hc => hc.elim hx2 fun heq => hkl (heq ▸ hx)⟩
      refine ⟨s', by rw [List.foldlM_cons, h₁]; exact h', ?_⟩
      simp only [List.mem_cons, ← or_assoc]
      exact hs'
  have hstart : Refitted w m prim primBvs (fun _ => False) (t, fun _ => 0) :=
    ⟨h, fun i j hs hf => (hf i le_rfl hs.le).elim, fun i j g hs hg => iff_of_false (fun hc => hc rfl) fun hf =>
      hf.elim (fun hf => hf i le_rfl hg.le) fun hf => hf j hg.lt le_rfl⟩
  have hperm := policy.perm (m + 1)
  obtain ⟨s', h', hs'⟩ := hlist (policy.order (m + 1)) _ _ hstart (hperm.nodup_iff.mpr List.nodup_range) fun x hx =>
    ⟨Nat.le_of_lt_succ (List.mem_range.mp (hperm.mem_iff.mp hx)), fun hc => hc⟩
  refine ⟨s'.1, ?_, hs'.laid, fun i j hs => hs'.boxed i j hs fun x _ hx => .inr ?_⟩
  · rw [refit, if_neg (by rw [h.numLeaves]; omega), h.numLeaves, Policy.launch, h']
    rfl
  · exact hperm.mem_iff.mpr (List.mem_range.mpr (Nat.lt_succ_of_le (hx.trans hs.le_last)))

end Refit

end Zpc.LBvh

/-!
## The queries on a tree that `build` made

A query that leaves nodes aside only where none of their leaves matters goes through the leaves one after another.
Finding the nearest point and reporting the neighbours of a leaf are such queries.
-/
namespace Zpc.LBvh
open SplitTree

theorem foldl_range'_skip {S : Type*} {f : S → ℕ → S} {s : S} {k : ℕ} (n r : ℕ)
    (h : ∀ x, k ≤ x → x < k + n → f s x = s) :
    (List.range' k (n + r)).foldl f s = (List.range' (k + n) r).foldl f s := by
  induction n generalizing k with
  | zero => rw [Nat.zero_add, Nat.add_zero]
  | succ n ih =>
    rw [Nat.succ_add, List.range'_succ, List.foldl_cons, h k le_rfl (by omega),
      ih fun x hx hx' => h x (by omega) (by omega)]
    congr 2
    omega

theorem descend_spec (skip : ℕ → Bool) (level node : ℕ) : descend skip level node = (0, node + level) ∨
    ∃ e, e < level ∧ descend skip level node = (level - e, node + e) ∧ skip (node + e) = true := by
  induction level generalizing node with
  | zero => exact .inl rfl
  | succ level ih =>
    rw [descend]
    split
    case isTrue h => exact .inr ⟨0, level.succ_pos, rfl, h⟩
    case isFalse =>
      rcases ih (node + 1) with h | ⟨e, he, h, hskip⟩
      · exact .inl (by rw [h]; congr 1; omega)
      · have hnode : node + 1 + e = node + (e + 1) := by omega
        rw [hnode] at h hskip
        exact .inr ⟨e + 1, by omega, by rw [h, Nat.add_sub_add_right], hskip⟩

section Traverse
variable {α β S : Type*} [LinearOrder α] {w : ℕ → α} {m : ℕ} {prim : ℕ → ℕ} {t : Arrays β}

theorem Laid.numNodes (h : Laid w m prim t) (hm : 2 ≤ m) : t.numNodes = offset w m (m + 1) := by
  rw [Arrays.numNodes, h.numLeaves, if_pos (by omega), h.last]
  omega

theorem Laid.level_eq (h : Laid w m prim t) {k p : ℕ} (hk : k ≤ m) (hp : offset w m k ≤ p) (hp' : p ≤ place w m k k) :
    t.levels p = place w m k k - p := by
  rcases hp'.eq_or_lt with rfl | hlt
  · rw [h.leafLevel k hk, Nat.sub_self]
  · have hleaf := place_leaf (w := w) (m := m) k
    obtain ⟨j, hkj, hs, rfl⟩ := exists_place hk hp (by omega)
    have h1 := place_add_rank (w := w) (m := m) k j
    have h2 := place_add_rank (w := w) (m := m) k k
    rw [rank_self] at h2
    rw [h.level k j hs hkj]
    omega

/-- A query goes through the leaves from where it starts. -/
theorem traverse_spec (skip : S → ℕ → Bool) (visit : S → ℕ → S) (h : Laid w m prim t) (hm : 2 ≤ m)
    (hskip : ∀ s i j, Spans w m i j → i < j → skip s (place w m i j) = true →
      ∀ k, i ≤ k → k ≤ j → visit s (place w m k k) = s) (fuel : ℕ) :
    ∀ (k p : ℕ) (s : S), k ≤ m + 1 → offset w m k ≤ p → (k ≤ m → p ≤ place w m k k) → (k = m + 1 → p = t.numNodes) →
      m + 1 - k < fuel → traverse t skip visit fuel p s =
        some ((List.range' k (m + 1 - k)).foldl (fun s x => visit s (place w m x x)) s) := by
  induction fuel with
  | zero => exact fun _ _ _ _ _ _ _ hf => absurd hf (Nat.not_lt_zero _)
  | succ fuel ih =>
    intro k p s hk hp hp' hend hfuel
    rcases hk.eq_or_lt with rfl | hlt
    · rw [traverse, hend rfl, if_neg fun hc => hc.2 rfl, Nat.sub_self]
      rfl
    have hkm := Nat.le_of_lt_succ hlt
    have hpk := hp' hkm
    have hleaf := place_leaf (w := w) (m := m) k
    have hmono := (offset_strictMono (w := w) (m := m)).monotone (Nat.succ_le_succ hkm)
    rw [Nat.succ_eq_add_one, Nat.succ_eq_add_one, ← h.numNodes hm] at hmono
    have hnext : ∀ j, k ≤ j → j ≤ m → ∀ s', traverse t skip visit fuel (offset w m (j + 1)) s' =
        some ((List.range' (j + 1) (m + 1 - (j + 1))).foldl (fun s x => visit s (place w m x x)) s') := by
      intro j hkj hj s'
      apply ih (j + 1) (offset w m (j + 1)) s' (by omega) le_rfl
      · intro _
        exact offset_le_place (j + 1) (j + 1)
      · intro heq
        rw [heq, h.numNodes hm]
      · omega
    rw [traverse, if_pos (by omega), Int.toNat_natCast, h.level_eq hkm hp hpk]
    rcases descend_spec (skip s) (place w m k k - p) p with hdown | ⟨e, he, hdown, hs⟩
    · rw [hdown, Nat.add_sub_cancel' hpk]
      dsimp only
      rw [if_pos rfl, ← Nat.cast_succ, Nat.succ_eq_add_one, hleaf, hnext k le_rfl hkm]
      have hlen : m + 1 - k = m + 1 - (k + 1) + 1 := by omega
      rw [hlen, List.range'_succ, List.foldl_cons]
    · rw [hdown]
      dsimp only
      rw [if_neg (by omega)]
      obtain ⟨j, hkj, hspan, hplace⟩ := exists_place (w := w) hkm (p := p + e) (by omega) (by omega)
      rw [← hplace] at hs ⊢
      rw [h.aux k j hspan hkj]
      have hnoop := hskip s k j hspan hkj hs
      have hlen : m + 1 - k = (j + 1 - k) + (m + 1 - (j + 1)) := by
        have := hspan.le_last
        omega
      have hj : k + (j + 1 - k) = j + 1 := by omega
      rw [hlen, foldl_range'_skip _ _ fun x hx hx' => hnoop x hx (by omega), hj]
      split
      case isTrue hlast =>
        obtain ⟨fuel, rfl⟩ := Nat.exists_eq_succ_of_ne_zero (show fuel ≠ 0 by omega)
        rw [traverse, if_neg fun hc => hc.1 rfl, hlast, Nat.sub_self]
        rfl
      case isFalse => exact hnext j hkj.le hspan.le_last s

end Traverse

end Zpc.LBvh
