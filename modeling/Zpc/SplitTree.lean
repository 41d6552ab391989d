import Mathlib.Algebra.Order.BigOperators.Group.Finset
import Mathlib.Data.Finset.Max
import Mathlib.Order.Interval.Finset.Nat

/-!
# Binary trees over splits of distinct weights

Between the leaves `0..m` there are the splits `0..m-1`, split `g` lying between the leaves `g`
and `g+1`. The tree of the weights `w` cuts every interval of leaves at its heaviest split. An
interval of leaves is a node of it exactly when the splits at its two ends are heavier than all
splits inside. An inner node has a number of its own: the end of its interval that lies at the
lighter of those two splits.
-/

namespace Zpc.SplitTree
variable {α : Type*} [LinearOrder α] {w : ℕ → α} {m i j g i' j' g' idx idx' k r : ℕ}

/-- The leaves `i..j` form a node. -/
structure Spans (w : ℕ → α) (m i j : ℕ) : Prop where
  le : i ≤ j
  le_last : j ≤ m
  left : ∀ a, a + 1 = i → ∀ x, i ≤ x → x < j → w x < w a
  right : j < m → ∀ x, i ≤ x → x < j → w x < w j

/-- The leaves `i..j` are cut at `g`. -/
structure Splits (w : ℕ → α) (i j g : ℕ) : Prop where
  le : i ≤ g
  lt : g < j
  above : ∀ x, i ≤ x → x < j → x ≠ g → w x < w g

/-- The inner node over the leaves `i..j` has the number `idx`. -/
inductive Numbered (w : ℕ → α) (m : ℕ) : ℕ → ℕ → ℕ → Prop
  | atLeft {i j : ℕ} (spans : Spans w m i j) (inner : i < j) (root : i = 0 → j = m)
      (lighter : j < m → ∀ a, a + 1 = i → w a < w j) : Numbered w m i i j
  | atRight {i j : ℕ} (spans : Spans w m i j) (inner : i < j) (last : j < m)
      (lighter : ∀ a, a + 1 = i → w j < w a) : Numbered w m j i j

theorem spans_leaf (hk : k ≤ m) : Spans w m k k where
  le := le_refl k
  le_last := hk
  left _ _ _ hx hx' := absurd hx' (Nat.not_lt.mpr hx)
  right _ _ hx hx' := absurd hx' (Nat.not_lt.mpr hx)

theorem spans_root : Spans w m 0 m where
  le := m.zero_le
  le_last := le_refl m
  left a ha := absurd ha a.succ_ne_zero
  right h := absurd h (lt_irrefl m)

theorem Numbered.spans (h : Numbered w m idx i j) : Spans w m i j := by
  cases h with
  | atLeft spans => exact spans
  | atRight spans => exact spans

theorem Numbered.inner (h : Numbered w m idx i j) : i < j := by
  cases h with
  | atLeft _ inner => exact inner
  | atRight _ inner => exact inner

theorem Numbered.lt (h : Numbered w m idx i j) : idx < m := by
  cases h with
  | atLeft spans inner => exact inner.trans_le spans.le_last
  | atRight _ _ last => exact last

section Children
variable (h : Spans w m i j) (hg : Splits w i j g)

include hg in
theorem Splits.eq (hg' : Splits w i j g') : g = g' := by
  by_contra hne
  exact lt_asymm (hg.above g' hg'.le hg'.lt (Ne.symm hne)) (hg'.above g hg.le hg.lt hne)

include h hg

theorem Spans.leftChild : Spans w m i g where
  le := hg.le
  le_last := hg.lt.le.trans h.le_last
  left a ha x hx hx' := h.left a ha x hx (hx'.trans hg.lt)
  right _ x hx hx' := hg.above x hx (hx'.trans hg.lt) hx'.ne

theorem Spans.rightChild : Spans w m (g + 1) j where
  le := hg.lt
  le_last := h.le_last
  left a ha x hx hx' := by
    obtain rfl := Nat.succ.inj ha
    exact hg.above x (hg.le.trans (Nat.le_of_lt hx)) hx' (Nat.ne_of_gt hx)
  right hj x hx hx' := h.right hj x (hg.le.trans (Nat.le_of_lt hx)) hx'

/-- An inner left child has its split's number. -/
theorem Spans.numbered_left (hi : i < g) : Numbered w m g i g :=
  .atRight (h.leftChild hg) hi (hg.lt.trans_le h.le_last) fun a ha => h.left a ha g hg.le hg.lt

/-- An inner right child has the number after its split. -/
theorem Spans.numbered_right (hj : g + 1 < j) : Numbered w m (g + 1) (g + 1) j := by
  apply Numbered.atLeft (h.rightChild hg) hj (fun h0 => absurd h0 g.succ_ne_zero)
  intro hlast a ha
  obtain rfl := Nat.succ.inj ha
  exact h.right hlast a hg.le hg.lt

/-- No node starts where a right child does and ends after it. -/
theorem Spans.le_of_right (hr : Spans w m (g + 1) r) : r ≤ j := by
  by_contra hlt
  have hjr := Nat.lt_of_not_le hlt
  have hjg := hr.left g rfl j hg.lt hjr
  exact lt_asymm hjg (h.right (hjr.trans_le hr.le_last) g hg.le hg.lt)

end Children

theorem Numbered.eq (h : Numbered w m idx i j) (h' : Numbered w m idx i' j') : i = i' ∧ j = j' := by
  have hleft : ∀ {i j j'}, Spans w m i j' → (i = 0 → j = m) → (j < m → ∀ a, a + 1 = i → w a < w j) → i < j →
      ¬ j < j' := by
    intro i j j' hs hroot hlow hij hlt
    have hj := hlt.trans_le hs.le_last
    have hi : i ≠ 0 := fun h0 => hj.ne (hroot h0)
    obtain ⟨a, rfl⟩ := Nat.exists_eq_succ_of_ne_zero hi
    exact lt_asymm (hs.left a rfl j hij.le hlt) (hlow hj a rfl)
  have hright : ∀ {i i' j}, Spans w m i j → j < m → (∀ a, a + 1 = i' → w j < w a) → i' < j → ¬ i < i' := by
    intro i i' j hs hj hlow hij hlt
    obtain ⟨a, rfl⟩ := Nat.exists_eq_succ_of_ne_zero (Nat.ne_of_gt (Nat.zero_lt_of_lt hlt))
    exact lt_asymm (hs.right hj a (Nat.le_of_lt_succ hlt) (by omega)) (hlow a rfl)
  have hmixed : ∀ {i j k}, Spans w m i k → Spans w m j i → i < k → j < i → i < m → False := by
    intro i j k hr hl hik hji hi
    obtain ⟨a, rfl⟩ := Nat.exists_eq_succ_of_ne_zero (Nat.ne_of_gt (Nat.zero_lt_of_lt hji))
    exact lt_asymm (hr.left a rfl _ (le_refl _) hik) (hl.right hi a (Nat.le_of_lt_succ hji) (Nat.lt_succ_self a))
  cases h with
  | atLeft spans inner root lighter =>
    cases h' with
    | atLeft spans' inner' root' lighter' =>
      have h1 := hleft spans' root lighter inner
      have h2 := hleft spans root' lighter' inner'
      exact ⟨rfl, by omega⟩
    | atRight spans' inner' last' lighter' => exact (hmixed spans spans' inner inner' last').elim
  | atRight spans inner last lighter =>
    cases h' with
    | atLeft spans' inner' root' lighter' => exact (hmixed spans' spans inner' inner last).elim
    | atRight spans' inner' last' lighter' =>
      have h1 := hright spans last lighter' inner'
      have h2 := hright spans' last lighter inner
      exact ⟨by omega, rfl⟩

theorem Numbered.number_eq (h : Numbered w m idx i j) (h' : Numbered w m idx' i j) : idx = idx' := by
  have hmixed : ∀ {i j}, (i = 0 → j = m) → (j < m → ∀ a, a + 1 = i → w a < w j) → j < m →
      (∀ a, a + 1 = i → w j < w a) → False := by
    intro i j hroot hlow hj hlow'
    obtain ⟨a, rfl⟩ := Nat.exists_eq_succ_of_ne_zero fun h0 => hj.ne (hroot h0)
    exact lt_asymm (hlow hj a rfl) (hlow' a rfl)
  cases h with
  | atLeft _ _ root lighter =>
    cases h' with
    | atLeft => rfl
    | atRight _ _ last' lighter' => exact (hmixed root lighter last' lighter').elim
  | atRight _ _ last lighter =>
    cases h' with
    | atLeft _ _ root' lighter' => exact (hmixed root' lighter' last lighter).elim
    | atRight => rfl

section Distinct
variable (hw : Function.Injective w)

include hw

theorem exists_splits (hij : i < j) : ∃ g, Splits w i j g := by
  obtain ⟨g, hg, hmax⟩ := Finset.exists_max_image (Finset.Ico i j) w ⟨i, Finset.mem_Ico.mpr ⟨le_refl i, hij⟩⟩
  rw [Finset.mem_Ico] at hg
  refine ⟨g, hg.1, hg.2, fun x hx hx' hne => ?_⟩
  exact (hmax x (Finset.mem_Ico.mpr ⟨hx, hx'⟩)).lt_of_ne fun heq => hne (hw heq)

theorem Spans.exists_numbered (h : Spans w m i j) (hij : i < j) : ∃ idx, Numbered w m idx i j := by
  rcases Nat.eq_zero_or_pos i with rfl | hi
  · rcases h.le_last.eq_or_lt with hj | hj
    · exact ⟨0, .atLeft h hij (fun _ => hj) fun hlt => absurd hj hlt.ne⟩
    · exact ⟨j, .atRight h hij hj fun a ha => absurd ha a.succ_ne_zero⟩
  · obtain ⟨a, rfl⟩ := Nat.exists_eq_succ_of_ne_zero hi.ne'
    by_cases hlow : j < m ∧ w j < w a
    · refine ⟨j, .atRight h hij hlow.1 fun b hb => ?_⟩
      obtain rfl := Nat.succ.inj hb
      exact hlow.2
    · refine ⟨a + 1, .atLeft h hij (fun h0 => absurd h0 a.succ_ne_zero) fun hj b hb => ?_⟩
      obtain rfl := Nat.succ.inj hb
      refine (le_of_not_gt fun hlt => hlow ⟨hj, hlt⟩).lt_of_ne fun heq => ?_
      have := hw heq
      omega

/-- Every node but the root is a child of a node. -/
theorem Spans.exists_parent (h : Spans w m i j) (hne : ¬ (i = 0 ∧ j = m)) : ∃ i' j' g, Spans w m i' j' ∧ i' < j' ∧
    Splits w i' j' g ∧ ((i' = i ∧ g = j) ∨ (g + 1 = i ∧ j' = j)) := by
  -- the shortest node around this one
  have hex : ∃ n i' j', Spans w m i' j' ∧ i' ≤ i ∧ j ≤ j' ∧ ¬ (i' = i ∧ j' = j) ∧ j' = i' + n :=
    ⟨m, 0, m, spans_root, i.zero_le, h.le_last, fun heq => hne ⟨heq.1.symm, heq.2.symm⟩, (Nat.zero_add m).symm⟩
  classical
  obtain ⟨i', j', hs, hi, hj, hne', hn⟩ := Nat.find_spec hex
  have hmin : ∀ a b, Spans w m a b → a ≤ i → j ≤ b → b < a + Nat.find hex → a = i ∧ b = j := by
    intro a b hab ha hb hlt
    by_contra hcon
    have := Nat.find_min' hex ⟨a, b, hab, ha, hb, hcon, (Nat.add_sub_cancel' hab.le).symm⟩
    have := hab.le
    omega
  have hij := h.le
  have hlt : i' < j' := by omega
  obtain ⟨g, hg⟩ := exists_splits hw hlt
  have hgl := hg.le
  have hgr := hg.lt
  refine ⟨i', j', g, hs, hlt, hg, ?_⟩
  rcases lt_or_ge g i with hgi | hgi
  · obtain ⟨h1, h2⟩ := hmin _ _ (hs.rightChild hg) hgi hj (by omega)
    exact .inr ⟨h1, h2⟩
  rcases lt_or_ge g j with hgj | hgj
  · exfalso
    rcases hi.eq_or_lt with hii | hii
    · have hjj : j < j' := by omega
      exact lt_asymm (h.right (hjj.trans_le hs.le_last) g hgi hgj) (hg.above j (by omega) hjj (by omega))
    · obtain ⟨a, rfl⟩ := Nat.exists_eq_succ_of_ne_zero (Nat.ne_of_gt (Nat.zero_lt_of_lt hii))
      exact lt_asymm (h.left a rfl g hgi hgj) (hg.above a (by omega) (by omega) (by omega))
  · obtain ⟨h1, h2⟩ := hmin _ _ (hs.leftChild hg) hi hgj (by omega)
    exact .inl ⟨h1, h2⟩

end Distinct

/-- A cut determines its node. -/
theorem Splits.node_eq (h : Spans w m i j) (h' : Spans w m i' j') (hg : Splits w i j g) (hg' : Splits w i' j' g) :
    i = i' ∧ j = j' := by
  have hright : ∀ {i j i' j'}, Spans w m i j → Spans w m i' j' → Splits w i j g → Splits w i' j' g → ¬ j < j' := by
    intro i j i' j' h h' hg hg' hlt
    have hj := hg.lt
    exact lt_asymm (h.right (hlt.trans_le h'.le_last) g hg.le hj) (hg'.above j (hg'.le.trans hj.le) hlt hj.ne')
  have hleft : ∀ {i j i' j'}, Spans w m i j → Spans w m i' j' → Splits w i j g → Splits w i' j' g → ¬ i' < i := by
    intro i j i' j' h h' hg hg' hlt
    obtain ⟨a, rfl⟩ := Nat.exists_eq_succ_of_ne_zero (Nat.ne_of_gt (Nat.zero_lt_of_lt hlt))
    have hi := hg.le
    have hg1 := hg'.lt
    exact lt_asymm (h.left a rfl g hi hg.lt) (hg'.above a (Nat.le_of_lt_succ hlt) (by omega) (by omega))
  have h1 := hright h h' hg hg'
  have h2 := hright h' h hg' hg
  have h3 := hleft h h' hg hg'
  have h4 := hleft h' h hg' hg
  omega

/-- A node that shares a leaf with another one surrounds it or lies in one of its children. -/
theorem Spans.around_or_inside (h : Spans w m i j) (h' : Spans w m i' j') (hg : Splits w i' j' g) (hi : i ≤ k)
    (hj : k ≤ j) (hi' : i' ≤ k) (hj' : k ≤ j') : (i ≤ i' ∧ j' ≤ j) ∨ (i' ≤ i ∧ j ≤ g) ∨ (g + 1 ≤ i ∧ j ≤ j') := by
  have hg1 := hg.le
  have hg2 := hg.lt
  have hm := h.le_last
  have hm' := h'.le_last
  rcases Nat.lt_or_ge g i with hgi | hgi
  · -- behind the cut
    refine .inr (.inr ⟨hgi, Nat.le_of_not_lt fun hlt => ?_⟩)
    obtain ⟨a, rfl⟩ := Nat.exists_eq_succ_of_ne_zero (Nat.ne_of_gt (Nat.zero_lt_of_lt hgi))
    exact lt_asymm (h.left a rfl j' (by omega) hlt) (h'.right (by omega) a (by omega) (by omega))
  rcases Nat.lt_or_ge g j with hgj | hgj
  · -- across the cut
    refine .inl ⟨Nat.le_of_not_lt fun hlt => ?_, Nat.le_of_not_lt fun hlt => ?_⟩
    · obtain ⟨a, rfl⟩ := Nat.exists_eq_succ_of_ne_zero (Nat.ne_of_gt (Nat.zero_lt_of_lt hlt))
      exact lt_asymm (h.left a rfl g hgi hgj) (hg.above a (by omega) (by omega) (by omega))
    · exact lt_asymm (h.right (by omega) g hgi hgj) (hg.above j (by omega) hlt (by omega))
  · -- before the cut
    refine .inr (.inl ⟨Nat.le_of_not_lt fun hlt => ?_, hgj⟩)
    obtain ⟨a, rfl⟩ := Nat.exists_eq_succ_of_ne_zero (Nat.ne_of_gt (Nat.zero_lt_of_lt hlt))
    exact lt_asymm (h.right (by omega) a (by omega) (by omega)) (h'.left a rfl j (by omega) (by omega))

/-- Of the nodes with one left end, the next longer one is cut where the shorter one ends. -/
theorem Splits.eq_of_next (h : Spans w m i j) (hr : Spans w m i r) (hjr : j < r) (hg : Splits w i r g)
    (hnext : ∀ x, Spans w m i x → j < x → r ≤ x) : g = j := by
  rcases lt_trichotomy g j with hlt | heq | hgt
  · exact (lt_asymm (h.right (hjr.trans_le hr.le_last) g hg.le hlt) (hg.above j h.le hjr hlt.ne')).elim
  · exact heq
  · exact absurd hg.lt (Nat.not_lt.mpr (hnext g (hr.leftChild hg) hgt))

end Zpc.SplitTree

/-!
## The pre-order of a tree of splits

The nodes that start at a leaf stand together, the longest first and the leaf last, and before them stand all nodes
that start further left. The left child of a node is then the next one, and its right child is the first node of the
leaf behind the cut.
-/

namespace Zpc.SplitTree
variable {α : Type*} [LinearOrder α] (w : ℕ → α) (m : ℕ)

open scoped Classical in
/-- The ends of the inner nodes that start at a leaf. -/
noncomputable def ends (i : ℕ) : Finset ℕ := (Finset.Ioc i m).filter fun r => Spans w m i r

/-- The number of inner nodes that start at `i` and end at `j` or before. -/
noncomputable def rank (i j : ℕ) : ℕ := ((ends w m i).filter (· ≤ j)).card

/-- The number of nodes that start before a leaf. -/
noncomputable def offset (i : ℕ) : ℕ := ∑ x ∈ Finset.range i, ((ends w m x).card + 1)

/-- The place of a node in the pre-order. -/
noncomputable def place (i j : ℕ) : ℕ := offset w m i + (ends w m i).card - rank w m i j

variable {w m} {i j g r i' j' p : ℕ}

theorem mem_ends : r ∈ ends w m i ↔ i < r ∧ Spans w m i r := by
  classical
  rw [ends, Finset.mem_filter, Finset.mem_Ioc]
  exact ⟨fun h => ⟨h.1.1, h.2⟩, fun h => ⟨⟨h.1, h.2.le_last⟩, h.2⟩⟩

theorem offset_succ (i : ℕ) : offset w m (i + 1) = offset w m i + (ends w m i).card + 1 := by
  rw [offset, Finset.sum_range_succ]
  rfl

theorem offset_zero : offset w m 0 = 0 := rfl

theorem offset_strictMono : StrictMono (offset w m) := by
  apply strictMono_nat_of_lt_succ
  intro i
  rw [offset_succ]
  omega

theorem rank_le (i j : ℕ) : rank w m i j ≤ (ends w m i).card := Finset.card_filter_le _ _

@[simp] theorem rank_self (i : ℕ) : rank w m i i = 0 := by
  rw [rank, Finset.card_eq_zero, Finset.filter_eq_empty_iff]
  exact fun r hr => Nat.not_le.mpr (mem_ends.mp hr).1

theorem rank_lt (h : Spans w m i j') (hij : i ≤ j) (hj : j < j') : rank w m i j < rank w m i j' := by
  apply Finset.card_lt_card
  rw [Finset.ssubset_iff_of_subset]
  · exact ⟨j', Finset.mem_filter.mpr ⟨mem_ends.mpr ⟨hij.trans_lt hj, h⟩, le_rfl⟩,
      fun hmem => absurd (Finset.mem_filter.mp hmem).2 (Nat.not_le.mpr hj)⟩
  · intro r hr
    rw [Finset.mem_filter] at hr ⊢
    exact ⟨hr.1, hr.2.trans hj.le⟩

theorem rank_inj (h : Spans w m i j) (h' : Spans w m i j') (heq : rank w m i j = rank w m i j') : j = j' := by
  rcases lt_trichotomy j j' with hlt | heq' | hgt
  · exact absurd heq (rank_lt h' h.le hlt).ne
  · exact heq'
  · exact absurd heq (rank_lt h h'.le hgt).ne'

/-- A node after which no other one with the same start ends comes first. -/
theorem rank_top (htop : ∀ r, Spans w m i r → r ≤ j) : rank w m i j = (ends w m i).card := by
  rw [rank, Finset.filter_true_of_mem fun r hr => htop r (mem_ends.mp hr).2]

/-- The next longer node with the same start. -/
theorem exists_next (h : Spans w m i j) (hlt : rank w m i j < (ends w m i).card) : ∃ r, j < r ∧ Spans w m i r ∧
    (∀ x, Spans w m i x → j < x → r ≤ x) ∧ rank w m i r = rank w m i j + 1 := by
  have hex : ∃ r, r ∈ ends w m i ∧ j < r := by
    by_contra hnone
    exact hlt.ne (rank_top fun r hr => Nat.le_of_not_lt fun hj => hnone ⟨r, mem_ends.mpr ⟨h.le.trans_lt hj, hr⟩, hj⟩)
  classical
  obtain ⟨hr, hj⟩ := Nat.find_spec hex
  have hmin : ∀ x, Spans w m i x → j < x → Nat.find hex ≤ x :=
    fun x hx hjx => Nat.find_min' hex ⟨mem_ends.mpr ⟨h.le.trans_lt hjx, hx⟩, hjx⟩
  refine ⟨Nat.find hex, hj, (mem_ends.mp hr).2, hmin, ?_⟩
  have hset : (ends w m i).filter (· ≤ Nat.find hex) = insert (Nat.find hex) ((ends w m i).filter (· ≤ j)) := by
    ext x
    rw [Finset.mem_filter, Finset.mem_insert, Finset.mem_filter]
    constructor
    · rintro ⟨hx, hle⟩
      rcases Nat.lt_or_ge j x with hjx | hxj
      · exact .inl (hle.antisymm (hmin x (mem_ends.mp hx).2 hjx))
      · exact .inr ⟨hx, hxj⟩
    · rintro (rfl | ⟨hx, hle⟩)
      · exact ⟨hr, le_rfl⟩
      · exact ⟨hx, hle.trans hj.le⟩
  have hnew : Nat.find hex ∉ (ends w m i).filter (· ≤ j) :=
    fun hmem => absurd (Finset.mem_filter.mp hmem).2 (Nat.not_le.mpr hj)
  rw [rank, hset, Finset.card_insert_of_notMem hnew]
  rfl

theorem exists_rank (hi : i ≤ m) {c : ℕ} (hc : c ≤ (ends w m i).card) : ∃ j, Spans w m i j ∧ rank w m i j = c := by
  induction c with
  | zero => exact ⟨i, spans_leaf hi, rank_self i⟩
  | succ c ih =>
    obtain ⟨j, hj, hrank⟩ := ih (Nat.le_of_succ_le hc)
    obtain ⟨r, -, hr, -, hrank'⟩ := exists_next hj (hrank ▸ hc)
    exact ⟨r, hr, hrank' ▸ hrank ▸ rfl⟩

theorem place_add_rank (i j : ℕ) : place w m i j + rank w m i j = offset w m i + (ends w m i).card :=
  Nat.sub_add_cancel ((rank_le i j).trans (Nat.le_add_left _ _))

theorem offset_le_place (i j : ℕ) : offset w m i ≤ place w m i j := by
  have h1 := place_add_rank (w := w) (m := m) i j
  have h2 := rank_le (w := w) (m := m) i j
  omega

theorem place_lt (i j : ℕ) : place w m i j < offset w m (i + 1) := by
  have h1 := place_add_rank (w := w) (m := m) i j
  rw [offset_succ]
  omega

theorem place_leaf (i : ℕ) : place w m i i + 1 = offset w m (i + 1) := by
  rw [place, rank_self, offset_succ]
  rfl

theorem start_eq (h : place w m i j = place w m i' j') : i = i' := by
  have hle : ∀ {i j i' j'}, place w m i j = place w m i' j' → ¬ i < i' := by
    intro i j i' j' h hlt
    have h1 := place_lt (w := w) (m := m) i j
    have h2 := offset_le_place (w := w) (m := m) i' j'
    have h3 := (offset_strictMono (w := w) (m := m)).monotone (Nat.succ_le_of_lt hlt)
    rw [h] at h1
    exact absurd (h1.trans_le (h3.trans h2)) (lt_irrefl _)
  have h1 := hle h
  have h2 := hle h.symm
  omega

theorem place_inj (h : Spans w m i j) (h' : Spans w m i' j') (heq : place w m i j = place w m i' j') :
    i = i' ∧ j = j' := by
  obtain rfl := start_eq heq
  have h1 := place_add_rank (w := w) (m := m) i j
  have h2 := place_add_rank (w := w) (m := m) i j'
  exact ⟨rfl, rank_inj h h' (by omega)⟩

/-- Every place between two leaves is that of an inner node. -/
theorem exists_place (hi : i ≤ m) (hp : offset w m i ≤ p) (hp' : p + 1 < offset w m (i + 1)) :
    ∃ j, i < j ∧ Spans w m i j ∧ place w m i j = p := by
  rw [offset_succ] at hp'
  obtain ⟨j, hj, hrank⟩ := exists_rank (w := w) hi
    (show offset w m i + (ends w m i).card - p ≤ (ends w m i).card by omega)
  have h1 := place_add_rank (w := w) (m := m) i j
  refine ⟨j, hj.le.lt_of_ne ?_, hj, by omega⟩
  rintro rfl
  rw [rank_self] at hrank
  omega

section Children
variable (h : Spans w m i j) (hg : Splits w i j g)

include h hg

theorem rank_left : rank w m i j = rank w m i g + 1 := by
  have hlt : rank w m i g < (ends w m i).card := (rank_lt h hg.le hg.lt).trans_le (rank_le i j)
  obtain ⟨r, hgr, hr, hnext, hrank⟩ := exists_next (h.leftChild hg) hlt
  have hrj : r ≤ j := hnext j h hg.lt
  rcases hrj.eq_or_lt with rfl | hlt
  · exact hrank
  · exact (lt_asymm (hr.right (hlt.trans_le h.le_last) g hg.le hgr) (hg.above r hr.le hlt hgr.ne')).elim

/-- The left child is the next node. -/
theorem place_left : place w m i g = place w m i j + 1 := by
  have h1 := place_add_rank (w := w) (m := m) i j
  have h2 := place_add_rank (w := w) (m := m) i g
  rw [rank_left h hg] at h1
  omega

/-- The right child is the first node that starts behind the cut. -/
theorem place_right : place w m (g + 1) j = offset w m (g + 1) := by
  rw [place, rank_top fun r hr => h.le_of_right hg hr, Nat.add_sub_cancel]

end Children

theorem place_lt_of_child (h : Spans w m i j) (hg : Splits w i j g)
    (hchild : (i' = i ∧ j' = g) ∨ (i' = g + 1 ∧ j' = j)) : place w m i j < place w m i' j' := by
  rcases hchild with ⟨rfl, rfl⟩ | ⟨rfl, rfl⟩
  · rw [place_left h hg]
    exact Nat.lt_succ_self _
  · rw [place_right h hg]
    exact (place_lt i j').trans_le (offset_strictMono.monotone (Nat.succ_le_succ hg.le))

theorem place_root : place w m 0 m = 0 := by
  rw [place, rank_top fun r hr => hr.le_last, Nat.add_sub_cancel, offset_zero]

end Zpc.SplitTree
