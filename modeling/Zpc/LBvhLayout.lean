import Zpc.LBvhTopology

/-!
# The order of the nodes that `build` makes

After the kernels of `build` every node stands at its place in the pre-order of the tree of splits, with its level, its
escape index and its parent.
-/
namespace Zpc.LBvh
open SplitTree

/-- A launch whose kernel does for each id what no other id undoes. -/
theorem Policy.launch_spec {S : Type*} (policy : Policy) (n : ℕ) (kernel : S → ℕ → Option S) (Inv : S → Prop)
    (P : ℕ → S → Prop) {s : S} (hs : Inv s)
    (hstep : ∀ s idx, idx < n → Inv s → ∃ s', kernel s idx = some s' ∧ Inv s' ∧ P idx s' ∧
      ∀ x < n, x ≠ idx → P x s → P x s') :
    ∃ s', policy.launch n kernel s = some s' ∧ Inv s' ∧ ∀ idx < n, P idx s' := by
  have hlist : ∀ (l : List ℕ) (done : ℕ → Prop) (s : S), (∀ x ∈ l, x < n) → Inv s → (∀ x < n, done x → P x s) →
      ∃ s', l.foldlM kernel s = some s' ∧ Inv s' ∧ ∀ x < n, done x ∨ x ∈ l → P x s' := by
    intro l
    induction l with
    | nil =>
      intro done s _ hs hdone
      exact ⟨s, rfl, hs, fun x hx h => hdone x hx (h.resolve_right List.not_mem_nil)⟩
    | cons idx l ih =>
      intro done s hl hs hdone
      obtain ⟨s₁, h₁, hs₁, hput, hkeep⟩ := hstep s idx (hl idx List.mem_cons_self) hs
      obtain ⟨s', h', hs', hall⟩ := ih (fun x => done x ∨ x = idx) s₁ (fun x hx => hl x (List.mem_cons_of_mem _ hx)) hs₁
        fun x hx h => by
          by_cases hxi : x = idx
          · exact hxi ▸ hput
          · exact hkeep x hx hxi (hdone x hx (h.resolve_right hxi))
      refine ⟨s', by rw [List.foldlM_cons, h₁]; exact h', hs', fun x hx h => hall x hx ?_⟩
      rw [List.mem_cons] at h
      tauto
  obtain ⟨s', h', hs', hall⟩ := hlist (policy.order n) (fun _ => False) s
    (fun x hx => List.mem_range.mp ((policy.perm n).mem_iff.mp hx)) hs fun _ _ h => h.elim
  exact ⟨s', h', hs', fun x hx => hall x hx (.inr ((policy.perm n).mem_iff.mpr (List.mem_range.mpr hx)))⟩

theorem Policy.launch_some {S : Type*} {n : ℕ} {kernel : S → ℕ → Option S} {f : S → ℕ → S} (policy : Policy) (s : S)
    (h : ∀ s, ∀ idx < n, kernel s idx = some (f s idx)) :
    policy.launch n kernel s = some ((policy.order n).foldl f s) := by
  have hlist : ∀ (l : List ℕ) (s : S), (∀ x ∈ l, x < n) → l.foldlM kernel s = some (l.foldl f s) := by
    intro l
    induction l with
    | nil => exact fun _ _ => rfl
    | cons idx l ih =>
      intro s hl
      rw [List.foldlM_cons, h s idx (hl idx List.mem_cons_self), List.foldl_cons]
      exact ih _ fun x hx => hl x (List.mem_cons_of_mem _ hx)
  exact hlist _ s fun x hx => List.mem_range.mp ((policy.perm n).mem_iff.mp hx)

/-- Ends and splits of the inner nodes by their numbers. -/
structure Trunk {α : Type*} [LinearOrder α] (w : ℕ → α) (m : ℕ) (L R G : ℕ → ℕ) : Prop where
  injective : Function.Injective w
  numbered : ∀ {idx}, idx < m → Numbered w m idx (L idx) (R idx)
  splits : ∀ {idx}, idx < m → Splits w (L idx) (R idx) (G idx)

section Layout
variable {α β : Type*} [LinearOrder α] {w : ℕ → α} {m : ℕ} {L R G prim : ℕ → ℕ} {i j k g r v idx x : ℕ} {s : Build β}

namespace Trunk
variable (T : Trunk w m L R G)

include T

theorem spans (h : idx < m) : Spans w m (L idx) (R idx) := (T.numbered h).spans

theorem exists_node (h : Spans w m i j) (hij : i < j) : ∃ v, v < m ∧ L v = i ∧ R v = j := by
  obtain ⟨v, hv⟩ := h.exists_numbered T.injective hij
  obtain ⟨h1, h2⟩ := (T.numbered hv.lt).eq hv
  exact ⟨v, hv.lt, h1, h2⟩

theorem eq_of_ends (h : v < m) (hx : x < m) (hL : L v = L x) (hR : R v = R x) : v = x := by
  have hn := T.numbered h
  rw [hL, hR] at hn
  exact hn.number_eq (T.numbered hx)

theorem eq_of_split (h : v < m) (hx : x < m) (hG : G v = G x) : v = x := by
  have hs := T.splits h
  rw [hG] at hs
  obtain ⟨h1, h2⟩ := Splits.node_eq (T.spans h) (T.spans hx) hs (T.splits hx)
  exact T.eq_of_ends h hx h1 h2

theorem left_ends (h : idx < m) (hl : L idx ≠ G idx) : G idx < m ∧ L (G idx) = L idx ∧ R (G idx) = G idx := by
  have hn := (T.spans h).numbered_left (T.splits h) ((T.splits h).le.lt_of_ne hl)
  obtain ⟨h1, h2⟩ := (T.numbered hn.lt).eq hn
  exact ⟨hn.lt, h1, h2⟩

theorem right_ends (h : idx < m) (hr : R idx ≠ G idx + 1) :
    G idx + 1 < m ∧ L (G idx + 1) = G idx + 1 ∧ R (G idx + 1) = R idx := by
  have hn := (T.spans h).numbered_right (T.splits h) (Nat.lt_of_le_of_ne (T.splits h).lt (Ne.symm hr))
  obtain ⟨h1, h2⟩ := (T.numbered hn.lt).eq hn
  exact ⟨hn.lt, h1, h2⟩

/-- No leaf is both cut off on the right and on the left. -/
theorem leaf_ne (h : v < m) (hx : x < m) (hl : L v = G v) (hr : R x = G x + 1) : G v ≠ G x + 1 := by
  intro heq
  have hlt : w (G v) < w (G x) := (T.spans h).left (G x) (by rw [hl, heq]) (G v) hl.le (T.splits h).lt
  have hlast : R x < m := by
    rw [hr, ← heq]
    exact (T.splits h).lt.trans_le (T.spans h).le_last
  have hgt := (T.spans hx).right hlast (G x) (T.splits hx).le (T.splits hx).lt
  rw [hr, ← heq] at hgt
  exact lt_asymm hlt hgt

theorem trunk_ne (h : v < m) (hx : x < m) (hl : L v ≠ G v) (hr : R x ≠ G x + 1) : G v ≠ G x + 1 := by
  intro heq
  have h1 := (T.left_ends h hl).2.1
  have h2 := (T.right_ends hx hr).2.1
  rw [← heq] at h2
  exact hl (h1.symm.trans h2)

theorem card_ends (k : ℕ) : (List.range m).countP (fun idx => L idx = k) = (ends w m k).card := by
  rw [List.countP_eq_length_filter, ← List.toFinset_card_of_nodup (List.nodup_range.filter _)]
  refine Finset.card_nbij R (fun idx hidx => ?_) (fun v hv x hx heq => ?_) fun r hr => ?_
  · obtain ⟨h1, h2⟩ := List.mem_filter.mp (List.mem_toFinset.mp hidx)
    have hlt := List.mem_range.mp h1
    obtain rfl := of_decide_eq_true h2
    exact mem_ends.mpr ⟨(T.numbered hlt).inner, T.spans hlt⟩
  · obtain ⟨h1, h2⟩ := List.mem_filter.mp (List.mem_toFinset.mp hv)
    obtain ⟨h3, h4⟩ := List.mem_filter.mp (List.mem_toFinset.mp hx)
    exact T.eq_of_ends (List.mem_range.mp h1) (List.mem_range.mp h3)
      ((of_decide_eq_true h2).trans (of_decide_eq_true h4).symm) heq
  · obtain ⟨hlt, hs⟩ := mem_ends.mp (Finset.mem_coe.mp hr)
    obtain ⟨v, hv, hL, hR⟩ := T.exists_node hs hlt
    exact ⟨v, List.mem_toFinset.mpr (List.mem_filter.mpr ⟨List.mem_range.mpr hv, decide_eq_true hL⟩), hR⟩

/-- There are one fewer inner nodes than leaves. -/
theorem offset_last : offset w m (m + 1) = 2 * m + 1 := by
  have hsum : ∀ l : List ℕ, (∀ x ∈ l, L x < m + 1) →
      ∑ k ∈ Finset.range (m + 1), l.countP (fun idx => L idx = k) = l.length := by
    intro l
    induction l with
    | nil => exact fun _ => Finset.sum_const_zero
    | cons idx l ih =>
      intro hl
      simp only [List.countP_cons, Finset.sum_add_distrib, decide_eq_true_eq]
      rw [ih fun x hx => hl x (List.mem_cons_of_mem _ hx), Finset.sum_ite_eq,
        if_pos (Finset.mem_range.mpr (hl idx List.mem_cons_self)), List.length_cons]
  have hrange := hsum (List.range m) fun x hx => by
    have hx := List.mem_range.mp hx
    exact Nat.lt_succ_of_le ((T.spans hx).le.trans (T.spans hx).le_last)
  rw [List.length_range] at hrange
  have hoff : offset w m (m + 1) = ∑ k ∈ Finset.range (m + 1), ((List.range m).countP (fun idx => L idx = k) + 1) :=
    Finset.sum_congr rfl fun k _ => by rw [T.card_ends]
  rw [hoff, Finset.sum_add_distrib, hrange, Finset.sum_const, Finset.card_range]
  simp only [smul_eq_mul, mul_one]
  omega

end Trunk

/-- What `_build_build_topo` leaves for an id. -/
structure Linked (L R G : ℕ → ℕ) (idx : ℕ) (s : Build β) : Prop where
  right : s.tRs idx = R idx
  leftLeaf : L idx = G idx → s.lPars (G idx) = idx
  leftTrunk : L idx ≠ G idx → s.tPars (G idx) = idx
  rightLeaf : R idx = G idx + 1 → s.lPars (G idx + 1) = idx
  rightTrunk : R idx ≠ G idx + 1 → s.tPars (G idx + 1) = idx

theorem linkTrunk_lPars (s : Build β) (idx i j c : ℕ) (gamma : ℕ) : (linkTrunk m s idx i j gamma).lPars c =
    if j = gamma + 1 ∧ c = gamma + 1 then idx else if i = gamma ∧ c = gamma then idx else s.lPars c := by
  rw [linkTrunk]
  split_ifs <;> simp_all

theorem linkTrunk_tPars (s : Build β) (idx i j gamma : ℕ) {c : ℕ} (hc : c ≠ 0) : (linkTrunk m s idx i j gamma).tPars c =
    if j ≠ gamma + 1 ∧ c = gamma + 1 then (idx : ℤ) else if i ≠ gamma ∧ c = gamma then (idx : ℤ) else s.tPars c := by
  rw [linkTrunk]
  split_ifs <;> simp_all

theorem linked_linkTrunk (T : Trunk w m L R G) (h : idx < m) :
    Linked L R G idx (linkTrunk m s idx (L idx) (R idx) (G idx)) ∧
    ∀ x < m, x ≠ idx → Linked L R G x s → Linked L R G x (linkTrunk m s idx (L idx) (R idx) (G idx)) := by
  have hG : ∀ {v}, v < m → L v ≠ G v → G v ≠ 0 := by
    intro v hv hne h0
    have := (T.splits hv).le
    omega
  constructor
  · constructor
    · exact Function.update_self _ _ _
    · intro hl
      rw [linkTrunk_lPars, if_neg fun hc => (Nat.succ_ne_self _ hc.2.symm), if_pos ⟨hl, rfl⟩]
    · intro hl
      rw [linkTrunk_tPars _ _ _ _ _ (hG h hl), if_neg fun hc => (Nat.succ_ne_self _ hc.2.symm), if_pos ⟨hl, rfl⟩]
    · intro hr
      rw [linkTrunk_lPars, if_pos ⟨hr, rfl⟩]
    · intro hr
      rw [linkTrunk_tPars _ _ _ _ _ (Nat.succ_ne_zero _), if_pos ⟨hr, rfl⟩]
  · intro x hx hne hlinked
    have hsplit : G x ≠ G idx := fun heq => hne (T.eq_of_split hx h heq)
    have hsucc : G x + 1 ≠ G idx + 1 := fun heq => hsplit (Nat.succ.inj heq)
    constructor
    · exact (Function.update_of_ne hne _ _).trans hlinked.right
    · intro hl
      rw [linkTrunk_lPars, if_neg fun hc => T.leaf_ne hx h hl hc.1 hc.2, if_neg fun hc => hsplit hc.2,
        hlinked.leftLeaf hl]
    · intro hl
      rw [linkTrunk_tPars _ _ _ _ _ (hG hx hl), if_neg fun hc => T.trunk_ne hx h hl hc.1 hc.2,
        if_neg fun hc => hsplit hc.2, hlinked.leftTrunk hl]
    · intro hr
      rw [linkTrunk_lPars, if_neg fun hc => hsucc hc.2, if_neg fun hc => T.leaf_ne h hx hc.1 hr hc.2.symm,
        hlinked.rightLeaf hr]
    · intro hr
      rw [linkTrunk_tPars _ _ _ _ _ (Nat.succ_ne_zero _), if_neg fun hc => hsucc hc.2,
        if_neg fun hc => T.trunk_ne h hx hc.1 hr hc.2.symm, hlinked.rightTrunk hr]

/-- The depths of the leaves count the inner nodes that start there. -/
theorem lDepths_foldl (order : List ℕ) (s : Build β) (k : ℕ) :
    (order.foldl (fun s idx => linkTrunk m s idx (L idx) (R idx) (G idx)) s).lDepths k =
      s.lDepths k + order.countP fun idx => L idx = k := by
  induction order generalizing s with
  | nil => rfl
  | cons idx order ih =>
    rw [List.foldl_cons, ih, List.countP_cons]
    show Function.update s.lDepths (L idx) (s.lDepths (L idx) + 1) k + _ = _
    by_cases hk : L idx = k
    · subst hk
      rw [Function.update_self, if_pos (decide_eq_true rfl)]
      omega
    · rw [Function.update_of_ne (Ne.symm hk), if_neg (by simpa using hk)]
      omega

/-- What the kernels after `_build_build_topo` read and do not change. -/
structure Ready (w : ℕ → α) (m : ℕ) (L R G prim : ℕ → ℕ) (s : Build β) : Prop where
  numLeaves : s.numLeaves = m + 1
  prims : ∀ k ≤ m, s.pInds k = prim k
  offsets : ∀ k ≤ m + 1, s.lOffsets k = offset w m k
  linked : ∀ idx < m, Linked L R G idx s

theorem Ready.congr {s' : Build β} (h : Ready w m L R G prim s) (h₁ : s'.numLeaves = s.numLeaves)
    (h₂ : s'.pInds = s.pInds) (h₃ : s'.lOffsets = s.lOffsets) (h₄ : s'.tRs = s.tRs) (h₅ : s'.lPars = s.lPars)
    (h₆ : s'.tPars = s.tPars) : Ready w m L R G prim s' where
  numLeaves := h₁.trans h.numLeaves
  prims := h₂ ▸ h.prims
  offsets := h₃ ▸ h.offsets
  linked idx hidx := by
    obtain ⟨a, b, c, d, e⟩ := h.linked idx hidx
    constructor
    · rwa [h₄]
    · rwa [h₅]
    · rwa [h₆]
    · rwa [h₅]
    · rwa [h₆]

/-- What `_build_supp_topo` leaves for a leaf. -/
structure Supplied (w : ℕ → α) (m : ℕ) (L R : ℕ → ℕ) (k : ℕ) (s : Build β) : Prop where
  dst : ∀ v < m, L v = k → s.tDst v = place w m k (R v)
  level : ∀ v < m, L v = k → s.levels (place w m k (R v)) = rank w m k (R v)
  lca : (s.lLcas k < m ∧ L (s.lLcas k) = k ∧ s.tDst (s.lLcas k) = offset w m k) ∨ m ≤ s.lLcas k

variable (T : Trunk w m L R G)

include T

/-- The walk from a leaf up through the nodes that start there. -/
theorem suppLoop_spec (turns : ℕ) : ∀ (s : Build β) (node ch level : ℕ), Ready w m L R G prim s →
    level + turns = (ends w m k).card →
    (0 < turns → node < m ∧ L node = k ∧ rank w m k (R node) = level + 1) →
    ∃ s' ch', suppLoop turns s node ch level (offset w m k + (ends w m k).card - (level + 1)) = (s', ch') ∧
      Ready w m L R G prim s' ∧
      (∀ v < m, L v = k → level < rank w m k (R v) → s'.tDst v = place w m k (R v) ∧
        s'.levels (place w m k (R v)) = rank w m k (R v)) ∧
      (∀ v < m, ¬ (L v = k ∧ level < rank w m k (R v)) → s'.tDst v = s.tDst v) ∧
      (∀ p, ¬ (offset w m k ≤ p ∧ p < offset w m k + turns) → s'.levels p = s.levels p) ∧
      s'.lLcas = s.lLcas ∧
      (turns = 0 → ch' = ch) ∧
      (0 < turns → ch' < m ∧ L ch' = k ∧ rank w m k (R ch') = (ends w m k).card) := by
  induction turns with
  | zero =>
    intro s node ch level hready hsum _
    refine ⟨s, ch, rfl, hready, fun v hv hL hlt => ?_, fun _ _ _ => rfl, fun _ _ => rfl, rfl, fun _ => rfl,
      fun h => absurd h (lt_irrefl 0)⟩
    have := rank_le (w := w) (m := m) k (R v)
    omega
  | succ turns ih =>
    intro s node ch level hready hsum hnode
    obtain ⟨hlt, hL, hrank⟩ := hnode turns.succ_pos
    have hplace := place_add_rank (w := w) (m := m) k (R node)
    have hdst : offset w m k + (ends w m k).card - (level + 1) = place w m k (R node) := by omega
    rw [suppLoop, hdst]
    have hready' : Ready w m L R G prim
        {s with tDst := Function.update s.tDst node (place w m k (R node))
                levels := Function.update s.levels (place w m k (R node)) (level + 1)} :=
      hready.congr rfl rfl rfl rfl rfl rfl
    have hnext : 0 < turns → (s.tPars node).toNat < m ∧ L (s.tPars node).toNat = k ∧
        rank w m k (R (s.tPars node).toNat) = level + 1 + 1 := by
      intro hturns
      have hspan := T.spans hlt
      rw [hL] at hspan
      obtain ⟨r, hjr, hr, hmin, hrank'⟩ := exists_next hspan (by omega)
      obtain ⟨v, hv, hLv, hRv⟩ := T.exists_node hr (hspan.le.trans_lt hjr)
      have hsplit := T.splits hv
      rw [hLv, hRv] at hsplit
      have hG : G v = R node := Splits.eq_of_next hspan hr hjr hsplit hmin
      have hinner := (T.numbered hlt).inner
      have hne : L v ≠ G v := by omega
      obtain ⟨h1, h2, h3⟩ := T.left_ends hv hne
      have heq : G v = node := T.eq_of_ends h1 hlt (by rw [h2, hLv, hL]) (by rw [h3, hG])
      have hpar := (hready.linked v hv).leftTrunk hne
      rw [heq] at hpar
      rw [hpar, Int.toNat_natCast]
      exact ⟨hv, hLv, by rw [hRv, hrank', hrank]⟩
    obtain ⟨s', ch', hrun, hs', hput, hkeep, hlevels, hlcas, hch0, hch⟩ :=
      ih _ (s.tPars node).toNat node (level + 1) hready' (by omega) hnext
    have hdst' : place w m k (R node) - 1 = offset w m k + (ends w m k).card - (level + 1 + 1) := by omega
    refine ⟨s', ch', by rw [hdst']; exact hrun, hs', fun v hv hLv hlev => ?_, fun v hv hnot => ?_, fun p hp => ?_,
      hlcas, fun h => absurd h turns.succ_ne_zero, fun _ => ?_⟩
    · rcases Nat.lt_or_ge (level + 1) (rank w m k (R v)) with hgt | hle
      · exact hput v hv hLv hgt
      · have hspan := T.spans hv
        have hspan' := T.spans hlt
        rw [hLv] at hspan
        rw [hL] at hspan'
        have hR : R v = R node := rank_inj hspan hspan' (by omega)
        obtain rfl := T.eq_of_ends hv hlt (hLv.trans hL.symm) hR
        rw [hkeep v hv fun h => absurd h.2 (by omega), hlevels _ fun h => by omega]
        exact ⟨Function.update_self _ _ _, (Function.update_self _ _ _).trans hrank.symm⟩
    · rw [hkeep v hv fun h => hnot ⟨h.1, by omega⟩]
      have hne : v ≠ node := fun heq => hnot ⟨by rw [heq, hL], by rw [heq, hrank]; omega⟩
      exact Function.update_of_ne hne _ _
    · rw [hlevels p fun h => hp ⟨h.1, by omega⟩]
      exact Function.update_of_ne (fun heq => hp (by omega)) _ _
    · rcases Nat.eq_zero_or_pos turns with rfl | hpos
      · rw [hch0 rfl]
        exact ⟨hlt, hL, by omega⟩
      · exact hch hpos

/-- The first node that the walk from a leaf comes to. -/
theorem first_parent (hready : Ready w m L R G prim s) (hk : k ≤ m) (hpos : 0 < (ends w m k).card) :
    s.lPars k < m ∧ L (s.lPars k) = k ∧ rank w m k (R (s.lPars k)) = 0 + 1 := by
  obtain ⟨r, hkr, hr, hmin, hrank⟩ := exists_next (spans_leaf (w := w) hk) (by rwa [rank_self])
  obtain ⟨v, hv, hLv, hRv⟩ := T.exists_node hr hkr
  have hsplit := T.splits hv
  rw [hLv, hRv] at hsplit
  have hG : G v = k := Splits.eq_of_next (spans_leaf hk) hr hkr hsplit hmin
  have hpar := (hready.linked v hv).leftLeaf (hLv.trans hG.symm)
  rw [hG] at hpar
  rw [hpar]
  exact ⟨hv, hLv, by rw [hRv, hrank, rank_self]⟩

theorem supplied_suppTopo (hready : Ready w m L R G prim s) (hk : k ≤ m) :
    Ready w m L R G prim (suppTopo m s k) ∧ Supplied w m L R k (suppTopo m s k) ∧
    ∀ x < m + 1, x ≠ k → Supplied w m L R x s → Supplied w m L R x (suppTopo m s k) := by
  have hoff := hready.offsets k (Nat.le_succ_of_le hk)
  have hoff' := hready.offsets (k + 1) (Nat.succ_le_succ hk)
  rw [offset_succ] at hoff'
  have hturns : s.lOffsets (k + 1) - s.lOffsets k - 1 = (ends w m k).card := by omega
  have hdst : s.lOffsets (k + 1) - 2 = offset w m k + (ends w m k).card - (0 + 1) := by omega
  obtain ⟨s', ch', hrun, hs', hput, hkeep, hlevels, hlcas, hch0, hch⟩ :=
    suppLoop_spec T (ends w m k).card s (s.lPars k) (k + m) 0 hready (Nat.zero_add _) (first_parent T hready hk)
  rw [suppTopo, hturns, hdst, hrun]
  refine ⟨hs'.congr rfl rfl rfl rfl rfl rfl, ?_, ?_⟩
  · have hrankpos : ∀ v < m, L v = k → 0 < rank w m k (R v) := by
      intro v hv hLv
      have hlt := rank_lt (T.spans hv) le_rfl (T.numbered hv).inner
      rw [hLv, rank_self] at hlt
      exact hlt
    refine ⟨fun v hv hLv => (hput v hv hLv (hrankpos v hv hLv)).1,
      fun v hv hLv => (hput v hv hLv (hrankpos v hv hLv)).2, ?_⟩
    dsimp only
    rw [Function.update_self]
    rcases Nat.eq_zero_or_pos (ends w m k).card with h0 | hpos
    · rw [hch0 h0]
      exact .inr (Nat.le_add_left _ _)
    · obtain ⟨h1, h2, h3⟩ := hch hpos
      refine .inl ⟨h1, h2, ?_⟩
      rw [(hput ch' h1 h2 (by omega)).1, place, h3, Nat.add_sub_cancel]
  · intro x hx hne hsup
    have hdst : ∀ v < m, L v ≠ k → s'.tDst v = s.tDst v := fun v hv hLv => hkeep v hv fun h => hLv h.1
    refine ⟨fun v hv hLv => (hdst v hv (hLv ▸ hne)).trans (hsup.dst v hv hLv), fun v hv hLv => ?_, ?_⟩
    · refine (hlevels _ fun h => ?_).trans (hsup.level v hv hLv)
      have h1 := offset_le_place (w := w) (m := m) x (R v)
      have h2 := place_lt (w := w) (m := m) x (R v)
      have h3 := offset_succ (w := w) (m := m) k
      rcases Nat.lt_or_ge x k with hlt | hge
      · have := (offset_strictMono (w := w) (m := m)).monotone (Nat.succ_le_of_lt hlt)
        rw [Nat.succ_eq_add_one] at this
        omega
      · have := (offset_strictMono (w := w) (m := m)).monotone (Nat.succ_le_of_lt (hge.lt_of_ne (Ne.symm hne)))
        rw [Nat.succ_eq_add_one] at this
        omega
    · dsimp only
      rw [Function.update_of_ne hne, hlcas]
      refine hsup.lca.imp_left fun h => ⟨h.1, h.2.1, ?_⟩
      rw [hdst _ h.1 (by rwa [h.2.1]), h.2.2]

omit T in
theorem Supplied.congr {s' : Build β} (h : Supplied w m L R k s) (h₁ : s'.tDst = s.tDst) (h₂ : s'.lLcas = s.lLcas)
    (h₃ : ∀ v < m, L v = k → s'.levels (place w m k (R v)) = s.levels (place w m k (R v))) : Supplied w m L R k s' where
  dst := h₁ ▸ h.dst
  level v hv hL := (h₃ v hv hL).trans (h.level v hv hL)
  lca := by
    rw [h₁, h₂]
    exact h.lca

/-- What `_build_reorder_leaf` leaves for a leaf. -/
structure LeafLaid (w : ℕ → α) (m : ℕ) (prim : ℕ → ℕ) (k : ℕ) (s : Build β) : Prop where
  ind : s.leafInds k = place w m k k
  level : s.levels (place w m k k) = 0
  aux : s.auxIndices (place w m k k) = prim k
  parent : s.parents (place w m k k) = s.tDst (s.lPars k)

theorem place_ne_leaf (hv : v < m) (hk : k ≤ m) : place w m (L v) (R v) ≠ place w m k k := by
  intro heq
  obtain ⟨h1, h2⟩ := place_inj (T.spans hv) (spans_leaf hk) heq
  exact (T.numbered hv).inner.ne (h1.trans h2.symm)

theorem leafLaid_reorderLeaf (hready : Ready w m L R G prim s) (hsup : ∀ k ≤ m, Supplied w m L R k s) (hk : k ≤ m) :
    (Ready w m L R G prim (reorderLeaf s k) ∧ ∀ k' ≤ m, Supplied w m L R k' (reorderLeaf s k)) ∧
    LeafLaid w m prim k (reorderLeaf s k) ∧
    ∀ x < m + 1, x ≠ k → LeafLaid w m prim x s → LeafLaid w m prim x (reorderLeaf s k) := by
  have hdst : s.lOffsets (k + 1) - 1 = place w m k k := by
    rw [hready.offsets (k + 1) (Nat.succ_le_succ hk), ← place_leaf, Nat.add_sub_cancel]
  rw [reorderLeaf, hdst]
  refine ⟨⟨hready.congr rfl rfl rfl rfl rfl rfl, fun k' hk' => (hsup k' hk').congr rfl rfl fun v hv hL => ?_⟩,
    ⟨Function.update_self _ _ _, Function.update_self _ _ _, ?_, Function.update_self _ _ _⟩, fun x hx hne h => ?_⟩
  · refine Function.update_of_ne ?_ _ _
    rw [← hL]
    exact place_ne_leaf T hv hk
  · rw [← hready.prims k hk]
    exact Function.update_self _ _ _
  · have hplace : place w m x x ≠ place w m k k := fun heq => hne (start_eq heq)
    exact ⟨(Function.update_of_ne hne _ _).trans h.ind, (Function.update_of_ne hplace _ _).trans h.level,
      (Function.update_of_ne hplace _ _).trans h.aux, (Function.update_of_ne hplace _ _).trans h.parent⟩

/-- What `_build_reorder_trunk` leaves for an inner node. -/
structure TrunkLaid (w : ℕ → α) (m : ℕ) (L R : ℕ → ℕ) (idx : ℕ) (s : Build β) : Prop where
  aux : s.auxIndices (place w m (L idx) (R idx)) = if R idx = m then -1 else (offset w m (R idx + 1) : ℤ)
  parent : s.parents (place w m (L idx) (R idx)) = if idx = 0 then -1 else (s.tDst (s.tPars idx).toNat : ℤ)

/-- What holds of the arrays when only the inner nodes are left to do. -/
structure LeavesDone (w : ℕ → α) (m : ℕ) (L R G prim : ℕ → ℕ) (s : Build β) : Prop where
  ready : Ready w m L R G prim s
  supplied : ∀ k ≤ m, Supplied w m L R k s
  leaves : ∀ k ≤ m, LeafLaid w m prim k s

theorem trunkLaid_reorderTrunk (h : LeavesDone w m L R G prim s) (hidx : idx < m) :
    LeavesDone w m L R G prim (reorderTrunk m s idx) ∧ TrunkLaid w m L R idx (reorderTrunk m s idx) ∧
    ∀ x < m, x ≠ idx → TrunkLaid w m L R x s → TrunkLaid w m L R x (reorderTrunk m s idx) := by
  have hdst : s.tDst idx = place w m (L idx) (R idx) :=
    (h.supplied (L idx) ((T.spans hidx).le.trans (T.spans hidx).le_last)).dst idx hidx rfl
  have hright : s.tRs idx = R idx := (h.ready.linked idx hidx).right
  rw [reorderTrunk, hdst, hright]
  refine ⟨⟨h.ready.congr rfl rfl rfl rfl rfl rfl, fun k hk => (h.supplied k hk).congr rfl rfl fun _ _ _ => rfl,
    fun k hk => ?_⟩, ⟨?_, ?_⟩, fun x hx hne hlaid => ?_⟩
  · have hplace := (place_ne_leaf T hidx hk).symm
    have hleaf := h.leaves k hk
    exact ⟨hleaf.ind, hleaf.level, (Function.update_of_ne hplace _ _).trans hleaf.aux,
      (Function.update_of_ne hplace _ _).trans hleaf.parent⟩
  · refine (Function.update_self _ _ _).trans ?_
    by_cases hlast : R idx = m
    · rw [if_neg (not_not.mpr hlast), if_pos hlast]
    · have hlt : R idx + 1 ≤ m := Nat.lt_of_le_of_ne (T.spans hidx).le_last hlast
      rw [if_pos hlast, if_neg hlast]
      rcases (h.supplied (R idx + 1) hlt).lca with ⟨h1, -, h2⟩ | h1
      · rw [if_pos h1, h2]
      · rw [if_neg (Nat.not_lt.mpr h1), h.ready.offsets _ (Nat.le_succ_of_le hlt)]
  · refine (Function.update_self _ _ _).trans ?_
    by_cases h0 : idx = 0
    · rw [if_neg (not_not.mpr h0), if_pos h0]
    · rw [if_pos h0, if_neg h0]
  · have hplace : place w m (L x) (R x) ≠ place w m (L idx) (R idx) := by
      intro heq
      obtain ⟨h1, h2⟩ := place_inj (T.spans hx) (T.spans hidx) heq
      exact hne (T.eq_of_ends hx hidx h1 h2)
    exact ⟨(Function.update_of_ne hplace _ _).trans hlaid.aux, (Function.update_of_ne hplace _ _).trans hlaid.parent⟩

end Layout

/-- Arrays that hold the tree of splits in pre-order. -/
structure Laid {α β : Type*} [LinearOrder α] (w : ℕ → α) (m : ℕ) (prim : ℕ → ℕ) (t : Arrays β) : Prop where
  last : offset w m (m + 1) = 2 * m + 1
  numLeaves : t.numLeaves = m + 1
  ind : ∀ k ≤ m, t.leafInds k = place w m k k
  leafLevel : ∀ k ≤ m, t.levels (place w m k k) = 0
  leafAux : ∀ k ≤ m, t.auxIndices (place w m k k) = prim k
  level : ∀ i j, Spans w m i j → i < j → t.levels (place w m i j) = rank w m i j
  aux : ∀ i j, Spans w m i j → i < j → t.auxIndices (place w m i j) = if j = m then -1 else (offset w m (j + 1) : ℤ)
  left : ∀ i j g, Spans w m i j → Splits w i j g → t.parents (place w m i g) = place w m i j
  right : ∀ i j g, Spans w m i j → Splits w i j g → t.parents (place w m (g + 1) j) = place w m i j
  root : t.parents 0 = -1

section Result
variable {α β : Type*} [LinearOrder α] {w : ℕ → α} {m : ℕ} {L R G prim : ℕ → ℕ} {s : Build β}

theorem LeavesDone.laid (h : LeavesDone w m L R G prim s) (T : Trunk w m L R G) (hm : 0 < m)
    (htrunk : ∀ idx < m, TrunkLaid w m L R idx s) : Laid w m prim s.toArrays := by
  have hdst : ∀ {v}, v < m → s.tDst v = place w m (L v) (R v) := fun {v} hv =>
    (h.supplied (L v) ((T.spans hv).le.trans (T.spans hv).le_last)).dst v hv rfl
  refine ⟨T.offset_last, h.ready.numLeaves, fun k hk => (h.leaves k hk).ind, fun k hk => (h.leaves k hk).level,
    fun k hk => (h.leaves k hk).aux, fun i j hs hij => ?_, fun i j hs hij => ?_, fun i j g hs hg => ?_,
    fun i j g hs hg => ?_, ?_⟩
  · obtain ⟨v, hv, rfl, rfl⟩ := T.exists_node hs hij
    exact (h.supplied (L v) (hij.le.trans hs.le_last)).level v hv rfl
  · obtain ⟨v, hv, rfl, rfl⟩ := T.exists_node hs hij
    exact (htrunk v hv).aux
  · obtain ⟨v, hv, rfl, rfl⟩ := T.exists_node hs (hg.le.trans_lt hg.lt)
    obtain rfl := hg.eq (T.splits hv)
    by_cases hl : L v = G v
    · have hpar := (h.leaves (G v) (hg.lt.le.trans hs.le_last)).parent
      rw [(h.ready.linked v hv).leftLeaf hl, hdst hv] at hpar
      rwa [hl] at hpar ⊢
    · obtain ⟨h1, h2, h3⟩ := T.left_ends hv hl
      have hpar := (htrunk (G v) h1).parent
      have hle := hg.le
      rw [if_neg (by omega), (h.ready.linked v hv).leftTrunk hl, Int.toNat_natCast, hdst hv, h2, h3] at hpar
      exact hpar
  · obtain ⟨v, hv, rfl, rfl⟩ := T.exists_node hs (hg.le.trans_lt hg.lt)
    obtain rfl := hg.eq (T.splits hv)
    by_cases hr : R v = G v + 1
    · have hpar := (h.leaves (G v + 1) (hr ▸ hs.le_last)).parent
      rw [(h.ready.linked v hv).rightLeaf hr, hdst hv] at hpar
      rwa [hr] at hpar ⊢
    · obtain ⟨h1, h2, h3⟩ := T.right_ends hv hr
      have hpar := (htrunk (G v + 1) h1).parent
      rw [if_neg (Nat.succ_ne_zero _), (h.ready.linked v hv).rightTrunk hr, Int.toNat_natCast, hdst hv, h2, h3] at hpar
      exact hpar
  · have hroot : Numbered w m 0 0 m := .atLeft spans_root hm (fun _ => rfl) fun hlt => absurd hlt (lt_irrefl m)
    obtain ⟨h1, h2⟩ := (T.numbered hm).eq hroot
    have hpar := (htrunk 0 hm).parent
    rwa [h1, h2, place_root, if_pos rfl] at hpar

end Result

section Tree
variable {d : ℕ} {T : Type*} [LinearOrder T] {mcs : ℕ → BitVec 32} {m : ℕ}

theorem initDepths_spec {β : Type*} {s : Build β} {indices : ℕ → ℕ} {idx : ℕ} (hidx : idx < m + 1)
    (hn : s.numLeaves = m + 1) :
    (initDepths m s idx indices).numLeaves = m + 1 ∧
    ((initDepths m s idx indices).pInds idx = indices idx ∧ (initDepths m s idx indices).lDepths idx = 1) ∧
    ∀ x < m + 1, x ≠ idx → s.pInds x = indices x ∧ s.lDepths x = 1 →
      (initDepths m s idx indices).pInds x = indices x ∧ (initDepths m s idx indices).lDepths x = 1 := by
  rw [initDepths]
  dsimp only
  split
  case isTrue =>
    refine ⟨hn, ⟨Function.update_self _ _ _, (Function.update_of_ne hidx.ne _ _).trans (Function.update_self _ _ _)⟩,
      fun x hx hne h => ⟨(Function.update_of_ne hne _ _).trans h.1, ?_⟩⟩
    exact (Function.update_of_ne hx.ne _ _).trans ((Function.update_of_ne hne _ _).trans h.2)
  case isFalse =>
    exact ⟨hn, ⟨Function.update_self _ _ _, Function.update_self _ _ _⟩,
      fun x hx hne h => ⟨(Function.update_of_ne hne _ _).trans h.1, (Function.update_of_ne hne _ _).trans h.2⟩⟩

theorem exists_trunk (h : Ascending mcs m) : ∃ L R G : ℕ → ℕ, Trunk (weight mcs) m L R G ∧
    ∀ {β : Type _} (s : Build β), ∀ idx < m,
      buildTopo mcs m s idx = some (linkTrunk m s idx (L idx) (R idx) (G idx)) := by
  have hall : ∀ idx, ∃ i j g, idx < m → determineRange mcs m idx = some (i, j) ∧ Numbered (weight mcs) m idx i j ∧
      findSplit mcs m i j = some g ∧ Splits (weight mcs) i j g := by
    intro idx
    rcases Nat.lt_or_ge idx m with hlt | hge
    · obtain ⟨i, j, h1, h2⟩ := determineRange_spec h hlt
      obtain ⟨g, h3, h4⟩ := findSplit_spec h h2.inner h2.spans.le_last
      exact ⟨i, j, g, fun _ => ⟨h1, h2, h3, h4⟩⟩
    · exact ⟨0, 0, 0, fun hlt => absurd hlt (Nat.not_lt.mpr hge)⟩
  choose L R G hLRG using hall
  refine ⟨L, R, G, ⟨weight_injective mcs, fun hidx => (hLRG _ hidx).2.1, fun hidx => (hLRG _ hidx).2.2.2⟩, ?_⟩
  intro β s idx hidx
  obtain ⟨h1, -, h3, -⟩ := hLRG idx hidx
  rw [buildTopo, h1, Option.bind_some, h3]
  rfl

/-- The kernels of `build` before `refit` lay out the tree of the sorted codes. -/
theorem buildTree_laid (policy : Policy) {sorted : ℕ → BitVec 32 × ℕ} (h : Ascending (fun k => (sorted k).1) m)
    (hm : 0 < m) (fresh : Build (Box d T)) : ∃ s, buildTree policy sorted (m + 1) fresh = some s ∧
      Laid (weight fun k => (sorted k).1) m (fun k => (sorted k).2) s.toArrays := by
  obtain ⟨L, R, G, hT, htopo⟩ := exists_trunk h
  let w := weight fun k => (sorted k).1
  let prim := fun k => (sorted k).2
  obtain ⟨s₁, h₁, hn₁, hall₁⟩ := policy.launch_spec (m + 1) (fun s idx => some (initDepths m s idx prim))
    (fun s => s.numLeaves = m + 1) (fun k s => s.pInds k = prim k ∧ s.lDepths k = 1)
    (show {fresh with numLeaves := m + 1}.numLeaves = m + 1 from rfl)
    fun s idx hidx hn => ⟨_, rfl, initDepths_spec hidx hn⟩
  obtain ⟨s₂, h₂, ⟨hn₂, hprim₂⟩, hlinked⟩ := policy.launch_spec m (buildTopo (fun k => (sorted k).1) m)
    (fun s => s.numLeaves = m + 1 ∧ ∀ k ≤ m, s.pInds k = prim k) (Linked L R G)
    ⟨hn₁, fun k hk => (hall₁ k (Nat.lt_succ_of_le hk)).1⟩
    fun s idx hidx hs => ⟨_, htopo s idx hidx, ⟨hs.1, hs.2⟩, linked_linkTrunk hT hidx⟩
  have hdepths : ∀ k ≤ m, s₂.lDepths k = (ends w m k).card + 1 := by
    intro k hk
    have heq := policy.launch_some s₁ htopo
    rw [h₂, Option.some_inj] at heq
    rw [heq, lDepths_foldl, (hall₁ k (Nat.lt_succ_of_le hk)).2, (policy.perm m).countP_eq, hT.card_ends, Nat.add_comm]
  have hready : Ready w m L R G prim {s₂ with lOffsets := fun k => ∑ x ∈ Finset.range k, s₂.lDepths x} := by
    refine ⟨hn₂, hprim₂, fun k hk => ?_, fun idx hidx => ?_⟩
    · show ∑ x ∈ Finset.range k, s₂.lDepths x = ∑ x ∈ Finset.range k, ((ends w m x).card + 1)
      apply Finset.sum_congr rfl
      exact fun x hx => hdepths x (Nat.le_of_lt_succ ((Finset.mem_range.mp hx).trans_le hk))
    · obtain ⟨a, b, c, d, e⟩ := hlinked idx hidx
      exact ⟨a, b, c, d, e⟩
  obtain ⟨s₃, h₃, hready₃, hsup₃⟩ := policy.launch_spec (m + 1) (fun s idx => some (suppTopo m s idx))
    (Ready w m L R G prim) (Supplied w m L R) hready
    fun s idx hidx hs => ⟨_, rfl, supplied_suppTopo hT hs (Nat.le_of_lt_succ hidx)⟩
  obtain ⟨s₄, h₄, hinv₄, hleaf₄⟩ := policy.launch_spec (m + 1) (fun s idx => some (reorderLeaf s idx))
    (fun s => Ready w m L R G prim s ∧ ∀ k ≤ m, Supplied w m L R k s) (LeafLaid w m prim)
    ⟨hready₃, fun k hk => hsup₃ k (Nat.lt_succ_of_le hk)⟩
    fun s idx hidx hs => ⟨_, rfl, leafLaid_reorderLeaf hT hs.1 hs.2 (Nat.le_of_lt_succ hidx)⟩
  obtain ⟨s₅, h₅, hdone, htrunk⟩ := policy.launch_spec m (fun s idx => some (reorderTrunk m s idx))
    (LeavesDone w m L R G prim) (TrunkLaid w m L R)
    ⟨hinv₄.1, hinv₄.2, fun k hk => hleaf₄ k (Nat.lt_succ_of_le hk)⟩
    fun s idx hidx hs => ⟨_, rfl, trunkLaid_reorderTrunk hT hs hidx⟩
  refine ⟨s₅, ?_, hdone.laid hT hm htrunk⟩
  rw [buildTree, Nat.add_sub_cancel]
  simp only [prim] at h₁
  simp only [h₁, h₂, h₃, h₄, h₅, Option.bind_eq_bind, Option.bind_some]

end Tree

end Zpc.LBvh
