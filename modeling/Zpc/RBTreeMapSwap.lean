import Zpc.RBTreeMapRemove

/-!
# A node and its successor change places

After `swapWithSuccessor` the heap holds the same tree with the two addresses transposed.
-/
namespace Zpc.RBTreeMap
open RedBlackTree (Color Side RBTree)
open RedBlackTree.RBTree

variable {K V : Type*} {m m' M : RBTreeMap K V} {t T : RBTree Ptr} {fs : List (Frame Ptr)} {s : Side} {c : Color}
  {p q x y z : Ptr} {σ : Ptr ≃ Ptr}

section Rename
theorem address_map (h0 : σ null = null) : address (t.map σ) = σ (address t) := by
  cases t with
  | nil => exact h0.symm
  | node c l a r => rfl

theorem Linked.rename (h : Linked m q t) (h0 : σ null = null)
    (hc : ∀ x ∈ t.toList, m'.color (σ x) = m.color x) (hp : ∀ x ∈ t.toList, m'.parent (σ x) = σ (m.parent x))
    (hs : ∀ s, ∀ x ∈ t.toList, m'.child s (σ x) = σ (m.child s x)) : Linked m' (σ q) (t.map σ) := by
  induction t generalizing q with
  | nil => trivial
  | node c l a r hl hr =>
    obtain ⟨hac, hap, hleft, hright, hll, hlr⟩ := h
    have ha : a ∈ (RBTree.node c l a r).toList := by simp
    have hsub : ∀ {x}, x ∈ l.toList ∨ x ∈ r.toList → x ∈ (RBTree.node c l a r).toList := fun hx => by
      simp only [toList, List.mem_append, List.mem_cons]
      tauto
    refine ⟨(hc a ha).trans hac, by rw [hp a ha, hap], ?_, ?_, ?_, ?_⟩
    · exact (hs .left a ha).trans ((congrArg σ hleft).trans (address_map h0).symm)
    · exact (hs .right a ha).trans ((congrArg σ hright).trans (address_map h0).symm)
    · exact hl hll (fun x hx => hc x (hsub (.inl hx))) (fun x hx => hp x (hsub (.inl hx)))
        fun s x hx => hs s x (hsub (.inl hx))
    · exact hr hlr (fun x hx => hc x (hsub (.inr hx))) (fun x hx => hp x (hsub (.inr hx)))
        fun s x hx => hs s x (hsub (.inr hx))

end Rename

section Mem
theorem exists_plug_of_mem (h : x ∈ T.toList) : ∃ c l r fs, T = plug (.node c l x r) fs := by
  induction T with
  | nil => cases h
  | node c l a r hl hr =>
    simp only [toList, List.mem_append, List.mem_cons] at h
    rcases h with h | rfl | h
    · obtain ⟨c', l', r', fs, rfl⟩ := hl h
      exact ⟨c', l', r', fs ++ [⟨.left, c, a, r⟩], by rw [plug_append]; rfl⟩
    · exact ⟨c, l, r, [], rfl⟩
    · obtain ⟨c', l', r', fs, rfl⟩ := hr h
      exact ⟨c', l', r', fs ++ [⟨.right, c, a, l⟩], by rw [plug_append]; rfl⟩

theorem Lays.mem_ne (h : Lays m T) (hx : x ∈ T.toList) : x ≠ null ∧ x ≠ header :=
  h.whole.ne_null (.inl hx)

/-- A child of a node is null or a node with that parent. -/
theorem Lays.child_mem (h : Lays m T) (hx : x ∈ T.toList) (s : Side) :
    m.child s x = null ∨ m.child s x ∈ T.toList ∧ m.parent (m.child s x) = x := by
  obtain ⟨c, l, r, fs, rfl⟩ := exists_plug_of_mem hx
  obtain ⟨near, far, hj⟩ := exists_join s c l r x
  rw [hj] at h ⊢
  have hnear : Lays m (plug near (⟨s, c, x, far⟩ :: fs)) := h
  rw [h.child_eq]
  by_cases hn : near = .nil
  · exact .inl (hnear.address_eq_null.mpr hn)
  · refine .inr ⟨mem_plug.mpr (.inl (mem_join.mpr (.inr (.inl (address_mem hn))))), ?_⟩
    exact hnear.parent_eq hn

/-- A node below another one is its child. -/
theorem Lays.exists_child (h : Lays m T) (hx : x ∈ T.toList) (hp : m.parent x = q) (hq : q ∈ T.toList) :
    ∃ s, m.child s q = x := by
  obtain ⟨c, l, r, fs, rfl⟩ := exists_plug_of_mem hx
  have hpar : m.parent x = above header fs := h.parent_eq nofun
  cases fs with
  | nil => exact absurd (hp.symm.trans hpar) (h.mem_ne hq).2
  | cons f fs =>
    rw [above_cons, hp] at hpar
    subst hpar
    exact ⟨f.side, h.frames.2.2.1⟩

/-- The only link to a node is the one that its direction names. -/
theorem Lays.child_eq_iff (h : Lays m (plug t fs)) (ht : t ≠ .nil) (hx : x ∈ (plug t fs).toList) (s : Side) :
    m.child s x = address t ↔ ∃ f gs, fs = f :: gs ∧ x = f.label ∧ s = f.side := by
  have ht0 := (h.ne_null (.inl (address_mem ht))).1
  constructor
  · intro hs
    have hp : m.parent (address t) = x := by
      rcases h.child_mem hx s with h0 | ⟨_, hp⟩
      · exact absurd (hs.symm.trans h0) ht0
      · rwa [hs] at hp
    rw [h.parent_eq ht] at hp
    cases fs with
    | nil => exact absurd hp.symm (h.mem_ne hx).2
    | cons f fs =>
      refine ⟨f, fs, rfl, hp.symm, ?_⟩
      by_contra hne
      have hside : s = f.side.other := by
        cases hf : f.side <;> cases s <;> simp_all [Side.other]
      -- the sibling has other labels
      have hsib := h.frames.2.2.2.1
      rw [above_cons] at hp
      rw [← hside, hp, hs] at hsib
      have hn : f.sibling ≠ .nil := fun hn => ht0 (by rw [hsib, hn]; rfl)
      exact (nodup_plug.mp h.nodup).2.2 _ (address_mem ht)
        (mem_labels_cons.mpr (.inr (.inl (hsib ▸ address_mem hn))))
  · rintro ⟨f, gs, rfl, rfl, rfl⟩
    exact h.frames.2.2.1

/-- Relinking a node changes the only link to it. -/
theorem Lays.child_relink (h : Lays m (plug t fs)) (ht : t ≠ .nil) (hx : x ∈ (plug t fs).toList) (M : RBTreeMap K V)
    (z : Ptr) (s : Side) : (M.relink (direction fs) (above header fs) z).child s x =
      if m.child s x = address t then z else M.child s x := by
  split_ifs with hs
  · obtain ⟨f, gs, rfl, rfl, rfl⟩ := (h.child_eq_iff ht hx s).mp hs
    exact (child_relink_direction f gs z).1
  · cases fs with
    | nil => cases s <;> simp [RBTreeMap.relink, direction, child]
    | cons f fs =>
      by_cases hl : x = f.label
      · have hne : s ≠ f.side := fun he => hs ((h.child_eq_iff ht hx s).mpr ⟨f, fs, rfl, hl, he⟩)
        have hside : s = f.side.other := by
          cases hf : f.side <;> cases s <;> simp_all [Side.other]
        rw [hl, hside, above_cons]
        exact (child_relink_direction f fs z).2
      · exact RBTreeMap.child_relink _ _ _ _ hl

/-- The parent of a node of a subtree is above it or in it. -/
theorem Linked.parent_mem (h : Linked m q t) (hy : y ∈ t.toList) : m.parent y = q ∨ m.parent y ∈ t.toList := by
  induction t generalizing q with
  | nil => cases hy
  | node c l a r hl hr =>
    obtain ⟨_, hap, _, _, hll, hlr⟩ := h
    simp only [toList, List.mem_append, List.mem_cons] at hy ⊢
    rcases hy with hy | rfl | hy
    · rcases hl hll hy with he | hm
      · exact .inr (.inr (.inl he))
      · exact .inr (.inl hm)
    · exact .inl hap
    · rcases hr hlr hy with he | hm
      · exact .inr (.inr (.inl he))
      · exact .inr (.inr (.inr hm))

end Mem

section Exchange
open Equiv (swap)

theorem child_swapFields (s : Side) : (m.swapFields p y).child s x = m.child s (swap p y x) := by
  rw [Equiv.swap_apply_def]
  cases s <;> simp only [child, swapFields] <;> by_cases hp : x = p <;> by_cases hy : x = y <;> simp_all

theorem parent_swapFields : (m.swapFields p y).parent x = m.parent (swap p y x) := by
  rw [Equiv.swap_apply_def]
  simp only [swapFields]
  by_cases hp : x = p <;> by_cases hy : x = y <;> simp_all

theorem color_swapFields : (m.swapFields p y).color x = m.color (swap p y x) := by
  rw [Equiv.swap_apply_def]
  simp only [swapFields]
  by_cases hp : x = p <;> by_cases hy : x = y <;> simp_all

theorem keeps_swapFields (hp : p ≠ header) (hy : y ≠ header) : Keeps m (m.swapFields p y) := by
  unfold swapFields
  exact (((((((keeps_setParent _ _).trans (keeps_setParent _ _)).trans (keeps_setChild .left _ hp)).trans
    (keeps_setChild .left _ hy)).trans (keeps_setChild .right _ hp)).trans (keeps_setChild .right _ hy)).trans
      (keeps_setColor hp _)).trans (keeps_setColor hy _)

theorem parent_maintain (hx : x ≠ null) :
    (∃ s, m.child s z = x) ∧ (m.maintainRelationship z).parent x = z ∨
      (∀ s, m.child s z ≠ x) ∧ (m.maintainRelationship z).parent x = m.parent x := by
  rw [parent_maintainRelationship .left _ hx]
  split_ifs with h
  · rcases h with h | h
    · exact .inl ⟨⟨.left, h.symm⟩, rfl⟩
    · exact .inl ⟨⟨.right, h.symm⟩, rfl⟩
  · rw [not_or] at h
    refine .inr ⟨fun s hs => ?_, rfl⟩
    cases s
    · exact h.1 hs.symm
    · exact h.2 hs.symm

/-- The links down to the two nodes have changed places. -/
structure Crossed (m m' : RBTreeMap K V) (p y : Ptr) (T : RBTree Ptr) : Prop where
  color : ∀ x, m'.color x = m.color x
  parent : ∀ x ∈ T.toList, m'.parent x = m.parent x
  child : ∀ s, ∀ x ∈ T.toList, m'.child s x = swap p y (m.child s x)
  root : m'.root = swap p y m.root
  headerParent : m'.parent header = swap p y (m.parent header)
  keeps : Keeps m m'

/-- The first two steps of `swapWithSuccessor`. -/
def crossLinks (m : RBTreeMap K V) (p y : Ptr) : RBTreeMap K V :=
  let m := match m.getDirection y with
    | .left => m.setLeft (m.parent y) p
    | .right => m.setRight (m.parent y) p
    | .root => m
  m.relink (m.getDirection p) (m.parent p) y

theorem crossLinks_crossed {l r : RBTree Ptr} (h : Lays m (plug (.node c l p r) fs)) (hy : y ∈ r.toList) :
    Crossed m (m.crossLinks p y) p y (plug (.node c l p r) fs) := by
  have hT : ∀ x, x ∈ (RBTree.node c l p r).toList ∨ x ∈ labels fs ↔ x ∈ (plug (.node c l p r) fs).toList :=
    fun x => mem_plug.symm
  have hyt : y ∈ (RBTree.node c l p r).toList := by simp [hy]
  have hp0 := h.ne_null (x := p) (.inl (by simp))
  have hpf : p ∉ labels fs := (nodup_plug.mp h.nodup).2.2 p (by simp)
  have hyf : y ∉ labels fs := (nodup_plug.mp h.nodup).2.2 y hyt
  have hpy : p ≠ y := by
    rintro rfl
    exact (nodup_node.mp (nodup_plug.mp h.nodup).1).2.1 hy
  -- the place of the successor
  obtain ⟨c', l', r', gs, hg⟩ := exists_plug_of_mem ((hT y).mp (.inl hyt))
  have hG : Lays m (plug (.node c' l' y r') gs) := hg ▸ h
  have hdy : m.getDirection y = direction gs := hG.getDirection_eq nofun
  have hqy : m.parent y = above header gs := hG.parent_eq nofun
  have hpar : m.parent y = p ∨ m.parent y ∈ r.toList := by
    obtain ⟨_, _, _, _, _, hlr⟩ := h.tree
    exact hlr.parent_mem hy
  have hpart : m.parent y ∈ (RBTree.node c l p r).toList := by
    rcases hpar with he | hm
    · simp [he]
    · simp [hm]
  have hgs : gs ≠ [] := by
    rintro rfl
    exact (h.ne_null (.inl hpart)).2 hqy
  -- the first step
  have hfirst : m.crossLinks p y = (m.relink (direction gs) (above header gs) p).relink
      ((m.relink (direction gs) (above header gs) p).getDirection p)
      ((m.relink (direction gs) (above header gs) p).parent p) y := by
    have hm : (match m.getDirection y with
        | .left => m.setLeft (m.parent y) p
        | .right => m.setRight (m.parent y) p
        | .root => m) = m.relink (direction gs) (above header gs) p := by
      rw [hdy, hqy]
      cases gs with
      | nil => exact absurd rfl hgs
      | cons g gs =>
        obtain ⟨s, d, b, u⟩ := g
        cases s <;> rfl
    unfold crossLinks
    rw [hm]
  have hroot : (m.relink (direction gs) (above header gs) p).root = m.root := by
    rw [root_relink, if_neg hgs]
  have hchild : ∀ s, ∀ x ∈ (plug (.node c l p r) fs).toList, (m.relink (direction gs) (above header gs) p).child s x =
      if m.child s x = y then p else m.child s x := fun s x hx =>
    hG.child_relink nofun (hg ▸ hx) m p s
  have hp : m.parent p = above header fs := h.parent_eq nofun
  have hpp : (m.relink (direction gs) (above header gs) p).parent p = above header fs := by
    rw [parent_relink _ _ _ hp0.2, hp]
  have hleft : fs ≠ [] → (m.relink (direction gs) (above header gs) p).left (above header fs) =
      m.left (above header fs) := by
    intro hfs
    cases fs with
    | nil => exact absurd rfl hfs
    | cons f fs =>
      have hl : f.label ∈ labels (f :: fs) := mem_labels_cons.mpr (.inl rfl)
      refine (hchild .left f.label ((hT _).mp (.inr hl))).trans (if_neg fun he => ?_)
      -- the node above is not above the successor
      rcases h.child_mem ((hT _).mp (.inr hl)) .left with h0 | ⟨_, hq⟩
      · exact (h.ne_null (.inl hyt)).1 (he.symm.trans h0)
      · rw [he] at hq
        exact (nodup_plug.mp h.nodup).2.2 _ hpart (hq ▸ hl)
  have hdp : (m.relink (direction gs) (above header gs) p).getDirection p = direction fs := by
    have hd : m.getDirection p = direction fs := h.getDirection_eq nofun
    have hiff : m.isRoot p ↔ fs = [] := h.isRoot_iff nofun
    rw [isRoot] at hiff
    rw [← hd]
    simp only [getDirection, isRoot, hroot, hpp, hp]
    by_cases hfs : fs = []
    · simp [hiff.mpr hfs]
    · rw [hleft hfs]
  have htop : (if fs = [] then y else top p fs) = swap p y (top p fs) := by
    cases fs with
    | nil => exact (Equiv.swap_apply_left p y).symm
    | cons f fs =>
      have hm := top_mem p f fs
      have hpm : top p (f :: fs) ≠ p := fun he => hpf (he ▸ hm)
      have hym : top p (f :: fs) ≠ y := fun he => hyf (he ▸ hm)
      rw [if_neg (List.cons_ne_nil _ _), Equiv.swap_apply_of_ne_of_ne hpm hym]
  have hroot' : m.root = top p fs := h.root_eq
  have hparent' : m.parent header = top p fs := h.headerParent.trans address_plug
  rw [hfirst, hdp, hpp]
  refine ⟨fun x => by simp, fun x hx => ?_, fun s x hx => ?_, ?_, ?_, ?_⟩
  · have hx0 := (h.mem_ne hx).2
    rw [parent_relink _ _ _ hx0, parent_relink _ _ _ hx0]
  · rw [h.child_relink nofun hx, hchild s x hx, Equiv.swap_apply_def]
    rfl
  · rw [root_relink, hroot, hroot', htop]
  · rw [parent_relink_header, parent_relink_header, if_neg hgs, hparent', htop]
  · exact (keeps_relink _ hG.header_notMem).trans (keeps_relink _ h.header_notMem)

/-- The rest of `swapWithSuccessor`. -/
theorem Crossed.lays {q : Ptr} (hc : Crossed m m' p y T) (h : Lays m T) (hp : p ∈ T.toList) (hy : y ∈ T.toList)
    (hq : q ∈ T.toList) :
    Lays ((((m'.swapFields p y).maintainRelationship p).maintainRelationship y).maintainRelationship q)
        (T.map (swap p y)) ∧
      Keeps m ((((m'.swapFields p y).maintainRelationship p).maintainRelationship y).maintainRelationship q) ∧
      ∀ s x, ((((m'.swapFields p y).maintainRelationship p).maintainRelationship y).maintainRelationship q).child s x =
        m'.child s (swap p y x) := by
  have hp0 := h.mem_ne hp
  have hy0 := h.mem_ne hy
  have hnull : swap p y null = null := Equiv.swap_apply_of_ne_of_ne hp0.1.symm hy0.1.symm
  have hheader : swap p y header = header := Equiv.swap_apply_of_ne_of_ne hp0.2.symm hy0.2.symm
  have hmem : ∀ x ∈ T.toList, swap p y x ∈ T.toList := fun x hx => by
    rw [Equiv.swap_apply_def]
    split_ifs
    · exact hy
    · exact hp
    · exact hx
  have hchild : ∀ s, ∀ x ∈ T.toList, (m'.swapFields p y).child s x = swap p y (m.child s (swap p y x)) :=
    fun s x hx => by rw [child_swapFields, hc.child s _ (hmem x hx)]
  -- what a node gets as parent when the links of its parent are maintained
  have hkey : ∀ s, ∀ z ∈ T.toList, ∀ x ∈ T.toList, (m'.swapFields p y).child s z = x →
      swap p y (m.parent (swap p y x)) = z := by
    intro s z hz x hx hs
    rw [hchild s z hz, Equiv.swap_apply_eq_iff] at hs
    rcases h.child_mem (hmem z hz) s with h0 | ⟨_, hpar⟩
    · exact absurd (hs.symm.trans h0) (h.mem_ne (hmem x hx)).1
    · rw [← hs, hpar, Equiv.swap_apply_self]
  have hparent : ∀ x ∈ T.toList,
      ((((m'.swapFields p y).maintainRelationship p).maintainRelationship y).maintainRelationship q).parent x =
        swap p y (m.parent (swap p y x)) := by
    intro x hx
    have hx0 := (h.mem_ne hx).1
    have h1 := parent_maintain (m := m'.swapFields p y) (z := p) hx0
    have h2 := parent_maintain (m := (m'.swapFields p y).maintainRelationship p) (z := y) hx0
    have h3 := parent_maintain (m := ((m'.swapFields p y).maintainRelationship p).maintainRelationship y) (z := q) hx0
    simp only [child_maintainRelationship] at h2 h3
    rcases h3 with ⟨⟨s, hs⟩, h3⟩ | ⟨hn3, h3⟩
    · rw [h3, hkey s q hq x hx hs]
    · rw [h3]
      rcases h2 with ⟨⟨s, hs⟩, h2⟩ | ⟨hn2, h2⟩
      · rw [h2, hkey s y hy x hx hs]
      · rw [h2]
        rcases h1 with ⟨⟨s, hs⟩, h1⟩ | ⟨hn1, h1⟩
        · rw [h1, hkey s p hp x hx hs]
        · rw [h1, parent_swapFields, hc.parent _ (hmem x hx)]
          -- a node below one of the two has been maintained
          refine (Equiv.swap_apply_of_ne_of_ne (fun he => ?_) fun he => ?_).symm
          · obtain ⟨s, hs⟩ := h.exists_child (hmem x hx) he hp
            refine hn2 s ?_
            rw [hchild s y hy, Equiv.swap_apply_right, hs, Equiv.swap_apply_self]
          · obtain ⟨s, hs⟩ := h.exists_child (hmem x hx) he hy
            refine hn1 s ?_
            rw [hchild s p hp, Equiv.swap_apply_left, hs, Equiv.swap_apply_self]
  have hnotChild : ∀ s, ∀ z ∈ T.toList, (m'.swapFields p y).child s z ≠ header := by
    intro s z hz he
    rw [hchild s z hz, Equiv.swap_apply_eq_iff, hheader] at he
    rcases h.child_mem (hmem z hz) s with h0 | ⟨hm, _⟩
    · rw [he] at h0
      cases h0
    · exact (h.mem_ne hm).2 he
  have hheaderParent : ((((m'.swapFields p y).maintainRelationship p).maintainRelationship y).maintainRelationship
      q).parent header = m'.parent header := by
    have h0 : header ≠ null := by decide
    have h1 := parent_maintain (m := m'.swapFields p y) (z := p) h0
    have h2 := parent_maintain (m := (m'.swapFields p y).maintainRelationship p) (z := y) h0
    have h3 := parent_maintain (m := ((m'.swapFields p y).maintainRelationship p).maintainRelationship y) (z := q) h0
    simp only [child_maintainRelationship] at h2 h3
    rw [(h3.resolve_left fun ⟨⟨s, hs⟩, _⟩ => hnotChild s q hq hs).2,
      (h2.resolve_left fun ⟨⟨s, hs⟩, _⟩ => hnotChild s y hy hs).2,
      (h1.resolve_left fun ⟨⟨s, hs⟩, _⟩ => hnotChild s p hp hs).2, parent_swapFields, hheader]
  refine ⟨⟨?_, ?_, ?_, ?_, ?_⟩, ?_, fun s x => ?_⟩
  · rw [← hheader]
    refine h.linked.rename hnull (fun x hx => ?_) (fun x hx => ?_) fun s x hx => ?_
    · simp [color_swapFields, hc.color]
    · rw [hparent _ (hmem x hx), Equiv.swap_apply_self]
    · simp only [child_maintainRelationship]
      rw [hchild s _ (hmem x hx), Equiv.swap_apply_self]
  · simp only [root_maintainRelationship]
    rw [address_map hnull, ← h.root]
    exact hc.root
  · rw [hheaderParent, address_map hnull, ← h.headerParent]
    exact hc.headerParent
  · rw [toList_map]
    exact h.nodup.map (swap p y).injective
  · intro x hx
    rw [toList_map, List.mem_map] at hx
    obtain ⟨z, hz, rfl⟩ := hx
    exact h.valid _ (hmem z hz)
  · exact (((hc.keeps.trans (keeps_swapFields hp0.2 hy0.2)).trans (keeps_maintainRelationship _)).trans
      (keeps_maintainRelationship _)).trans (keeps_maintainRelationship _)
  · simp only [child_maintainRelationship]
    exact child_swapFields s

end Exchange

section Successor
/-- The search for the successor ends at the first node of the right subtree. -/
theorem successorLoop_spec {fuel : ℕ} (h : Lays m (plug t fs)) (ht : t ≠ .nil) (hfuel : t.toList.length ≤ fuel) :
    ∃ rest, t.toList = (successorLoop fuel m (address t) q).1 :: rest ∧
      m.left (successorLoop fuel m (address t) q).1 = null ∧
      ((successorLoop fuel m (address t) q).2 = q ∨ (successorLoop fuel m (address t) q).2 ∈ t.toList) := by
  induction fuel generalizing t fs q with
  | zero => exact absurd hfuel (Nat.not_le.mpr (length_pos ht))
  | succ fuel ih =>
    cases t with
    | nil => exact absurd rfl ht
    | node c l a r =>
      have hl : Lays m (plug l (⟨.left, c, a, r⟩ :: fs)) := h
      have hleft : m.left a = address l := h.left_eq
      rw [address, successorLoop, hleft]
      by_cases hn : l = .nil
      · subst hn
        rw [if_neg (by simp [address])]
        exact ⟨r.toList, rfl, hleft, .inl rfl⟩
      · rw [if_pos fun h0 => hn (hl.address_eq_null.mp h0)]
        have hlen : l.toList.length ≤ fuel := by
          simp only [toList, List.length_append, List.length_cons] at hfuel
          omega
        obtain ⟨rest, he, h0, hq⟩ := ih (q := a) hl hn hlen
        refine ⟨rest ++ a :: r.toList, by rw [toList, he, List.cons_append], h0, ?_⟩
        rcases hq with hq | hq
        · exact .inr (by simp [hq])
        · exact .inr (by simp [hq])

/-- Case 1 of `remove`. -/
theorem swapWithSuccessor_spec {l r : RBTree Ptr} (h : Lays m (plug (.node c l p r) fs)) (hr : r ≠ .nil)
    (hlen : r.toList.length ≤ m.next) : ∃ rest,
      r.toList = (successorLoop m.next m (m.right p) p).1 :: rest ∧
      Lays (m.swapWithSuccessor p)
        ((plug (.node c l p r) fs).map (Equiv.swap p (successorLoop m.next m (m.right p) p).1)) ∧
      Keeps m (m.swapWithSuccessor p) ∧ (m.swapWithSuccessor p).left p = null ∧
      (m.swapWithSuccessor p).right p = Equiv.swap p (successorLoop m.next m (m.right p) p).1
        (m.right (successorLoop m.next m (m.right p) p).1) := by
  have hR : Lays m (plug r (⟨.right, c, p, l⟩ :: fs)) := h
  have hright : m.right p = address r := h.right_eq
  obtain ⟨rest, he, h0, hq⟩ := successorLoop_spec (q := p) hR hr hlen
  rw [← hright] at he h0 hq
  refine ⟨rest, he, ?_⟩
  have hy : (successorLoop m.next m (m.right p) p).1 ∈ r.toList := by simp [he]
  have hpT : p ∈ (plug (.node c l p r) fs).toList := mem_plug.mpr (.inl (by simp))
  have hyT : (successorLoop m.next m (m.right p) p).1 ∈ (plug (.node c l p r) fs).toList :=
    mem_plug.mpr (.inl (by simp [hy]))
  have hqT : (successorLoop m.next m (m.right p) p).2 ∈ (plug (.node c l p r) fs).toList := by
    refine mem_plug.mpr (.inl ?_)
    rcases hq with hq | hq
    · simp [hq]
    · simp [hq]
  have hc := crossLinks_crossed h hy
  obtain ⟨h1, h2, h3⟩ := hc.lays h hpT hyT hqT
  refine ⟨h1, h2, (h3 .left p).trans ?_, (h3 .right p).trans ?_⟩
  · rw [Equiv.swap_apply_left, hc.child .left _ hyT]
    have h0' : m.child .left (successorLoop m.next m (m.right p) p).1 = null := h0
    rw [h0']
    exact Equiv.swap_apply_of_ne_of_ne (h.mem_ne hpT).1.symm (h.mem_ne hyT).1.symm
  · rw [Equiv.swap_apply_left, hc.child .right _ hyT]
    rfl

end Successor

end Zpc.RBTreeMap
