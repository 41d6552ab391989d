import Zpc.RBTreeMapSwap
import Zpc.RBTreeMapDescent

/-!
# Removal from the red-black tree map

`remove` takes one node out of the tree, as long as the memory of a deleted leaf keeps the link to its parent for the
one read that follows.
-/
namespace Zpc.RBTreeMap
open RedBlackTree (Color Side RBTree)
open RedBlackTree.RBTree

variable {K V : Type*} {m m' : RBTreeMap K V} {t T near far : RBTree Ptr} {fs : List (Frame Ptr)} {s : Side}
  {c d : Color} {p q x y : Ptr} {stale : Ptr → Ptr → Ptr}

section Ends
def fromEnd {A : Type*} : Side → List A → List A
  | .left, L => L
  | .right, L => L.reverse

theorem fromEnd_join (s : Side) (c : Color) (near far : RBTree Ptr) (a : Ptr) :
    fromEnd s (join s c near a far).toList = fromEnd s near.toList ++ a :: fromEnd s far.toList := by
  cases s <;> simp [fromEnd, join]

theorem mem_fromEnd {L : List Ptr} : x ∈ fromEnd s L ↔ x ∈ L := by
  cases s <;> simp [fromEnd]

theorem length_fromEnd (s : Side) (L : List Ptr) : (fromEnd s L).length = L.length := by
  cases s <;> simp [fromEnd]

theorem fromEnd_filter (s : Side) (L : List Ptr) (g : Ptr → Bool) : fromEnd s (L.filter g) = (fromEnd s L).filter g := by
  cases s <;> simp [fromEnd, List.filter_reverse]

theorem headD_fromEnd_right (L : List Ptr) (e : Ptr) : (fromEnd .right L).headD e = L.getLastD e := by
  rw [fromEnd, List.headD_eq_head?_getD, List.head?_reverse, List.getLastD_eq_getLast?]

def ahead (s : Side) (fs : List (Frame Ptr)) : List Ptr :=
  match s with
  | .left => before fs
  | .right => (after fs).reverse

theorem fromEnd_plug (s : Side) (t : RBTree Ptr) (fs : List (Frame Ptr)) :
    fromEnd s (plug t fs).toList = ahead s fs ++ fromEnd s t.toList ++ (ahead s.other fs).reverse := by
  rw [toList_plug]
  cases s <;> simp [fromEnd, ahead, Side.other]

theorem headD_of_ahead_nil (h : ahead s fs = []) (e : Ptr) : (ahead s.other fs).reverse.headD e = above e fs := by
  cases fs with
  | nil => cases s <;> rfl
  | cons f fs =>
    obtain ⟨s', c, a, sibling⟩ := f
    cases s <;> cases s' <;> simp_all [ahead, before, after, sideBefore, sideAfter, Side.other]

def extreme : Side → ℕ → RBTreeMap K V → Ptr → Ptr
  | .left => leftmost
  | .right => rightmost

theorem extreme_succ (s : Side) (fuel : ℕ) : extreme s (fuel + 1) m p =
    if m.child s p ≠ null then extreme s fuel m (m.child s p) else p := by
  cases s <;> rfl

theorem extreme_eq {fuel : ℕ} (h : Lays m (plug t fs)) (ht : t ≠ .nil) (hfuel : t.toList.length ≤ fuel) (e : Ptr) :
    extreme s fuel m (address t) = (fromEnd s t.toList).headD e := by
  induction fuel generalizing t fs with
  | zero => exact absurd hfuel (Nat.not_le.mpr (length_pos ht))
  | succ fuel ih =>
    cases t with
    | nil => exact absurd rfl ht
    | node c l a r =>
      obtain ⟨near, far, hj⟩ := exists_join s c l r a
      rw [hj] at h hfuel ⊢
      have hnear : Lays m (plug near (⟨s, c, a, far⟩ :: fs)) := h
      rw [address_join, extreme_succ, h.child_eq, fromEnd_join]
      by_cases hn : near = .nil
      · subst hn
        rw [if_neg (by simp [address])]
        cases s <;> rfl
      · rw [if_pos fun h0 => hn (hnear.address_eq_null.mp h0)]
        have hlen : near.toList.length ≤ fuel := by
          rw [← length_fromEnd s, fromEnd_join, List.length_append, List.length_cons, length_fromEnd] at hfuel
          omega
        rw [ih hnear hn hlen, headD_append_cons]
        cases hL : fromEnd s near.toList with
        | nil =>
          have hl := congrArg List.length hL
          rw [length_fromEnd] at hl
          cases near with
          | nil => exact absurd rfl hn
          | node c' l' a' r' => simp at hl
        | cons z L => rfl

def shrink : Side → RBTreeMap K V → Ptr → RBTreeMap K V
  | .left => shrinkLeft
  | .right => shrinkRight

theorem shrink_eq (s : Side) : shrink s m p = if m.child s header = p then m.setChild s header
    (if m.child s.other p ≠ null then extreme s m.next m (m.child s.other p) else m.parent p) else m := by
  cases s <;> rfl

/-- The header no longer points to a node that leaves the list. -/
theorem shrink_end (h : Lays m (plug (join s c near p far) fs))
    (hend : m.child s header = (fromEnd s (plug (join s c near p far) fs).toList).headD header)
    (hlen : far.toList.length ≤ m.next) : (shrink s m p).child s header =
      (fromEnd s ((plug (join s c near p far) fs).toList.filter (· ≠ p))).headD header := by
  have hn := h.nodup
  have hL : fromEnd s (plug (join s c near p far) fs).toList =
      (ahead s fs ++ fromEnd s near.toList) ++ p :: (fromEnd s far.toList ++ (ahead s.other fs).reverse) := by
    rw [fromEnd_plug, fromEnd_join]
    simp
  have hnd : (fromEnd s (plug (join s c near p far) fs).toList).Nodup := by
    cases s
    · exact hn
    · exact List.nodup_reverse.mpr hn
  rw [hL] at hnd hend
  rw [fromEnd_filter, hL]
  obtain ⟨_, hpn, hd⟩ := List.nodup_append'.mp hnd
  have hpA : p ∉ ahead s fs ++ fromEnd s near.toList := fun hm => hd hm (by simp)
  have hpB : p ∉ fromEnd s far.toList ++ (ahead s.other fs).reverse := (List.nodup_cons.mp hpn).1
  have hfilter : ((ahead s fs ++ fromEnd s near.toList) ++ p :: (fromEnd s far.toList ++
      (ahead s.other fs).reverse)).filter (· ≠ p) =
      (ahead s fs ++ fromEnd s near.toList) ++ (fromEnd s far.toList ++ (ahead s.other fs).reverse) := by
    rw [List.filter_append, List.filter_cons_of_neg (by simp), List.filter_eq_self.mpr, List.filter_eq_self.mpr]
    · exact fun x hx => decide_eq_true fun he => hpB (he ▸ hx)
    · exact fun x hx => decide_eq_true fun he => hpA (he ▸ hx)
  rw [hfilter, shrink_eq]
  rw [headD_append_cons] at hend
  by_cases hp : m.child s header = p
  · rw [if_pos hp, child_setChild, if_pos ⟨rfl, rfl⟩]
    have hA : ahead s fs ++ fromEnd s near.toList = [] := (headD_eq_self hpA).mp (hend.symm.trans hp)
    rw [hA, List.nil_append]
    have hfar : m.child s.other p = address far := (linked_join.mp h.tree).2.2.2.1
    have hF : Lays m (plug far (⟨s.other, c, p, near⟩ :: fs)) := by
      rw [plug, join_other]
      exact h
    rw [hfar]
    by_cases hf : far = .nil
    · subst hf
      have hpar : m.parent p = above header fs := by simpa using h.parent_eq (by cases s <;> rintro ⟨⟩)
      rw [if_neg (by simp [address]), hpar, ← headD_of_ahead_nil (List.append_eq_nil_iff.mp hA).1]
      cases s <;> simp [fromEnd]
    · rw [if_pos fun h0 => hf (hF.address_eq_null.mp h0), extreme_eq hF hf hlen header]
      cases hX : fromEnd s far.toList with
      | nil =>
        have hl := congrArg List.length hX
        rw [length_fromEnd] at hl
        cases far with
        | nil => exact absurd rfl hf
        | node c' l' a' r' => simp at hl
      | cons z L => rfl
  · rw [if_neg hp, hend]
    cases hA : ahead s fs ++ fromEnd s near.toList with
    | nil => exact absurd (hend.trans (by rw [hA]; rfl)) hp
    | cons z L => rfl

end Ends

section RemoveFound
/-- The node that `remove` takes out has no child: it is the node itself or, if that has two children, its successor. -/
def unlinksLeaf (m : RBTreeMap K V) (p : Ptr) : Prop :=
  if m.left p ≠ null ∧ m.right p ≠ null then m.right (successorLoop m.next m (m.right p) p).1 = null
  else m.left p = null ∧ m.right p = null

/-- When a leaf that is not the last node is deleted, its memory keeps the link to the parent. -/
def Intact (stale : Ptr → Ptr → Ptr) (m : RBTreeMap K V) (p : Ptr) : Prop :=
  m.cnt ≠ 1 → m.unlinksLeaf p → ∀ q, stale p q = q

theorem shrink_same (s : Side) (hx : x ≠ header) : SameLinks m (shrink s m p) x := by
  rw [shrink_eq]
  split_ifs
  all_goals exact ⟨by simp, by simp, fun s' => by simp [hx]⟩

theorem shrink_fields (s : Side) : (shrink s m p).root = m.root ∧ (shrink s m p).parent header = m.parent header ∧
    (shrink s m p).cnt = m.cnt ∧ (shrink s m p).next = m.next ∧ (shrink s m p).first = m.first ∧
    (shrink s m p).second = m.second ∧ (shrink s m p).child s.other header = m.child s.other header ∧
    (shrink s m p).color header = m.color header := by
  rw [shrink_eq]
  split_ifs
  all_goals cases s <;> simp [setChild, child, Side.other] <;> exact ⟨rfl, rfl⟩

theorem Lays.shrink (h : Lays m T) (s : Side) (p : Ptr) : Lays (shrink s m p) T :=
  h.congr (fun _ hx => shrink_same s (h.mem_ne hx).2) (shrink_fields s).1 (shrink_fields s).2.1

variable (stale) in
/-- A node with one child leaves the tree. -/
theorem unlink_only (h : Lays m (plug (join s c .nil p t) fs)) (ht : t ≠ .nil)
    (hbal : ∃ n, (plug (join s c .nil p t) fs).Balanced .black n) : ∃ T, Lays (m.replaceByChild stale p) T ∧
      T.toList = before fs ++ t.toList ++ after fs ∧ (∃ n, T.Balanced .black n) ∧
      Keeps m (m.replaceByChild stale p) ∧ ¬ (m.left p = null ∧ m.right p = null) := by
  obtain ⟨n, hbal⟩ := hbal
  obtain ⟨d, k, hb, hacc⟩ := accepts_of_plug hbal
  obtain ⟨rfl, rfl, rfl, x, rfl⟩ := exists_leaf_of_only ht hb
  obtain ⟨h1, hk1⟩ := replaceByChild_spec stale h
  refine ⟨_, h1, toList_plug _ _, hacc.plug (.black .nil .nil), hk1, fun hnull => ?_⟩
  have hx : m.child s.other p = x := (linked_join.mp h.tree).2.2.2.1
  have hx0 := (h.ne_null (x := x) (.inl (mem_join.mpr (.inr (.inr (by simp)))))).1
  cases s with
  | left => exact hx0 (hx.symm.trans hnull.2)
  | right => exact hx0 (hx.symm.trans hnull.1)

/-- A node with at most one child leaves the tree. -/
theorem unlink_spec {l r : RBTree Ptr} (h : Lays m (plug (.node c l p r) fs)) (hlr : l = .nil ∨ r = .nil)
    (hbal : ∃ n, (plug (.node c l p r) fs).Balanced .black n) (hstale : l = .nil → r = .nil → ∀ q, stale p q = q)
    (hlist : (plug (.node c l p r) fs).toList ≠ [p]) (hlen : fs.length < m.next) :
    ∃ T, Lays (if m.left p = null ∧ m.right p = null then m.unlinkLeaf stale p else m.replaceByChild stale p) T ∧
      T.toList = before fs ++ (l.toList ++ r.toList) ++ after fs ∧ (∃ n, T.Balanced .black n) ∧
      Keeps m (if m.left p = null ∧ m.right p = null then m.unlinkLeaf stale p else m.replaceByChild stale p) := by
  have hleft : m.left p = address l := h.left_eq
  have hright : m.right p = address r := h.right_eq
  by_cases hl : l = .nil
  · subst hl
    by_cases hr : r = .nil
    · subst hr
      obtain ⟨n, hbal⟩ := hbal
      obtain ⟨d, k, hb, hacc⟩ := accepts_of_plug hbal
      have hfs : before fs ++ after fs ≠ [] := fun he => hlist (by
        obtain ⟨h1, h2⟩ := List.append_eq_nil_iff.mp he
        simp [toList_plug, h1, h2])
      obtain ⟨fs', h1, hacc', hbe, haf, hk1⟩ := unlinkLeaf_spec h (hstale rfl rfl) hb hacc hfs hlen
      rw [if_pos ⟨hleft, hright⟩]
      exact ⟨_, h1, by simp [toList_plug, hbe, haf], hacc'.plug .nil, hk1⟩
    · obtain ⟨T, h1, hl, hb, hk1, hnot⟩ := unlink_only stale (s := .left) h hr hbal
      rw [if_neg hnot]
      exact ⟨T, h1, hl, hb, hk1⟩
  · obtain rfl : r = .nil := hlr.resolve_left hl
    obtain ⟨T, h1, hT, hb, hk1, hnot⟩ := unlink_only stale (s := .right) h hl hbal
    rw [if_neg hnot]
    exact ⟨T, h1, by simpa using hT, hb, hk1⟩

theorem filter_ne_append {X Y : List Ptr} (h : (X ++ p :: Y).Nodup) : (X ++ p :: Y).filter (· ≠ p) = X ++ Y := by
  obtain ⟨_, hpY, hd⟩ := List.nodup_append'.mp h
  rw [List.filter_append, List.filter_cons_of_neg (by simp), List.filter_eq_self.mpr, List.filter_eq_self.mpr]
  · exact fun x hx => decide_eq_true fun he => (List.nodup_cons.mp hpY).1 (he ▸ hx)
  · exact fun x hx => decide_eq_true fun he => hd (he ▸ hx) (by simp)

theorem filter_plug {l r : RBTree Ptr} (h : (plug (.node c l p r) fs).toList.Nodup) :
    (plug (.node c l p r) fs).toList.filter (· ≠ p) = before fs ++ (l.toList ++ r.toList) ++ after fs := by
  have heq : (plug (.node c l p r) fs).toList = (before fs ++ l.toList) ++ p :: (r.toList ++ after fs) := by
    simp [toList_plug]
  rw [heq] at h ⊢
  rw [filter_ne_append h]
  simp

/-- The list without a node does not depend on whether the node has changed places with the next one. -/
theorem filter_map_swap {X Y : List Ptr} (h : (X ++ p :: y :: Y).Nodup) :
    ((X ++ p :: y :: Y).map (Equiv.swap p y)).filter (· ≠ p) = (X ++ p :: y :: Y).filter (· ≠ p) := by
  obtain ⟨hX, hpY, hd⟩ := List.nodup_append'.mp h
  obtain ⟨hp, hyY⟩ := List.nodup_cons.mp hpY
  have hsame : ∀ L : List Ptr, p ∉ L → y ∉ L → L.map (Equiv.swap p y) = L := fun L h1 h2 => by
    refine (List.map_congr_left fun x hx => ?_).trans (List.map_id L)
    exact Equiv.swap_apply_of_ne_of_ne (ne_of_mem_of_not_mem hx h1) (ne_of_mem_of_not_mem hx h2)
  have hpX : p ∉ X := fun hx => hd hx (by simp)
  have hyX : y ∉ X := fun hx => hd hx (by simp)
  have hpY : p ∉ Y := fun hx => hp (by simp [hx])
  rw [List.map_append, List.map_cons, List.map_cons, Equiv.swap_apply_left, Equiv.swap_apply_right, hsame X hpX hyX,
    hsame Y hpY (List.nodup_cons.mp hyY).1]
  have hyp : y ≠ p := fun he => hp (by simp [he])
  simp [List.filter_append, hyp]

/-- A node with two children has no left child after it has changed places with its successor. -/
theorem swapped_spec {l r : RBTree Ptr} (h : Lays m (plug (.node c l p r) fs)) (hl : l ≠ .nil) (hr : r ≠ .nil)
    (hbal : ∃ n, (plug (.node c l p r) fs).Balanced .black n) (hlen : r.toList.length ≤ m.next) :
    ∃ d r' gs, Lays (m.swapWithSuccessor p) (plug (.node d .nil p r') gs) ∧ Keeps m (m.swapWithSuccessor p) ∧
      (∃ n, (plug (.node d .nil p r') gs).Balanced .black n) ∧
      (plug (.node d .nil p r') gs).toList.length = (plug (.node c l p r) fs).toList.length ∧
      (plug (.node d .nil p r') gs).toList.filter (· ≠ p) = (plug (.node c l p r) fs).toList.filter (· ≠ p) ∧
      (r' = .nil → m.unlinksLeaf p) := by
  obtain ⟨rest, hrest, h1, hk, hpl, hpr⟩ := swapWithSuccessor_spec h hr hlen
  have hleaf : m.right (successorLoop m.next m (m.right p) p).1 = null → m.unlinksLeaf p := fun h0 => by
    have hL : Lays m (plug l (⟨.left, c, p, r⟩ :: fs)) := h
    have hR : Lays m (plug r (⟨.right, c, p, l⟩ :: fs)) := h
    have hleft : m.left p ≠ null := (h.left_eq : m.left p = address l) ▸ mt hL.address_eq_null.mp hl
    have hright : m.right p ≠ null := (h.right_eq : m.right p = address r) ▸ mt hR.address_eq_null.mp hr
    rw [unlinksLeaf, if_pos ⟨hleft, hright⟩]
    exact h0
  generalize (successorLoop m.next m (m.right p) p).1 = y at hrest h1 hpr hleaf
  have hlist : (plug (.node c l p r) fs).toList = (before fs ++ l.toList) ++ p :: y :: (rest ++ after fs) := by
    simp [toList_plug, hrest]
  have hmap := toList_map (Equiv.swap p y) (plug (.node c l p r) fs)
  have hpT : p ∈ ((plug (.node c l p r) fs).map (Equiv.swap p y)).toList := by
    rw [hmap, List.mem_map]
    exact ⟨y, by simp [hlist], Equiv.swap_apply_right p y⟩
  obtain ⟨n, hbal⟩ := hbal
  have hbal' := hbal.map (Equiv.swap p y)
  obtain ⟨d, l', r', gs, hg⟩ := exists_plug_of_mem hpT
  rw [hg] at h1 hbal' hmap
  obtain rfl : l' = .nil := by
    have hL : Lays (m.swapWithSuccessor p) (plug l' (⟨.left, d, p, r'⟩ :: gs)) := h1
    have hleft : (m.swapWithSuccessor p).left p = address l' := h1.left_eq
    exact hL.address_eq_null.mp (hleft.symm.trans hpl)
  refine ⟨d, r', gs, h1, hk, ⟨n, hbal'⟩, by rw [hmap, List.length_map], ?_, fun hr' => hleaf ?_⟩
  · rw [hmap, hlist]
    exact filter_map_swap (hlist ▸ h.nodup)
  · have hy0 := (h.mem_ne (x := y) (by simp [hlist])).1
    have hp0 := (h.mem_ne (x := p) (by simp [hlist])).1
    have hright : (m.swapWithSuccessor p).right p = address r' := h1.right_eq
    rw [hright, hr', eq_comm, Equiv.swap_apply_eq_iff,
      Equiv.swap_apply_of_ne_of_ne (show address .nil ≠ p from hp0.symm) hy0.symm] at hpr
    exact hpr

/-- `remove` at a node takes the node out of the tree. -/
theorem unlinkFound_spec (h : Lays m T) (hp : p ∈ T.toList) (hbal : ∃ n, T.Balanced .black n)
    (hstale : m.unlinksLeaf p → ∀ q, stale p q = q) (hlist : T.toList ≠ [p]) (hlen : T.toList.length < m.next)
    {M M' : RBTreeMap K V} (hM : M = if m.left p ≠ null ∧ m.right p ≠ null then m.swapWithSuccessor p else m)
    (hM' : M' = if M.left p = null ∧ M.right p = null then M.unlinkLeaf stale p else M.replaceByChild stale p) :
    ∃ T', Lays M' T' ∧ T'.toList = T.toList.filter (· ≠ p) ∧ (∃ n, T'.Balanced .black n) ∧ Keeps m M' := by
  obtain ⟨c, l, r, fs, rfl⟩ := exists_plug_of_mem hp
  have hleft : m.left p = address l := h.left_eq
  have hright : m.right p = address r := h.right_eq
  have hL : Lays m (plug l (⟨.left, c, p, r⟩ :: fs)) := h
  have hR : Lays m (plug r (⟨.right, c, p, l⟩ :: fs)) := h
  have hl0 : m.left p ≠ null ↔ l ≠ .nil := by rw [hleft, ne_eq, hL.address_eq_null]
  have hr0 : m.right p ≠ null ↔ r ≠ .nil := by rw [hright, ne_eq, hR.address_eq_null]
  have hfuel : ∀ {t : RBTree Ptr} {fs : List (Frame Ptr)}, (plug t fs).toList.length < m.next →
      t.toList.length ≤ m.next ∧ fs.length < m.next := by
    intro t fs hlen
    have hle := length_le_labels fs
    rw [toList_plug] at hlen
    rw [labels] at hle
    simp only [List.length_append] at hlen hle
    omega
  by_cases hboth : m.left p ≠ null ∧ m.right p ≠ null
  · rw [if_pos hboth] at hM
    have hrlen : (plug r (⟨.right, c, p, l⟩ :: fs)).toList.length < m.next := hlen
    obtain ⟨d, r', gs, h1, hk, hbal', hsize, hfilter, hleaf⟩ :=
      swapped_spec h (hl0.mp hboth.1) (hr0.mp hboth.2) hbal (hfuel hrlen).1
    rw [← hM] at h1 hk
    have hlist' : (plug (.node d .nil p r') gs).toList ≠ [p] := fun he => by
      rw [he] at hsize
      obtain ⟨x, hx⟩ := List.length_eq_one_iff.mp hsize.symm
      rw [hx, List.mem_singleton] at hp
      exact hlist (hx.trans (congrArg (fun z => [z]) hp.symm))
    have hgs : gs.length < M.next := by
      rw [hk.next]
      exact (hfuel (hsize.trans_lt hlen)).2
    obtain ⟨T, hT, hTl, hTb, hk'⟩ := unlink_spec h1 (.inl rfl) hbal' (fun _ hr' => hstale (hleaf hr')) hlist' hgs
    rw [← hM'] at hT hk'
    exact ⟨T, hT, hTl.trans ((filter_plug h1.nodup).symm.trans hfilter), hTb, hk.trans hk'⟩
  · rw [if_neg hboth] at hM
    subst hM
    have hlr : l = .nil ∨ r = .nil := by
      rw [hl0, hr0] at hboth
      tauto
    have hleaf : l = .nil → r = .nil → ∀ q, stale p q = q := fun hl hr => by
      rw [unlinksLeaf, if_neg hboth] at hstale
      exact hstale ⟨by rw [hleft, hl]; rfl, by rw [hright, hr]; rfl⟩
    obtain ⟨T, hT, hTl, hTb, hk⟩ := unlink_spec h hlr hbal hleaf hlist (hfuel hlen).2
    rw [← hM'] at hT hk
    exact ⟨T, hT, hTl.trans (filter_plug h.nodup).symm, hTb, hk⟩

/-- The same links give the same successor. -/
theorem unlinksLeaf_of_same (h : Lays m T) (h' : Lays m' T) (hp : p ∈ T.toList)
    (hs : ∀ x ∈ T.toList, SameLinks m m' x) (hn : m'.next = m.next) (hlen : T.toList.length < m.next)
    (hu : m'.unlinksLeaf p) : m.unlinksLeaf p := by
  have hl : m'.left p = m.left p := (hs p hp).child .left
  have hr : m'.right p = m.right p := (hs p hp).child .right
  unfold unlinksLeaf at hu ⊢
  rw [hl, hr, hn] at hu
  split_ifs with hboth
  · rw [if_pos hboth] at hu
    obtain ⟨c, l, r, fs, rfl⟩ := exists_plug_of_mem hp
    have hR : Lays m (plug r (⟨.right, c, p, l⟩ :: fs)) := h
    have hR' : Lays m' (plug r (⟨.right, c, p, l⟩ :: fs)) := h'
    have hright : m.right p = address r := h.right_eq
    have hr0 : r ≠ .nil := fun h0 => hboth.2 (by rw [hright, h0]; rfl)
    have hrlen : r.toList.length ≤ m.next := by
      rw [toList_plug] at hlen
      simp only [toList, List.length_append, List.length_cons] at hlen
      omega
    obtain ⟨rest, he, -, -⟩ := successorLoop_spec (q := p) hR hr0 hrlen
    obtain ⟨rest', he', -, -⟩ := successorLoop_spec (q := p) hR' hr0 hrlen
    rw [← hright] at he he'
    have hy := (List.cons.inj (he.symm.trans he')).1
    have hmem : (successorLoop m.next m (m.right p) p).1 ∈ (plug (.node c l p r) fs).toList :=
      mem_plug.mpr (.inl (by simp [he]))
    rw [← hy] at hu
    exact ((hs _ hmem).child .right).symm.trans hu
  · rwa [if_neg hboth] at hu

variable [LinearOrder K]

theorem Represents.ends (h : Represents m T) (s : Side) : m.child s header = (fromEnd s T.toList).headD header := by
  cases s with
  | left => exact h.first
  | right => exact h.last.trans (headD_fromEnd_right _ _).symm

theorem Represents.length_filter (h : Represents m T) (hp : p ∈ T.toList) :
    (T.toList.filter (· ≠ p)).length = m.cnt - 1 := by
  have he := h.lays.nodup.erase_eq_filter p
  rw [h.count, ← List.length_erase_of_mem hp, he]
  congr 2
  funext x
  by_cases hx : x = p <;> simp [hx]

/-- The tree and the header without the node. -/
theorem Represents.without {T' : RBTree Ptr} (h : Represents m T) (hp : p ∈ T.toList) (hl : Lays m' T')
    (hT : T'.toList = T.toList.filter (· ≠ p)) (hb : ∃ n, T'.Balanced .black n) (hf : m'.first = m.first)
    (hc : m'.cnt = m.cnt - 1) (hn : m'.next = m.next)
    (he : ∀ s, m'.child s header = (fromEnd s (T.toList.filter (· ≠ p))).headD header) : Represents m' T' := by
  refine ⟨hl, hb, ?_, ?_, ?_, ?_, fun q hq => ?_, hn ▸ h.next⟩
  · rw [hT, hf]
    exact h.sorted.filter _
  · rw [hT, h.length_filter hp, hc]
  · rw [hT]
    exact he .left
  · rw [hT, ← headD_fromEnd_right]
    exact he .right
  · rw [hT] at hq
    exact hn ▸ h.bound q (List.mem_filter.mp hq).1

theorem clear_spec (hr : m.root = m.parent header) (hn : header < m.next) : Represents m.clear .nil ∧
    m.clear.first = m.first ∧ m.clear.second = m.second ∧ m.clear.next = m.next ∧
    m.clear.color header = m.color header := by
  unfold clear
  by_cases h0 : m.root = null
  · have hp : m.parent header = null := hr ▸ h0
    simp only [root_setLeft, root_setRight, h0, ne_eq, not_true_eq_false, if_false]
    refine ⟨⟨⟨trivial, rfl, ?_, by simp, by simp⟩, ⟨0, .nil⟩, by simp, rfl, ?_, ?_, by simp, hn⟩, ?_, ?_, rfl, ?_⟩
    · simp [parent_mk, hp, address]
    · simp [left_mk]
    · simp [right_mk]
    · simp [first_mk]
    · simp [second_mk]
    · simp [color_mk]
  · simp only [root_setLeft, root_setRight, h0, ne_eq, not_false_eq_true, if_true]
    refine ⟨⟨⟨trivial, rfl, ?_, by simp, by simp⟩, ⟨0, .nil⟩, by simp, rfl, ?_, ?_, by simp, hn⟩, ?_, ?_, rfl, ?_⟩
    · simp [parent_mk, address]
    · simp [left_mk]
    · simp [right_mk]
    · simp [first_mk]
    · simp [second_mk]
    · simp [color_mk]

/-- `remove` at a node. -/
theorem removeFound_spec (h : Represents m T) (hp : p ∈ T.toList) (hstale : Intact stale m p) :
    ∃ T', Represents (m.removeFound stale p) T' ∧ T'.toList = T.toList.filter (· ≠ p) ∧
      (m.removeFound stale p).first = m.first ∧ (m.removeFound stale p).second = m.second ∧
      (m.removeFound stale p).next = m.next ∧ (m.removeFound stale p).color header = m.color header := by
  obtain ⟨hr1, hp1, hc1, hn1, hf1, hs1, he1, hh1⟩ := shrink_fields (m := m) (p := p) .left
  obtain ⟨hr2, hp2, hc2, hn2, hf2, hs2, he2, hh2⟩ := shrink_fields (m := shrink .left m p) (p := p) .right
  have hlen := h.length_lt
  have hlays1 := h.lays.shrink .left p
  have hlays2 := hlays1.shrink .right p
  have hsame : ∀ x ∈ T.toList, SameLinks m (shrink .right (shrink .left m p) p) x := fun x hx => by
    have h1 := shrink_same (m := m) (p := p) .left (h.lays.mem_ne hx).2
    have h2 := shrink_same (m := shrink .left m p) (p := p) .right (h.lays.mem_ne hx).2
    exact ⟨h2.color.trans h1.color, h2.parent.trans h1.parent, fun s => (h2.child s).trans (h1.child s)⟩
  have hends : ∀ s, (shrink .right (shrink .left m p) p).child s header =
      (fromEnd s (T.toList.filter (· ≠ p))).headD header := by
    obtain ⟨c, l, r, fs, rfl⟩ := exists_plug_of_mem hp
    have hlens : l.toList.length ≤ m.next ∧ r.toList.length ≤ m.next := by
      rw [toList_plug] at hlen
      simp only [toList, List.length_append, List.length_cons] at hlen
      omega
    intro s
    cases s with
    | left =>
      rw [show (shrink .right (shrink .left m p) p).child .left header = (shrink .left m p).child .left header from he2]
      exact shrink_end (s := .left) h.lays (h.ends .left) hlens.2
    | right =>
      refine shrink_end (s := .right) hlays1 ?_ (hn1 ▸ hlens.1)
      rw [show (shrink .left m p).child .right header = m.child .right header from he1]
      exact h.ends .right
  have hcnt := hc2.trans hc1
  have hnext := hn2.trans hn1
  have hfirst := hf2.trans hf1
  have hsecond := hs2.trans hs1
  have hcolor := hh2.trans hh1
  have heq : m.removeFound stale p = if (shrink .right (shrink .left m p) p).cnt = 1
      then (shrink .right (shrink .left m p) p).clear
      else
        let M := shrink .right (shrink .left m p) p
        let M := if M.left p ≠ null ∧ M.right p ≠ null then M.swapWithSuccessor p else M
        let M := if M.left p = null ∧ M.right p = null then M.unlinkLeaf stale p else M.replaceByChild stale p
        {M with cnt := M.cnt - 1} := rfl
  rw [heq, hcnt]
  revert hends
  generalize shrink .right (shrink .left m p) p = M at *
  intro hends
  by_cases h1 : m.cnt = 1
  · rw [if_pos h1]
    obtain ⟨hclear, hcf, hcs, hcn, hcc⟩ := clear_spec (hlays2.root.trans hlays2.headerParent.symm) (hnext ▸ h.next)
    have hnil : T.toList.filter (· ≠ p) = [] := by
      refine List.eq_nil_of_length_eq_zero ?_
      rw [h.length_filter hp, h1]
    exact ⟨.nil, hclear, hnil.symm, hcf.trans hfirst, hcs.trans hsecond, hcn.trans hnext, hcc.trans hcolor⟩
  · rw [if_neg h1]
    have hlist : T.toList ≠ [p] := fun he => h1 (by rw [h.count, he]; rfl)
    have hst : M.unlinksLeaf p → ∀ q, stale p q = q := fun hu =>
      hstale h1 (unlinksLeaf_of_same h.lays hlays2 hp hsame hnext hlen hu)
    obtain ⟨T', hl, hT, hb, hk⟩ := unlinkFound_spec hlays2 hp h.balanced hst hlist (hnext ▸ hlen) rfl rfl
    refine ⟨T', h.without hp hl.count hT hb (hk.first.trans hfirst) ?_ (hk.next.trans hnext) fun s => ?_, hT,
      hk.first.trans hfirst, hk.second.trans hsecond, hk.next.trans hnext, hk.headerColor.trans hcolor⟩
    · exact congrArg (· - 1) (hk.cnt.trans hcnt)
    · rw [← hends s, ← hk.ends s]
      cases s <;> rfl

end RemoveFound

section Remove
theorem setParent_self (p : Ptr) : m.setParent p (m.parent p) = m := by
  unfold setParent write parent
  rw [Function.update_eq_self]

/-- The links of a node that are right already. -/
theorem Lays.maintainRelationship_eq (h : Lays m T) (hx : x ∈ T.toList) : m.maintainRelationship x = m := by
  have hleft : m.maintainLeft x = m := by
    unfold maintainLeft
    split_ifs with h0
    · obtain ⟨_, hp⟩ := (h.child_mem hx .left).resolve_left h0
      have he := m.setParent_self (m.child .left x)
      rwa [hp] at he
    · rfl
  unfold maintainRelationship
  rw [hleft]
  unfold maintainRight
  split_ifs with h0
  · obtain ⟨_, hp⟩ := (h.child_mem hx .right).resolve_left h0
    have he := m.setParent_self (m.child .right x)
    rwa [hp] at he
  · rfl

variable [LinearOrder K] {key : K} {fuel : ℕ}

theorem remove_succ (stale : Ptr → Ptr → Ptr) (fuel : ℕ) (p : Ptr) : remove stale (fuel + 1) m p key =
    if key ≠ m.first p then
      if m.child (m.side p key) p ≠ null then
        if (remove stale fuel m (m.child (m.side p key) p) key).2
        then ((remove stale fuel m (m.child (m.side p key) p) key).1.maintainRelationship p, true)
        else ((remove stale fuel m (m.child (m.side p key) p) key).1, false)
      else (m, false)
    else (m.removeFound stale p, true) := by
  have hchild : m.child (m.side p key) p = if key < m.first p then m.left p else m.right p := by
    unfold side
    split_ifs <;> rfl
  rw [remove, hchild]

/-- The recursive `remove` acts on the node of the key. -/
theorem remove_eq (h : Represents m (plug t fs)) (ht : t ≠ .nil) (hk : Narrowed m key fs)
    (hfuel : t.toList.length ≤ fuel)
    (hstale : ∀ p ∈ (plug t fs).toList, m.first p = key → Intact stale m p) :
    (∃ p ∈ t.toList, m.first p = key ∧ remove stale fuel m (address t) key = (m.removeFound stale p, true)) ∨
      (∀ p ∈ (plug t fs).toList, m.first p ≠ key) ∧ remove stale fuel m (address t) key = (m, false) := by
  induction fuel generalizing t fs with
  | zero => exact absurd hfuel (Nat.not_le.mpr (length_pos ht))
  | succ fuel ih =>
    obtain ⟨c, l, a, r, rfl⟩ := exists_node ht
    obtain ⟨near, far, hj⟩ := exists_join (m.side a key) c l r a
    have hlen : near.toList.length ≤ fuel := by
      rw [← length_fromEnd (m.side a key), hj, fromEnd_join, List.length_append, List.length_cons,
        length_fromEnd] at hfuel
      omega
    rw [hj] at h hstale ⊢
    have hchild : m.child (m.side a key) a = address near := h.lays.child_eq
    rw [address_join, remove_succ, hchild]
    by_cases he : key = m.first a
    · rw [if_neg (not_not.mpr he)]
      exact .inl ⟨a, mem_join.mpr (.inl rfl), he.symm, rfl⟩
    · rw [if_pos he]
      have hk' := hk.step h.sorted he rfl
      have hnear : Represents m (plug near (⟨m.side a key, c, a, far⟩ :: fs)) := h
      by_cases hn : near = .nil
      · subst hn
        rw [if_neg (by simp [address])]
        exact .inr ⟨hk'.ne, rfl⟩
      · rw [if_pos fun h0 => hn (hnear.lays.address_eq_null.mp h0)]
        rcases ih hnear hn hk' hlen hstale with ⟨p, hp, hf, hr⟩ | ⟨hne, hr⟩
        · rw [hr, if_pos rfl]
          refine .inl ⟨p, mem_join.mpr (.inr (.inl hp)), hf, ?_⟩
          -- the node is still there and its links are right
          have hpT : p ∈ (plug (join (m.side a key) c near a far) fs).toList :=
            mem_plug.mpr (.inl (mem_join.mpr (.inr (.inl hp))))
          obtain ⟨T', hT', hlist, -⟩ := removeFound_spec h hpT (hstale p hpT hf)
          have hap : a ≠ p := by
            rintro rfl
            exact he hf.symm
          have haT : a ∈ T'.toList := by
            rw [hlist]
            exact List.mem_filter.mpr ⟨mem_plug.mpr (.inl (mem_join.mpr (.inl rfl))), decide_eq_true hap⟩
          rw [hT'.lays.maintainRelationship_eq haT]
        · rw [hr]
          exact .inr ⟨hne, if_neg (by rintro ⟨⟩)⟩

theorem Represents.filter_key (h : Represents m T) (hp : p ∈ T.toList) :
    T.toList.filter (· ≠ p) = T.toList.filter (fun q => m.first q ≠ m.first p) := by
  refine List.filter_congr fun q hq => ?_
  have hiff : q ≠ p ↔ m.first q ≠ m.first p := not_congr ⟨congrArg _, h.eq_of_first hq hp⟩
  simp [hiff]

/-- `remove` from the root. -/
theorem remove_spec (h : Represents m T) (ht : T ≠ .nil)
    (hstale : ∀ p ∈ T.toList, m.first p = key → Intact stale m p) :
    ∃ T', Represents (remove stale m.next m m.root key).1 T' ∧
      T'.toList = T.toList.filter (fun p => m.first p ≠ key) ∧
      (remove stale m.next m m.root key).1.first = m.first ∧ (remove stale m.next m m.root key).1.second = m.second ∧
      (remove stale m.next m m.root key).1.next = m.next ∧
      (remove stale m.next m m.root key).1.color header = m.color header ∧
      ((remove stale m.next m m.root key).2 = true ↔ ∃ p ∈ T.toList, m.first p = key) := by
  rw [h.lays.root]
  have hT : Represents m (plug T []) := h
  rcases remove_eq hT ht ⟨by simp [before], by simp [after]⟩ (Nat.le_of_lt h.length_lt) hstale with
    ⟨p, hp, hf, hr⟩ | ⟨hne, hr⟩
  · rw [hr]
    obtain ⟨T', hT', hl, h1, h2, h3, h4⟩ := removeFound_spec h hp (hstale p hp hf)
    refine ⟨T', hT', hl.trans ?_, h1, h2, h3, h4, iff_of_true rfl ⟨p, hp, hf⟩⟩
    rw [h.filter_key hp, hf]
  · rw [hr]
    refine ⟨T, h, ?_, rfl, rfl, rfl, rfl, iff_of_false (by rintro ⟨⟩) fun he => he.elim fun p hp => hne p hp.1 hp.2⟩
    exact (List.filter_eq_self.mpr fun p hp => decide_eq_true (hne p hp)).symm

variable (key) in
/-- `erase(key)`. -/
theorem erase_spec (h : Represents m T) (hstale : ∀ p ∈ T.toList, m.first p = key → Intact stale m p) :
    ∃ T', Represents (m.erase stale key).1 T' ∧ T'.toList = T.toList.filter (fun p => m.first p ≠ key) ∧
      (m.erase stale key).1.first = m.first ∧ (m.erase stale key).1.second = m.second ∧
      (m.erase stale key).1.color header = m.color header ∧
      ((m.erase stale key).2 = 1 ∧ (∃ p ∈ T.toList, m.first p = key) ∨
        (m.erase stale key).2 = 0 ∧ ∀ p ∈ T.toList, m.first p ≠ key) := by
  unfold erase
  by_cases ht : T = .nil
  · rw [if_pos (h.root_eq_null.mpr ht)]
    subst ht
    exact ⟨.nil, h, rfl, rfl, rfl, rfl, .inr ⟨rfl, by simp⟩⟩
  · rw [if_neg fun h0 => ht (h.root_eq_null.mp h0)]
    obtain ⟨T', hT', hl, h1, h2, -, h3, hiff⟩ := remove_spec h ht hstale
    refine ⟨T', hT', hl, h1, h2, h3, ?_⟩
    by_cases hb : (remove stale m.next m m.root key).2 = true
    · exact .inl ⟨if_pos hb, hiff.mp hb⟩
    · exact .inr ⟨if_neg hb, fun p hp hf => hb (hiff.mpr ⟨p, hp, hf⟩)⟩

end Remove

end Zpc.RBTreeMap
