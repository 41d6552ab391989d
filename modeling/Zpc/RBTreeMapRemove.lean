import Zpc.RBTreeMapInsert

/-!
# Rebalancing before a removal

`maintainAfterRemove` changes the tree around a node so that the place of the node takes a subtree with one black node
less.
-/
namespace Zpc.RBTreeMap
open RedBlackTree (Color Side RBTree)
open RedBlackTree.RBTree

variable {K V : Type*} {m m' : RBTreeMap K V} {t near far E F B S : RBTree Ptr} {fs : List (Frame Ptr)} {s s' : Side}
  {c c₁ c₂ d d' : Color} {b v w : Ptr} {k : ℕ}

section Cases
theorem plug_sibling : plug t (⟨s, c, b, S⟩ :: fs) = plug S (⟨s.other, c, b, t⟩ :: fs) := by
  rw [plug, plug, join_other]

theorem rotateSameDirection_eq (f : Frame Ptr) (fs : List (Frame Ptr)) :
    m.rotateSameDirection b (direction (f :: fs)) = m.rotate f.side b := by
  obtain ⟨s, c, a, sibling⟩ := f
  cases s <;> rfl

theorem rotateOppositeDirection_eq (f : Frame Ptr) (fs : List (Frame Ptr)) :
    m.rotateOppositeDirection b (direction (f :: fs)) = m.rotate f.side.other b := by
  obtain ⟨s, c, a, sibling⟩ := f
  cases s <;> rfl

theorem closeNephew_eq (f : Frame Ptr) (fs : List (Frame Ptr)) :
    m.closeNephew b (direction (f :: fs)) = m.child f.side b := by
  obtain ⟨s, c, a, sibling⟩ := f
  cases s <;> rfl

theorem distantNephew_eq (f : Frame Ptr) (fs : List (Frame Ptr)) :
    m.distantNephew b (direction (f :: fs)) = m.child f.side.other b := by
  obtain ⟨s, c, a, sibling⟩ := f
  cases s <;> rfl

/-- Case 1. -/
theorem lowerParent_spec (h : Lays m (plug t (⟨s, .black, b, join s .red near v far⟩ :: fs))) (ht : t ≠ .nil) :
    Lays (m.lowerParent (address t) (m.getDirection (address t)))
        (plug t (⟨s, .red, b, near⟩ :: ⟨s, .black, v, far⟩ :: fs)) ∧
      Keeps m (m.lowerParent (address t) (m.getDirection (address t))) := by
  have hb : m.parent (address t) = b := h.parent_eq ht
  have hv : m.getSibling (address t) = v := by simpa using h.getSibling_eq ht
  rw [lowerParent, hb, hv, h.getDirection_eq ht, rotateSameDirection_eq]
  exact rotate_colors_spec h .black .red

/-- Case 4. -/
theorem raiseCloseNephew_spec (h : Lays m (plug t (⟨s, c, b, join s c₁ (join s c₂ E w B) v F⟩ :: fs)))
    (ht : t ≠ .nil) :
    Lays (m.raiseCloseNephew (address t) (direction (⟨s, c, b, S⟩ :: fs)))
        (plug t (⟨s, c, b, join s .black E w (join s .red B v F)⟩ :: fs)) ∧
      Keeps m (m.raiseCloseNephew (address t) (direction (⟨s, c, b, S⟩ :: fs))) := by
  have hv : m.getSibling (address t) = v := by simpa using h.getSibling_eq ht
  rw [plug_sibling] at h
  have hw : m.child s v = w := by simpa using h.child_eq
  -- the nephew is on the far side of the rotation
  have hS : Lays m (plug (join s.other c₁ F v (join s.other c₂ B w E)) (⟨s.other, c, b, t⟩ :: fs)) := by
    rw [join_other, join_other]
    exact h
  obtain ⟨h1, hk1⟩ := rotate_colors_spec hS .black .red
  rw [join_other, join_other, ← plug_sibling] at h1
  rw [raiseCloseNephew, hv, closeNephew_eq, hw, rotateOppositeDirection_eq]
  exact ⟨h1, hk1⟩

/-- Case 5, with a distant nephew. -/
theorem raiseSibling_spec (h : Lays m (plug t (⟨s, c, b, join s c₁ E w (join s' c₂ B v F)⟩ :: fs))) (ht : t ≠ .nil) :
    Lays (m.raiseSibling (address t) (direction (⟨s, c, b, S⟩ :: fs)))
        (plug t (⟨s, .black, b, E⟩ :: ⟨s, c, w, join s' .black B v F⟩ :: fs)) ∧
      Keeps m (m.raiseSibling (address t) (direction (⟨s, c, b, S⟩ :: fs))) := by
  have hb : m.parent (address t) = b := h.parent_eq ht
  have hw : m.getSibling (address t) = w := by simpa using h.getSibling_eq ht
  have hv : m.child s.other w = v := by
    rw [plug_sibling] at h
    simpa using (linked_join.mp h.tree).2.2.2.1
  have h1 := (rotate_spec h).1
  have h1' : Lays (m.rotate s b) (plug t (⟨s, c, b, E⟩ :: ⟨s, c₁, w, join s' c₂ B v F⟩ :: fs)) := h1
  have hb1 : (m.rotate s b).parent (address t) = b := h1'.parent_eq ht
  have h1'' : Lays (m.rotate s b) (plug (join s c t b E) (⟨s, c₁, w, join s' c₂ B v F⟩ :: fs)) := h1
  have hbc : (m.rotate s b).color b = c := h1''.color_eq
  obtain ⟨h3, hk3⟩ := rotate_colors_spec h c .black
  have h3' : Lays (((m.rotate s b).setColor w c).setColor b .black)
      (plug (join s .black t b E) (⟨s, c, w, join s' c₂ B v F⟩ :: fs)) := h3
  rw [plug_sibling] at h3'
  have h4 := setColor_lays .black _ h3'
  rw [← plug_sibling] at h4
  have hv0 : v ≠ null := (h3'.ne_null (.inl (mem_join.mpr (.inl rfl)))).1
  rw [raiseSibling, hw, hb, distantNephew_eq, hv, rotateSameDirection_eq]
  simp only [hb1, hbc, parent_setColor, if_pos hv0]
  exact ⟨h4, hk3.trans (h3'.keeps_setColor (.inl (by simp [mem_join])) _)⟩

end Cases

section Settle
/-- The place of the subtree takes a black one of the given height, and the order of the labels is the same. -/
def Settled (m m' : RBTreeMap K V) (t : RBTree Ptr) (fs : List (Frame Ptr)) (k : ℕ) : Prop :=
  ∃ fs', Lays m' (plug t fs') ∧ Accepts fs' .black k ∧ before fs' = before fs ∧ after fs' = after fs ∧ Keeps m m'

/-- `maintainAfterRemove` with a black sibling. -/
def settle (fuel : ℕ) (m : RBTreeMap K V) (node : Ptr) (direction : Direction) : RBTreeMap K V :=
  let sibling := m.getSibling node
  if m.isBlackOrNull (m.closeNephew sibling direction) ∧ m.isBlackOrNull (m.distantNephew sibling direction) then
    if m.color (m.parent node) = .red then (m.setColor sibling .red).setColor (m.parent node) .black
    else maintainAfterRemove fuel (m.setColor sibling .red) (m.parent node)
  else
    let m := if ¬ m.isBlackOrNull (m.closeNephew sibling direction) then m.raiseCloseNephew node direction else m
    m.raiseSibling node direction

theorem maintainAfterRemove_succ (fuel : ℕ) (node : Ptr) : maintainAfterRemove (fuel + 1) m node =
    if m.isRoot node then m
    else settle fuel (if m.color (m.getSibling node) = .red then m.lowerParent node (m.getDirection node) else m) node
      (m.getDirection node) := rfl

theorem exists_node_of_succ (h : t.Balanced .black (k + 1)) (s : Side) : ∃ near a far e e', t = join s .black near a far ∧
    near.Balanced e k ∧ far.Balanced e' k := by
  cases h with
  | black hl hr =>
    cases s
    · exact ⟨_, _, _, _, _, rfl, hl, hr⟩
    · exact ⟨_, _, _, _, _, rfl, hr, hl⟩

/-- Cases 4 and 5. -/
theorem raise_settled (h : Lays m (plug t (⟨s, c, b, join s .black near v far⟩ :: fs))) (ht : t ≠ .nil)
    (hn : near.Balanced d k) (hf : far.Balanced d' k) (hred : ¬ (d = .black ∧ d' = .black))
    (hacc : Accepts (⟨s, c, b, join s .black near v far⟩ :: fs) .black (k + 1)) :
    Settled m ((if d = .red then m.raiseCloseNephew (address t) (direction (⟨s, c, b, S⟩ :: fs)) else m).raiseSibling
      (address t) (direction (⟨s, c, b, S⟩ :: fs))) t (⟨s, c, b, join s .black near v far⟩ :: fs) k := by
  -- the frame of the parent takes the raised node
  have hup : ∀ {X : RBTree Ptr} {a : Ptr}, X.Balanced .black (k + 1) → Accepts (⟨s, c, a, X⟩ :: fs) .black (k + 1) := by
    intro X a hX
    cases hacc with
    | red _ h => exact .red hX h
    | black _ h => exact .black hX h
  cases d with
  | red =>
    obtain ⟨E, w, B, rfl, hE, hB⟩ := exists_node_of_red hn s
    obtain ⟨h1, hk1⟩ := raiseCloseNephew_spec (S := S) h ht
    obtain ⟨h2, hk2⟩ := raiseSibling_spec (S := S) h1 ht
    rw [if_pos rfl]
    refine ⟨_, h2, .black hE (hup (hB.join_black hf)), ?_, ?_, hk1.trans hk2⟩
    · cases s <;> simp [before, sideBefore, join]
    · cases s <;> simp [after, sideAfter, join]
  | black =>
    cases d' with
    | black => exact absurd ⟨rfl, rfl⟩ hred
    | red =>
      obtain ⟨X, w, Y, rfl, hX, hY⟩ := exists_node_of_red hf s
      obtain ⟨h1, hk1⟩ := raiseSibling_spec (S := S) h ht
      rw [if_neg (by decide)]
      refine ⟨_, h1, .black hn (hup (hX.join_black hY)), ?_, ?_, hk1⟩
      · cases s <;> simp [before, sideBefore, join]
      · cases s <;> simp [after, sideAfter, join]

/-- The cases of a black sibling. -/
theorem settle_settled {fuel : ℕ} (h : Lays m (plug t (⟨s, c, b, join s .black near v far⟩ :: fs))) (ht : t ≠ .nil)
    (hn : near.Balanced d k) (hf : far.Balanced d' k)
    (hacc : Accepts (⟨s, c, b, join s .black near v far⟩ :: fs) .black (k + 1))
    (ih : ∀ (m : RBTreeMap K V) (t : RBTree Ptr), c = .black → t ≠ .nil → Lays m (plug t fs) →
      Accepts fs .black (k + 1 + 1) → Settled m (maintainAfterRemove fuel m (address t)) t fs (k + 1)) :
    Settled m (settle fuel m (address t) (direction (⟨s, c, b, S⟩ :: fs))) t
      (⟨s, c, b, join s .black near v far⟩ :: fs) k := by
  have hb : m.parent (address t) = b := h.parent_eq ht
  have hv : m.getSibling (address t) = v := by simpa using h.getSibling_eq ht
  have hbc : m.color b = c := Lays.color_eq h
  have hS : Lays m (plug (join s .black near v far) (⟨s.other, c, b, t⟩ :: fs)) := by
    rwa [plug_sibling] at h
  have hfar : Lays m (plug far (⟨s.other, .black, v, near⟩ :: ⟨s.other, c, b, t⟩ :: fs)) := by
    rw [← plug_sibling]
    exact hS
  have hclose : m.isBlackOrNull (m.child s v) ↔ d = .black := by
    have hnear : Lays m (plug near (⟨s, .black, v, far⟩ :: ⟨s.other, c, b, t⟩ :: fs)) := hS
    rw [hS.child_eq]
    exact hnear.isBlackOrNull_iff hn
  have hdistant : m.isBlackOrNull (m.child s.other v) ↔ d' = .black := by
    rw [(linked_join.mp hS.tree).2.2.2.1]
    exact hfar.isBlackOrNull_iff hf
  unfold settle
  simp only [hv, hb, hbc, closeNephew_eq, distantNephew_eq, hclose, hdistant]
  split_ifs with hblack hc hd
  · -- case 3
    obtain ⟨rfl, rfl⟩ := hblack
    subst hc
    have h1 := setColor_lays .red _ hS
    rw [← plug_sibling] at h1
    have h2 : Lays ((m.setColor v .red).setColor b .black) (plug t (⟨s, .black, b, join s .red near v far⟩ :: fs)) :=
      setColor_lays .black fs h1
    cases hacc with
    | red _ hacc =>
      refine ⟨_, h2, .black (hn.join_red hf) hacc.to_black, ?_, ?_,
        (hS.keeps_setColor (.inl (by simp [mem_join])) _).trans (h1.keeps_setColor (.inr (by simp [mem_labels_cons])) _)⟩
      · cases s <;> simp [before, sideBefore, join]
      · cases s <;> simp [after, sideAfter, join]
  · -- case 2
    obtain ⟨rfl, rfl⟩ := hblack
    cases hacc with
    | red _ hacc => exact absurd rfl hc
    | black _ hacc =>
      have h1 := setColor_lays .red _ hS
      rw [← plug_sibling] at h1
      have hne : join s .black t b (join s .red near v far) ≠ .nil := by cases s <;> rintro ⟨⟩
      obtain ⟨fs', hl, ha, hbe, haf, hk⟩ := ih _ _ rfl hne h1 hacc
      rw [address_join] at hl hk
      refine ⟨⟨s, .black, b, join s .red near v far⟩ :: fs', hl, .black (hn.join_red hf) ha, ?_, ?_,
        (hS.keeps_setColor (.inl (by simp [mem_join])) _).trans hk⟩
      · cases s <;> simp [before, sideBefore, join, hbe]
      · cases s <;> simp [after, sideAfter, join, haf]
  · have hr := raise_settled (S := S) h ht hn hf hblack hacc
    rwa [if_neg (by simp [hd])] at hr
  · have hr := raise_settled (S := S) h ht hn hf hblack hacc
    have hd' : d = .red := by
      cases d
      · rfl
      · exact absurd rfl hd
    rwa [if_pos hd'] at hr

/-- The rebalancing before a black node is removed. -/
theorem maintainAfterRemove_spec {fuel : ℕ} (hfuel : fs.length < fuel) (h : Lays m (plug t fs)) (ht : t ≠ .nil)
    (hacc : Accepts fs .black (k + 1)) : Settled m (maintainAfterRemove fuel m (address t)) t fs k := by
  induction fuel generalizing m t fs k with
  | zero => omega
  | succ fuel ih =>
    rw [maintainAfterRemove_succ]
    cases fs with
    | nil =>
      rw [if_pos ((h.isRoot_iff ht).mpr rfl)]
      exact ⟨[], h, .root, rfl, rfl, .refl m⟩
    | cons f fs =>
      obtain ⟨s, c, b, S⟩ := f
      rw [if_neg (fun hr => nomatch (h.isRoot_iff ht).mp hr), h.getSibling_eq ht]
      have hrec : ∀ (m : RBTreeMap K V) (t : RBTree Ptr), c = .black → t ≠ .nil → Lays m (plug t fs) →
          Accepts fs .black (k + 1 + 1) → Settled m (maintainAfterRemove fuel m (address t)) t fs (k + 1) :=
        fun m t _ ht h hacc => ih (by simpa using hfuel) h ht hacc
      have hS : Lays m (plug S (⟨s.other, c, b, t⟩ :: fs)) := by rwa [plug_sibling] at h
      rw [h.getDirection_eq ht]
      have hblack : S.Balanced .black (k + 1) → Settled m (settle fuel (if m.color (address S) = .red then
          m.lowerParent (address t) (direction (⟨s, c, b, S⟩ :: fs)) else m) (address t)
            (direction (⟨s, c, b, S⟩ :: fs))) t (⟨s, c, b, S⟩ :: fs) k := by
        intro hs
        obtain ⟨near, v, far, e, e', rfl, hn, hf⟩ := exists_node_of_succ hs s
        rw [if_neg (by simp [hS.color_eq])]
        exact settle_settled h ht hn hf hacc hrec
      cases hacc with
      | red hs hacc => exact hblack hs
      | @black _ _ _ _ e _ _ hs hacc =>
        cases e with
        | black => exact hblack hs
        | red =>
          obtain ⟨near, v, far, rfl, hn, hf⟩ := exists_node_of_red hs s
          obtain ⟨h1, hk1⟩ := lowerParent_spec h ht
          obtain ⟨E, w, F, e, e', rfl, hE, hF⟩ := exists_node_of_succ hn s
          rw [h.getDirection_eq ht] at h1 hk1
          rw [if_pos (by simp [hS.color_eq])]
          have hacc' : Accepts (⟨s, .red, b, join s .black E w F⟩ :: ⟨s, .black, v, far⟩ :: fs) .black (k + 1) :=
            .red hn (.black hf hacc)
          obtain ⟨fs', hl, ha, hbe, haf, hk⟩ :=
            settle_settled (S := join s .red (join s .black E w F) v far) h1 ht hE hF hacc' nofun
          refine ⟨fs', hl, ha, hbe.trans ?_, haf.trans ?_, hk1.trans hk⟩
          · cases s <;> simp [before, sideBefore, join]
          · cases s <;> simp [after, sideAfter, join]

end Settle

section Unlink
/-- Another subtree in the hole, whose root the node above is relinked to. -/
theorem Lays.relink {u : RBTree Ptr} (h : Lays m (plug t fs)) (hu : Linked m' (above header fs) u)
    (hs : ∀ y ∈ labels fs, SameLinks (m.relink (direction fs) (above header fs) (address u)) m' y)
    (hr : m'.root = (m.relink (direction fs) (above header fs) (address u)).root)
    (hh : m'.parent header = (m.relink (direction fs) (above header fs) (address u)).parent header)
    (hn : u.toList.Nodup) (hsub : ∀ x ∈ u.toList, x ∈ t.toList) : Lays m' (plug u fs) := by
  obtain ⟨_, hf, hd⟩ := nodup_plug.mp h.nodup
  have hframes : Framed m' header (address u) fs := by
    cases fs with
    | nil => trivial
    | cons f fs =>
      have hne : ∀ y ∈ labels (f :: fs), y ≠ header := fun y hy => (h.ne_null (.inr hy)).2
      have hl : f.label ∈ labels (f :: fs) := mem_labels_cons.mpr (.inl rfl)
      obtain ⟨h1, h2⟩ := child_relink_direction (m := m) f fs (address u)
      refine h.frames.change hf ?_ ?_ (((hs _ hl).child _).trans h1) (((hs _ hl).child _).trans h2) fun y hy hyl => ?_
      · exact (hs _ hl).color.trans (color_relink ..)
      · exact (hs _ hl).parent.trans (parent_relink _ _ _ (hne _ hl))
      · refine ⟨(hs y hy).color.trans (color_relink ..), (hs y hy).parent.trans (parent_relink _ _ _ (hne y hy)), ?_⟩
        exact fun s => ((hs y hy).child s).trans (child_relink _ _ _ _ hyl)
  refine ⟨linked_plug.mpr ⟨hu, hframes⟩, ?_, ?_, nodup_plug.mpr ⟨hn, hf, fun x hx => hd x (hsub x hx)⟩, fun x hx => ?_⟩
  · rw [hr, root_relink, h.root_eq, address_plug]
    cases fs <;> rfl
  · rw [hh, parent_relink_header, h.headerParent, address_plug, address_plug]
    cases fs <;> rfl
  · exact h.valid x (mem_plug.mpr ((mem_plug.mp hx).imp_left (hsub x)))

/-- A leaf cut off its parent. -/
theorem cut_lays {p q : Ptr} {f : Frame Ptr} (h : Lays m (plug (.node c .nil p .nil) (f :: fs))) (hq : q = f.label) :
    Lays ((m.setParent p q).setChild f.side q null) (plug .nil (f :: fs)) := by
  subst hq
  have hp : m.parent p = f.label := h.parent_eq nofun
  have hrelink : m.relink (direction (f :: fs)) f.label null = m.setChild f.side f.label null := by
    obtain ⟨s, c, a, sibling⟩ := f
    cases s <;> rfl
  have hparent : ∀ x, (m.setParent p f.label).parent x = m.parent x := fun x => by
    rw [parent_setParent]
    split_ifs with hx
    · rw [hx, hp]
    · rfl
  refine h.relink trivial (fun y hy => ?_) ?_ ?_ (by simp) (by simp)
  · rw [above_cons, address, hrelink]
    exact ⟨by simp, by simp [hparent], fun s => by simp⟩
  · rw [above_cons, address, hrelink]
    simp
  · rw [above_cons, address, hrelink]
    simp [hparent]

/-- Case 2 of `remove`. -/
theorem unlinkLeaf_spec {stale : Ptr → Ptr → Ptr} {p : Ptr} (h : Lays m (plug (.node c .nil p .nil) fs))
    (hstale : ∀ q, stale p q = q) (hbal : (RBTree.node c .nil p .nil).Balanced d k) (hacc : Accepts fs d k)
    (hfs : before fs ++ after fs ≠ []) (hlen : fs.length < m.next) : ∃ fs', Lays (m.unlinkLeaf stale p) (plug .nil fs') ∧
      Accepts fs' .black 0 ∧ before fs' = before fs ∧ after fs' = after fs ∧ Keeps m (m.unlinkLeaf stale p) := by
  have hcut : ∀ {m : RBTreeMap K V} {fs : List (Frame Ptr)}, Lays m (plug (.node c .nil p .nil) fs) →
      before fs ++ after fs ≠ [] → ∀ m', m' = (if m.getDirection p = .left then
        (m.delete stale (m.left (m.parent p))).setLeft ((m.delete stale (m.left (m.parent p))).parent p) null
        else (m.delete stale (m.right (m.parent p))).setRight ((m.delete stale (m.right (m.parent p))).parent p) null) →
      Lays m' (plug .nil fs) ∧ Keeps m m' := by
    intro m fs h hfs m' hm'
    cases fs with
    | nil => exact absurd rfl hfs
    | cons f fs =>
      have hp : m.parent p = f.label := h.parent_eq (by rintro ⟨⟩)
      have hchild : m.child f.side f.label = p := h.frames.2.2.1
      have hne : f.label ≠ header := (h.ne_null (.inr (mem_labels_cons.mpr (.inl rfl)))).2
      have hm : m' = (m.setParent p f.label).setChild f.side f.label null := by
        rw [hm', show m.getDirection p = direction (f :: fs) from h.getDirection_eq (by rintro ⟨⟩), hp]
        obtain ⟨s, c, a, sibling⟩ := f
        cases s with
        | left => simp only [direction, if_true, delete, show m.left a = p from hchild, hp, hstale, parent_setParent, setChild]
        | right => simp [direction, delete, show m.right a = p from hchild, hp, hstale, setChild]
      rw [hm]
      exact ⟨cut_lays h rfl, (keeps_setParent _ _).trans (keeps_setChild _ _ hne)⟩
  have hcolor : m.color p = c := Lays.color_eq (s := .left) h
  unfold unlinkLeaf
  simp only [hcolor]
  cases hbal with
  | red hl _ =>
    cases hl
    obtain ⟨h1, hk1⟩ := hcut h hfs _ rfl
    exact ⟨fs, h1, hacc.to_black, rfl, rfl, hk1⟩
  | @black _ _ _ _ _ k hl _ =>
    cases hl
    obtain ⟨fs', h1, hacc', hb, ha, hk1⟩ := maintainAfterRemove_spec hlen h (by rintro ⟨⟩) hacc
    obtain ⟨h2, hk2⟩ := hcut h1 (by rwa [hb, ha]) _ rfl
    exact ⟨fs', h2, hacc', hb, ha, hk1.trans hk2⟩

/-- The only child of a node of a balanced tree is a red leaf, and the node is black. -/
theorem exists_leaf_of_only {p : Ptr} (ht : t ≠ .nil) (hbal : (join s c .nil p t).Balanced d k) :
    c = .black ∧ d = .black ∧ k = 1 ∧ ∃ x, t = .node .red .nil x .nil := by
  cases c with
  | red =>
    obtain ⟨_, hn, hb⟩ := hbal.of_red
    cases hn
    cases hb
    exact absurd rfl ht
  | black =>
    obtain ⟨rfl, k, _, e, rfl, hn, hb⟩ := hbal.of_black
    cases hn
    cases hb with
    | nil => exact absurd rfl ht
    | red hl hr =>
      cases hl
      cases hr
      exact ⟨rfl, rfl, rfl, _, rfl⟩

/-- Case 3 of `remove`: the only child takes the place of the node. -/
theorem replaceByChild_spec (stale : Ptr → Ptr → Ptr) {p x : Ptr}
    (h : Lays m (plug (join s .black .nil p (.node .red .nil x .nil)) fs)) :
    Lays (m.replaceByChild stale p) (plug (.node .black .nil x .nil) fs) ∧ Keeps m (m.replaceByChild stale p) := by
  obtain ⟨hc, hp, hs, ho, -, hx⟩ := linked_join.mp h.tree
  obtain ⟨hxc, hxp, hxl, hxr, -, -⟩ := hx
  have hmem : ∀ y, y ∈ (join s .black .nil p (.node .red .nil x .nil)).toList ↔ y = p ∨ y = x := fun y => by
    rw [mem_join]
    simp
  have hx0 := h.ne_null (.inl ((hmem x).mpr (.inr rfl)))
  have hp0 := h.ne_null (.inl ((hmem p).mpr (.inl rfl)))
  have hpx : p ≠ x := by simpa using (nodup_join.mp (nodup_plug.mp h.nodup).1).2.1
  have hd : m.getDirection p = direction fs := by simpa using h.getDirection_eq (by cases s <;> nofun)
  have hreplacement : (if m.left p ≠ null then m.left p else m.right p) = x := by
    cases s with
    | left =>
      rw [if_neg (not_not.mpr (show m.left p = null from hs))]
      exact ho
    | right =>
      have hl : m.left p = x := ho
      rw [hl, if_pos hx0.1]
  have heq : m.replaceByChild stale p = ((((m.relink (direction fs) (above header fs) x).setParent p
      (stale p (above header fs))).setParent x (above header fs)).setColor x .black) := by
    unfold replaceByChild
    simp only [hreplacement, hd, hp, hc, delete, parent_relink _ _ _ hx0.2, parent_relink _ _ _ hp0.2, hxp, if_true,
      color_setParent, color_relink, hxc]
  have hout : ∀ y ∈ labels fs, y ≠ p ∧ y ≠ x := fun y hy =>
    ⟨fun he => (nodup_plug.mp h.nodup).2.2 y ((hmem y).mpr (.inl he)) hy,
      fun he => (nodup_plug.mp h.nodup).2.2 y ((hmem y).mpr (.inr he)) hy⟩
  have hxq : x ≠ above header fs := h.ne_above ((hmem x).mpr (.inr rfl))
  rw [heq]
  refine ⟨h.relink ⟨by simp, by simp, ?_, ?_, trivial, trivial⟩ (fun y hy => ?_) ?_ ?_ (by simp) fun y hy => ?_, ?_⟩
  · have hl : (m.relink (direction fs) (above header fs) x).left x = m.left x := child_relink _ _ _ .left hxq
    simpa [hl] using hxl
  · have hr : (m.relink (direction fs) (above header fs) x).right x = m.right x := child_relink _ _ _ .right hxq
    simpa [hr] using hxr
  · obtain ⟨hyp, hyx⟩ := hout y hy
    exact ⟨by simp [hyx, address], by simp [hyp, hyx, address], fun s => by simp [address]⟩
  · simp [address]
  · simp [address, hp0.2.symm, hx0.2.symm]
  · rw [hmem]
    exact .inr (by simpa using hy)
  · exact (((keeps_relink _ h.header_notMem).trans (keeps_setParent _ _)).trans (keeps_setParent _ _)).trans
      (keeps_setColor hx0.2 _)

end Unlink

end Zpc.RBTreeMap
