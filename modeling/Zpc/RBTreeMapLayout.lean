import Zpc.RBTreeMap

/-!
# Trees laid out in the heap

What it means that the nodes of the heap form a tree, with the links from children to parents, at a hole and around
it; a rotation or a new color of the code is one of the tree.
-/
namespace Zpc.RBTreeMap
open RedBlackTree (Color Side RBTree)
open RedBlackTree.RBTree

variable {K V : Type*} {m m' : RBTreeMap K V} {t : RBTree Ptr} {fs : List (Frame Ptr)} {s : Side} {c : Color}
  {p q a x : Ptr}

/-- The pointer to the root of a subtree. -/
def address : RBTree Ptr → Ptr
  | .nil => null
  | .node _ _ a _ => a

@[simp] theorem address_join (s : Side) (c : Color) (near far : RBTree Ptr) (a : Ptr) :
    address (join s c near a far) = a := by
  cases s <;> rfl

def child (m : RBTreeMap K V) : Side → Ptr → Ptr
  | .left => m.left
  | .right => m.right

/-- The links and colors of a subtree below a node `q`. -/
def Linked (m : RBTreeMap K V) : Ptr → RBTree Ptr → Prop
  | _, .nil => True
  | q, .node c l a r => m.color a = c ∧ m.parent a = q ∧ m.left a = address l ∧ m.right a = address r ∧
      Linked m a l ∧ Linked m a r

theorem linked_join {near far : RBTree Ptr} : Linked m q (join s c near a far) ↔
    m.color a = c ∧ m.parent a = q ∧ m.child s a = address near ∧ m.child s.other a = address far ∧
      Linked m a near ∧ Linked m a far := by
  cases s
  · exact Iff.rfl
  · simp only [join, Linked, child, Side.other]
    tauto

def above (q : Ptr) : List (Frame Ptr) → Ptr
  | [] => q
  | f :: _ => f.label

@[simp] theorem above_nil (q : Ptr) : above q [] = q := rfl

@[simp] theorem above_cons (q : Ptr) (f : Frame Ptr) (fs : List (Frame Ptr)) : above q (f :: fs) = f.label := rfl

/-- The root of the tree around a hole that holds `p`. -/
def top (p : Ptr) : List (Frame Ptr) → Ptr
  | [] => p
  | f :: fs => top f.label fs

/-- The links and colors around a hole that holds `p`, below a node `q`. -/
def Framed (m : RBTreeMap K V) (q : Ptr) : Ptr → List (Frame Ptr) → Prop
  | _, [] => True
  | p, f :: fs => m.color f.label = f.color ∧ m.parent f.label = above q fs ∧ m.child f.side f.label = p ∧
      m.child f.side.other f.label = address f.sibling ∧ Linked m f.label f.sibling ∧ Framed m q f.label fs

theorem linked_plug : Linked m q (plug t fs) ↔ Linked m (above q fs) t ∧ Framed m q (address t) fs := by
  induction fs generalizing t with
  | nil => simp [plug, Framed, above]
  | cons f fs ih =>
    rw [plug, ih, linked_join, address_join]
    simp only [Framed, above]
    tauto

theorem address_plug : address (plug t fs) = top (address t) fs := by
  induction fs generalizing t with
  | nil => rfl
  | cons f fs ih => rw [plug, ih, address_join, top]

theorem top_mem (p : Ptr) (f : Frame Ptr) (fs : List (Frame Ptr)) : top p (f :: fs) ∈ labels (f :: fs) := by
  induction fs generalizing p f with
  | nil => exact mem_labels_cons.mpr (.inl rfl)
  | cons g fs ih => exact mem_labels_cons.mpr (.inr (.inr (ih f.label g)))

/-- The heap holds the tree. -/
structure Lays (m : RBTreeMap K V) (t : RBTree Ptr) : Prop where
  linked : Linked m header t
  root : m.root = address t
  headerParent : m.parent header = address t
  nodup : t.toList.Nodup
  valid : ∀ p ∈ t.toList, header < p

structure SameLinks (m m' : RBTreeMap K V) (p : Ptr) : Prop where
  color : m'.color p = m.color p
  parent : m'.parent p = m.parent p
  child : ∀ s, m'.child s p = m.child s p

theorem Linked.congr (h : Linked m q t) (hs : ∀ p ∈ t.toList, SameLinks m m' p) : Linked m' q t := by
  induction t generalizing q with
  | nil => trivial
  | node c l a r hl hr =>
    obtain ⟨hc, hp, hleft, hright, hll, hlr⟩ := h
    have ha := hs a (by simp)
    refine ⟨ha.color.trans hc, ha.parent.trans hp, (ha.child .left).trans hleft, (ha.child .right).trans hright,
      hl hll fun p hp => hs p (by simp [hp]), hr hlr fun p hp => hs p (by simp [hp])⟩

theorem Lays.congr (h : Lays m t) (hs : ∀ p ∈ t.toList, SameLinks m m' p) (hr : m'.root = m.root)
    (hp : m'.parent header = m.parent header) : Lays m' t :=
  ⟨h.linked.congr hs, hr.trans h.root, hp.trans h.headerParent, h.nodup, h.valid⟩

/-- A subtree under another node: only the parent of its root differs. -/
theorem Linked.move (h : Linked m p t) (hn : t.toList.Nodup)
    (hs : ∀ x ∈ t.toList, m'.color x = m.color x ∧ (∀ s, m'.child s x = m.child s x) ∧
      m'.parent x = if x = address t then q else m.parent x) : Linked m' q t := by
  cases t with
  | nil => trivial
  | node c l a r =>
    obtain ⟨hc, _, hleft, hright, hll, hlr⟩ := h
    obtain ⟨hl, hr, _⟩ := nodup_node.mp hn
    obtain ⟨ha, hac, hap⟩ := hs a (by simp)
    have hsame : ∀ x, x ∈ l.toList ∨ x ∈ r.toList → SameLinks m m' x := fun x hx => by
      have hne : x ≠ a := by
        rintro rfl
        exact hx.elim hl hr
      obtain ⟨hxc, hxs, hxp⟩ := hs x (by simp only [toList, List.mem_append, List.mem_cons]; tauto)
      exact ⟨hxc, by rwa [address, if_neg hne] at hxp, hxs⟩
    refine ⟨ha.trans hc, by simpa [address] using hap, (hac .left).trans hleft, (hac .right).trans hright,
      hll.congr fun x hx => hsame x (.inl hx), hlr.congr fun x hx => hsame x (.inr hx)⟩

theorem Framed.congr (h : Framed m q p fs) (hs : ∀ x ∈ labels fs, SameLinks m m' x) : Framed m' q p fs := by
  induction fs generalizing p with
  | nil => trivial
  | cons f fs ih =>
    obtain ⟨hc, hp, hn, hf, hl, hfs⟩ := h
    have ha := hs f.label (mem_labels_cons.mpr (.inl rfl))
    exact ⟨ha.color.trans hc, ha.parent.trans hp, (ha.child _).trans hn, (ha.child _).trans hf,
      hl.congr fun x hx => hs x (mem_labels_cons.mpr (.inr (.inl hx))),
      ih hfs fun x hx => hs x (mem_labels_cons.mpr (.inr (.inr hx)))⟩

/-- Another node in the hole. -/
theorem Framed.change {f : Frame Ptr} (h : Framed m q p (f :: fs)) (hn : (labels (f :: fs)).Nodup)
    (hc : m'.color f.label = m.color f.label) (hp : m'.parent f.label = m.parent f.label)
    (hs : m'.child f.side f.label = x) (ho : m'.child f.side.other f.label = m.child f.side.other f.label)
    (hr : ∀ y ∈ labels (f :: fs), y ≠ f.label → SameLinks m m' y) : Framed m' q x (f :: fs) := by
  obtain ⟨hfc, hfp, _, hfo, hfl, hfs⟩ := h
  obtain ⟨hsib, hfr, _⟩ := nodup_labels_cons.mp hn
  refine ⟨hc.trans hfc, hp.trans hfp, hs, ho.trans hfo, hfl.congr fun y hy => ?_, hfs.congr fun y hy => ?_⟩
  · exact hr y (mem_labels_cons.mpr (.inr (.inl hy))) fun h => hsib (h ▸ hy)
  · exact hr y (mem_labels_cons.mpr (.inr (.inr hy))) fun h => hfr (h ▸ hy)

section Lookup
variable {f : Frame Ptr}

theorem Lays.whole (h : Lays m t) : Lays m (plug t []) := h

theorem Lays.tree (h : Lays m (plug t fs)) : Linked m (above header fs) t := (linked_plug.mp h.linked).1

theorem Lays.frames (h : Lays m (plug t fs)) : Framed m header (address t) fs := (linked_plug.mp h.linked).2

theorem Lays.root_eq (h : Lays m (plug t fs)) : m.root = top (address t) fs := h.root.trans address_plug

theorem address_mem (ht : t ≠ .nil) : address t ∈ t.toList := by
  cases t with
  | nil => exact absurd rfl ht
  | node c l a r => simp [address]

theorem Lays.isRoot_iff (h : Lays m (plug t fs)) (ht : t ≠ .nil) : m.isRoot (address t) ↔ fs = [] := by
  rw [isRoot, h.root_eq]
  cases fs with
  | nil => simp [top]
  | cons f fs =>
    have hd := (nodup_plug.mp h.nodup).2.2 _ (address_mem ht)
    exact ⟨fun he => absurd (he ▸ top_mem _ f fs) hd, nofun⟩

theorem Lays.parent_eq (h : Lays m (plug t fs)) (ht : t ≠ .nil) : m.parent (address t) = above header fs := by
  cases t with
  | nil => exact absurd rfl ht
  | node c l a r => exact h.tree.2.1

theorem Lays.ne_null (h : Lays m (plug t fs)) (hx : x ∈ t.toList ∨ x ∈ labels fs) : x ≠ null ∧ x ≠ header := by
  have hv := h.valid x (mem_plug.mpr hx)
  exact ⟨Nat.ne_of_gt (Nat.zero_lt_of_lt hv), Nat.ne_of_gt hv⟩

theorem Lays.address_eq_null (h : Lays m (plug t fs)) : address t = null ↔ t = .nil := by
  constructor
  · intro hn
    by_contra ht
    exact (h.ne_null (.inl (address_mem ht))).1 hn
  · rintro rfl
    rfl

/-- The direction of a node in the source's words. -/
def direction : List (Frame Ptr) → Direction
  | [] => .root
  | f :: _ => match f.side with
    | .left => .left
    | .right => .right

theorem Lays.getDirection_eq (h : Lays m (plug t fs)) (ht : t ≠ .nil) : m.getDirection (address t) = direction fs := by
  unfold getDirection
  cases fs with
  | nil => rw [if_neg (not_not.mpr ((h.isRoot_iff ht).mpr rfl)), direction]
  | cons f fs =>
    have hr : ¬ m.isRoot (address t) := fun hr => nomatch (h.isRoot_iff ht).mp hr
    rw [if_pos hr, h.parent_eq ht, above]
    obtain ⟨s, c, b, sibling⟩ := f
    obtain ⟨_, _, hnear, hfar, _⟩ := h.frames
    cases s with
    | left => exact if_pos (show address t = m.left b from hnear.symm)
    | right =>
      -- the node is not the sibling, which holds other labels
      have hne : address t ≠ m.left b := fun he => by
        rw [show m.left b = address sibling from hfar] at he
        have hs : sibling ≠ .nil := by
          rintro rfl
          exact (h.ne_null (.inl (address_mem ht))).1 he
        exact (nodup_plug.mp h.nodup).2.2 _ (address_mem ht)
          (mem_labels_cons.mpr (.inr (.inl (he ▸ address_mem hs))))
      exact if_neg hne

theorem Lays.getSibling_eq (h : Lays m (plug t (f :: fs))) (ht : t ≠ .nil) :
    m.getSibling (address t) = address f.sibling := by
  rw [getSibling, h.getDirection_eq ht, h.parent_eq ht, above]
  obtain ⟨s, c, b, sibling⟩ := f
  obtain ⟨_, _, _, hfar, _⟩ := h.frames
  cases s with
  | left => exact hfar
  | right => exact hfar

theorem Lays.color_eq {near far : RBTree Ptr} (h : Lays m (plug (join s c near a far) fs)) : m.color a = c :=
  (linked_join.mp h.tree).1

theorem Lays.child_eq {near far : RBTree Ptr} (h : Lays m (plug (join s c near a far) fs)) :
    m.child s a = address near := (linked_join.mp h.tree).2.2.1

theorem Lays.left_eq {l r : RBTree Ptr} {a : Ptr} (h : Lays m (plug (.node c l a r) fs)) : m.left a = address l :=
  (linked_join (s := .left).mp h.tree).2.2.1

theorem Lays.right_eq {l r : RBTree Ptr} {a : Ptr} (h : Lays m (plug (.node c l a r) fs)) : m.right a = address r :=
  (linked_join (s := .right).mp h.tree).2.2.1

/-- The color read through the pointer to a balanced subtree. -/
theorem Lays.isBlackOrNull_iff {n : ℕ} (h : Lays m (plug t fs)) (ht : t.Balanced c n) :
    m.isBlackOrNull (address t) ↔ c = .black := by
  cases ht with
  | nil => simp [isBlackOrNull, address]
  | @red l r a n hl hr =>
    have hc : m.color a = .red := h.tree.1
    have h0 := (h.ne_null (x := a) (.inl (by simp))).1
    simp [isBlackOrNull, address, hc, h0]
  | @black l r a d d' n hl hr =>
    have hc : m.color a = .black := h.tree.1
    simp [isBlackOrNull, address, hc]

end Lookup

section Fields
@[simp] theorem child_setColor (p : Ptr) (c : Color) (s : Side) (x : Ptr) :
    (m.setColor p c).child s x = m.child s x := by
  cases s <;> simp [child]

@[simp] theorem child_setParent (p q : Ptr) (s : Side) (x : Ptr) : (m.setParent p q).child s x = m.child s x := by
  cases s <;> simp [child]

@[simp] theorem child_setSecond (p : Ptr) (v : V) (s : Side) (x : Ptr) : (m.setSecond p v).child s x = m.child s x := by
  cases s <;> simp [child]

def setChild (m : RBTreeMap K V) (s : Side) (p q : Ptr) : RBTreeMap K V :=
  match s with
  | .left => m.setLeft p q
  | .right => m.setRight p q

@[simp] theorem child_setChild (s s' : Side) (p q x : Ptr) :
    (m.setChild s p q).child s' x = if s' = s ∧ x = p then q else m.child s' x := by
  cases s <;> cases s' <;> simp [child, setChild]

@[simp] theorem color_setChild (s : Side) (p q x : Ptr) : (m.setChild s p q).color x = m.color x := by
  cases s <;> simp [setChild]

@[simp] theorem parent_setChild (s : Side) (p q x : Ptr) : (m.setChild s p q).parent x = m.parent x := by
  cases s <;> simp [setChild]

@[simp] theorem root_setChild (s : Side) (p q : Ptr) : (m.setChild s p q).root = m.root := by
  cases s <;> simp [setChild]

@[simp] theorem color_maintainRelationship (p x : Ptr) : (m.maintainRelationship p).color x = m.color x := by
  unfold maintainRelationship maintainRight maintainLeft
  split_ifs <;> simp

@[simp] theorem child_maintainRelationship (p : Ptr) (s : Side) (x : Ptr) :
    (m.maintainRelationship p).child s x = m.child s x := by
  unfold maintainRelationship maintainRight maintainLeft
  split_ifs <;> simp

@[simp] theorem root_maintainRelationship (p : Ptr) : (m.maintainRelationship p).root = m.root := by
  unfold maintainRelationship maintainRight maintainLeft
  split_ifs <;> simp

theorem parent_maintainRelationship (s : Side) (p : Ptr) (hx : x ≠ null) : (m.maintainRelationship p).parent x =
    if x = m.child s p ∨ x = m.child s.other p then p else m.parent x := by
  unfold maintainRelationship maintainRight maintainLeft
  cases s <;> simp only [child, Side.other] <;> split_ifs <;> simp_all <;> grind

@[simp] theorem color_relink (d : Direction) (p q x : Ptr) : (m.relink d p q).color x = m.color x := by
  cases d <;> simp [relink]

theorem parent_relink (d : Direction) (p q : Ptr) (hx : x ≠ header) : (m.relink d p q).parent x = m.parent x := by
  cases d <;> simp [relink, hx]

theorem child_relink (d : Direction) (p q : Ptr) (s : Side) (hx : x ≠ p) : (m.relink d p q).child s x = m.child s x := by
  cases d <;> cases s <;> simp [relink, child, hx]

theorem child_relink_congr (d : Direction) (p q : Ptr) (s : Side) (h : ∀ s, m'.child s x = m.child s x) :
    (m'.relink d p q).child s x = (m.relink d p q).child s x := by
  have hl : m'.left x = m.left x := h .left
  have hr : m'.right x = m.right x := h .right
  cases d <;> cases s <;> simp [relink, child, hl, hr]

theorem child_relink_direction (f : Frame Ptr) (fs : List (Frame Ptr)) (q : Ptr) :
    (m.relink (direction (f :: fs)) f.label q).child f.side f.label = q ∧
      (m.relink (direction (f :: fs)) f.label q).child f.side.other f.label = m.child f.side.other f.label := by
  obtain ⟨s, c, b, sibling⟩ := f
  cases s <;> simp [relink, direction, child, Side.other]

theorem root_relink (q q' : Ptr) : (m.relink (direction fs) q q').root = if fs = [] then q' else m.root := by
  cases fs with
  | nil => rfl
  | cons f fs =>
    obtain ⟨s, c, b, sibling⟩ := f
    cases s <;> rfl

theorem parent_relink_header (q q' : Ptr) :
    (m.relink (direction fs) q q').parent header = if fs = [] then q' else m.parent header := by
  cases fs with
  | nil => simp [relink, direction]
  | cons f fs =>
    obtain ⟨s, c, b, sibling⟩ := f
    cases s <;> simp [relink, direction]

end Fields

section Rotate
def rotate (m : RBTreeMap K V) : Side → Ptr → RBTreeMap K V
  | .left => m.rotateLeft
  | .right => m.rotateRight

theorem rotate_eq (s : Side) (p : Ptr) : m.rotate s p =
    (((((m.setChild s.other p (m.child s (m.child s.other p))).setChild s (m.child s.other p) p).maintainRelationship
      p).maintainRelationship (m.child s.other p)).relink (m.getDirection p) (m.parent p)
        (m.child s.other p)).setParent (m.child s.other p) (m.parent p) := by
  cases s <;> rfl

variable {k : Ptr}

theorem rotate_color : (m.rotate s p).color x = m.color x := by
  simp [rotate_eq]

theorem rotate_child (hk : m.child s.other p = k) (hp : p ≠ k) (hx : x ≠ m.parent p) (s' : Side) :
    (m.rotate s p).child s' x =
      if x = k ∧ s' = s then p else if x = p ∧ s' = s.other then m.child s k else m.child s' x := by
  rw [rotate_eq, hk, child_setParent, child_relink _ _ _ _ hx]
  simp only [child_maintainRelationship, child_setChild]
  by_cases h : x = k
  · subst h
    by_cases hs : s' = s <;> simp [hs, hp.symm]
  · simp [h, and_comm]

theorem rotate_parent (hk : m.child s.other p = k) (hp : p ≠ k) (hx : x ≠ null) (hh : x ≠ header) :
    (m.rotate s p).parent x = if x = k then m.parent p else if x = p ∨ x = m.child s.other k then k
      else if x = m.child s p ∨ x = m.child s k then p else m.parent x := by
  have hne : s ≠ s.other := s.other_ne.symm
  rw [rotate_eq, hk, parent_setParent, parent_relink _ _ _ hh, parent_maintainRelationship s _ hx,
    parent_maintainRelationship s _ hx]
  simp only [child_maintainRelationship, child_setChild, hp, hp.symm, hne, hne.symm, and_true, and_self,
    and_false, if_true, if_false, parent_setChild]

variable {A B E : RBTree Ptr} {n : Ptr} {c' : Color}

theorem toList_rotate (s : Side) (c c' : Color) (A B E : RBTree Ptr) (n k : Ptr) :
    (join s c' (join s c A n B) k E).toList = (join s c A n (join s c' B k E)).toList := by
  cases s <;> simp [join]

theorem mem_of_address (hx : x ≠ null) (h : x = address t) : x ∈ t.toList := by
  cases t with
  | nil => exact absurd h hx
  | node c l a r => simp [h, address]

theorem ne_address (hx : x ≠ null) (h : x ∉ t.toList) : x ≠ address t := fun ha => h (mem_of_address hx ha)

theorem Lays.ne_above (h : Lays m (plug t fs)) (hx : x ∈ t.toList) : x ≠ above header fs := by
  cases fs with
  | nil => exact (h.ne_null (.inl hx)).2
  | cons f fs =>
    rintro rfl
    exact (nodup_plug.mp h.nodup).2.2 _ hx (mem_labels_cons.mpr (.inl rfl))

theorem rotate_root (hk : m.child s.other p = k) (hd : m.getDirection p = direction fs) :
    (m.rotate s p).root = if fs = [] then k else m.root := by
  rw [rotate_eq, hk, root_setParent, hd, root_relink]
  simp

theorem rotate_headerParent (hk : m.child s.other p = k) (hd : m.getDirection p = direction fs) (hp : p ≠ k)
    (hout : header ≠ p ∧ header ≠ k ∧ header ≠ m.child s.other k ∧ header ≠ m.child s p ∧ header ≠ m.child s k) :
    (m.rotate s p).parent header = if fs = [] then k else m.parent header := by
  obtain ⟨h1, h2, h3, h4, h5⟩ := hout
  have h0 : header ≠ null := by decide
  have hne : s ≠ s.other := s.other_ne.symm
  rw [rotate_eq, hk, parent_setParent, if_neg h2, hd, parent_relink_header, parent_maintainRelationship s _ h0,
    parent_maintainRelationship s _ h0]
  simp [h1, h3, h4, h5, hp, hp.symm, hne, hne.symm]

/-- The frames around a rotated subtree. -/
theorem Framed.rotate (h : Framed m header n fs) (hk : m.child s.other n = k) (hnk : n ≠ k) (hf : (labels fs).Nodup)
    (hd : m.getDirection n = direction fs) (hp : m.parent n = above header fs)
    (hout : ∀ x ∈ labels fs, x ≠ null ∧ x ≠ header ∧ x ≠ n ∧ x ≠ k ∧ x ≠ m.child s.other k ∧ x ≠ m.child s n ∧
      x ≠ m.child s k) : Framed (m.rotate s n) header k fs := by
  cases fs with
  | nil => trivial
  | cons f fs =>
    have hparent : ∀ x ∈ labels (f :: fs), (m.rotate s n).parent x = m.parent x := fun x hx => by
      obtain ⟨h0, hh, h1, h2, h3, h4, h5⟩ := hout x hx
      rw [rotate_parent hk hnk h0 hh]
      simp [h1, h2, h3, h4, h5]
    have hx := hout f.label (mem_labels_cons.mpr (.inl rfl))
    have hfirst : ∀ s', (m.rotate s n).child s' f.label =
        (m.relink (direction (f :: fs)) f.label k).child s' f.label := fun s' => by
      rw [rotate_eq, hk, hd, hp, child_setParent, above]
      exact child_relink_congr _ _ _ _ fun s'' => by simp [hx.2.2.1, hx.2.2.2.1]
    refine h.change hf rotate_color (hparent _ (mem_labels_cons.mpr (.inl rfl))) ?_ ?_ fun y hy hne => ?_
    · rw [hfirst, (child_relink_direction f fs k).1]
    · rw [hfirst, (child_relink_direction f fs k).2]
    · obtain ⟨h0, hh, h1, h2, _⟩ := hout y hy
      refine ⟨rotate_color, hparent y hy, fun s' => ?_⟩
      rw [rotate_child hk hnk (by rwa [hp])]
      simp [h1, h2]

theorem rotate_lays (h : Lays m (plug (join s c A n (join s c' B k E)) fs)) :
    Lays (m.rotate s n) (plug (join s c' (join s c A n B) k E) fs) := by
  have hne : join s c A n (join s c' B k E) ≠ .nil := by cases s <;> nofun
  obtain ⟨hcn, hpn, hsn, hon, hA, hK⟩ := linked_join.mp h.tree
  rw [address_join] at hon
  obtain ⟨hck, hpk, hsk, hok, hB, hE⟩ := linked_join.mp hK
  obtain ⟨ht, hf, hd⟩ := nodup_plug.mp h.nodup
  obtain ⟨hnA, hnK, hAn, hKn, hAK⟩ := nodup_join.mp ht
  obtain ⟨hkB, hkE, hBn, hEn, hBE⟩ := nodup_join.mp hKn
  simp only [mem_join, not_or] at hnK hAK
  have hnk : n ≠ k := hnK.1
  have hdir := h.getDirection_eq hne
  have hpar := h.parent_eq hne
  rw [address_join] at hdir hpar
  -- the new fields of the nodes of the subtree
  have htree : ∀ x, x ∈ (join s c A n (join s c' B k E)).toList → x ≠ null ∧
      (∀ s', (m.rotate s n).child s' x =
        if x = k ∧ s' = s then n else if x = n ∧ s' = s.other then address B else m.child s' x) ∧
      (m.rotate s n).parent x = if x = k then above header fs else if x = n ∨ x = address E then k
        else if x = address A ∨ x = address B then n else m.parent x := by
    intro x hx
    obtain ⟨h0, hh⟩ := h.ne_null (.inl hx)
    refine ⟨h0, fun s' => ?_, ?_⟩
    · rw [rotate_child hon hnk (hpar ▸ h.ne_above hx), hsk]
    · rw [rotate_parent hon hnk h0 hh, hpar, hok, hsn, hsk]
  have hmem : ∀ x, x ∈ (join s c A n (join s c' B k E)).toList ↔
      x = n ∨ x ∈ A.toList ∨ x = k ∨ x ∈ B.toList ∨ x ∈ E.toList := fun x => by simp only [mem_join]
  have hframes : Framed (m.rotate s n) header k fs := by
    refine Framed.rotate (by simpa using h.frames) hon hnk hf hdir hpar fun x hx => ?_
    obtain ⟨h0, hh⟩ := h.ne_null (.inr hx)
    have hx' : x ∉ (join s c A n (join s c' B k E)).toList := fun ht => hd x ht hx
    rw [hmem, not_or, not_or, not_or, not_or] at hx'
    obtain ⟨h1, h2, h3, h4, h5⟩ := hx'
    rw [hok, hsn, hsk]
    exact ⟨h0, hh, h1, h3, ne_address h0 h5, ne_address h0 h2, ne_address h0 h4⟩
  have hlinked : Linked (m.rotate s n) (above header fs) (join s c' (join s c A n B) k E) := by
    obtain ⟨hk0, hkc, hkp⟩ := htree k ((hmem k).mpr (.inr (.inr (.inl rfl))))
    obtain ⟨hn0, hnc, hnp⟩ := htree n ((hmem n).mpr (.inl rfl))
    refine linked_join.mpr ⟨rotate_color.trans hck, by simpa using hkp, by simpa using hkc s, ?_,
      linked_join.mpr ⟨rotate_color.trans hcn, ?_, ?_, ?_, ?_, ?_⟩, ?_⟩
    · rw [hkc, if_neg (by simp), if_neg (by simp [hnk.symm]), hok]
    · rw [hnp, if_neg hnk, if_pos (.inl rfl)]
    · rw [hnc, if_neg (by simp [hnk]), if_neg (by simp [s.other_ne.symm]), hsn]
    · rw [hnc, if_neg (by simp [hnk]), if_pos ⟨rfl, rfl⟩]
    · refine hA.move hAn fun x hx => ?_
      obtain ⟨h0, hxc, hxp⟩ := htree x ((hmem x).mpr (.inr (.inl hx)))
      obtain ⟨hxk, hxB, hxE⟩ := hAK x hx
      have hxn : x ≠ n := fun he => hnA (he ▸ hx)
      refine ⟨rotate_color, fun s' => by simp [hxc, hxk, hxn], ?_⟩
      simp [hxp, hxk, hxn, ne_address h0 hxE, ne_address h0 hxB]
    · refine hB.move hBn fun x hx => ?_
      obtain ⟨h0, hxc, hxp⟩ := htree x ((hmem x).mpr (.inr (.inr (.inr (.inl hx)))))
      have hxk : x ≠ k := fun he => hkB (he ▸ hx)
      have hxn : x ≠ n := fun he => hnK.2.1 (he ▸ hx)
      have hxA : x ∉ A.toList := fun ha => (hAK x ha).2.1 hx
      refine ⟨rotate_color, fun s' => by simp [hxc, hxk, hxn], ?_⟩
      simp [hxp, hxk, hxn, ne_address h0 (hBE x hx), ne_address h0 hxA]
    · refine hE.move hEn fun x hx => ?_
      obtain ⟨h0, hxc, hxp⟩ := htree x ((hmem x).mpr (.inr (.inr (.inr (.inr hx)))))
      have hxk : x ≠ k := fun he => hkE (he ▸ hx)
      have hxn : x ≠ n := fun he => hnK.2.2 (he ▸ hx)
      have hxA : x ∉ A.toList := fun ha => (hAK x ha).2.2 hx
      have hxB : x ∉ B.toList := fun hb => hBE x hb hx
      refine ⟨rotate_color, fun s' => by simp [hxc, hxk, hxn], ?_⟩
      simp [hxp, hxk, hxn, ne_address h0 hxA, ne_address h0 hxB]
  have hlist : (plug (join s c' (join s c A n B) k E) fs).toList = (plug (join s c A n (join s c' B k E)) fs).toList := by
    rw [toList_plug, toList_plug, toList_rotate]
  refine ⟨linked_plug.mpr ⟨hlinked, by simpa using hframes⟩, ?_, ?_, hlist ▸ h.nodup, hlist ▸ h.valid⟩
  · rw [rotate_root hon hdir, h.root_eq, address_plug, address_join, address_join]
    cases fs <;> rfl
  · have hheader : ∀ t : RBTree Ptr, (∀ x ∈ t.toList, x ∈ (join s c A n (join s c' B k E)).toList) → header ≠ address t :=
      fun t ht => ne_address (by decide) fun hx => (h.ne_null (.inl (ht _ hx))).2 rfl
    rw [rotate_headerParent hon hdir hnk, h.headerParent, address_plug, address_plug, address_join, address_join]
    · cases fs <;> rfl
    · rw [hok, hsn, hsk]
      refine ⟨?_, ?_, hheader E ?_, hheader A ?_, hheader B ?_⟩
      · exact ((h.ne_null (.inl ((hmem n).mpr (.inl rfl)))).2).symm
      · exact ((h.ne_null (.inl ((hmem k).mpr (.inr (.inr (.inl rfl)))))).2).symm
      all_goals exact fun x hx => (hmem x).mpr (by tauto)

end Rotate

/-- What the rebalancing leaves alone: keys, values, the counts, the ends that the header points to, and its color. -/
structure Keeps (m m' : RBTreeMap K V) : Prop where
  first : m'.first = m.first
  second : m'.second = m.second
  cnt : m'.cnt = m.cnt
  next : m'.next = m.next
  ends : ∀ s, m'.child s header = m.child s header
  headerColor : m'.color header = m.color header

theorem Keeps.refl (m : RBTreeMap K V) : Keeps m m := ⟨rfl, rfl, rfl, rfl, fun _ => rfl, rfl⟩

theorem Keeps.trans {m'' : RBTreeMap K V} (h : Keeps m m') (h' : Keeps m' m'') : Keeps m m'' :=
  ⟨h'.first.trans h.first, h'.second.trans h.second, h'.cnt.trans h.cnt, h'.next.trans h.next,
    fun s => (h'.ends s).trans (h.ends s), h'.headerColor.trans h.headerColor⟩

theorem keeps_setColor (hp : p ≠ header) (c : Color) : Keeps m (m.setColor p c) :=
  ⟨by simp, by simp, rfl, rfl, fun s => by simp, by simp [hp.symm]⟩

theorem Lays.keeps_setColor (h : Lays m (plug t fs)) (hp : p ∈ t.toList ∨ p ∈ labels fs) (c : Color) :
    Keeps m (m.setColor p c) := RBTreeMap.keeps_setColor (h.ne_null hp).2 c

theorem keeps_setParent (p q : Ptr) : Keeps m (m.setParent p q) :=
  ⟨by simp, by simp, rfl, rfl, fun s => by simp, by simp⟩

theorem keeps_setChild (s : Side) (q : Ptr) (hp : p ≠ header) : Keeps m (m.setChild s p q) := by
  cases s <;> exact ⟨by simp [setChild], by simp [setChild], rfl, rfl, fun s => by simp [hp.symm], by simp [setChild]⟩

theorem keeps_maintainRelationship (p : Ptr) : Keeps m (m.maintainRelationship p) := by
  unfold maintainRelationship maintainRight maintainLeft
  split_ifs
  · exact (keeps_setParent _ _).trans (keeps_setParent _ _)
  · exact keeps_setParent _ _
  · exact keeps_setParent _ _
  · exact .refl m

theorem keeps_relink (q : Ptr) (hh : header ∉ labels fs) : Keeps m (m.relink (direction fs) (above header fs) q) := by
  cases fs with
  | nil => exact ⟨by simp [relink, direction], by simp [relink, direction], rfl, rfl,
      fun s => by cases s <;> simp [relink, direction, child], by simp [relink, direction]⟩
  | cons f fs =>
    obtain ⟨s, c, b, sibling⟩ := f
    have hb : b ≠ header := fun h => hh (mem_labels_cons.mpr (.inl h.symm))
    cases s
    · exact keeps_setChild .left q hb
    · exact keeps_setChild .right q hb

theorem Lays.header_notMem (h : Lays m (plug t fs)) : header ∉ labels fs := fun hx => (h.ne_null (.inr hx)).2 rfl

theorem keeps_rotate {A B : RBTree Ptr} {n k : Ptr}
    (h : Lays m (plug (join s c A n B) fs)) (hk : m.child s.other n = k) (hB : k = address B) (hne : B ≠ .nil) :
    Keeps m (m.rotate s n) := by
  have ht : join s c A n B ≠ .nil := by cases s <;> nofun
  have hdir := h.getDirection_eq ht
  have hpar := h.parent_eq ht
  rw [address_join] at hdir hpar
  have hn : n ≠ header := (h.ne_null (.inl (mem_join.mpr (.inl rfl)))).2
  have hkh : k ≠ header := (h.ne_null (.inl (mem_join.mpr (.inr (.inr (hB ▸ address_mem hne)))))).2
  rw [rotate_eq, hdir, hpar, hk]
  refine (((((keeps_setChild _ _ hn).trans (keeps_setChild _ _ hkh)).trans (keeps_maintainRelationship _)).trans
    (keeps_maintainRelationship _)).trans (keeps_relink _ h.header_notMem)).trans (keeps_setParent _ _)

/-- A node painted. -/
theorem setColor_lays {A B : RBTree Ptr} (c' : Color) (fs : List (Frame Ptr)) (h : Lays m (plug (join s c A a B) fs)) :
    Lays (m.setColor a c') (plug (join s c' A a B) fs) := by
  obtain ⟨ht, hf, hd⟩ := nodup_plug.mp h.nodup
  obtain ⟨hA, hB, _⟩ := nodup_join.mp ht
  obtain ⟨_, hp, hs, ho, hlA, hlB⟩ := linked_join.mp h.tree
  have hsame : ∀ x, x ≠ a → SameLinks m (m.setColor a c') x := fun x hx =>
    ⟨by simp [hx], by simp, fun s => by simp⟩
  have hlist : (plug (join s c' A a B) fs).toList = (plug (join s c A a B) fs).toList := by
    rw [toList_plug, toList_plug, toList_join, toList_join]
  have hframes := h.frames
  rw [address_join] at hframes
  refine ⟨linked_plug.mpr ⟨linked_join.mpr ⟨by simp, by simpa using hp, by simpa using hs, by simpa using ho,
    hlA.congr fun x hx => hsame x fun he => hA (he ▸ hx), hlB.congr fun x hx => hsame x fun he => hB (he ▸ hx)⟩, ?_⟩,
    ?_, ?_, hlist ▸ h.nodup, hlist ▸ h.valid⟩
  · rw [address_join]
    exact hframes.congr fun x hx => hsame x fun he => hd a (mem_join.mpr (.inl rfl)) (he ▸ hx)
  · simpa [address_plug] using h.root
  · simpa [address_plug] using h.headerParent

/-- The map holds a red-black search tree: the links, the balance, the order of the keys, the count, and the ends that
the header points to. -/
structure Represents [LinearOrder K] (m : RBTreeMap K V) (t : RBTree Ptr) : Prop where
  lays : Lays m t
  balanced : ∃ n, t.Balanced .black n
  sorted : t.toList.Pairwise fun p q => m.first p < m.first q
  count : m.cnt = t.toList.length
  first : m.left header = t.toList.headD header
  last : m.right header = t.toList.getLastD header
  bound : ∀ p ∈ t.toList, p < m.next
  next : header < m.next

end Zpc.RBTreeMap
