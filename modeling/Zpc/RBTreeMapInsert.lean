import Zpc.RBTreeMapLayout

/-!
# Insertion into the red-black tree map

`maintainAfterInsert` makes a balanced tree of one with a red node too many, and the descent of `insert` and
`operator[]` ends at the node of the key or at the place of a new one.
-/
namespace Zpc.RBTreeMap
open RedBlackTree (Color Side RBTree)
open RedBlackTree.RBTree

variable {K V : Type*} {m m' : RBTreeMap K V} {t u sibling : RBTree Ptr} {fs : List (Frame Ptr)} {s s' : Side}
  {c c' : Color} {a b g : Ptr} {k : ℕ}

theorem rotate_spec {A B E : RBTree Ptr} {n p : Ptr} (h : Lays m (plug (join s c A n (join s c' B p E)) fs)) :
    Lays (m.rotate s n) (plug (join s c' (join s c A n B) p E) fs) ∧ Keeps m (m.rotate s n) := by
  have hk : m.child s.other n = p := by simpa using (linked_join.mp h.tree).2.2.2.1
  exact ⟨rotate_lays h, keeps_rotate h hk (by simp) (by cases s <;> nofun)⟩

/-- A rotation, and new colours for the node that it raises and the one that it lowers. -/
theorem rotate_colors_spec {A B E : RBTree Ptr} {n p : Ptr} (h : Lays m (plug (join s c A n (join s c' B p E)) fs))
    (d d' : Color) : Lays (((m.rotate s n).setColor p d).setColor n d') (plug (join s d (join s d' A n B) p E) fs) ∧
      Keeps m (((m.rotate s n).setColor p d).setColor n d') := by
  obtain ⟨h1, hk1⟩ := rotate_spec h
  have h2 := setColor_lays d fs h1
  have h3 : Lays ((m.rotate s n).setColor p d) (plug (join s c A n B) (⟨s, d, p, E⟩ :: fs)) := h2
  exact ⟨setColor_lays d' (⟨s, d, p, E⟩ :: fs) h3, (hk1.trans (h1.keeps_setColor (.inl (by simp [mem_join])) _)).trans
    (h2.keeps_setColor (.inl (by simp [mem_join])) _)⟩

theorem exists_node_of_red (h : t.Balanced .red k) (s : Side) : ∃ near a far, t = join s .red near a far ∧
    near.Balanced .black k ∧ far.Balanced .black k := by
  cases h with
  | red hl hr =>
    cases s
    · exact ⟨_, _, _, rfl, hl, hr⟩
    · exact ⟨_, _, _, rfl, hr, hl⟩

theorem ne_nil_of_red (h : t.Balanced .red k) : t ≠ .nil := by
  cases h
  nofun

/-- Case 6. -/
theorem rotateGrandParent_spec (h : Lays m (plug t (⟨s, .red, b, sibling⟩ :: ⟨s, .black, g, u⟩ :: fs)))
    (ht : t ≠ .nil) : Lays (m.rotateGrandParent (address t)) (plug (join s .black t b (join s .red sibling g u)) fs) ∧
      Keeps m (m.rotateGrandParent (address t)) := by
  have hb : m.parent (address t) = b := h.parent_eq ht
  have hb' : Lays m (plug (join s .red t b sibling) (⟨s, .black, g, u⟩ :: fs)) := h
  have hne : join s .red t b sibling ≠ .nil := by cases s <;> nofun
  have hg : m.parent b = g := by simpa using hb'.parent_eq hne
  have hd : m.getDirection b = direction (⟨s, .black, g, u⟩ :: fs) := by simpa using hb'.getDirection_eq hne
  have hrotate : (if m.getDirection b = .left then m.rotateRight g else m.rotateLeft g) = m.rotate s.other g := by
    rw [hd]
    cases s <;> rfl
  -- the subtree at the grandparent, seen from the other side
  have hG : Lays m (plug (join s.other .black u g (join s.other .red sibling b t)) fs) := by
    rw [join_other, join_other]
    exact h
  have h1 := (rotate_spec hG).1
  obtain ⟨h3, hk3⟩ := rotate_colors_spec hG .black .red
  rw [join_other, join_other] at h1 h3
  have h1' : Lays (m.rotate s.other g) (plug t (⟨s, .red, b, join s .black sibling g u⟩ :: fs)) := h1
  have hsib : (m.rotate s.other g).parent (address t) = b := h1'.parent_eq ht
  have h2 := setColor_lays .black fs h1
  have huncle : ((m.rotate s.other g).setColor b .black).getSibling (address t) = g := by
    simpa using Lays.getSibling_eq (f := ⟨s, .black, b, join s .black sibling g u⟩) h2 ht
  have heq : m.rotateGrandParent (address t) = ((m.rotate s.other g).setColor b .black).setColor g .red := by
    simp only [rotateGrandParent, getGrandParent, hb, hg, hrotate, hsib, huncle]
  rw [heq]
  exact ⟨h3, hk3⟩

/-- Case 5. -/
theorem straighten_spec (h : Lays m (plug t (⟨s', .red, b, sibling⟩ :: ⟨s, .black, g, u⟩ :: fs)))
    (ht : t.Balanced .red k) (hs : sibling.Balanced .black k) : ∃ t' b' sibling',
      Lays (m.straighten (address t)).1 (plug t' (⟨s, .red, b', sibling'⟩ :: ⟨s, .black, g, u⟩ :: fs)) ∧
      (m.straighten (address t)).2 = address t' ∧ t'.Balanced .red k ∧ sibling'.Balanced .black k ∧
      (join s .red t' b' sibling').toList = (join s' .red t b sibling).toList ∧
      Keeps m (m.straighten (address t)).1 := by
  have hne := ne_nil_of_red ht
  have hb : m.parent (address t) = b := h.parent_eq hne
  have hB : Lays m (plug (join s' .red t b sibling) (⟨s, .black, g, u⟩ :: fs)) := h
  have hd := h.getDirection_eq hne
  have hd' : m.getDirection b = direction (⟨s, .black, g, u⟩ :: fs) := by
    simpa using hB.getDirection_eq (by cases s' <;> nofun)
  unfold straighten
  rw [hd, hb, hd']
  by_cases hss : s' = s
  · subst hss
    rw [if_neg (by simp [direction])]
    exact ⟨t, b, sibling, h, rfl, ht, hs, rfl, .refl m⟩
  · obtain rfl : s' = s.other := by
      revert hss
      cases s <;> cases s' <;> decide
    rw [if_pos (by cases s <;> simp [direction, Side.other])]
    obtain ⟨near, a, far, rfl, hn, hf⟩ := exists_node_of_red ht s
    have hrotate : (if direction (⟨s.other, .red, b, sibling⟩ :: ⟨s, .black, g, u⟩ :: fs) = .left then m.rotateRight b
        else m.rotateLeft b) = m.rotate s b := by
      cases s <;> rfl
    rw [hrotate]
    rw [join_other] at hB ⊢
    obtain ⟨h1, hk1⟩ := rotate_spec hB
    exact ⟨join s .red sibling b near, a, far, h1, by simp, hs.join_red hn, hf, toList_rotate .., hk1⟩

/-- Case 4: the parent and the uncle are painted black, the grandparent red. -/
theorem paintUncle_spec {U : Side} {near far : RBTree Ptr} {v : Ptr}
    (h : Lays m (plug t (⟨s', .red, b, sibling⟩ :: ⟨s, .black, g, join U .red near v far⟩ :: fs))) (ht : t ≠ .nil) :
    Lays (m.paintUncle (address t)) (plug (join s .red (join s' .black t b sibling) g (join U .black near v far)) fs) ∧
      Keeps m (m.paintUncle (address t)) ∧ (m.paintUncle (address t)).getGrandParent (address t) = g := by
  have hb : m.parent (address t) = b := h.parent_eq ht
  have h1 : Lays (m.setColor b .black)
      (plug (join s' .black t b sibling) (⟨s, .black, g, join U .red near v far⟩ :: fs)) :=
    setColor_lays .black (⟨s, .black, g, join U .red near v far⟩ :: fs) h
  have hne : join s' .black t b sibling ≠ .nil := by cases s' <;> rintro ⟨⟩
  have hv : (m.setColor b .black).getUncle (address t) = v := by
    rw [getUncle, parent_setColor, hb]
    simpa using h1.getSibling_eq hne
  have h2 : Lays ((m.setColor b .black).setColor v .black)
      (plug (join U .black near v far) (⟨s.other, .black, g, join s' .black t b sibling⟩ :: fs)) := by
    refine setColor_lays (c := .red) .black _ ?_
    rw [plug, join_other]
    exact h1
  rw [plug, join_other] at h2
  have hg : ((m.setColor b .black).setColor v .black).getGrandParent (address t) = g := by
    have hB : Lays m (plug (join s' .red t b sibling) (⟨s, .black, g, join U .red near v far⟩ :: fs)) := h
    simpa [getGrandParent, hb] using hB.parent_eq (by cases s' <;> rintro ⟨⟩)
  have h3 := setColor_lays .red fs h2
  have heq : m.paintUncle (address t) = ((m.setColor b .black).setColor v .black).setColor g .red := by
    simp only [paintUncle, hb, hv, hg]
  rw [heq]
  refine ⟨h3, ((h.keeps_setColor (.inr (by simp [mem_labels_cons])) _).trans (h1.keeps_setColor (.inr (by simp [mem_labels_cons, mem_join])) _)).trans
    (h2.keeps_setColor (.inl (by simp [mem_join])) _), ?_⟩
  simpa [getGrandParent] using hg

/-- The test of case 4. -/
theorem uncle_iff (h : Lays m (plug t (⟨s', .red, b, sibling⟩ :: ⟨s, .black, g, u⟩ :: fs))) (ht : t ≠ .nil)
    (hu : u.Balanced c k) : (m.hasUncle (address t) ∧ m.color (m.getUncle (address t)) = .red) ↔ c = .red := by
  have hb : m.parent (address t) = b := h.parent_eq ht
  have hB : Lays m (plug (join s' .red t b sibling) (⟨s, .black, g, u⟩ :: fs)) := h
  have hjoin : join s' Color.red t b sibling ≠ .nil := by cases s' <;> nofun
  have hroot := h.isRoot_iff ht
  have hroot' := hB.isRoot_iff hjoin
  have hsib := hB.getSibling_eq hjoin
  have hU : Lays m (plug u (⟨s.other, .black, g, join s' .red t b sibling⟩ :: fs)) := by
    rw [plug, join_other]
    exact hB
  have hcolor := hU.isBlackOrNull_iff hu
  rw [address_join] at hroot' hsib
  simp only [hasUncle, hasSibling, getUncle, hb, hroot, hroot', hsib, reduceCtorEq, not_false_eq_true, true_and]
  simp only [isBlackOrNull] at hcolor
  cases c with
  | red =>
    simp only [reduceCtorEq, iff_false, not_or] at hcolor
    have hc : m.color (address u) = .red := by
      cases hm : m.color (address u)
      · rfl
      · exact absurd hm hcolor.2
    simp [hcolor.1, hc]
  | black =>
    simp only [iff_true] at hcolor
    simp only [reduceCtorEq, iff_false, not_and]
    intro h0 hc
    rcases hcolor with hn | hn
    · exact h0 hn
    · rw [hc] at hn
      cases hn

/-- The rebalancing after an insertion. -/
theorem maintainAfterInsert_spec {fuel : ℕ} (hfuel : fs.length < fuel) (h : Lays m (plug t fs)) (ht : t.Balanced .red k)
    (hf : Accepts fs .black k) : ∃ T, Lays (maintainAfterInsert fuel m (address t)) T ∧
      T.toList = (plug t fs).toList ∧ (∃ k, T.Balanced .black k) ∧ Keeps m (maintainAfterInsert fuel m (address t)) := by
  induction fuel generalizing m t fs k with
  | zero => omega
  | succ fuel ih =>
    have hne := ne_nil_of_red ht
    have hroot := h.isRoot_iff hne
    have hb := h.parent_eq hne
    unfold maintainAfterInsert
    cases fs with
    | nil =>
      rw [if_pos (hroot.mpr rfl)]
      obtain ⟨near, a, far, rfl, hn, hfar⟩ := exists_node_of_red ht .left
      rw [address_join]
      exact ⟨join .left .black near a far, setColor_lays .black [] h, rfl, ⟨_, hn.join_black hfar⟩,
        h.keeps_setColor (.inl (by simp [mem_join])) _⟩
    | cons f fs =>
      obtain ⟨s', cb, b, sibling⟩ := f
      rw [if_neg (fun hr => nomatch hroot.mp hr), hb, above_cons]
      have hB : Lays m (plug (join s' cb t b sibling) fs) := h
      cases hf with
      | black hs hf =>
        rw [if_pos hB.color_eq]
        exact ⟨_, h, rfl, hf.plug (ht.join_black hs), .refl m⟩
      | red hs hf =>
        have hjoin : join s' Color.red t b sibling ≠ .nil := by cases s' <;> nofun
        cases hf with
        | @black s g u fs d _ _ hu hf =>
          have hroot' := hB.isRoot_iff hjoin
          rw [address_join] at hroot'
          have huncle := uncle_iff h hne hu
          rw [if_neg (by simp [hB.color_eq]), if_neg (fun hr => nomatch hroot'.mp hr)]
          cases d with
          | red =>
            obtain ⟨near, v, far, rfl, hn, hfar⟩ := exists_node_of_red hu .left
            rw [if_pos (huncle.mpr rfl)]
            obtain ⟨h1, hk1, hg⟩ := paintUncle_spec h hne
            rw [hg]
            have hlen : fs.length < fuel := by
              simp only [List.length_cons] at hfuel
              omega
            obtain ⟨T, hT, hl, hbal, hk2⟩ := ih hlen h1 ((ht.join_black hs).join_red (hn.join_black hfar)) hf
            rw [address_join] at hT hk2
            refine ⟨T, hT, hl.trans (toList_plug_congr fs ?_), hbal, hk1.trans hk2⟩
            exact toList_join_congr s _ _ g (toList_join_congr s' _ _ b rfl rfl) (toList_join_congr .left _ _ v rfl rfl)
          | black =>
            rw [if_neg (fun hr => nomatch huncle.mp hr)]
            obtain ⟨t', b', sibling', h1, heq, ht', hs', hl, hk1⟩ := straighten_spec h ht hs
            rw [heq]
            obtain ⟨h2, hk2⟩ := rotateGrandParent_spec h1 (ne_nil_of_red ht')
            refine ⟨_, h2, toList_plug_congr fs ?_, hf.plug (ht'.join_black (hs'.join_red hu)), hk1.trans hk2⟩
            have hg : (join s .black t' b' (join s .red sibling' g u)).toList =
                (join s .black (join s .red t' b' sibling') g u).toList := by
              cases s <;> simp [join]
            exact hg.trans (toList_join_congr s _ _ g hl rfl)

section Allocate
variable (m) (key : K) (value : V) (x : Ptr)

theorem allocate_apply {A : Type*} (field : Node K V → A) : field ((m.allocate key value).heap x) =
    if x = m.next then field {first := key, second := value} else field (m.heap x) := by
  by_cases hx : x = m.next
  · simp [allocate, hx]
  · simp [allocate, hx]

@[simp] theorem color_allocate : (m.allocate key value).color x = if x = m.next then .red else m.color x :=
  allocate_apply ..

@[simp] theorem parent_allocate : (m.allocate key value).parent x = if x = m.next then null else m.parent x :=
  allocate_apply ..

@[simp] theorem child_allocate (s : Side) :
    (m.allocate key value).child s x = if x = m.next then null else m.child s x := by
  cases s
  · exact allocate_apply m key value x (·.left)
  · exact allocate_apply m key value x (·.right)

theorem first_allocate : (m.allocate key value).first = Function.update m.first m.next key := by
  funext x
  rw [Function.update_apply]
  exact allocate_apply m key value x (·.first)

theorem second_allocate : (m.allocate key value).second = Function.update m.second m.next value := by
  funext x
  rw [Function.update_apply]
  exact allocate_apply m key value x (·.second)

/-- A new child on a side. -/
def link : Side → Ptr → K → V → RBTreeMap K V
  | .left => m.linkLeft
  | .right => m.linkRight

def attach (s : Side) (a : Ptr) : RBTreeMap K V :=
  ((m.allocate key value).setChild s a m.next).setParent m.next a

theorem link_eq (s : Side) (a : Ptr) : m.link s a key value =
    if (m.attach key value s a).child s header = a then (m.attach key value s a).setChild s header m.next
    else m.attach key value s a := by
  cases s <;> rfl

end Allocate

variable {key : K} {value : V} {far : RBTree Ptr}

theorem attach_same {x : Ptr} (hx : x ≠ m.next) (ha : x ≠ a) : SameLinks m (m.attach key value s a) x :=
  ⟨by simp [attach, hx], by simp [attach, hx], fun s' => by simp [attach, hx, ha]⟩

theorem attach_lays (h : Lays m (plug (join s c .nil a far) fs)) (hb : ∀ p ∈ (plug (join s c .nil a far) fs).toList, p < m.next)
    (hn : header < m.next) :
    Lays (m.attach key value s a) (plug (.node .red .nil m.next .nil) (⟨s, c, a, far⟩ :: fs)) := by
  obtain ⟨hc, hp, hs, ho, -, hfar⟩ := linked_join.mp h.tree
  obtain ⟨ht, hf, hd⟩ := nodup_plug.mp h.nodup
  obtain ⟨-, hafar, -, hfarn, -⟩ := nodup_join.mp ht
  have hmem : ∀ x, x ∈ (plug (join s c .nil a far) fs).toList ↔ (x = a ∨ x ∈ far.toList) ∨ x ∈ labels fs := fun x => by
    rw [mem_plug, mem_join]
    simp
  have hnew : ∀ x, x ∈ (plug (join s c .nil a far) fs).toList → x ≠ m.next := fun x hx => Nat.ne_of_lt (hb x hx)
  have hane := hnew a ((hmem a).mpr (.inl (.inl rfl)))
  have hframes := h.frames
  rw [address_join] at hframes
  have hd' : a ∉ labels fs := hd a (mem_join.mpr (.inl rfl))
  have hroot : (m.attach key value s a).root = m.root := by simp [attach, allocate]
  have hsame : ∀ x, x ≠ a → (x = a ∨ x ∈ far.toList) ∨ x ∈ labels fs → SameLinks m (m.attach key value s a) x :=
    fun x hx hm => attach_same (hnew x ((hmem x).mpr hm)) hx
  have hchild : ∀ s', (m.attach key value s a).child s' m.next = null := fun s' => by simp [attach, hane.symm]
  refine ⟨linked_plug.mpr ⟨?_, ?_, ?_, ?_, ?_, ?_, ?_⟩, ?_, ?_, ?_, ?_⟩
  · exact ⟨by simp [attach], by simp [attach], hchild .left, hchild .right, trivial, trivial⟩
  · simpa [attach, hane] using hc
  · simpa [attach, hane] using hp
  · simp [attach, address]
  · simpa [attach, hane, s.other_ne] using ho
  · exact hfar.congr fun x hx => hsame x (fun he => hafar (he ▸ hx)) (.inl (.inr hx))
  · exact hframes.congr fun x hx => hsame x (fun he => hd' (he ▸ hx)) (.inr hx)
  · rw [hroot, h.root_eq, address_plug, address_join]
    rfl
  · have hheader : header ≠ m.next := Nat.ne_of_lt hn
    have hp := h.headerParent
    rw [address_plug, address_join] at hp
    simpa [attach, hheader, address_plug, top] using hp
  · have hmem' : m.next ∉ labels (⟨s, c, a, far⟩ :: fs) := fun hx => by
      rw [mem_labels_cons] at hx
      exact hnew m.next ((hmem m.next).mpr (by tauto)) rfl
    refine nodup_plug.mpr ⟨by simp, nodup_labels_cons.mpr ⟨hafar, hd', hfarn, hf, ?_⟩, ?_⟩
    · exact fun x hx => hd x (mem_join.mpr (.inr (.inr hx)))
    · simpa using hmem'
  · intro x hx
    rw [mem_plug, mem_labels_cons] at hx
    rcases hx with hx | hx
    · rw [toList] at hx
      simp only [toList, List.nil_append, List.mem_singleton] at hx
      exact hx ▸ hn
    · exact h.valid x ((hmem x).mpr (by tauto))

variable (key value) in
/-- A new node linked, before the rebalancing. -/
theorem link_spec (h : Lays m (plug (join s c .nil a far) fs))
    (hb : ∀ p ∈ (plug (join s c .nil a far) fs).toList, p < m.next) (hn : header < m.next) :
    Lays (m.link s a key value) (plug (.node .red .nil m.next .nil) (⟨s, c, a, far⟩ :: fs)) := by
  have hl : Lays (m.attach key value s a) _ := attach_lays h hb hn
  rw [link_eq]
  split_ifs with hh
  · refine hl.congr (fun p hp => ?_) (by simp) (by simp)
    have hne : p ≠ header := Nat.ne_of_gt (hl.valid p hp)
    exact ⟨by simp, by simp, fun s' => by simp [hne]⟩
  · exact hl

variable (key value) in
theorem link_fields (s : Side) (a : Ptr) : (m.link s a key value).first = Function.update m.first m.next key ∧
    (m.link s a key value).second = Function.update m.second m.next value ∧
    (m.link s a key value).cnt = m.cnt ∧ (m.link s a key value).next = m.next + 1 := by
  have hf := m.first_allocate key value
  have hs := m.second_allocate key value
  rw [link_eq]
  cases s <;> split_ifs <;> simp [attach, setChild, hf, hs] <;> exact ⟨rfl, rfl⟩

variable (key value) in
theorem link_ends (ha : a ≠ header) (hn : header < m.next) :
    (m.link s a key value).child s header = (if m.child s header = a then m.next else m.child s header) ∧
      (m.link s a key value).child s.other header = m.child s.other header := by
  have hne : header ≠ m.next := Nat.ne_of_lt hn
  have hc : ∀ s', (m.attach key value s a).child s' header = m.child s' header := fun s' => by
    simp [attach, hne, ha.symm]
  rw [link_eq, hc]
  split_ifs with h
  · simp [hc]
  · simp [hc]

section New
variable [LinearOrder K]

/-- The keys before the hole are smaller than the key, those after it greater. -/
structure Narrowed (m : RBTreeMap K V) (key : K) (fs : List (Frame Ptr)) : Prop where
  before : ∀ p ∈ before fs, m.first p < key
  after : ∀ p ∈ after fs, key < m.first p

theorem length_le_of_bound {l : List Ptr} {n : ℕ} (hl : l.Nodup) (hb : ∀ p ∈ l, p < n) : l.length ≤ n := by
  have hs : l ⊆ List.range n := fun p hp => List.mem_range.mpr (hb p hp)
  simpa using (List.subperm_of_subset hl hs).length_le

theorem length_le_labels (fs : List (Frame Ptr)) : fs.length ≤ (labels fs).length := by
  induction fs with
  | nil => simp
  | cons f fs ih =>
    obtain ⟨s, c, b, sibling⟩ := f
    cases s <;> simp only [labels, before, after, sideBefore, sideAfter, List.length_append, List.length_cons,
      List.length_nil] at ih ⊢ <;> omega

theorem Represents.length_lt (h : Represents m t) : t.toList.length < m.next := by
  have hl : (header :: t.toList).Nodup :=
    List.nodup_cons.mpr ⟨fun hm => Nat.lt_irrefl _ (h.lays.valid _ hm), h.lays.nodup⟩
  have hle := length_le_of_bound hl (n := m.next) fun p hp => by
    rcases List.mem_cons.mp hp with rfl | hp
    · exact h.next
    · exact h.bound p hp
  rwa [List.length_cons] at hle

omit [LinearOrder K] in
theorem Lays.count {n : ℕ} (h : Lays m t) : Lays {m with cnt := n} t :=
  h.congr (fun _ _ => ⟨rfl, rfl, fun s => by cases s <;> rfl⟩) rfl rfl

theorem headD_append_cons (X Y : List Ptr) (p d : Ptr) : (X ++ p :: Y).headD d = X.headD p := by
  cases X <;> rfl

theorem getLastD_append_cons (X Y : List Ptr) (p d : Ptr) : (X ++ p :: Y).getLastD d = Y.getLastD p := by
  rw [List.getLastD_eq_getLast?, List.getLast?_append, List.getLast?_cons]
  simp

theorem headD_eq_self {X : List Ptr} (h : a ∉ X) : X.headD a = a ↔ X = [] := by
  cases X with
  | nil => simp
  | cons x X =>
    have hx : x ≠ a := fun he => h (he ▸ List.mem_cons_self)
    simp [hx]

theorem getLastD_eq_self {X : List Ptr} (h : a ∉ X) : X.getLastD a = a ↔ X = [] := by
  constructor
  · intro he
    by_contra hX
    rw [List.getLastD_eq_getLast?, List.getLast?_eq_getLast_of_ne_nil hX] at he
    exact h (he ▸ List.getLast_mem hX)
  · rintro rfl
    rfl

theorem ends_before {X Y : List Ptr} {n d : Ptr} (hX : a ∉ X) :
    (X ++ n :: a :: Y).headD d = (if (X ++ a :: Y).headD d = a then n else (X ++ a :: Y).headD d) ∧
      (X ++ n :: a :: Y).getLastD d = (X ++ a :: Y).getLastD d := by
  simp only [headD_append_cons, getLastD_append_cons, headD_eq_self hX]
  refine ⟨?_, List.getLastD_cons ..⟩
  cases X with
  | nil => rfl
  | cons x X => rfl

theorem ends_after {X Y : List Ptr} {n d : Ptr} (hY : a ∉ Y) :
    (X ++ a :: n :: Y).getLastD d = (if (X ++ a :: Y).getLastD d = a then n else (X ++ a :: Y).getLastD d) ∧
      (X ++ a :: n :: Y).headD d = (X ++ a :: Y).headD d := by
  simp only [headD_append_cons, getLastD_append_cons, getLastD_eq_self hY, and_true]
  rw [List.getLastD_cons]
  cases Y with
  | nil => rfl
  | cons y Y => rw [if_neg (List.cons_ne_nil _ _), List.getLastD_cons, List.getLastD_cons]

/-- The ends that the header points to, after a new node. -/
theorem link_headers (h : Represents m (plug (join s c .nil a far) fs)) :
    (m.link s a key value).left header =
        (before (⟨s, c, a, far⟩ :: fs) ++ m.next :: after (⟨s, c, a, far⟩ :: fs)).headD header ∧
      (m.link s a key value).right header =
        (before (⟨s, c, a, far⟩ :: fs) ++ m.next :: after (⟨s, c, a, far⟩ :: fs)).getLastD header := by
  have ha : a ≠ header := (h.lays.ne_null (.inl (mem_join.mpr (.inl rfl)))).2
  obtain ⟨hs, ho⟩ := link_ends key value (s := s) ha h.next
  have hlist := toList_plug (join s c .nil a far) fs
  have hl := h.first
  have hr := h.last
  have hn := h.lays.nodup
  rw [hlist] at hl hr hn
  cases s with
  | left =>
    simp only [join, toList, List.nil_append, List.append_assoc, List.cons_append] at hl hr hn
    have haX : a ∉ before fs := fun hm => (List.nodup_append'.mp hn).2.2 hm List.mem_cons_self
    obtain ⟨h1, h2⟩ := ends_before (Y := far.toList ++ after fs) (n := m.next) (d := header) haX
    simp only [before, after, sideBefore, sideAfter, List.append_nil, List.cons_append]
    refine ⟨?_, ?_⟩
    · rw [h1, ← hl]
      exact hs
    · rw [h2, ← hr]
      exact ho
  | right =>
    simp only [join, toList, List.append_assoc, List.cons_append, List.nil_append] at hl hr hn
    rw [← List.append_assoc] at hl hr hn
    have haY : a ∉ after fs := fun hm => (List.nodup_cons.mp (List.nodup_append'.mp hn).2.1).1 hm
    obtain ⟨h1, h2⟩ := ends_after (X := before fs ++ far.toList) (n := m.next) (d := header) haY
    simp only [before, after, sideBefore, sideAfter, List.append_assoc, List.cons_append, List.nil_append] at h1 h2 hl hr ⊢
    refine ⟨?_, ?_⟩
    · rw [h2, ← hl]
      exact ho
    · rw [h1, ← hr]
      exact hs

variable (far fs) in
theorem toList_plug_nil : (plug (join s c .nil a far) fs).toList =
    before (⟨s, c, a, far⟩ :: fs) ++ after (⟨s, c, a, far⟩ :: fs) := by
  rw [toList_plug, toList_join]
  simp [before, after]

theorem Represents.sorted_insert {X Y : List Ptr} (hs : (X ++ Y).Pairwise fun p q => m.first p < m.first q)
    (hX : ∀ p ∈ X, m.first p < key) (hY : ∀ p ∈ Y, key < m.first p) (hn : ∀ p ∈ X ++ Y, p ≠ m.next) :
    (X ++ m.next :: Y).Pairwise fun p q =>
      Function.update m.first m.next key p < Function.update m.first m.next key q := by
  have hold : ∀ p ∈ X ++ Y, Function.update m.first m.next key p = m.first p := fun p hp =>
    Function.update_of_ne (hn p hp) _ _
  have hpw := hs.imp_of_mem (S := fun p q => Function.update m.first m.next key p <
    Function.update m.first m.next key q) fun hp hq hlt => by rwa [hold _ hp, hold _ hq]
  obtain ⟨h1, h2, h3⟩ := List.pairwise_append.mp hpw
  refine List.pairwise_append.mpr ⟨h1, List.pairwise_cons.mpr ⟨fun q hq => ?_, h2⟩, fun p hp q hq => ?_⟩
  · rw [Function.update_self, hold q (List.mem_append_right _ hq)]
    exact hY q hq
  · rcases List.mem_cons.mp hq with rfl | hq
    · rw [Function.update_self, hold p (List.mem_append_left _ hp)]
      exact hX p hp
    · exact h3 p hp q hq

/-- The rebalancing from a new node. -/
theorem maintainNew_spec (key : K) (value : V) (h : Represents m (plug (join s c .nil a far) fs)) :
    ∃ T, Lays (maintainAfterInsert (m.link s a key value).next (m.link s a key value) m.next) T ∧
      T.toList = before (⟨s, c, a, far⟩ :: fs) ++ m.next :: after (⟨s, c, a, far⟩ :: fs) ∧
      (∃ n, T.Balanced .black n) ∧
      Keeps (m.link s a key value) (maintainAfterInsert (m.link s a key value).next (m.link s a key value) m.next) := by
  obtain ⟨-, -, -, hnext⟩ := link_fields (m := m) key value s a
  have hlays := link_spec key value h.lays h.bound h.next
  obtain ⟨n, hbal⟩ := h.balanced
  have hbal' : (plug .nil (⟨s, c, a, far⟩ :: fs)).Balanced .black n := hbal
  obtain ⟨_, _, hnil, hacc⟩ := accepts_of_plug hbal'
  have hlen : (List.cons (⟨s, c, a, far⟩ : Frame Ptr) fs).length < (m.link s a key value).next := by
    have hle := length_le_labels (⟨s, c, a, far⟩ :: fs)
    have hlt := h.length_lt
    rw [toList_plug_nil] at hlt
    rw [labels] at hle
    rw [hnext]
    omega
  cases hnil
  obtain ⟨T, hT, hl, hTb, hkeep⟩ := maintainAfterInsert_spec hlen hlays (.red .nil .nil) hacc
  rw [toList_plug] at hl
  simp only [toList, List.nil_append, List.append_assoc, List.cons_append] at hl
  exact ⟨T, hT, hl, hTb, hkeep⟩

/-- A new node in the place that the descent has found. -/
theorem maintainNew_represents (h : Represents m (plug (join s c .nil a far) fs))
    (hk : Narrowed m key (⟨s, c, a, far⟩ :: fs)) : ∃ T, Represents ((m.link s a key value).maintainNew m.next) T ∧
      T.toList = before (⟨s, c, a, far⟩ :: fs) ++ m.next :: after (⟨s, c, a, far⟩ :: fs) ∧
      ((m.link s a key value).maintainNew m.next).first = Function.update m.first m.next key ∧
      ((m.link s a key value).maintainNew m.next).second = Function.update m.second m.next value := by
  obtain ⟨hfirst, hsecond, hcnt, hnext⟩ := link_fields (m := m) key value s a
  obtain ⟨T, hT, hl, hTb, hkeep⟩ := maintainNew_spec key value h
  have hmap : (m.link s a key value).maintainNew m.next = {maintainAfterInsert (m.link s a key value).next
    (m.link s a key value) m.next with cnt := (maintainAfterInsert (m.link s a key value).next
      (m.link s a key value) m.next).cnt + 1} := rfl
  have hf := hkeep.first.trans hfirst
  have hbound := h.bound
  have hsorted := h.sorted
  have hcount := h.count
  rw [toList_plug_nil] at hbound hsorted hcount
  rw [hmap]
  refine ⟨T, ⟨hT.count, hTb, ?_, ?_, ?_, ?_, ?_, ?_⟩, hl, hf, hkeep.second.trans hsecond⟩
  · rw [hl]
    have hs := Represents.sorted_insert hsorted hk.before hk.after fun p hp => Nat.ne_of_lt (hbound p hp)
    rwa [← hf] at hs
  · rw [hl]
    simp only [List.length_append, List.length_cons] at hcount ⊢
    exact (congrArg (· + 1) (hkeep.cnt.trans (hcnt.trans hcount))).trans (by omega)
  · exact (hkeep.ends .left).trans (hl ▸ (link_headers h).1)
  · exact (hkeep.ends .right).trans (hl ▸ (link_headers h).2)
  · intro p hp
    have hlt : p < m.next + 1 := by
      rw [hl, List.mem_append, List.mem_cons] at hp
      rcases hp with hp | rfl | hp
      · exact Nat.lt_succ_of_lt (hbound p (List.mem_append_left _ hp))
      · exact Nat.lt_succ_self _
      · exact Nat.lt_succ_of_lt (hbound p (List.mem_append_right _ hp))
    exact hlt.trans_eq (hkeep.next.trans hnext).symm
  · exact (Nat.lt_succ_of_lt h.next).trans_eq (hkeep.next.trans hnext).symm

end New

end Zpc.RBTreeMap
