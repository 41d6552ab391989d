import Zpc.RBTreeMapInsert

/-!
# The descent from the root

`insert`, `operator[]` and `getNode` go down the same path; they differ in what they do at a node with the key and at
a missing child.
-/
namespace Zpc.RBTreeMap
open RedBlackTree (Color Side RBTree)
open RedBlackTree.RBTree

variable {K V : Type*} [LinearOrder K] {m m' : RBTreeMap K V} {t : RBTree Ptr} {fs : List (Frame Ptr)} {s : Side}
  {c : Color} {a p : Ptr} {key : K} {value : V} {fuel : ℕ}

section Descend
def side (m : RBTreeMap K V) (node : Ptr) (key : K) : Side := if key < m.first node then .left else .right

/-- A descent with what it gives at a node with the key, at a missing child, and without fuel. -/
def descend {A : Type*} (m : RBTreeMap K V) (key : K) (out found : Ptr → A) (absent : Side → Ptr → A) : ℕ → Ptr → A
  | 0, p => out p
  | fuel + 1, p =>
    if key = m.first p then found p
    else if m.child (m.side p key) p = null then absent (m.side p key) p
    else descend m key out found absent fuel (m.child (m.side p key) p)

theorem descend_unfold {A : Type*} (out found : Ptr → A) (absent : Side → Ptr → A) (fuel : ℕ) (p : Ptr) :
    m.descend key out found absent (fuel + 1) p = if key = m.first p then found p
      else if key < m.first p then
        if m.left p = null then absent .left p else m.descend key out found absent fuel (m.left p)
      else if m.right p = null then absent .right p
      else m.descend key out found absent fuel (m.right p) := by
  rw [descend, side]
  split_ifs <;> simp_all [child]

theorem insertNode_eq (fuel : ℕ) (p : Ptr) : insertNode fuel m p key value true =
    m.descend key (fun _ => m) (m.setSecond · value) (fun s q => (m.link s q key value).maintainNew m.next) fuel p := by
  induction fuel generalizing p with
  | zero => rfl
  | succ fuel ih =>
    rw [insertNode, descend_unfold, ih, ih, if_pos rfl]
    rfl

theorem getNodeOrProvide_eq [Inhabited V] (fuel : ℕ) (p : Ptr) : getNodeOrProvide fuel m p key =
    m.descend key (m, ·) (m, ·) (fun s q => ((m.link s q key default).maintainNew m.next, m.next)) fuel p := by
  induction fuel generalizing p with
  | zero => rfl
  | succ fuel ih =>
    rw [getNodeOrProvide, descend_unfold, ih, ih]
    rfl

theorem getNode_eq (fuel : ℕ) (p : Ptr) :
    getNode fuel m p key = m.descend key (fun _ => null) id (fun _ _ => null) fuel p := by
  induction fuel generalizing p with
  | zero => rfl
  | succ fuel ih =>
    rw [getNode, descend_unfold, ih, ih]
    rfl

theorem Narrowed.step {near far : RBTree Ptr} (hk : Narrowed m key fs)
    (hs : (plug (join s c near a far) fs).toList.Pairwise fun p q => m.first p < m.first q)
    (hne : key ≠ m.first a) (hside : m.side a key = s) : Narrowed m key (⟨s, c, a, far⟩ :: fs) := by
  rw [toList_plug, toList_join] at hs
  have hmid := (List.pairwise_append.mp (List.pairwise_append.mp hs).1).2.1
  unfold side at hside
  cases s with
  | left =>
    have hlt : key < m.first a := by
      by_contra hn
      rw [if_neg hn] at hside
      cases hside
    have hfar := (List.pairwise_cons.mp (List.pairwise_append.mp hmid).2.1).1
    refine ⟨by simpa [RBTree.before, sideBefore] using hk.before, fun p hp => ?_⟩
    simp only [RBTree.after, sideAfter, List.cons_append, List.mem_cons, List.mem_append] at hp
    rcases hp with rfl | hp | hp
    · exact hlt
    · exact hlt.trans (hfar p hp)
    · exact hk.after p hp
  | right =>
    have hlt : m.first a < key := by
      by_contra hn
      rw [if_pos (lt_of_le_of_ne (not_lt.mp hn) hne)] at hside
      cases hside
    have hfar := (List.pairwise_append.mp (List.pairwise_append.mp (List.pairwise_append.mp hmid).1).1).2.2
    refine ⟨fun p hp => ?_, by simpa [RBTree.after, sideAfter] using hk.after⟩
    simp only [RBTree.before, sideBefore, List.mem_append, List.mem_singleton] at hp
    rcases hp with hp | hp | rfl
    · exact hk.before p hp
    · exact (hfar p hp a (by simp)).trans hlt
    · exact hlt

/-- The descent finds the node of the key or the place of a new one. -/
theorem descend_spec {A : Type*} {out found : Ptr → A} {absent : Side → Ptr → A} (h : Lays m (plug t fs))
    (hs : (plug t fs).toList.Pairwise fun p q => m.first p < m.first q) (ht : t ≠ .nil) (hk : Narrowed m key fs)
    (hfuel : t.toList.length ≤ fuel) :
    (∃ p ∈ (plug t fs).toList, m.first p = key ∧ m.descend key out found absent fuel (address t) = found p) ∨
    ∃ s c a far gs, plug t fs = plug (join s c .nil a far) gs ∧ Narrowed m key (⟨s, c, a, far⟩ :: gs) ∧
      m.descend key out found absent fuel (address t) = absent s a := by
  induction fuel generalizing t fs with
  | zero => exact absurd hfuel (Nat.not_le.mpr (length_pos ht))
  | succ fuel ih =>
    obtain ⟨c, l, a, r, rfl⟩ := exists_node ht
    obtain ⟨near, far, hj⟩ := exists_join (m.side a key) c l r a
    have hlen : near.toList.length ≤ fuel := by
      rw [hj, toList_join] at hfuel
      cases hd : m.side a key <;> simp [hd, sideBefore, sideAfter] at hfuel <;> omega
    rw [hj] at h hs ⊢
    have hchild : m.child (m.side a key) a = address near := h.child_eq
    rw [address_join, descend, hchild]
    by_cases he : key = m.first a
    · rw [if_pos he]
      exact .inl ⟨a, mem_plug.mpr (.inl (mem_join.mpr (.inl rfl))), he.symm, rfl⟩
    · rw [if_neg he]
      have hk' := hk.step hs he rfl
      have hnear : Lays m (plug near (⟨m.side a key, c, a, far⟩ :: fs)) := h
      by_cases hn : near = .nil
      · subst hn
        exact .inr ⟨m.side a key, c, a, far, fs, rfl, hk', if_pos rfl⟩
      · rw [if_neg fun h0 => hn (hnear.address_eq_null.mp h0)]
        exact ih hnear hs hn hk' hlen

end Descend

section Values
def Holds (m : RBTreeMap K V) (t : RBTree Ptr) (k : K) (v : V) : Prop :=
  ∃ p ∈ t.toList, m.first p = k ∧ m.second p = v

omit [LinearOrder K] in
/-- Two elements of a sorted list. -/
theorem lt_or_gt_of_mem {A : Type*} {r : A → A → Prop} {l : List A} {x y : A} (hs : l.Pairwise r) (hx : x ∈ l)
    (hy : y ∈ l) (hne : x ≠ y) : r x y ∨ r y x := by
  induction hs with
  | nil => cases hx
  | cons hz _ ih =>
    rcases List.mem_cons.mp hx with rfl | hx
    · exact .inl (hz y ((List.mem_cons.mp hy).resolve_left hne.symm))
    · rcases List.mem_cons.mp hy with he | hy
      · exact .inr (he ▸ hz x hx)
      · exact ih hx hy

theorem Represents.eq_of_first {q : Ptr} (h : Represents m t) (hp : p ∈ t.toList) (hq : q ∈ t.toList)
    (he : m.first p = m.first q) : p = q := by
  by_contra hne
  rcases lt_or_gt_of_mem h.sorted hp hq hne with hlt | hlt
  · exact ne_of_lt hlt he
  · exact ne_of_gt hlt he

theorem Represents.setSecond (h : Represents m t) (p : Ptr) (v : V) : Represents (m.setSecond p v) t :=
  ⟨h.lays.congr (fun _ _ => ⟨by simp, by simp, fun s => by simp⟩) rfl (by simp), h.balanced, by simpa using h.sorted,
    h.count, by simpa using h.first, by simpa using h.last, h.bound, h.next⟩

theorem Represents.holds_setSecond (h : Represents m t) (hp : p ∈ t.toList) (v : V) (k : K) (w : V) :
    Holds (m.setSecond p v) t k w ↔ if k = m.first p then w = v else Holds m t k w := by
  unfold Holds
  simp only [first_setSecond, second_setSecond]
  split_ifs with hk
  · subst hk
    constructor
    · rintro ⟨q, hq, hf, hs⟩
      rw [h.eq_of_first hq hp hf, if_pos rfl] at hs
      exact hs.symm
    · rintro rfl
      exact ⟨p, hp, rfl, if_pos rfl⟩
  · have hne : ∀ q, m.first q = k → q ≠ p := by
      rintro q hq rfl
      exact hk hq.symm
    constructor
    · rintro ⟨q, hq, hf, hs⟩
      exact ⟨q, hq, hf, by rwa [if_neg (hne q hf)] at hs⟩
    · rintro ⟨q, hq, hf, hs⟩
      exact ⟨q, hq, hf, by rwa [if_neg (hne q hf)]⟩

/-- The values with a new node at `p`. -/
theorem holds_update {T : RBTree Ptr} (hT : ∀ q, q ∈ T.toList ↔ q = p ∨ q ∈ t.toList) (hp : p ∉ t.toList)
    (hf : m'.first = Function.update m.first p key) (hs : m'.second = Function.update m.second p value)
    (hkey : ∀ q ∈ t.toList, m.first q ≠ key) (k : K) (w : V) :
    Holds m' T k w ↔ if k = key then w = value else Holds m t k w := by
  have hold : ∀ q ∈ t.toList, m'.first q = m.first q ∧ m'.second q = m.second q := fun q hq => by
    have hne : q ≠ p := fun he => hp (he ▸ hq)
    rw [hf, hs, Function.update_of_ne hne, Function.update_of_ne hne]
    exact ⟨rfl, rfl⟩
  have hnew : m'.first p = key ∧ m'.second p = value := by
    rw [hf, hs, Function.update_self, Function.update_self]
    exact ⟨rfl, rfl⟩
  unfold Holds
  split_ifs with hk
  · subst hk
    constructor
    · rintro ⟨q, hq, hqf, hqs⟩
      rcases (hT q).mp hq with rfl | hq
      · exact hqs.symm.trans hnew.2
      · exact absurd ((hold q hq).1.symm.trans hqf) (hkey q hq)
    · rintro rfl
      exact ⟨p, (hT p).mpr (.inl rfl), hnew⟩
  · constructor
    · rintro ⟨q, hq, hqf, hqs⟩
      rcases (hT q).mp hq with rfl | hq
      · exact absurd (hqf.symm.trans hnew.1) hk
      · obtain ⟨h1, h2⟩ := hold q hq
        exact ⟨q, hq, h1 ▸ hqf, h2 ▸ hqs⟩
    · rintro ⟨q, hq, hqf, hqs⟩
      obtain ⟨h1, h2⟩ := hold q hq
      exact ⟨q, (hT q).mpr (.inr hq), h1.trans hqf, h2.trans hqs⟩

theorem Narrowed.ne {far : RBTree Ptr} (hk : Narrowed m key (⟨s, c, a, far⟩ :: fs)) :
    ∀ q ∈ (plug (join s c .nil a far) fs).toList, m.first q ≠ key := by
  rw [toList_plug_nil]
  intro q hq
  rcases List.mem_append.mp hq with hq | hq
  · exact ne_of_lt (hk.before q hq)
  · exact ne_of_gt (hk.after q hq)

/-- What a new node in the place of the key does. -/
theorem maintainNew_holds {far : RBTree Ptr} (h : Represents m (plug (join s c .nil a far) fs))
    (hk : Narrowed m key (⟨s, c, a, far⟩ :: fs)) : ∃ T, Represents ((m.link s a key value).maintainNew m.next) T ∧
      m.next ∈ T.toList ∧ ((m.link s a key value).maintainNew m.next).first m.next = key ∧
      ∀ k w, Holds ((m.link s a key value).maintainNew m.next) T k w ↔
        if k = key then w = value else Holds m (plug (join s c .nil a far) fs) k w := by
  obtain ⟨T, hT, hl, hf, hs⟩ := maintainNew_represents h hk
  refine ⟨T, hT, by simp [hl], by rw [hf, Function.update_self], fun k w => ?_⟩
  have hnot : m.next ∉ (plug (join s c .nil a far) fs).toList := fun hm => Nat.lt_irrefl _ (h.bound _ hm)
  refine holds_update (fun q => ?_) hnot hf hs hk.ne k w
  rw [hl, toList_plug_nil]
  simp only [List.mem_append, List.mem_cons]
  tauto

section Plant
variable (h : Ptr → Node K V) (r n k x : Ptr)

omit [LinearOrder K]

theorem color_mk : color {m with root := r, cnt := n, next := k} x = m.color x := rfl
theorem parent_mk : parent {m with root := r, cnt := n, next := k} x = m.parent x := rfl
theorem left_mk : left {m with root := r, cnt := n, next := k} x = m.left x := rfl
theorem right_mk : right {m with root := r, cnt := n, next := k} x = m.right x := rfl
theorem first_mk : first {m with root := r, cnt := n, next := k} = m.first := rfl
theorem second_mk : second {m with root := r, cnt := n, next := k} = m.second := rfl

variable (key value) in
theorem plant_fields (hn : header ≠ m.next) : (m.plant key value).color m.next = .black ∧
    (m.plant key value).parent m.next = header ∧ (m.plant key value).left m.next = null ∧
    (m.plant key value).right m.next = null ∧ (m.plant key value).parent header = m.next ∧
    (m.plant key value).left header = m.next ∧ (m.plant key value).right header = m.next := by
  have hl : (m.allocate key value).left m.next = null :=
    (child_allocate m key value m.next .left).trans (if_pos rfl)
  have hr : (m.allocate key value).right m.next = null :=
    (child_allocate m key value m.next .right).trans (if_pos rfl)
  refine ⟨?_, ?_, ?_, ?_, ?_, ?_, ?_⟩ <;> simp [plant, color_mk, parent_mk, left_mk, right_mk, hn.symm, hl, hr]

variable (key value) in
theorem plant_values : (m.plant key value).first = Function.update m.first m.next key ∧
    (m.plant key value).second = Function.update m.second m.next value := by
  constructor
  · simp [plant, first_mk, first_allocate]
  · simp [plant, second_mk, second_allocate]

end Plant

variable (key value) in
/-- The first node of the map. -/
theorem plant_holds (h : Represents m .nil) : ∃ T, Represents (m.plant key value) T ∧ m.next ∈ T.toList ∧
    (m.plant key value).first m.next = key ∧
    ∀ k w, Holds (m.plant key value) T k w ↔ if k = key then w = value else Holds m .nil k w := by
  obtain ⟨hc, hp, hl, hr, hh, hleft, hright⟩ := plant_fields key value (Nat.ne_of_lt h.next)
  obtain ⟨hf, hs⟩ := plant_values (m := m) key value
  have hcnt : m.cnt = 0 := h.count
  have hnext : (m.plant key value).next = m.next + 1 := rfl
  refine ⟨.node .black .nil m.next .nil, ⟨⟨⟨hc, hp, hl, hr, trivial, trivial⟩, rfl, hh, by simp, by simpa using h.next⟩,
    ⟨_, .black .nil .nil⟩, by simp, ?_, hleft, hright, ?_, ?_⟩, by simp, by rw [hf, Function.update_self], ?_⟩
  · exact congrArg (· + 1) hcnt
  · simp [hnext]
  · exact Nat.lt_succ_of_lt h.next
  · exact holds_update (fun q => by simp) (by simp) hf hs (by simp)

end Values

section Operations
theorem Represents.root_eq_null (h : Represents m t) : m.root = null ↔ t = .nil := by
  rw [h.lays.root]
  exact Lays.address_eq_null h.lays.whole

variable (key value) in
theorem insert_spec (h : Represents m t) : ∃ T, Represents (m.insert key value) T ∧
    ∀ k w, Holds (m.insert key value) T k w ↔ if k = key then w = value else Holds m t k w := by
  unfold insert
  by_cases ht : t = .nil
  · rw [if_pos (h.root_eq_null.mpr ht)]
    subst ht
    obtain ⟨T, hT, _, _, hv⟩ := plant_holds key value h
    exact ⟨T, hT, hv⟩
  · rw [if_neg fun h0 => ht (h.root_eq_null.mp h0), insertNode_eq, h.lays.root]
    rcases descend_spec h.lays.whole h.sorted ht ⟨by simp [before], by simp [after]⟩ (Nat.le_of_lt h.length_lt) with
      ⟨p, hp, hf, he⟩ | ⟨s, c, a, far, gs, hg, hk, he⟩
    · rw [he]
      refine ⟨t, h.setSecond p value, fun k w => ?_⟩
      rw [h.holds_setSecond hp, hf]
    · rw [he]
      have hg : t = _ := hg
      subst hg
      obtain ⟨T, hT, _, _, hv⟩ := maintainNew_holds h hk
      exact ⟨T, hT, hv⟩

variable (key) in
/-- `operator[]` gives the node of the key, new with the default value if there was none. -/
theorem getOrDefault_spec [Inhabited V] (h : Represents m t) : ∃ T, Represents (m.getOrDefault key).1 T ∧
    (m.getOrDefault key).2 ∈ T.toList ∧ (m.getOrDefault key).1.first (m.getOrDefault key).2 = key ∧
    ((m.getOrDefault key).1 = m ∧ T = t ∨ (∀ p ∈ t.toList, m.first p ≠ key) ∧
      ∀ k w, Holds (m.getOrDefault key).1 T k w ↔ if k = key then w = default else Holds m t k w) := by
  unfold getOrDefault
  by_cases ht : t = .nil
  · rw [if_pos (h.root_eq_null.mpr ht)]
    subst ht
    obtain ⟨T, hT, hm, hf, hv⟩ := plant_holds key default h
    exact ⟨T, hT, hm, hf, .inr ⟨by simp, hv⟩⟩
  · rw [if_neg fun h0 => ht (h.root_eq_null.mp h0), getNodeOrProvide_eq, h.lays.root]
    rcases descend_spec h.lays.whole h.sorted ht ⟨by simp [before], by simp [after]⟩ (Nat.le_of_lt h.length_lt) with
      ⟨p, hp, hf, he⟩ | ⟨s, c, a, far, gs, hg, hk, he⟩
    · rw [he]
      exact ⟨t, h, hp, hf, .inl ⟨rfl, rfl⟩⟩
    · rw [he]
      have hg : t = _ := hg
      subst hg
      obtain ⟨T, hT, hm, hf, hv⟩ := maintainNew_holds h hk
      exact ⟨T, hT, hm, hf, .inr ⟨hk.ne, hv⟩⟩

/-- `getNode` gives the node of the key, or null. -/
theorem getNode_spec (h : Represents m t) (ht : t ≠ .nil) :
    (getNode m.next m m.root key ∈ t.toList ∧ m.first (getNode m.next m m.root key) = key) ∨
      getNode m.next m m.root key = null ∧ ∀ p ∈ t.toList, m.first p ≠ key := by
  rw [getNode_eq, h.lays.root]
  rcases descend_spec h.lays.whole h.sorted ht ⟨by simp [before], by simp [after]⟩ (Nat.le_of_lt h.length_lt) with
    ⟨p, hp, hf, he⟩ | ⟨s, c, a, far, gs, hg, hk, he⟩
  · rw [he]
    exact .inl ⟨hp, hf⟩
  · rw [he]
    have hg : t = _ := hg
    subst hg
    exact .inr ⟨rfl, hk.ne⟩

theorem get_spec (h : Represents m t) (v : V) : m.get key = some v ↔ Holds m t key v := by
  unfold get
  by_cases ht : t = .nil
  · rw [if_pos (h.root_eq_null.mpr ht)]
    subst ht
    simp [Holds]
  · rw [if_neg fun h0 => ht (h.root_eq_null.mp h0)]
    rcases getNode_spec h ht with ⟨hm, hf⟩ | ⟨h0, hne⟩
    · rw [if_pos (Lays.ne_null h.lays.whole (.inl hm)).1, Option.some.injEq]
      constructor
      · exact fun hs => ⟨_, hm, hf, hs⟩
      · rintro ⟨q, hq, hqf, hqs⟩
        rwa [h.eq_of_first hm hq (hf.trans hqf.symm)]
    · rw [if_neg (not_not.mpr h0)]
      refine iff_of_false nofun ?_
      rintro ⟨q, hq, hqf, _⟩
      exact hne q hq hqf

theorem count_spec (h : Represents m t) (ht : t ≠ .nil) :
    m.count key = some (if (m.get key).isSome then 1 else 0) := by
  have h0 : m.root ≠ null := fun h0 => ht (h.root_eq_null.mp h0)
  rw [count, get, if_neg h0, if_neg h0]
  split_ifs <;> simp_all

end Operations

end Zpc.RBTreeMap
