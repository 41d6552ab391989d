import Zpc.RBTreeMapErase

/-!
# The iterators of the red-black tree map

`increment` gives the next node in order, and the erasures at an iterator and over a range remove what the iterators
delimit.
-/
namespace Zpc.RBTreeMap
open RedBlackTree (Color Side RBTree)
open RedBlackTree.RBTree

variable {K V : Type*} [LinearOrder K] {m m' : RBTreeMap K V} {t T : RBTree Ptr} {fs : List (Frame Ptr)} {c : Color}
  {s : Side} {b p q x : Ptr} {u : RBTree Ptr} {stale : Ptr → Ptr → Ptr} {fuel : ℕ}

section Increment
/-- The climb from children on one side to their parents. -/
def climbFrom (s : Side) : ℕ → RBTreeMap K V → Ptr → Ptr → Ptr × Ptr
  | 0, _, x, y => (x, y)
  | fuel + 1, m, x, y => if x = m.child s y then climbFrom s fuel m y (m.parent y) else (x, y)

/-- The step to the next node on one side. -/
def stepTo (s : Side) (m : RBTreeMap K V) (x : Ptr) : Ptr :=
  if m.child s x ≠ null then extreme s.other m.next m (m.child s x)
  else
    let r := climbFrom s m.next m x (m.parent x)
    if m.child s r.1 ≠ r.2 then r.2 else r.1

theorem ahead_cons_same : ahead s (⟨s, c, b, u⟩ :: fs) = ahead s fs := by
  cases s <;> simp [ahead, before, after, sideBefore, sideAfter]

theorem headD_ahead_cons_other (e : Ptr) : (ahead s (⟨s.other, c, b, u⟩ :: fs)).reverse.headD e = b := by
  cases s <;> simp [ahead, before, after, sideBefore, sideAfter, Side.other]

/-- The climb from a subtree that is done ends below the next node, or at the header. -/
theorem climbFrom_spec (s : Side) (h : Represents m (plug t fs)) (ht : t ≠ .nil) (hfuel : fs.length + 2 ≤ fuel) :
    (if m.child s (climbFrom s fuel m (address t) (above header fs)).1 ≠
        (climbFrom s fuel m (address t) (above header fs)).2
      then (climbFrom s fuel m (address t) (above header fs)).2
      else (climbFrom s fuel m (address t) (above header fs)).1) = (ahead s fs).reverse.headD header := by
  have hmem : address t ∈ (plug t fs).toList := mem_plug.mpr (.inl (address_mem ht))
  induction fs generalizing t fuel with
  | nil =>
    obtain ⟨fuel, rfl⟩ : ∃ k, fuel = k + 2 := ⟨fuel - 2, by simp at hfuel; omega⟩
    have hne : m.child s (address t) ≠ header := fun he => by
      rcases h.lays.child_mem hmem s with h0 | ⟨hm, _⟩
      · exact absurd (he.symm.trans h0) (by decide)
      · exact (h.lays.mem_ne hm).2 he
    have hpar : m.parent header = address t := h.lays.headerParent
    have hnil : (ahead s []).reverse.headD header = header := by cases s <;> rfl
    rw [above_nil, climbFrom, hnil]
    by_cases hr : address t = m.child s header
    · rw [if_pos hr, hpar, climbFrom, if_neg (fun he => hne he.symm : ¬ header = m.child s (address t))]
      simp [← hr]
    · rw [if_neg hr]
      simp [hne]
  | cons f fs ih =>
    obtain ⟨fuel, rfl⟩ : ∃ k, fuel = k + 1 := ⟨fuel - 1, by simp at hfuel; omega⟩
    have hl : f.label ∈ (plug t (f :: fs)).toList := mem_plug.mpr (.inr (mem_labels_cons.mpr (.inl rfl)))
    have hiff := h.lays.child_eq_iff ht hl s
    obtain ⟨s', d, b, u⟩ := f
    have hB : Represents m (plug (join s' d t b u) fs) := h
    have hjoin : join s' d t b u ≠ .nil := by cases s' <;> nofun
    have hpar : m.parent b = above header fs := by simpa using hB.lays.parent_eq hjoin
    rw [above_cons, climbFrom]
    by_cases hs : s' = s
    · subst hs
      have he : address t = m.child s' b := (hiff.mpr ⟨_, _, rfl, rfl, rfl⟩).symm
      have hrec := ih hB hjoin (by simpa using hfuel) (mem_plug.mpr (.inl (address_mem hjoin)))
      rw [address_join] at hrec
      rw [if_pos he, hpar, hrec, ahead_cons_same]
    · -- the node above is the next one, and not the child of its own child
      have hne : address t ≠ m.child s b := fun he => by
        obtain ⟨f, gs, hf, -, hs'⟩ := hiff.mp he.symm
        rw [← (List.cons.inj hf).1] at hs'
        exact hs hs'.symm
      have hchild : m.child s (address t) ≠ b := fun he => by
        rcases h.lays.child_mem hmem s with h0 | ⟨_, hp⟩
        · exact (h.lays.mem_ne hl).1 (he.symm.trans h0)
        · rw [he, hpar] at hp
          exact hB.lays.ne_above (mem_join.mpr (.inr (.inl (address_mem ht)))) hp.symm
      obtain rfl : s' = s.other := by cases s <;> cases s' <;> simp_all [Side.other]
      rw [if_neg hne, if_pos hchild, headD_ahead_cons_other]

theorem Represents.stepTo_eq {X Y : List Ptr} (h : Represents m T) (hT : fromEnd s.other T.toList = X ++ p :: Y) :
    m.stepTo s p = Y.headD header := by
  have hp : p ∈ T.toList := by
    rw [← mem_fromEnd (s := s.other), hT]
    simp
  obtain ⟨c, l, r, fs, rfl⟩ := exists_plug_of_mem hp
  obtain ⟨near, far, hj⟩ := exists_join s c l r p
  rw [hj] at h hT
  have hlist : fromEnd s.other (plug (join s c near p far) fs).toList =
      (ahead s.other fs ++ fromEnd s.other far.toList) ++ p :: (fromEnd s.other near.toList ++ (ahead s fs).reverse) := by
    rw [fromEnd_plug, ← join_other, fromEnd_join]
    cases s <;> simp [Side.other]
  have hnd : (fromEnd s.other (plug (join s c near p far) fs).toList).Nodup := by
    cases s
    · exact List.nodup_reverse.mpr h.lays.nodup
    · exact h.lays.nodup
  rw [hlist] at hnd
  obtain ⟨_, hpn, hd⟩ := List.nodup_append'.mp hnd
  have hsplit := (List.append_cons_inj_of_notMem (fun hm => hd hm (by simp)) (List.nodup_cons.mp hpn).1).mp
    (hlist.symm.trans hT)
  rw [← hsplit.2.2]
  have hlen := h.length_lt
  have hle := length_le_labels fs
  rw [toList_plug] at hlen
  rw [labels] at hle
  have hjlen : (join s c near p far).toList.length = near.toList.length + far.toList.length + 1 := by
    cases s <;> simp [join] <;> omega
  simp only [List.length_append] at hlen hle
  have hchild : m.child s p = address near := h.lays.child_eq
  have hnear : Lays m (plug near (⟨s, c, p, far⟩ :: fs)) := h.lays
  have hne : join s c near p far ≠ .nil := by cases s <;> rintro ⟨⟩
  unfold stepTo
  rw [hchild]
  by_cases hn : near = .nil
  · subst hn
    have hpar : m.parent p = above header fs := by simpa using h.lays.parent_eq hne
    have hclimb := climbFrom_spec s h hne (show fs.length + 2 ≤ m.next by omega)
    rw [address_join] at hclimb
    rw [if_neg (by simp [address]), hpar]
    refine hclimb.trans ?_
    cases s <;> rfl
  · rw [if_pos fun h0 => hn (hnear.address_eq_null.mp h0),
      extreme_eq hnear hn (show near.toList.length ≤ m.next by omega) header]
    cases hX : fromEnd s.other near.toList with
    | nil =>
      have hl := congrArg List.length hX
      rw [length_fromEnd] at hl
      cases near with
      | nil => exact absurd rfl hn
      | node c' l' a' r' => simp at hl
    | cons z L => rfl

omit [LinearOrder K] in
theorem climb_eq (m : RBTreeMap K V) (node y : Ptr) : climb fuel m node y = climbFrom .right fuel m node y := by
  induction fuel generalizing node y with
  | zero => rfl
  | succ fuel ih =>
    unfold climb climbFrom
    rw [ih]
    rfl

/-- `increment` gives the next node in order. -/
theorem Represents.increment_eq {X Y : List Ptr} (h : Represents m T) (hT : T.toList = X ++ p :: Y) :
    m.increment p = Y.headD header := by
  unfold increment
  rw [climb_eq]
  exact h.stepTo_eq (s := .right) hT

end Increment

section Erase
theorem Represents.ne_nil (hp : p ∈ T.toList) : T ≠ .nil := by
  rintro rfl
  cases hp

/-- `remove` of the key at a node. -/
theorem remove_at (h : Represents m T) (hp : p ∈ T.toList) (hstale : Intact stale m p) :
    ∃ T', Represents (remove stale m.next m m.root (m.first p)).1 T' ∧ T'.toList = T.toList.filter (· ≠ p) ∧
      (remove stale m.next m m.root (m.first p)).1.first = m.first ∧
      (remove stale m.next m m.root (m.first p)).1.second = m.second ∧
      (remove stale m.next m m.root (m.first p)).1.next = m.next ∧
      (remove stale m.next m m.root (m.first p)).1.color header = m.color header := by
  have hall : ∀ q ∈ T.toList, m.first q = m.first p → Intact stale m q := fun q hq he =>
    h.eq_of_first hq hp he ▸ hstale
  obtain ⟨T', hT', hl, h1, h2, h3, h4, -⟩ := remove_spec h (Represents.ne_nil hp) hall
  exact ⟨T', hT', hl.trans (h.filter_key hp).symm, h1, h2, h3, h4⟩

/-- `erase(position)`. -/
theorem eraseAt_spec {X Y : List Ptr} (h : Represents m T) (hT : T.toList = X ++ p :: Y) (hstale : Intact stale m p) :
    ∃ T', Represents (m.eraseAt stale p).1 T' ∧ T'.toList = X ++ Y ∧ (m.eraseAt stale p).1.first = m.first ∧
      (m.eraseAt stale p).1.second = m.second ∧ (m.eraseAt stale p).1.color header = m.color header ∧
      (m.eraseAt stale p).2 = Y.headD header := by
  have hp : p ∈ T.toList := by simp [hT]
  obtain ⟨h0, hh⟩ := h.lays.mem_ne hp
  obtain ⟨T', hT', hl, h1, h2, -, h3⟩ := remove_at h hp hstale
  unfold eraseAt
  rw [if_neg (not_or.mpr ⟨h0, hh⟩)]
  have hn := h.lays.nodup
  rw [hT] at hl hn
  exact ⟨T', hT', hl.trans (filter_ne_append hn), h1, h2, h3, h.increment_eq hT⟩

/-- Every deletion of the loop leaves the link it reads again intact. -/
def RangeIntact (stale : Ptr → Ptr → Ptr) (last : Ptr) : ℕ → RBTreeMap K V → Ptr → Prop
  | 0, _, _ => True
  | fuel + 1, m, first => first ≠ last → Intact stale m first ∧
    RangeIntact stale last fuel (remove stale m.next m m.root (m.first first)).1 (m.increment first)

theorem eraseLoop_spec {X Z W : List Ptr} {last : Ptr} (h : Represents m T) (hT : T.toList = X ++ (Z ++ W))
    (hp : p = (Z ++ W).headD header) (hlast : last = W.headD header) (hfuel : Z.length ≤ fuel)
    (hstale : RangeIntact stale last fuel m p) : ∃ T', Represents (eraseLoop stale last fuel m p) T' ∧
      T'.toList = X ++ W ∧ (eraseLoop stale last fuel m p).first = m.first ∧
      (eraseLoop stale last fuel m p).second = m.second ∧
      (eraseLoop stale last fuel m p).color header = m.color header := by
  induction Z generalizing m T p fuel with
  | nil =>
    have he : p = last := hp.trans hlast.symm
    cases fuel with
    | zero => exact ⟨T, h, hT, rfl, rfl, rfl⟩
    | succ fuel =>
      rw [eraseLoop, if_neg (not_not.mpr he)]
      exact ⟨T, h, hT, rfl, rfl, rfl⟩
  | cons z Z ih =>
    obtain ⟨fuel, rfl⟩ : ∃ k, fuel = k + 1 := ⟨fuel - 1, by simp at hfuel; omega⟩
    obtain rfl : p = z := hp
    have hm : p ∈ T.toList := by simp [hT]
    have hn := h.lays.nodup
    rw [hT] at hn
    have hne : p ≠ last := by
      rw [hlast]
      cases W with
      | nil => exact (h.lays.mem_ne hm).2
      | cons w W =>
        rintro rfl
        simp [List.nodup_append'] at hn
    rw [eraseLoop, if_pos hne]
    obtain ⟨hi, hrest⟩ := hstale hne
    obtain ⟨T', hT', hl, h1, h2, -, h3⟩ := remove_at h hm hi
    have hl' : T'.toList = X ++ (Z ++ W) := by
      rw [hl, hT]
      exact filter_ne_append hn
    obtain ⟨T'', hT'', hl'', h1', h2', h3'⟩ := ih hT' hl' (h.increment_eq hT) (by simpa using hfuel) hrest
    exact ⟨T'', hT'', hl'', h1'.trans h1, h2'.trans h2, h3'.trans h3⟩

/-- `erase(first, last)`, for iterators that cut out a part of the list. -/
theorem eraseRange_split {X Z W : List Ptr} {last : Ptr} (h : Represents m T) (hT : T.toList = X ++ (Z ++ W))
    (hp : p = (Z ++ W).headD header) (hlast : last = W.headD header)
    (hstale : ¬ (p = m.begin ∧ last = header) → RangeIntact stale last m.next m p) :
    ∃ T', Represents (m.eraseRange stale p last).1 T' ∧ T'.toList = X ++ W ∧
      (m.eraseRange stale p last).1.first = m.first ∧ (m.eraseRange stale p last).1.second = m.second ∧
      (m.eraseRange stale p last).1.color header = m.color header ∧ (m.eraseRange stale p last).2 = last := by
  have hlen := h.length_lt
  rw [hT] at hlen
  simp only [List.length_append] at hlen
  unfold eraseRange
  split_ifs with hall
  · obtain ⟨hclear, hcf, hcs, -, hcc⟩ := clear_spec (h.lays.root.trans h.lays.headerParent.symm) h.next
    have hn := h.lays.nodup
    rw [hT] at hn
    have hW : W = [] := by
      cases W with
      | nil => rfl
      | cons w W => exact absurd (hlast.symm.trans hall.2) (h.lays.mem_ne (x := w) (by simp [hT])).2
    have hX : X = [] := by
      cases X with
      | nil => rfl
      | cons x X =>
        have hx : p = x := hall.1.trans (h.first.trans (by rw [hT]; rfl))
        subst hW
        cases Z with
        | nil => exact absurd (hx.symm.trans hp) (h.lays.mem_ne (x := x) (by simp [hT])).2
        | cons z Z =>
          have hz : x = z := hx.symm.trans hp
          subst hz
          simp at hn
    subst hW hX
    exact ⟨.nil, hclear, rfl, hcf, hcs, hcc, hall.2.symm⟩
  · obtain ⟨T', hT', hl, h1, h2, h3⟩ := eraseLoop_spec h hT hp hlast (by omega) (hstale hall)
    exact ⟨T', hT', hl, h1, h2, h3, rfl⟩

end Erase

section Valid
/-- A node that links lead to from the root. -/
inductive InTree (m : RBTreeMap K V) : Ptr → Prop
  | root (h : m.root ≠ null) : InTree m m.root
  | child {p : Ptr} (s : Side) (h : InTree m p) (hc : m.child s p ≠ null) : InTree m (m.child s p)

theorem Represents.inTree_iff (h : Represents m T) : InTree m p ↔ p ∈ T.toList := by
  constructor
  · intro hp
    induction hp with
    | root h0 =>
      rw [h.lays.root]
      exact address_mem fun ht => h0 (h.root_eq_null.mpr ht)
    | child s hp hc ih => exact ((h.lays.child_mem ih s).resolve_left hc).1
  · have hsub : ∀ {t : RBTree Ptr} {fs : List (Frame Ptr)}, Lays m (plug t fs) → (t ≠ .nil → InTree m (address t)) →
        p ∈ t.toList → InTree m p := by
      intro t
      induction t with
      | nil => exact fun _ _ hp => nomatch hp
      | node c l a r hl hr =>
        intro fs h ha hp
        have hroot : InTree m a := ha nofun
        have hL : Lays m (plug l (⟨.left, c, a, r⟩ :: fs)) := h
        have hR : Lays m (plug r (⟨.right, c, a, l⟩ :: fs)) := h
        have hleft : m.child .left a = address l := h.left_eq
        have hright : m.child .right a = address r := h.right_eq
        simp only [toList, List.mem_append, List.mem_cons] at hp
        rcases hp with hp | rfl | hp
        · refine hl hL (fun h0 => ?_) hp
          rw [← hleft]
          exact hroot.child .left fun hn => h0 (hL.address_eq_null.mp (hleft.symm.trans hn))
        · exact hroot
        · refine hr hR (fun h0 => ?_) hp
          rw [← hright]
          exact hroot.child .right fun hn => h0 (hR.address_eq_null.mp (hright.symm.trans hn))
    refine hsub h.lays.whole fun h0 => ?_
    rw [← h.lays.root]
    exact .root fun hn => h0 (h.root_eq_null.mp hn)

structure ValidRange (m : RBTreeMap K V) (first last : Ptr) : Prop where
  begins : InTree m first ∨ first = header
  ends : InTree m last ∨ last = header
  order : last = header ∨ first ≠ header ∧ m.first first ≤ m.first last

/-- The keys from the first iterator to before the second. -/
def InRange (m : RBTreeMap K V) (first last : Ptr) (k : K) : Prop :=
  first ≠ header ∧ m.first first ≤ k ∧ (last = header ∨ k < m.first last)

/-- A valid range cuts out a part of the list. -/
theorem ValidRange.split {last : Ptr} (h : Represents m T) (hr : ValidRange m p last) : ∃ X Z W,
    T.toList = X ++ (Z ++ W) ∧ p = (Z ++ W).headD header ∧ last = W.headD header ∧
      (∀ q ∈ Z, InRange m p last (m.first q)) ∧ ∀ q ∈ X ++ W, ¬ InRange m p last (m.first q) := by
  obtain ⟨hp, hl, ho⟩ := hr
  rw [h.inTree_iff] at hp hl
  by_cases hph : p = header
  · have hlh : last = header := ho.resolve_right fun ho => ho.1 hph
    subst hph hlh
    exact ⟨T.toList, [], [], by simp, rfl, rfl, by simp, fun q _ hq => hq.1 rfl⟩
  · have hpT := hp.resolve_right hph
    obtain ⟨X, Y, hT⟩ := List.append_of_mem hpT
    have hs := h.sorted
    rw [hT] at hs
    obtain ⟨_, hpY, hXY⟩ := List.pairwise_append.mp hs
    obtain ⟨hpY, hYs⟩ := List.pairwise_cons.mp hpY
    have hX : ∀ q ∈ X, ¬ InRange m p last (m.first q) := fun q hq hr =>
      not_lt.mpr hr.2.1 (hXY q hq p (by simp))
    by_cases hlh : last = header
    · refine ⟨X, p :: Y, [], by simp [hT], rfl, hlh, fun q hq => ⟨hph, ?_, .inl hlh⟩, by simpa using hX⟩
      rcases List.mem_cons.mp hq with rfl | hq
      · exact le_rfl
      · exact le_of_lt (hpY q hq)
    · have hlT := hl.resolve_right hlh
      have hle := (ho.resolve_left hlh).2
      rw [hT, List.mem_append, List.mem_cons] at hlT
      rcases hlT with hlX | rfl | hlY
      · exact absurd (hXY last hlX p (by simp)) (not_lt.mpr hle)
      · refine ⟨X, [], last :: Y, hT, rfl, rfl, by simp, fun q hq hr => ?_⟩
        rcases List.mem_append.mp hq with hq | hq
        · exact hX q hq hr
        · exact absurd (lt_of_le_of_lt hr.2.1 (hr.2.2.resolve_left hlh)) (lt_irrefl _)
      · obtain ⟨Z, W, rfl⟩ := List.append_of_mem hlY
        obtain ⟨_, hW, hZW⟩ := List.pairwise_append.mp hYs
        refine ⟨X, p :: Z, last :: W, by simp [hT], rfl, rfl, fun q hq => ⟨hph, ?_, .inr ?_⟩, fun q hq hr => ?_⟩
        · rcases List.mem_cons.mp hq with rfl | hq
          · exact le_rfl
          · exact le_of_lt (hpY q (by simp [hq]))
        · rcases List.mem_cons.mp hq with rfl | hq
          · exact hpY last (by simp)
          · exact hZW q hq last (by simp)
        · rcases List.mem_append.mp hq with hq | hq
          · exact hX q hq hr
          · have hlt := hr.2.2.resolve_left hlh
            rcases List.mem_cons.mp hq with rfl | hq
            · exact lt_irrefl _ hlt
            · exact lt_asymm hlt ((List.pairwise_cons.mp hW).1 q hq)

theorem eraseRange_spec {last : Ptr} (h : Represents m T) (hr : ValidRange m p last)
    (hstale : ¬ (p = m.begin ∧ last = header) → RangeIntact stale last m.next m p) :
    ∃ T', Represents (m.eraseRange stale p last).1 T' ∧
      (∀ q, q ∈ T'.toList ↔ q ∈ T.toList ∧ ¬ InRange m p last (m.first q)) ∧
      (m.eraseRange stale p last).1.first = m.first ∧ (m.eraseRange stale p last).1.second = m.second ∧
      (m.eraseRange stale p last).1.color header = m.color header ∧ (m.eraseRange stale p last).2 = last := by
  obtain ⟨X, Z, W, hT, hp, hl, hin, hout⟩ := hr.split h
  obtain ⟨T', hT', hlist, h1, h2, h3, h4⟩ := eraseRange_split h hT hp hl hstale
  refine ⟨T', hT', fun q => ?_, h1, h2, h3, h4⟩
  rw [hlist, hT]
  constructor
  · intro hq
    refine ⟨?_, hout q hq⟩
    simp only [List.mem_append] at hq ⊢
    tauto
  · rintro ⟨hq, hn⟩
    simp only [List.mem_append] at hq ⊢
    rcases hq with hq | hq | hq
    · exact .inl hq
    · exact absurd (hin q hq) hn
    · exact .inr hq

end Valid

end Zpc.RBTreeMap

/-!
## Runs of the red-black tree map

After any sequence of operations the map holds a red-black search tree, if the memory of every leaf that an operation
deletes keeps the link to its parent until the operation has read it again.
-/
namespace Zpc.RBTreeMap
open RedBlackTree (Color Side RBTree)
open RedBlackTree.RBTree

variable {K V : Type*}

/-- An operation of a client; an erasure comes with what the parent field of a freed node then reads as. -/
inductive Op (K V : Type*)
  | insert (key : K) (value : V)
  | access (key : K) (assigned : Option V)
  | erase (stale : Ptr → Ptr → Ptr) (key : K)
  | eraseAt (stale : Ptr → Ptr → Ptr) (position : Ptr)
  | eraseRange (stale : Ptr → Ptr → Ptr) (first last : Ptr)
  | clear

/-- What an operation returns; of a reference, the value that it refers to. -/
inductive Result (V : Type*)
  | void
  | value (v : V)
  | number (n : ℕ)
  | iterator (p : Ptr)

section Steps
variable [LinearOrder K] [Inhabited V]

/-- `access` is `operator[]`, followed by an assignment to the reference or not. -/
def step (m : RBTreeMap K V) : Op K V → RBTreeMap K V × Result V
  | .insert key value => (m.insert key value, .void)
  | .access key assigned =>
    let r := m.getOrDefault key
    (match assigned with
      | none => r.1
      | some value => r.1.setSecond r.2 value, .value (r.1.second r.2))
  | .erase stale key => ((m.erase stale key).1, .number (m.erase stale key).2)
  | .eraseAt stale position => ((m.eraseAt stale position).1, .iterator (m.eraseAt stale position).2)
  | .eraseRange stale first last =>
    ((m.eraseRange stale first last).1, .iterator (m.eraseRange stale first last).2)
  | .clear => (m.clear, .void)

/-- The iterators are valid, and the deletions leave the links that they read again intact. -/
def Permits (m : RBTreeMap K V) : Op K V → Prop
  | .insert _ _ => True
  | .access _ _ => True
  | .erase stale key => ∀ p, m.InTree p → m.first p = key → Intact stale m p
  | .eraseAt stale position => position = null ∨ position = header ∨ m.InTree position ∧ Intact stale m position
  | .eraseRange stale first last => ValidRange m first last ∧
    (¬ (first = m.begin ∧ last = header) → RangeIntact stale last m.next m first)
  | .clear => True

def run (m : RBTreeMap K V) : List (Op K V) → RBTreeMap K V
  | [] => m
  | op :: ops => (m.step op).1.run ops

/-- Every operation is permitted where it is done. -/
def PermitsAll (m : RBTreeMap K V) : List (Op K V) → Prop
  | [] => True
  | op :: ops => m.Permits op ∧ (m.step op).1.PermitsAll ops

end Steps

variable [LinearOrder K] {m : RBTreeMap K V} {T : RBTree Ptr} {ops : List (Op K V)} {op : Op K V}

theorem make_represents [Inhabited K] [Inhabited V] : Represents (make : RBTreeMap K V) .nil :=
  ⟨⟨trivial, rfl, rfl, by simp, by simp⟩, ⟨0, .nil⟩, by simp, rfl, rfl, rfl, by simp, Nat.one_lt_two⟩

variable [Inhabited V]

theorem step_represents (h : Represents m T) (hp : m.Permits op) : ∃ T', Represents (m.step op).1 T' := by
  cases op with
  | insert key value =>
    obtain ⟨T', hT', -⟩ := insert_spec key value h
    exact ⟨T', hT'⟩
  | access key assigned =>
    obtain ⟨T', hT', -⟩ := getOrDefault_spec key h
    cases assigned with
    | none => exact ⟨T', hT'⟩
    | some value => exact ⟨T', hT'.setSecond _ value⟩
  | erase stale key =>
    obtain ⟨T', hT', -⟩ := erase_spec key h fun p hm hf => hp p (h.inTree_iff.mpr hm) hf
    exact ⟨T', hT'⟩
  | eraseAt stale position =>
    rcases hp with hp | hp | ⟨hp, hi⟩
    · exact ⟨T, by rwa [step, eraseAt, if_pos (.inl hp)]⟩
    · exact ⟨T, by rwa [step, eraseAt, if_pos (.inr hp)]⟩
    · obtain ⟨X, Y, hT⟩ := List.append_of_mem (h.inTree_iff.mp hp)
      obtain ⟨T', hT', -⟩ := eraseAt_spec h hT hi
      exact ⟨T', hT'⟩
  | eraseRange stale first last =>
    obtain ⟨T', hT', -⟩ := eraseRange_spec h hp.1 hp.2
    exact ⟨T', hT'⟩
  | clear => exact ⟨.nil, (clear_spec (h.lays.root.trans h.lays.headerParent.symm) h.next).1⟩

theorem run_represents (h : Represents m T) (hp : m.PermitsAll ops) : ∃ T', Represents (m.run ops) T' := by
  induction ops generalizing m T with
  | nil => exact ⟨T, h⟩
  | cons op ops ih =>
    obtain ⟨T', hT'⟩ := step_represents h hp.1
    exact ih hT' hp.2

/-- Every permitted sequence of operations on a new map leaves a red-black search tree in it. -/
theorem run_make_represents [Inhabited K] (ops : List (Op K V)) (hp : make.PermitsAll ops) :
    ∃ T, Represents (make.run ops : RBTreeMap K V) T :=
  run_represents make_represents hp

theorem run_make_represents_erase : ∃ T, Represents
    (make.run [.insert 1 10, .insert 2 20, .erase (fun _ q => q) 2] : RBTreeMap ℕ ℕ) T :=
  run_make_represents _ ⟨trivial, trivial, fun _ _ _ _ _ _ => rfl, trivial⟩

/-- The leaf's memory reads as null after it is freed: the link to it stays in its parent. -/
theorem run_clobbered : ¬ ∃ T, Represents
    (make.run [.insert 1 10, .insert 2 20, .erase (fun _ _ => null) 2] : RBTreeMap ℕ ℕ) T := by
  rintro ⟨T, h⟩
  have hroot : address T = 2 := h.lays.root.symm
  have hcount : T.toList.length = 1 := h.count.symm
  cases T with
  | nil => cases hcount
  | node c l a r =>
    obtain rfl : a = 2 := hroot
    have hright : address r = 3 := (h.lays.linked.2.2.2.1).symm
    cases r with
    | nil => cases hright
    | node c' l' a' r' =>
      simp only [toList, List.length_append, List.length_cons] at hcount
      omega

end Zpc.RBTreeMap
