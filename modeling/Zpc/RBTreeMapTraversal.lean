import Zpc.RBTreeMapIterators

/-!
# Forward and reverse iteration over the red-black tree map

The four iterators of `RBTreeMap.hpp`. Each goes through the nodes from one end and back; only the constant reverse
iterator goes from the end to the wrong one.
-/
namespace Zpc.RBTreeMap
open RedBlackTree (Color Side RBTree)
open RedBlackTree.RBTree

/-! ## Steps along a list -/

section Walk
variable {A : Type*} {L : List A} {e : A} {next prev : A → A}

/-- A step goes from each element of the list to the next one, and from the last to the end. -/
def Walks (L : List A) (e : A) (next : A → A) : Prop := ∀ X p Y, L = X ++ p :: Y → next p = Y.headD e

theorem Walks.iterate (h : Walks L e next) {k : ℕ} (hk : k ≤ L.length) : next^[k] (L.headD e) = L.getD k e := by
  induction k with
  | zero => cases L <;> rfl
  | succ k ih =>
    rw [Function.iterate_succ_apply', ih (by omega), List.getD_eq_getElem?_getD, List.getElem?_eq_getElem hk, Option.getD_some]
    rw [h (L.take k) L[k] (L.drop (k + 1)) (by rw [List.getElem_cons_drop, List.take_append_drop])]
    rw [List.headD_eq_head?_getD, List.head?_drop, List.getD_eq_getElem?_getD]

theorem Walks.map_range (h : Walks L e next) : (List.range L.length).map (fun k => next^[k] (L.headD e)) = L := by
  apply List.ext_getElem (by simp)
  intro k h1 h2
  rw [List.getElem_map, List.getElem_range, h.iterate h2.le, List.getD_eq_getElem?_getD, List.getElem?_eq_getElem h2,
    Option.getD_some]

/-- Back from the end, the elements come in the reverse order. -/
theorem Walks.map_range_back (h : Walks L.reverse e prev) (he : prev e = L.reverse.headD e) :
    (List.range L.length).map (fun k => prev^[k + 1] e) = L.reverse := by
  have hmap := h.map_range
  rw [List.length_reverse] at hmap
  calc (List.range L.length).map (fun k => prev^[k + 1] e)
      = (List.range L.length).map (fun k => prev^[k] (L.reverse.headD e)) := by
        simp only [Function.iterate_succ_apply, he]
    _ = L.reverse := hmap

theorem Walks.undo (h : Walks L e next) (h' : Walks L.reverse e prev) (he : prev e = L.reverse.headD e) {p : A}
    (hp : p ∈ L) : prev (next p) = p := by
  obtain ⟨X, Y, rfl⟩ := List.append_of_mem hp
  rw [h X p Y rfl]
  cases Y with
  | nil =>
    rw [List.headD_nil, he]
    simp
  | cons y Y => exact h' Y.reverse y (p :: X.reverse) (by simp)

end Walk

/-! ## The iterators -/

section Iterators
variable {K V : Type*}

/-- `isRed() && parent->parent == _node`, which is to tell the header from the root. -/
def isHeader (m : RBTreeMap K V) (x : Ptr) : Prop := m.color x = .red ∧ m.parent (m.parent x) = x

instance (m : RBTreeMap K V) (x : Ptr) : Decidable (m.isHeader x) := by
  unfold isHeader
  infer_instance

def stepBack (s last : Side) (m : RBTreeMap K V) (x : Ptr) : Ptr :=
  if m.isHeader x then m.child last x else m.stepTo s x

inductive IteratorKind
  | iterator | constIterator | reverseIterator | constReverseIterator
  deriving DecidableEq

namespace IteratorKind
/-- `begin`, `cbegin`, `rbegin` and `crbegin`. -/
def begin (m : RBTreeMap K V) : IteratorKind → Ptr
  | .iterator | .constIterator => m.left header
  | .reverseIterator | .constReverseIterator => m.right header

def increment (m : RBTreeMap K V) : IteratorKind → Ptr → Ptr
  | .iterator | .constIterator => m.stepTo .right
  | .reverseIterator | .constReverseIterator => m.stepTo .left

def decrement (m : RBTreeMap K V) : IteratorKind → Ptr → Ptr
  | .iterator | .constIterator => m.stepBack .left .right
  | .reverseIterator => m.stepBack .right .left
  | .constReverseIterator => m.stepBack .right .right

def visits (m : RBTreeMap K V) (kind : IteratorKind) : List Ptr :=
  (List.range m.size).map fun k => (kind.increment m)^[k] (kind.begin m)

def visitsBack (m : RBTreeMap K V) (kind : IteratorKind) : List Ptr :=
  (List.range m.size).map fun k => (kind.decrement m)^[k + 1] header

def side : IteratorKind → Side
  | .iterator | .constIterator => .left
  | .reverseIterator | .constReverseIterator => .right

def Precedes [LT K] (kind : IteratorKind) (k k' : K) : Prop :=
  match kind.side with
  | .left => k < k'
  | .right => k' < k

/-- Every node once, in the order of the keys, forward up to the end and backward from it. -/
structure Traverses [LinearOrder K] (m : RBTreeMap K V) (kind : IteratorKind) : Prop where
  nodes : ∀ p, p ∈ kind.visits m ↔ m.InTree p
  ordered : (kind.visits m).Pairwise fun p q => kind.Precedes (m.first p) (m.first q)
  ends : (kind.increment m)^[m.size] (kind.begin m) = header
  backward : kind.visitsBack m = (kind.visits m).reverse
  undo : ∀ p, m.InTree p → kind.decrement m (kind.increment m p) = p

end IteratorKind

end Iterators

section Steps
variable {K V : Type*} [LinearOrder K] {m : RBTreeMap K V} {t T : RBTree Ptr} {fs : List (Frame Ptr)} {c : Color}
  {s : Side} {b p : Ptr} {u : RBTree Ptr} {fuel : ℕ}

/-- A node of the tree is not taken for the header: a red one is not the root. -/
theorem Represents.not_isHeader (h : Represents m T) (hp : p ∈ T.toList) : ¬ m.isHeader p := by
  rintro ⟨hred, hpar⟩
  obtain ⟨c, l, r, fs, rfl⟩ := exists_plug_of_mem hp
  have hparent : m.parent p = above header fs := h.lays.parent_eq nofun
  cases fs with
  | nil =>
    obtain ⟨n, hbal⟩ := h.balanced
    have hcolor : m.color p = c := Lays.color_eq (s := .left) h.lays
    have hbal : (RBTree.node c l p r).Balanced .black n := hbal
    cases hbal with
    | black _ _ => rw [hcolor] at hred; cases hred
  | cons f fs =>
    have hB : Lays m (plug (join f.side f.color (.node c l p r) f.label f.sibling) fs) := h.lays
    have hlabel : m.parent f.label = above header fs := by
      simpa using hB.parent_eq (by cases f.side <;> nofun)
    rw [hparent] at hpar
    exact hB.ne_above (mem_join.mpr (.inr (.inl (by simp)))) (hpar.symm.trans hlabel)

theorem Represents.isHeader (h : Represents m T) (ht : T ≠ .nil) (hc : m.color header = .red) : m.isHeader header := by
  refine ⟨hc, ?_⟩
  have hroot : m.parent header = address T := h.lays.headerParent
  rw [hroot]
  exact h.lays.whole.parent_eq ht

end Steps

section HeaderColor
variable {K V : Type*} [LinearOrder K] {m : RBTreeMap K V} {t far : RBTree Ptr} {fs : List (Frame Ptr)} {s : Side}
  {c : Color} {a : Ptr} {key : K} {value : V}

omit [LinearOrder K] in
theorem plant_headerColor (hn : header < m.next) : (m.plant key value).color header = m.color header := by
  simp [plant, color_mk, Nat.ne_of_lt hn]

omit [LinearOrder K] in
theorem link_headerColor (hn : header < m.next) : (m.link s a key value).color header = m.color header := by
  rw [link_eq]
  split_ifs <;> simp [attach, Nat.ne_of_lt hn]

theorem maintainNew_headerColor (h : Represents m (plug (join s c .nil a far) fs)) :
    ((m.link s a key value).maintainNew m.next).color header = m.color header := by
  obtain ⟨-, -, -, -, hkeep⟩ := maintainNew_spec key value h
  exact hkeep.headerColor.trans (link_headerColor h.next)

variable (key value) in
theorem insert_headerColor (h : Represents m t) : (m.insert key value).color header = m.color header := by
  unfold insert
  by_cases ht : t = .nil
  · rw [if_pos (h.root_eq_null.mpr ht), plant_headerColor h.next]
  · rw [if_neg fun h0 => ht (h.root_eq_null.mp h0), insertNode_eq, h.lays.root]
    rcases descend_spec h.lays.whole h.sorted ht ⟨by simp [before], by simp [after]⟩ (Nat.le_of_lt h.length_lt) with
      ⟨p, hp, hf, he⟩ | ⟨s, c, a, far, gs, hg, hk, he⟩
    · rw [he, color_setSecond]
    · rw [he]
      have hg : t = _ := hg
      exact maintainNew_headerColor (hg ▸ h)

variable (key) in
theorem getOrDefault_headerColor [Inhabited V] (h : Represents m t) :
    (m.getOrDefault key).1.color header = m.color header := by
  unfold getOrDefault
  by_cases ht : t = .nil
  · rw [if_pos (h.root_eq_null.mpr ht), plant_headerColor h.next]
  · rw [if_neg fun h0 => ht (h.root_eq_null.mp h0), getNodeOrProvide_eq, h.lays.root]
    rcases descend_spec h.lays.whole h.sorted ht ⟨by simp [before], by simp [after]⟩ (Nat.le_of_lt h.length_lt) with
      ⟨p, hp, hf, he⟩ | ⟨s, c, a, far, gs, hg, hk, he⟩
    · rw [he]
    · rw [he]
      have hg : t = _ := hg
      exact maintainNew_headerColor (hg ▸ h)

variable [Inhabited V] {op : Op K V} {ops : List (Op K V)}

/-- No operation paints the header. -/
theorem step_headerColor (h : Represents m t) (hp : m.Permits op) : (m.step op).1.color header = m.color header := by
  cases op with
  | insert key value => exact insert_headerColor key value h
  | access key assigned =>
    have hcolor := getOrDefault_headerColor key h
    cases assigned with
    | none => exact hcolor
    | some value => exact (color_setSecond ..).trans hcolor
  | erase stale key =>
    obtain ⟨_, -, -, -, -, hcolor, -⟩ := erase_spec key h fun p hm hf => hp p (h.inTree_iff.mpr hm) hf
    exact hcolor
  | eraseAt stale position =>
    rcases hp with hp | hp | ⟨hp, hi⟩
    · rw [step, eraseAt, if_pos (.inl hp)]
    · rw [step, eraseAt, if_pos (.inr hp)]
    · obtain ⟨X, Y, hT⟩ := List.append_of_mem (h.inTree_iff.mp hp)
      obtain ⟨_, -, -, -, -, hcolor, -⟩ := eraseAt_spec h hT hi
      exact hcolor
  | eraseRange stale first last =>
    obtain ⟨_, -, -, -, -, hcolor, -⟩ := eraseRange_spec h hp.1 hp.2
    exact hcolor
  | clear => exact (clear_spec (h.lays.root.trans h.lays.headerParent.symm) h.next).2.2.2.2

theorem run_headerColor (h : Represents m t) (hp : m.PermitsAll ops) : (m.run ops).color header = m.color header := by
  induction ops generalizing m t with
  | nil => rfl
  | cons op ops ih =>
    obtain ⟨T, hT⟩ := step_represents h hp.1
    exact (ih hT hp.2).trans (step_headerColor h hp.1)

end HeaderColor

section Traversal
variable {K V : Type*} [LinearOrder K] {m : RBTreeMap K V} {T : RBTree Ptr}

namespace IteratorKind
omit [LinearOrder K] in
theorem begin_eq (m : RBTreeMap K V) (kind : IteratorKind) : kind.begin m = m.child kind.side header := by
  cases kind <;> rfl

omit [LinearOrder K] in
theorem increment_eq (m : RBTreeMap K V) (kind : IteratorKind) : kind.increment m = m.stepTo kind.side.other := by
  cases kind <;> rfl

theorem walks (h : Represents m T) (kind : IteratorKind) :
    Walks (fromEnd kind.side T.toList) header (kind.increment m) := fun X p Y hL => by
  rw [increment_eq]
  refine h.stepTo_eq (X := X) ?_
  rw [← hL]
  cases kind <;> rfl

theorem visits_eq (h : Represents m T) (kind : IteratorKind) : kind.visits m = fromEnd kind.side T.toList := by
  have hmap := (kind.walks h).map_range
  rw [length_fromEnd, ← h.count, ← h.ends, ← begin_eq] at hmap
  exact hmap

theorem decrement_eq (h : Represents m T) (kind : IteratorKind) {p : Ptr} (hp : p ∈ T.toList) :
    kind.decrement m p = m.stepTo kind.side p := by
  have hn := h.not_isHeader hp
  cases kind <;> exact if_neg hn

theorem walksBack (h : Represents m T) (kind : IteratorKind) :
    Walks (fromEnd kind.side T.toList).reverse header (kind.decrement m) := fun X p Y hL => by
  have hp : p ∈ T.toList := by
    rw [← mem_fromEnd (s := kind.side), ← List.mem_reverse, hL]
    simp
  rw [decrement_eq h kind hp]
  refine h.stepTo_eq (X := X) ?_
  rw [← hL]
  cases kind <;> simp [fromEnd, side, Side.other]

/-- The end that the header leads back to: the wrong one for the constant reverse iterator. -/
def back : IteratorKind → Side
  | .iterator | .constIterator => .right
  | .reverseIterator => .left
  | .constReverseIterator => .right

theorem decrement_header (h : Represents m T) (hc : m.color header = .red) (ht : T ≠ .nil) (kind : IteratorKind) :
    kind.decrement m header = (fromEnd kind.back T.toList).headD header := by
  rw [← h.ends]
  have hh := h.isHeader ht hc
  cases kind <;> exact if_pos hh

theorem ordered_visits (h : Represents m T) (kind : IteratorKind) :
    (kind.visits m).Pairwise fun p q => kind.Precedes (m.first p) (m.first q) := by
  rw [visits_eq h]
  cases kind with
  | iterator => exact h.sorted
  | constIterator => exact h.sorted
  | reverseIterator => exact List.pairwise_reverse.mpr h.sorted
  | constReverseIterator => exact List.pairwise_reverse.mpr h.sorted

/-- All is well if the header leads back to the last node. -/
theorem traverses_of_back (h : Represents m T) (kind : IteratorKind)
    (hb : T ≠ .nil → kind.decrement m header = (fromEnd kind.side T.toList).reverse.headD header) :
    kind.Traverses m := by
  have hlen : m.size = (fromEnd kind.side T.toList).length := by rw [length_fromEnd, ← h.count, size]
  refine ⟨fun p => ?_, ordered_visits h kind, ?_, ?_, fun p hp => ?_⟩
  · rw [visits_eq h, mem_fromEnd, h.inTree_iff]
  · rw [hlen, begin_eq, h.ends, (kind.walks h).iterate le_rfl, List.getD_eq_getElem?_getD, List.getElem?_length,
      Option.getD_none]
  · rw [visits_eq h, visitsBack, hlen]
    by_cases ht : T = .nil
    · subst ht
      cases kind <;> rfl
    · exact (kind.walksBack h).map_range_back (hb ht)
  · rw [h.inTree_iff] at hp
    exact (kind.walks h).undo (kind.walksBack h) (hb (Represents.ne_nil hp)) (mem_fromEnd.mpr hp)

theorem traverses_iff (h : Represents m T) (hc : m.color header = .red) (kind : IteratorKind) :
    kind.Traverses m ↔ (kind = .constReverseIterator → m.size ≤ 1) := by
  have hlen : m.size = T.toList.length := h.count
  constructor
  · rintro ht rfl
    -- from the least key up to the end and back, where the end leads to the greatest one
    by_contra hsize
    obtain ⟨p, L, hL⟩ : ∃ p L, T.toList = p :: L := by
      cases hT : T.toList with
      | nil => simp [hlen, hT] at hsize
      | cons p L => exact ⟨p, L, rfl⟩
    have hp : p ∈ T.toList := by simp [hL]
    have hn := h.lays.nodup
    rw [hL] at hn
    have hnext : increment m .constReverseIterator p = header :=
      walks h .constReverseIterator L.reverse p [] (by rw [side, fromEnd, hL, List.reverse_cons])
    have hundo := ht.undo p (h.inTree_iff.mpr hp)
    rw [hnext, decrement_header h hc (Represents.ne_nil hp), back, headD_fromEnd_right, hL] at hundo
    cases L with
    | nil => simp [hlen, hL] at hsize
    | cons q L =>
      refine (List.nodup_cons.mp hn).1 ?_
      rw [List.getLastD_cons, List.getLastD_cons] at hundo
      exact hundo ▸ List.getLastD_mem_cons
  · intro hsize
    refine traverses_of_back h kind fun ht => ?_
    rw [decrement_header h hc ht]
    cases kind with
    | iterator => rfl
    | constIterator => rfl
    | reverseIterator => rw [back, side, fromEnd, fromEnd, List.reverse_reverse]
    | constReverseIterator =>
      have hle := hsize rfl
      rw [hlen] at hle
      rw [back, side, fromEnd, List.reverse_reverse]
      revert hle
      rcases T.toList with _ | ⟨_, _ | _⟩
      · exact fun _ => rfl
      · exact fun _ => rfl
      · simp

end IteratorKind

variable [Inhabited V]

/-- After every permitted sequence of operations on a new map the iterators go through it in both directions, the
constant reverse one if there is at most one entry. -/
theorem run_make_traverses [Inhabited K] (ops : List (Op K V)) (hp : make.PermitsAll ops) (kind : IteratorKind) :
    kind.Traverses (make.run ops) ↔ (kind = .constReverseIterator → (make.run ops).size ≤ 1) := by
  obtain ⟨T, hT⟩ := run_make_represents ops hp
  exact IteratorKind.traverses_iff hT (run_headerColor make_represents hp) kind

theorem run_make_traverses_erase : IteratorKind.reverseIterator.Traverses
    (make.run [.insert 1 10, .insert 2 20, .insert 3 30, .erase (fun _ q => q) 2] : RBTreeMap ℕ ℕ) :=
  (run_make_traverses [.insert 1 10, .insert 2 20, .insert 3 30, .erase (fun _ q => q) 2]
    ⟨trivial, trivial, trivial, fun _ _ _ _ _ _ => rfl, trivial⟩ .reverseIterator).mpr nofun

/-- Decrementing the end of the constant reverse iterator gives the greatest key and not the least. -/
theorem constReverse_not_traverses : ¬ IteratorKind.constReverseIterator.Traverses
    (make.run [.insert 1 10, .insert 2 20] : RBTreeMap ℕ ℕ) := by
  intro h
  exact absurd h.backward (by decide)

end Traversal

end Zpc.RBTreeMap
