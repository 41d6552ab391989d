import Zpc.RBTreeMapRefinement
import Zpc.RBTreeMapTraversal

/-!
# The bounds of a key in the red-black tree map

`lower_bound` and `upper_bound` go down to a missing child and, from the end of a right branch, up again.
-/
namespace Zpc.RBTreeMap
open RedBlackTree (Color Side RBTree)
open RedBlackTree.RBTree

section Definitions
variable {K V : Type*}

/-- The climb from right children; its test for a null node comes after `getDirection` has read the node. -/
def climbRight : ℕ → RBTreeMap K V → Ptr → Ptr
  | 0, _, x => x
  | fuel + 1, m, x => if m.getDirection x = .right then climbRight fuel m (m.parent x) else x

variable [LinearOrder K]

/-- The loop of both searches. Only `lower_bound` ends it `early`, at the key itself; only `upper_bound` returns the end
for a null parent. -/
def boundFrom (early : Bool) : ℕ → RBTreeMap K V → Ptr → K → Ptr
  | 0, _, _, _ => header
  | fuel + 1, m, x, key =>
    if early ∧ key = m.first x then x
    else if key < m.first x then if m.left x ≠ null then boundFrom early fuel m (m.left x) key else x
    else if m.right x ≠ null then boundFrom early fuel m (m.right x) key
    else
      let y := m.parent (climbRight m.next m x)
      if early = false ∧ y = null then header else y

def lowerBound (m : RBTreeMap K V) (key : K) : Ptr :=
  if m.root = null then header else boundFrom true m.next m m.root key

def upperBound (m : RBTreeMap K V) (key : K) : Ptr :=
  if m.root = null then header else boundFrom false m.next m m.root key

/-- A node of the tree or the end, at the position of the least key of the finite map that has a property. -/
structure LeastWhere (m : RBTreeMap K V) (M : FiniteMap K V) (g : K → Prop) [DecidablePred g] (p : Ptr) : Prop where
  node : m.InTree p ∨ p = header
  least : m.position p = (M.keys.filter g).min

end Definitions

variable {K V : Type*} [LinearOrder K] {m : RBTreeMap K V} {M : FiniteMap K V} {t T : RBTree Ptr}
  {fs : List (Frame Ptr)} {g : K → Prop} {key : K} {early : Bool} {fuel : ℕ}

section Cut
structure Cuts (m : RBTreeMap K V) (g : K → Prop) (X Y : List Ptr) : Prop where
  before : ∀ p ∈ X, ¬ g (m.first p)
  after : ∀ p ∈ Y, g (m.first p)

theorem leastWhere_headD [DecidablePred g] {X Y : List Ptr} (h : Represents m T)
    (hM : ∀ k v, Holds m T k v ↔ M.lookup k = some v) (hT : T.toList = X ++ Y) (hc : Cuts m g X Y) :
    m.LeastWhere M g (Y.headD header) := by
  have hs := h.sorted
  rw [hT] at hs
  have hsub : ∀ q ∈ Y, q ∈ T.toList := fun q hq => by simp [hT, hq]
  have hkeys : M.keys.filter g = (Y.map m.first).toFinset := by
    ext k
    rw [Finset.mem_filter, FiniteMap.mem_keys, lookup_isSome hM, List.mem_toFinset, List.mem_map]
    constructor
    · rintro ⟨⟨q, hq, rfl⟩, hg⟩
      rw [hT, List.mem_append] at hq
      exact ⟨q, hq.resolve_left fun hX => hc.before q hX hg, rfl⟩
    · rintro ⟨q, hq, rfl⟩
      exact ⟨⟨q, hsub q hq, rfl⟩, hc.after q hq⟩
  refine ⟨?_, ?_⟩
  · cases Y with
    | nil => exact .inr rfl
    | cons y Y => exact .inl (h.inTree_iff.mpr (hsub y (by simp)))
  · rw [hkeys]
    exact position_headD h (List.pairwise_append.mp hs).2.1 hsub

end Cut

section Search
omit [LinearOrder K] in
/-- The climb from the last node below a hole ends below the node after it. -/
theorem parent_climbRight (h : Lays m (plug t fs)) (ht : t ≠ .nil) (hfuel : fs.length < fuel) :
    m.parent (climbRight fuel m (address t)) = (after fs).headD header := by
  induction fs generalizing t fuel with
  | nil =>
    obtain ⟨fuel, rfl⟩ : ∃ k, fuel = k + 1 := ⟨fuel - 1, by omega⟩
    rw [climbRight, h.getDirection_eq ht, direction, if_neg (by rintro ⟨⟩), h.parent_eq ht]
    rfl
  | cons f fs ih =>
    obtain ⟨fuel, rfl⟩ : ∃ k, fuel = k + 1 := ⟨fuel - 1, by omega⟩
    obtain ⟨s, c, b, u⟩ := f
    rw [climbRight, h.getDirection_eq ht, h.parent_eq ht, above_cons]
    cases s with
    | left =>
      rw [direction, if_neg (by rintro ⟨⟩), h.parent_eq ht]
      rfl
    | right =>
      have hB : Lays m (plug (join .right c t b u) fs) := h
      have hrec := ih hB (by rintro ⟨⟩) (by simpa using hfuel)
      rw [address_join] at hrec
      rw [direction, if_pos rfl, hrec]
      rfl

def Beyond (early : Bool) (key k : K) : Prop := if early then key ≤ k else key < k

theorem Beyond.of_lt {k : K} (h : key < k) : Beyond early key k := by
  unfold Beyond
  split_ifs
  · exact h.le
  · exact h

theorem Beyond.not {k : K} (h : ¬ key < k) (he : ¬ (early ∧ key = k)) : ¬ Beyond early key k := by
  unfold Beyond
  split_ifs with hearly
  · exact fun hle => h (lt_of_le_of_ne hle fun hk => he ⟨hearly, hk⟩)
  · exact h

theorem boundFrom_spec (h : Represents m (plug t fs)) (ht : t ≠ .nil)
    (hc : Cuts m (Beyond early key) (before fs) (after fs)) (hfuel : t.toList.length ≤ fuel) :
    ∃ X Y, (plug t fs).toList = X ++ Y ∧ Cuts m (Beyond early key) X Y ∧
      boundFrom early fuel m (address t) key = Y.headD header := by
  induction fuel generalizing t fs with
  | zero => exact absurd hfuel (Nat.not_le.mpr (length_pos ht))
  | succ fuel ih =>
    obtain ⟨c, l, a, r, rfl⟩ := exists_node ht
    have hL : Represents m (plug l (⟨.left, c, a, r⟩ :: fs)) := h
    have hR : Represents m (plug r (⟨.right, c, a, l⟩ :: fs)) := h
    have hleft : m.left a = address l := h.lays.left_eq
    have hright : m.right a = address r := h.lays.right_eq
    have hlist : (plug (.node c l a r) fs).toList = (before fs ++ l.toList) ++ a :: (r.toList ++ after fs) := by
      simp [toList_plug]
    have hs := h.sorted
    rw [hlist] at hs
    obtain ⟨_, haY, hX⟩ := List.pairwise_append.mp hs
    have hY := (List.pairwise_cons.mp haY).1
    have hlen : l.toList.length ≤ fuel ∧ r.toList.length ≤ fuel := by
      simp only [toList, List.length_append, List.length_cons] at hfuel
      omega
    rw [show address (.node c l a r) = a from rfl, boundFrom, hleft, hright]
    by_cases he : early ∧ key = m.first a
    · rw [if_pos he]
      obtain ⟨rfl, rfl⟩ := he
      refine ⟨_, _, hlist, ⟨fun q hq => not_le.mpr (hX q hq a (by simp)), fun q hq => ?_⟩, rfl⟩
      rcases List.mem_cons.mp hq with rfl | hq
      · exact le_rfl
      · exact (hY q hq).le
    rw [if_neg he]
    by_cases hlt : key < m.first a
    · have hcl : Cuts m (Beyond early key) (before (⟨.left, c, a, r⟩ :: fs)) (after (⟨.left, c, a, r⟩ :: fs)) := by
        refine ⟨by simpa [RBTree.before, sideBefore] using hc.before, fun q hq => Beyond.of_lt ?_⟩
        have hq : q ∈ a :: (r.toList ++ after fs) := hq
        rcases List.mem_cons.mp hq with rfl | hq
        · exact hlt
        · exact hlt.trans (hY q hq)
      rw [if_pos hlt]
      by_cases hl : l = .nil
      · subst hl
        rw [if_neg (by simp [address])]
        exact ⟨_, _, toList_plug_nil (s := .left) fs r, hcl, rfl⟩
      · rw [if_pos fun h0 => hl (hL.lays.address_eq_null.mp h0)]
        exact ih hL hl hcl hlen.1
    · have hcr : Cuts m (Beyond early key) (before (⟨.right, c, a, l⟩ :: fs)) (after (⟨.right, c, a, l⟩ :: fs)) := by
        refine ⟨fun q hq => ?_, by simpa [RBTree.after, sideAfter] using hc.after⟩
        simp only [RBTree.before, sideBefore, List.mem_append, List.mem_singleton] at hq
        rcases hq with hq | hq | rfl
        · exact hc.before q hq
        · exact Beyond.not (not_lt.mpr ((hX q (by simp [hq]) a (by simp)).le.trans (not_lt.mp hlt)))
            fun hk => hlt (hk.2 ▸ hX q (by simp [hq]) a (by simp))
        · exact Beyond.not hlt he
      rw [if_neg hlt]
      by_cases hr : r = .nil
      · subst hr
        have hfs : fs.length < m.next := by
          have hle := length_le_labels fs
          have hlt := h.length_lt
          rw [toList_plug] at hlt
          rw [labels] at hle
          simp only [List.length_append] at hle hlt
          omega
        have hclimb := parent_climbRight h.lays ht hfs
        rw [show address (.node c l a .nil) = a from rfl] at hclimb
        have hne : (after fs).headD header ≠ null := by
          cases hfs : after fs with
          | nil => rintro ⟨⟩
          | cons y Y => exact (h.lays.mem_ne (x := y) (by simp [toList_plug, hfs])).1
        rw [if_neg (by simp [address]), hclimb, if_neg fun h0 => hne h0.2]
        exact ⟨_, _, toList_plug_nil (s := .right) fs l, hcr, rfl⟩
      · rw [if_pos fun h0 => hr (hR.lays.address_eq_null.mp h0)]
        exact ih hR hr hcr hlen.2

/-- The search from the root. -/
theorem boundFrom_root (early : Bool) (key : K) [DecidablePred (Beyond early key)] (h : Represents m T)
    (hM : ∀ k v, Holds m T k v ↔ M.lookup k = some v) : m.LeastWhere M (Beyond early key)
      (if m.root = null then header else boundFrom early m.next m m.root key) := by
  by_cases ht : T = .nil
  · subst ht
    rw [if_pos (h.root_eq_null.mpr rfl)]
    exact leastWhere_headD (X := []) (Y := []) h hM rfl ⟨by simp, by simp⟩
  · rw [if_neg fun h0 => ht (h.root_eq_null.mp h0), h.lays.root]
    have hT : Represents m (plug T []) := h
    obtain ⟨X, Y, hXY, hc, he⟩ := boundFrom_spec hT ht ⟨by simp [before], by simp [after]⟩ (Nat.le_of_lt h.length_lt)
    rw [he]
    exact leastWhere_headD h hM hXY hc

theorem Refines.bounds (h : Refines m M) (key : K) :
    m.LeastWhere M (key ≤ ·) (m.lowerBound key) ∧ m.LeastWhere M (key < ·) (m.upperBound key) := by
  obtain ⟨T, hT, hM⟩ := h
  have hlower : DecidablePred (Beyond true key) := fun k => inferInstanceAs (Decidable (key ≤ k))
  have hupper : DecidablePred (Beyond false key) := fun k => inferInstanceAs (Decidable (key < k))
  obtain ⟨hn, hl⟩ := boundFrom_root true key hT hM
  obtain ⟨hn', hl'⟩ := boundFrom_root false key hT hM
  refine ⟨⟨hn, hl.trans ?_⟩, ⟨hn', hl'.trans ?_⟩⟩
  · congr 1
    exact Finset.filter_congr fun k _ => Iff.rfl
  · congr 1
    exact Finset.filter_congr fun k _ => Iff.rfl

end Search

variable [Inhabited V]

/-- After every permitted sequence of operations on a new map the two searches give the positions they are for. -/
theorem run_make_bounds [Inhabited K] (ops : List (Op K V)) (hp : make.PermitsAll ops) (key : K) :
    (make.run ops).LeastWhere (FiniteMap.empty.run (make.abstractOps ops)).2 (key ≤ ·)
        ((make.run ops).lowerBound key) ∧
      (make.run ops).LeastWhere (FiniteMap.empty.run (make.abstractOps ops)).2 (key < ·)
        ((make.run ops).upperBound key) :=
  (run_refines make_refines hp).1.bounds key

theorem run_make_bounds_erase : (make.run [.insert 1 10, .insert 2 20, .erase (fun _ q => q) 2] :
    RBTreeMap ℕ ℕ).LeastWhere (FiniteMap.empty.run
      (make.abstractOps [.insert 1 10, .insert 2 20, .erase (fun _ q => q) 2])).2 (1 < ·)
    ((make.run [.insert 1 10, .insert 2 20, .erase (fun _ q => q) 2] : RBTreeMap ℕ ℕ).upperBound 1) :=
  (run_make_bounds [.insert 1 10, .insert 2 20, .erase (fun _ q => q) 2]
    ⟨trivial, trivial, fun _ _ _ _ _ _ => rfl, trivial⟩ 1).2

/-- The search gives a node that has been freed, to which its parent still has a link. -/
theorem lowerBound_clobbered : ¬ (make.run [.insert 1 10, .insert 2 20, .erase (fun _ _ => null) 2] :
    RBTreeMap ℕ ℕ).LeastWhere (FiniteMap.empty.run
      (make.abstractOps [.insert 1 10, .insert 2 20, .erase (fun _ _ => null) 2])).2 (2 ≤ ·)
    ((make.run [.insert 1 10, .insert 2 20, .erase (fun _ _ => null) 2] : RBTreeMap ℕ ℕ).lowerBound 2) := by
  rintro ⟨-, hleast⟩
  have hpos : (make.run [.insert 1 10, .insert 2 20, .erase (fun _ _ => null) 2] : RBTreeMap ℕ ℕ).position
    ((make.run [.insert 1 10, .insert 2 20, .erase (fun _ _ => null) 2] : RBTreeMap ℕ ℕ).lowerBound 2) = (2 : ℕ) := by
      decide
  have hmem := Finset.mem_of_min (hleast.symm.trans hpos)
  rw [Finset.mem_filter, FiniteMap.mem_keys] at hmem
  exact absurd hmem.1 nofun

end Zpc.RBTreeMap

/-!
## What an erasure leaves as it is

`erase` takes nodes out of the red-black tree map and moves no entry to another node.
-/
namespace Zpc.RBTreeMap
open RedBlackTree (Color Side RBTree)
open RedBlackTree.RBTree

section Definitions
variable {K V : Type*}

def Op.IsErase : Op K V → Prop
  | .erase _ _ | .eraseAt _ _ | .eraseRange _ _ _ | .clear => True
  | .insert _ _ | .access _ _ => False

variable [LinearOrder K]

/-- The keys that an erasure is to take out. -/
def Erases (m : RBTreeMap K V) : Op K V → K → Prop
  | .erase _ key, k => k = key
  | .eraseAt _ position, k => m.position position = k
  | .eraseRange _ first last, k => m.InRange first last k
  | .clear, _ => True
  | .insert _ _, _ | .access _ _, _ => False

/-- The nodes of the other keys are the nodes that are left, with their entries and in their order. -/
structure Frames (m m' : RBTreeMap K V) (erased : K → Prop) : Prop where
  nodes : ∀ p, m'.InTree p ↔ m.InTree p ∧ ¬ erased (m.first p)
  entries : ∀ p, m'.InTree p → m'.first p = m.first p ∧ m'.second p = m.second p
  order : ∀ kind : IteratorKind, (kind.visits m').Sublist (kind.visits m)

end Definitions

variable {K V : Type*} [LinearOrder K] {m m' : RBTreeMap K V} {T T' : RBTree Ptr} {op : Op K V} {g : K → Prop}

theorem frames_of_mem (h : Represents m T) (h' : Represents m' T')
    (hT : ∀ q, q ∈ T'.toList ↔ q ∈ T.toList ∧ ¬ g (m.first q)) (hf : m'.first = m.first) (hs : m'.second = m.second) :
    Frames m m' g := by
  have hsub : T'.toList.Sublist T.toList := by
    -- both lists are in the order of the same keys
    let r : Ptr → Ptr → Prop := fun p q => m.first p < m.first q
    have hr : Std.Antisymm r := ⟨fun p q hpq hqp => absurd hpq (lt_asymm hqp)⟩
    have hperm := h'.lays.nodup.subperm fun q hq => ((hT q).mp hq).1
    have hsorted : T'.toList.Pairwise r := by
      have hs := h'.sorted
      rwa [hf] at hs
    exact List.sublist_of_subperm_of_pairwise hperm hsorted h.sorted
  refine ⟨fun p => ?_, fun p _ => ⟨congrFun hf p, congrFun hs p⟩, fun kind => ?_⟩
  · rw [h'.inTree_iff, h.inTree_iff, hT]
  · rw [IteratorKind.visits_eq h, IteratorKind.visits_eq h']
    cases kind with
    | iterator => exact hsub
    | constIterator => exact hsub
    | reverseIterator => exact hsub.reverse
    | constReverseIterator => exact hsub.reverse

/-- `erase(position)` gives the position after the key that it takes out. -/
theorem eraseAt_leastWhere {M : FiniteMap K V} {stale : Ptr → Ptr → Ptr} {p : Ptr} (h : Refines m M)
    (hp : m.InTree p) (hi : Intact stale m p) :
    (m.eraseAt stale p).1.LeastWhere M (m.first p < ·) (m.eraseAt stale p).2 := by
  obtain ⟨T, h, hM⟩ := h
  obtain ⟨X, Y, hT⟩ := List.append_of_mem (h.inTree_iff.mp hp)
  obtain ⟨T', hT', hl, hf, -, -, hr⟩ := eraseAt_spec h hT hi
  rw [hr]
  refine ⟨?_, ?_⟩
  · rw [hT'.inTree_iff, hl]
    cases Y with
    | nil => exact .inr rfl
    | cons y Y => exact .inl (by simp)
  · rw [position_congr hf, next_eq h hM hT, FiniteMap.next]

variable [Inhabited V]

theorem step_frames (h : Represents m T) (he : op.IsErase) (hp : m.Permits op) :
    Frames m (m.step op).1 (m.Erases op) := by
  cases op with
  | insert key value => exact he.elim
  | access key assigned => exact he.elim
  | erase stale key =>
    obtain ⟨T', hT', hl, hf, hs, -⟩ := erase_spec key h fun p hm hf => hp p (h.inTree_iff.mpr hm) hf
    exact frames_of_mem h hT' (fun q => by simp [hl, Erases, List.mem_filter]) hf hs
  | eraseAt stale p =>
    have hend : p = null ∨ p = header → Frames m (m.step (.eraseAt stale p)).1 (m.Erases (.eraseAt stale p)) := by
      intro hp
      have heq : m.eraseAt stale p = (m, p) := by rw [eraseAt, if_pos hp]
      have hpos : m.position p = ⊤ := if_pos hp
      rw [step, heq]
      exact frames_of_mem h h (fun q => by simp [Erases, hpos]) rfl rfl
    rcases hp with hp | hp | ⟨hp, hi⟩
    · exact hend (.inl hp)
    · exact hend (.inr hp)
    · have hpT := h.inTree_iff.mp hp
      obtain ⟨X, Y, hT⟩ := List.append_of_mem hpT
      obtain ⟨T', hT', hl, hf, hs, -⟩ := eraseAt_spec h hT hi
      have hn := h.lays.nodup
      rw [hT] at hn
      refine frames_of_mem h hT' (fun q => ?_) hf hs
      rw [hl, ← filter_ne_append hn, ← hT, h.filter_key hpT, List.mem_filter, decide_eq_true_iff, Erases,
        position_node h hpT, WithTop.coe_inj, eq_comm]
  | eraseRange stale first last =>
    obtain ⟨T', hT', hmem, hf, hs, -⟩ := eraseRange_spec h hp.1 hp.2
    exact frames_of_mem h hT' hmem hf hs
  | clear =>
    obtain ⟨hclear, hf, hs, -⟩ := clear_spec (h.lays.root.trans h.lays.headerParent.symm) h.next
    exact frames_of_mem h hclear (fun q => by simp [Erases]) hf hs

/-- After every permitted sequence of operations on a new map a permitted erasure leaves the other entries in their
nodes, and the one at an iterator gives the next larger key. -/
theorem run_make_frames [Inhabited K] (ops : List (Op K V)) (op : Op K V) (he : op.IsErase) (hp : make.PermitsAll ops)
    (hop : (make.run ops).Permits op) :
    Frames (make.run ops) ((make.run ops).step op).1 ((make.run ops).Erases op) ∧
      ∀ stale p, op = .eraseAt stale p → (make.run ops).InTree p →
        ((make.run ops).eraseAt stale p).1.LeastWhere (FiniteMap.empty.run (make.abstractOps ops)).2
          ((make.run ops).first p < ·) ((make.run ops).eraseAt stale p).2 := by
  obtain ⟨T, hT⟩ := run_make_represents ops hp
  refine ⟨step_frames hT he hop, ?_⟩
  rintro stale p rfl hm
  obtain ⟨h0, hh⟩ := hT.lays.mem_ne (hT.inTree_iff.mp hm)
  have hi : Intact stale (make.run ops) p := ((hop.resolve_left h0).resolve_left hh).2
  exact eraseAt_leastWhere (run_refines make_refines hp).1 hm hi

theorem run_make_frames_root : ((make.run [.insert 1 10, .insert 2 20, .insert 3 30] : RBTreeMap ℕ ℕ).eraseAt
    (fun _ q => q) 3).1.LeastWhere (FiniteMap.empty.run
      (make.abstractOps [.insert 1 10, .insert 2 20, .insert 3 30])).2
    ((make.run [.insert 1 10, .insert 2 20, .insert 3 30] : RBTreeMap ℕ ℕ).first 3 < ·)
    ((make.run [.insert 1 10, .insert 2 20, .insert 3 30] : RBTreeMap ℕ ℕ).eraseAt (fun _ q => q) 3).2 :=
  have hroot : (make.run [.insert 1 10, .insert 2 20, .insert 3 30] : RBTreeMap ℕ ℕ).InTree 3 := .root (by decide)
  (run_make_frames [.insert 1 10, .insert 2 20, .insert 3 30] (.eraseAt (fun _ q => q) 3) trivial
    ⟨trivial, trivial, trivial, trivial⟩ (.inr (.inr ⟨hroot, fun _ _ _ => rfl⟩))).2 _ 3 rfl hroot

/-- The node that has been freed stays linked below a node that is left. -/
theorem erase_not_frames : ¬ Frames (make.run [.insert 1 10, .insert 2 20] : RBTreeMap ℕ ℕ)
    ((make.run [.insert 1 10, .insert 2 20]).step (.erase (fun _ _ => null) 2)).1
    ((make.run [.insert 1 10, .insert 2 20]).Erases (.erase (fun _ _ => null) 2)) := by
  intro h
  have hroot : ((make.run [.insert 1 10, .insert 2 20] : RBTreeMap ℕ ℕ).step
    (.erase (fun _ _ => null) 2)).1.InTree 2 := .root (by decide)
  have hfreed : ((make.run [.insert 1 10, .insert 2 20] : RBTreeMap ℕ ℕ).step
    (.erase (fun _ _ => null) 2)).1.InTree 3 := .child .right hroot (by decide)
  have hkey : (make.run [.insert 1 10, .insert 2 20] : RBTreeMap ℕ ℕ).first 3 = 2 := by decide
  exact ((h.nodes 3).mp hfreed).2 hkey

end Zpc.RBTreeMap
