import Zpc.LBvhNeighbors

/-!
# The tree in the arrays

From three primitives on the arrays that `build` fills are one binary tree in pre-order. One or two primitives stay a
list.
-/
namespace Zpc.LBvh
open SplitTree

/-- Binary trees with primitives at the leaves. -/
inductive Tree
  | leaf (prim : ℕ)
  | node (left right : Tree)

namespace Tree
def prims : Tree → List ℕ
  | leaf prim => [prim]
  | node left right => left.prims ++ right.prims

def size : Tree → ℕ
  | leaf _ => 1
  | node left right => 1 + left.size + right.size

def level : Tree → ℕ
  | leaf _ => 0
  | node left _ => left.level + 1

theorem size_add_one (tree : Tree) : tree.size + 1 = 2 * tree.prims.length := by
  induction tree with
  | leaf => rfl
  | node left right ihl ihr =>
    rw [size, prims, List.length_append]
    omega

end Tree

section Encodes
variable {d : ℕ} {T : Type*} [LinearOrder T]

def IsUnion (primBvs : ℕ → Box d T) (prims : List ℕ) (b : Box d T) : Prop :=
  (∀ k ∈ prims, Covers b (primBvs k)) ∧ ∀ c, (∀ k ∈ prims, Covers c (primBvs k)) → Covers c b

/-- The nodes from `pos` on are a tree, in pre-order, below a parent. -/
def Encodes (primBvs : ℕ → Box d T) (t : Arrays (Box d T)) : Tree → ℕ → ℤ → Prop
  | .leaf prim, pos, parent =>
      t.levels pos = 0 ∧ t.parents pos = parent ∧ t.auxIndices pos = prim ∧ t.orderedBvs pos = primBvs prim
  | .node left right, pos, parent =>
      t.levels pos = (Tree.node left right).level ∧ t.parents pos = parent ∧
      t.auxIndices pos = (if pos + (Tree.node left right).size = t.numNodes then -1
        else ((pos + (Tree.node left right).size : ℕ) : ℤ)) ∧
      IsUnion primBvs (Tree.node left right).prims (t.orderedBvs pos) ∧
      Encodes primBvs t left (pos + 1) pos ∧ Encodes primBvs t right (pos + 1 + left.size) pos

variable {w : ℕ → ℕ ×ₗ ℕᵒᵈ} {m : ℕ} {prim : ℕ → ℕ} {primBvs : ℕ → Box d T} {t : Arrays (Box d T)}

theorem Boxed.isUnion {i c : ℕ} (h : Boxed w m prim primBvs t i (i + c)) :
    IsUnion primBvs ((List.range' i (c + 1)).map prim) (t.orderedBvs (place w m i (i + c))) := by
  have hmem : ∀ x, x ∈ List.range' i (c + 1) ↔ i ≤ x ∧ x ≤ i + c := fun x => by
    rw [List.mem_range'_1]
    omega
  constructor
  · intro k hk
    obtain ⟨x, hx, rfl⟩ := List.mem_map.mp hk
    exact h.covers x ((hmem x).mp hx).1 ((hmem x).mp hx).2
  · intro b hb
    refine h.least b fun x hx hx' => ?_
    exact hb _ (List.mem_map_of_mem ((hmem x).mpr ⟨hx, hx'⟩))

/-- The tree over a node's leaves, by induction on their number. -/
theorem exists_tree (h : Laid w m prim t) (hm : 2 ≤ m) (hw : Function.Injective w)
    (hboxed : ∀ i j, Spans w m i j → Boxed w m prim primBvs t i j) (c : ℕ) : ∀ i, Spans w m i (i + c) →
      ∃ tree : Tree, tree.prims = (List.range' i (c + 1)).map prim ∧
        place w m i (i + c) + tree.size = offset w m (i + c + 1) ∧ tree.level = rank w m i (i + c) ∧
        Encodes primBvs t tree (place w m i (i + c)) (t.parents (place w m i (i + c))) := by
  induction c using Nat.strong_induction_on with
  | _ c ih =>
    intro i hs
    rcases Nat.eq_zero_or_pos c with rfl | hc
    · exact ⟨.leaf (prim i), rfl, place_leaf i, (rank_self i).symm, h.leafLevel i hs.le_last, rfl,
        h.leafAux i hs.le_last, (hboxed i i hs).leaf rfl⟩
    obtain ⟨g, hg⟩ := exists_splits hw (show i < i + c by omega)
    have hg1 := hg.le
    have hg2 := hg.lt
    obtain ⟨a, rfl⟩ := Nat.exists_eq_add_of_le hg1
    obtain ⟨b, hb⟩ := Nat.exists_eq_add_of_le (Nat.succ_le_of_lt hg2)
    rw [Nat.succ_eq_add_one] at hb
    have hleft := hs.leftChild hg
    have hright := hs.rightChild hg
    obtain ⟨left, hl1, hl2, hl3, hl4⟩ := ih a (by omega) i hleft
    rw [hb] at hright
    obtain ⟨right, hr1, hr2, hr3, hr4⟩ := ih b (by omega) (i + a + 1) hright
    have hpl := place_left hs hg
    have hpr := place_right hs hg
    have hparl := h.left _ _ _ hs hg
    have hparr := h.right _ _ _ hs hg
    rw [← hb] at hr2 hr4
    have hprims : (Tree.node left right).prims = (List.range' i (c + 1)).map prim := by
      have hc : c + 1 = (a + 1) + (b + 1) := by omega
      rw [Tree.prims, hl1, hr1, ← List.map_append, hc, Nat.add_assoc i a 1, List.range'_append_1]
    have hsize : place w m i (i + c) + (Tree.node left right).size = offset w m (i + c + 1) := by
      rw [Tree.size]
      omega
    refine ⟨.node left right, hprims, hsize, ?_, ?_, rfl, ?_, ?_, ?_, ?_⟩
    · rw [Tree.level, hl3, rank_left hs hg]
    · rw [Tree.level, hl3, h.level _ _ hs (by omega), rank_left hs hg]
    · rw [hsize, h.aux _ _ hs (by omega), h.numNodes hm]
      have hlast : i + c = m ↔ offset w m (i + c + 1) = offset w m (m + 1) := by
        rw [(offset_strictMono (w := w) (m := m)).injective.eq_iff]
        omega
      simp only [hlast]
    · rw [hprims]
      exact (hboxed _ _ hs).isUnion
    · rwa [hparl, hpl] at hl4
    · have hpos : place w m (i + a + 1) (i + c) = place w m i (i + c) + 1 + left.size := by omega
      rwa [hparr, hpos] at hr4

/-- What passes a test among the primitives in another order. -/
theorem hits_perm {n : ℕ} (hperm : ((List.range n).map prim).Perm (List.range n)) (q : ℕ → Bool) :
    (((List.range n).filter fun x => q (prim x)).map fun x => (prim x : ℤ)).Perm
      (((List.range n).filter q).map fun k : ℕ => (k : ℤ)) := by
  have hmap : ((List.range n).filter fun x => q (prim x)).map (fun x => (prim x : ℤ)) =
      (((List.range n).map prim).filter q).map fun k : ℕ => (k : ℤ) := by
    rw [List.filter_map, List.map_map]
    rfl
  rw [hmap]
  exact (hperm.filter q).map _

/-- `build` makes one tree of three primitives or more and keeps fewer as a list, and `iter_neighbors` calls back once
for every primitive whose box passes the test. -/
theorem build_encodes_tree (policy : Policy) (mortonCode : Box d T → BitVec 32) (primBvs : ℕ → Box d T) {n : ℕ}
    (hn : 0 < n) (fresh : Build (Box d T)) : ∃ t, build policy mortonCode primBvs n fresh = some t ∧
      (2 < n → ∃ tree : Tree, tree.prims.Perm (List.range n) ∧ tree.size = t.numNodes ∧ Encodes primBvs t tree 0 (-1) ∧
        (List.range n).map (fun k => t.auxIndices (t.leafInds k)) = tree.prims.map fun k : ℕ => (k : ℤ)) ∧
      (n ≤ 2 → t.numNodes = n ∧ ∀ k < n, t.leafInds k = k ∧ t.auxIndices k = k ∧ t.orderedBvs k = primBvs k) ∧
      ∀ hit : Box d T → Bool, (∀ b c, Covers b c → hit c = true → hit b = true) →
        ∃ l, iterNeighbors t hit = some l ∧
          l.Perm (((List.range n).filter fun k => hit (primBvs k)).map fun k : ℕ => (k : ℤ)) := by
  rcases Nat.lt_or_ge 2 n with hn2 | hn2
  · obtain ⟨m, rfl⟩ := Nat.exists_eq_succ_of_ne_zero hn.ne'
    have hm : 2 ≤ m := Nat.le_of_lt_succ hn2
    obtain ⟨t, ht, w, prim, hw, hperm, hlaid, hboxed⟩ := build_spec policy mortonCode primBvs hm fresh
    refine ⟨t, ht, fun _ => ?_, fun hle => absurd hle (Nat.not_le.mpr hn2), fun hit hmono =>
      ⟨_, iterNeighbors_spec hlaid hm hboxed hit hmono, hits_perm hperm fun k => hit (primBvs k)⟩⟩
    have hroot : Spans w m 0 (0 + m) := (Nat.zero_add m).symm ▸ spans_root
    obtain ⟨tree, hprims, hsize, -, hencodes⟩ := exists_tree hlaid hm hw hboxed m 0 hroot
    rw [Nat.zero_add, place_root] at hsize hencodes
    rw [hlaid.root] at hencodes
    rw [← List.range_eq_range'] at hprims
    refine ⟨tree, hprims ▸ hperm, ?_, hencodes, ?_⟩
    · rw [hlaid.numNodes hm, ← hsize, Nat.zero_add]
    · rw [hprims, List.map_map]
      exact List.map_congr_left fun k hk => by
        have hk := Nat.le_of_lt_succ (List.mem_range.mp hk)
        rw [hlaid.ind k hk, hlaid.leafAux k hk]
        rfl
  · refine ⟨_, build_small policy mortonCode primBvs hn hn2 fresh, fun hlt => absurd hlt (Nat.not_lt.mpr hn2),
      fun _ => ⟨numNodes_small rfl hn2, fun k _ => ⟨rfl, rfl, rfl⟩⟩, fun hit _ => ⟨_, ?_, List.Perm.refl _⟩⟩
    rw [iterNeighbors, numNodes_small rfl hn2, if_pos hn2]
    exact congrArg some ((foldl_hits _ _).trans (List.nil_append _))

theorem build_encodes_tree_three : 0 < 3 ∧ ∃ t, build sequential (fun _ => 0) unitBoxes 3 zeroed = some t ∧
    (∃ tree : Tree, tree.prims.Perm [0, 1, 2] ∧ tree.size = t.numNodes ∧ Encodes unitBoxes t tree 0 (-1)) ∧
    ∃ l, iterNeighbors t (fun b => overlaps b (unitBoxes 0)) = some l ∧ l.Perm [0, 1] := by
  obtain ⟨t, ht, htree, -, hiter⟩ := build_encodes_tree sequential (fun _ => 0) unitBoxes (n := 3) (by decide) zeroed
  obtain ⟨tree, hperm, hsize, hencodes, -⟩ := htree (by decide)
  obtain ⟨l, hl, hhits⟩ := hiter (fun b => overlaps b (unitBoxes 0)) fun b c hb => hb.overlaps
  refine ⟨by decide, t, ht, ⟨tree, hperm, hsize, hencodes⟩, l, hl, ?_⟩
  have h0 : overlaps (unitBoxes 0) (unitBoxes 0) = true := by simp [overlaps, unitBoxes]
  have h1 : overlaps (unitBoxes 1) (unitBoxes 0) = true := by simp [overlaps, unitBoxes]
  have h2 : overlaps (unitBoxes 2) (unitBoxes 0) = false := by simp [overlaps, unitBoxes]
  have hfilter : (List.range 3).filter (fun k => overlaps (unitBoxes k) (unitBoxes 0)) = [0, 1] := by
    simp [List.range_succ, h0, h1, h2]
  rwa [hfilter] at hhits

/-- Two primitives are not in a tree. -/
theorem two_without_tree : ∃ t, build sequential (fun _ => 0) unitBoxes 2 zeroed = some t ∧
    ¬ ∃ tree : Tree, tree.prims.Perm (List.range 2) ∧ tree.size = t.numNodes ∧ Encodes unitBoxes t tree 0 (-1) := by
  refine ⟨_, build_small sequential (fun _ => 0) unitBoxes (n := 2) (by decide) (by decide) zeroed, ?_⟩
  rintro ⟨tree, hperm, hsize, -⟩
  have hodd := tree.size_add_one
  rw [hperm.length_eq, List.length_range, hsize, numNodes_small rfl (le_refl 2)] at hodd
  exact absurd hodd (by decide)

end Encodes

end Zpc.LBvh
