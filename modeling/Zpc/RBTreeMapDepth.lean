import Zpc.RBTreeMapIterators

/-!
# The depth of the tree

Every recursion from the root goes down a path of at most `2 log₂ (n + 1)` nodes.
-/
namespace Zpc.RedBlackTree.RBTree
variable {α : Type*} {t : RBTree α} {c : Color} {n : ℕ}

/-- The number of nodes on a longest path from the root. -/
def depth : RBTree α → ℕ
  | nil => 0
  | node _ l _ r => max l.depth r.depth + 1

theorem depth_join (s : Side) (c : Color) (near far : RBTree α) (a : α) :
    (join s c near a far).depth = max near.depth far.depth + 1 := by
  cases s
  · rfl
  · rw [join, depth, max_comm]

/-- A path has at most as many red nodes as black ones, and one more where the root is red. -/
theorem Balanced.depth_le (h : t.Balanced c n) : t.depth ≤ 2 * n + 1 ∧ (c = .black → t.depth ≤ 2 * n) := by
  induction h with
  | nil => simp [depth]
  | red _ _ hl hr =>
    have hl := hl.2 rfl
    have hr := hr.2 rfl
    refine ⟨?_, nofun⟩
    rw [depth]
    omega
  | black _ _ hl hr =>
    rw [depth]
    omega

theorem Balanced.two_pow_le (h : t.Balanced c n) : 2 ^ n ≤ t.toList.length + 1 := by
  induction h with
  | nil => exact le_rfl
  | red _ _ hl hr =>
    rw [toList, List.length_append, List.length_cons]
    omega
  | black _ _ hl hr =>
    rw [toList, List.length_append, List.length_cons, Nat.pow_succ]
    omega

theorem Balanced.depth_le_log (h : t.Balanced .black n) : t.depth ≤ 2 * Nat.log 2 (t.toList.length + 1) :=
  (h.depth_le.2 rfl).trans (Nat.mul_le_mul_left 2 (Nat.le_log_of_pow_le Nat.one_lt_two h.two_pow_le))

theorem depth_le_length (t : RBTree α) : t.depth ≤ t.toList.length := by
  induction t with
  | nil => exact le_rfl
  | node c l a r hl hr =>
    rw [depth, toList, List.length_append, List.length_cons]
    omega

end Zpc.RedBlackTree.RBTree

namespace Zpc.RBTreeMap
open RedBlackTree (Color Side RBTree)
open RedBlackTree.RBTree

variable {K V : Type*} [LinearOrder K] {m : RBTreeMap K V} {t : RBTree Ptr} {fs : List (Frame Ptr)} {key : K}
  {fuel fuel' : ℕ}

variable (key) in
/-- What goes on with the child on the side of the key needs no more fuel than the tree is deep. -/
theorem eq_of_depth_le {A : Type*} {F : ℕ → Ptr → A} (base : Ptr → A) (step : Ptr → A → A)
    (hF : ∀ n p, F (n + 1) p =
      if m.child (m.side p key) p = null then base p else step p (F n (m.child (m.side p key) p)))
    (h : Lays m (plug t fs)) (ht : t ≠ .nil) (hf : t.depth ≤ fuel) (hf' : t.depth ≤ fuel') :
    F fuel (address t) = F fuel' (address t) := by
  induction fuel generalizing t fs fuel' with
  | zero =>
    obtain ⟨c, l, a, r, rfl⟩ := exists_node ht
    exact absurd hf (Nat.not_succ_le_zero _)
  | succ fuel ih =>
    obtain ⟨c, l, a, r, rfl⟩ := exists_node ht
    obtain ⟨near, far, hj⟩ := exists_join (m.side a key) c l r a
    rw [hj] at h hf hf' ⊢
    rw [depth_join] at hf hf'
    obtain ⟨k, rfl⟩ : ∃ k, fuel' = k + 1 := ⟨fuel' - 1, by omega⟩
    have hchild : m.child (m.side a key) a = address near := h.child_eq
    have hnear : Lays m (plug near (⟨m.side a key, c, a, far⟩ :: fs)) := h
    rw [address_join, hF, hF, hchild]
    by_cases hn : near = .nil
    · subst hn
      rfl
    · rw [ih hnear hn (show near.depth ≤ fuel by omega) (show near.depth ≤ k by omega)]

theorem descend_eq_of_depth_le {A : Type*} {out found : Ptr → A} {absent : Side → Ptr → A} (h : Lays m t)
    (ht : t ≠ .nil) (hf : t.depth ≤ fuel) (hf' : t.depth ≤ fuel') :
    m.descend key out found absent fuel (address t) = m.descend key out found absent fuel' (address t) := by
  refine eq_of_depth_le key (fun p => if key = m.first p then found p else absent (m.side p key) p)
    (fun p r => if key = m.first p then found p else r) (fun n p => ?_) h.whole ht hf hf'
  rw [descend]
  split_ifs <;> rfl

theorem remove_eq_of_depth_le (stale : Ptr → Ptr → Ptr) (h : Lays m t) (ht : t ≠ .nil) (hf : t.depth ≤ fuel)
    (hf' : t.depth ≤ fuel') : remove stale fuel m (address t) key = remove stale fuel' m (address t) key := by
  refine eq_of_depth_le key (F := fun n p => remove stale n m p key)
    (fun p => if key ≠ m.first p then (m, false) else (m.removeFound stale p, true))
    (fun p r => if key ≠ m.first p then if r.2 then (r.1.maintainRelationship p, true) else (r.1, false)
      else (m.removeFound stale p, true)) (fun n p => ?_) h.whole ht hf hf'
  rw [remove_succ]
  split_ifs <;> simp_all

/-- In a map that operations have led to, a lookup, an insertion or an erasure goes down no more nodes than twice the
logarithm of the size: from so much fuel on more of it makes no difference. -/
theorem run_make_logarithmic [Inhabited K] [Inhabited V] (ops : List (Op K V)) (hp : make.PermitsAll ops)
    (hm : make.run ops = m) (hne : m.root ≠ null) (hf : 2 * Nat.log 2 (m.size + 1) ≤ fuel) (key : K) (value : V)
    (stale : Ptr → Ptr → Ptr) :
    getNode fuel m m.root key = getNode m.next m m.root key ∧
      insertNode fuel m m.root key value true = insertNode m.next m m.root key value true ∧
      getNodeOrProvide fuel m m.root key = getNodeOrProvide m.next m m.root key ∧
      remove stale fuel m m.root key = remove stale m.next m m.root key := by
  obtain ⟨T, h⟩ := run_represents make_represents hp
  subst hm
  obtain ⟨n, hb⟩ := h.balanced
  have ht : T ≠ .nil := fun ht => hne (h.root_eq_null.mpr ht)
  rw [size, h.count] at hf
  have hf := hb.depth_le_log.trans hf
  have hn := T.depth_le_length.trans (Nat.le_of_lt h.length_lt)
  rw [getNode_eq, getNode_eq, insertNode_eq, insertNode_eq, getNodeOrProvide_eq, getNodeOrProvide_eq, h.lays.root]
  exact ⟨descend_eq_of_depth_le h.lays ht hf hn, descend_eq_of_depth_le h.lays ht hf hn,
    descend_eq_of_depth_le h.lays ht hf hn, remove_eq_of_depth_le stale h.lays ht hf hn⟩

theorem run_make_logarithmic_two : ∃ m : RBTreeMap ℕ ℕ, make.run [.insert 1 10, .insert 2 20] = m ∧ m.root ≠ null ∧
    getNode 2 m m.root 2 = getNode m.next m m.root 2 :=
  have hf : 2 * Nat.log 2 (2 + 1) ≤ 2 := by decide +kernel
  ⟨_, rfl, by decide, (run_make_logarithmic [.insert 1 10, .insert 2 20] ⟨trivial, trivial, trivial⟩ rfl (by decide) hf 2 0
    fun _ q => q).1⟩

end Zpc.RBTreeMap
