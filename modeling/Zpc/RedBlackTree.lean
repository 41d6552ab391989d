import Mathlib.Data.List.Nodup

/-!
# Red-black trees with a hole

Trees of coloured labels, their balance, and the frames around a subtree: the path from a hole up to the root with the
siblings along it.
-/
namespace Zpc.RedBlackTree
inductive Color
  | red | black
  deriving DecidableEq

inductive Side
  | left | right
  deriving DecidableEq

def Side.other : Side → Side
  | .left => .right
  | .right => .left

@[simp] theorem Side.other_other (s : Side) : s.other.other = s := by cases s <;> rfl

@[simp] theorem Side.other_ne (s : Side) : s.other ≠ s := by cases s <;> decide

inductive RBTree (α : Type*)
  | nil
  | node (color : Color) (left : RBTree α) (label : α) (right : RBTree α)

variable {α β : Type*} {t l r sibling : RBTree α} {a : α} {c c' : Color} {s : Side} {m n : ℕ}

namespace RBTree
/-- The labels in order. -/
@[simp] def toList : RBTree α → List α
  | nil => []
  | node _ l a r => l.toList ++ a :: r.toList

@[simp] def map (g : α → β) : RBTree α → RBTree β
  | nil => nil
  | node c l a r => node c (l.map g) (g a) (r.map g)

theorem toList_map (g : α → β) (t : RBTree α) : (t.map g).toList = t.toList.map g := by
  induction t with
  | nil => rfl
  | node c l a r hl hr => simp [hl, hr]

/-- The node whose subtree on the given side is `near`. -/
def join (s : Side) (c : Color) (near : RBTree α) (a : α) (far : RBTree α) : RBTree α :=
  match s with
  | .left => node c near a far
  | .right => node c far a near

theorem join_other (s : Side) (c : Color) (near far : RBTree α) (a : α) :
    join s.other c near a far = join s c far a near := by
  cases s <;> rfl

theorem exists_node (ht : t ≠ nil) : ∃ c l a r, t = node c l a r := by
  cases t with
  | nil => exact absurd rfl ht
  | node c l a r => exact ⟨c, l, a, r, rfl⟩

theorem length_pos (ht : t ≠ nil) : 0 < t.toList.length := by
  obtain ⟨c, l, a, r, rfl⟩ := exists_node ht
  rw [toList, List.length_append, List.length_cons]
  omega

theorem exists_join (s : Side) (c : Color) (l r : RBTree α) (a : α) : ∃ near far, node c l a r = join s c near a far := by
  cases s
  · exact ⟨l, r, rfl⟩
  · exact ⟨r, l, rfl⟩

theorem mem_join {near far : RBTree α} {x : α} :
    x ∈ (join s c near a far).toList ↔ x = a ∨ x ∈ near.toList ∨ x ∈ far.toList := by
  cases s
  · simp only [join, toList, List.mem_append, List.mem_cons]
    tauto
  · simp only [join, toList, List.mem_append, List.mem_cons]
    tauto

theorem nodup_node : (node c l a r).toList.Nodup ↔
    a ∉ l.toList ∧ a ∉ r.toList ∧ l.toList.Nodup ∧ r.toList.Nodup ∧ ∀ x ∈ l.toList, x ∉ r.toList := by
  rw [toList, List.nodup_middle, List.nodup_cons, List.nodup_append', List.mem_append, not_or, and_assoc]
  rfl

theorem nodup_join {near far : RBTree α} : (join s c near a far).toList.Nodup ↔
    a ∉ near.toList ∧ a ∉ far.toList ∧ near.toList.Nodup ∧ far.toList.Nodup ∧
      ∀ x ∈ near.toList, x ∉ far.toList := by
  cases s
  · exact nodup_node
  · rw [join, nodup_node]
    constructor <;> exact fun ⟨hf, hn, hF, hN, hd⟩ => ⟨hn, hf, hN, hF, fun x hx h => hd x h hx⟩

/-- Labels before those of the subtree on one side of a node, and after. -/
def sideBefore (s : Side) (a : α) (far : RBTree α) : List α :=
  match s with
  | .left => []
  | .right => far.toList ++ [a]

def sideAfter (s : Side) (a : α) (far : RBTree α) : List α :=
  match s with
  | .left => a :: far.toList
  | .right => []

theorem toList_join (s : Side) (c : Color) (near far : RBTree α) (a : α) :
    (join s c near a far).toList = sideBefore s a far ++ near.toList ++ sideAfter s a far := by
  cases s <;> simp [join, sideBefore, sideAfter]

theorem toList_join_congr {near near' far far' : RBTree α} (s : Side) (c c' : Color) (a : α)
    (hn : near.toList = near'.toList) (hf : far.toList = far'.toList) :
    (join s c near a far).toList = (join s c' near' a far').toList := by
  cases s <;> simp [join, hn, hf]

/-- No red node has a red child, and every path down to a leaf has the same number of black nodes. -/
inductive Balanced : RBTree α → Color → ℕ → Prop
  | nil : Balanced nil .black 0
  | red {l r : RBTree α} {a : α} {n : ℕ} (hl : Balanced l .black n) (hr : Balanced r .black n) :
      Balanced (node .red l a r) .red n
  | black {l r : RBTree α} {a : α} {c c' : Color} {n : ℕ} (hl : Balanced l c n) (hr : Balanced r c' n) :
      Balanced (node .black l a r) .black (n + 1)

theorem Balanced.join_red (ht : t.Balanced .black n) (hs : sibling.Balanced .black n) :
    (join s .red t a sibling).Balanced .red n := by
  cases s
  · exact .red ht hs
  · exact .red hs ht

theorem Balanced.join_black (ht : t.Balanced c n) (hs : sibling.Balanced c' n) :
    (join s .black t a sibling).Balanced .black (n + 1) := by
  cases s
  · exact .black ht hs
  · exact .black hs ht

theorem Balanced.of_red (h : (join s .red t a sibling).Balanced c n) :
    c = .red ∧ t.Balanced .black n ∧ sibling.Balanced .black n := by
  cases s <;> cases h with
  | red hl hr => exact ⟨rfl, by assumption, by assumption⟩

theorem Balanced.of_black (h : (join s .black t a sibling).Balanced c n) :
    c = .black ∧ ∃ k d d', n = k + 1 ∧ t.Balanced d k ∧ sibling.Balanced d' k := by
  cases s
  · cases h with
    | black hl hr => exact ⟨rfl, _, _, _, rfl, hl, hr⟩
  · cases h with
    | black hl hr => exact ⟨rfl, _, _, _, rfl, hr, hl⟩

theorem Balanced.map (g : α → β) (h : t.Balanced c n) : (t.map g).Balanced c n := by
  induction h with
  | nil => exact .nil
  | red _ _ hl hr => exact .red hl hr
  | black _ _ hl hr => exact .black hl hr

/-- One step of the path from a hole to the root: the hole is on that side of the node, its sibling on the other. -/
structure Frame (α : Type*) where
  side : Side
  color : Color
  label : α
  sibling : RBTree α

/-- The tree around a hole, filled. -/
def plug (t : RBTree α) : List (Frame α) → RBTree α
  | [] => t
  | f :: fs => plug (join f.side f.color t f.label f.sibling) fs

theorem plug_append (t : RBTree α) (fs gs : List (Frame α)) : plug t (fs ++ gs) = plug (plug t fs) gs := by
  induction fs generalizing t with
  | nil => rfl
  | cons f fs ih => exact ih _

/-- The labels before the hole, and after it. -/
def before : List (Frame α) → List α
  | [] => []
  | f :: fs => before fs ++ sideBefore f.side f.label f.sibling

def after : List (Frame α) → List α
  | [] => []
  | f :: fs => sideAfter f.side f.label f.sibling ++ after fs

theorem toList_plug (t : RBTree α) (fs : List (Frame α)) : (plug t fs).toList = before fs ++ t.toList ++ after fs := by
  induction fs generalizing t with
  | nil => simp [plug, before, after]
  | cons f fs ih => simp [plug, before, after, ih, toList_join]

theorem toList_plug_congr {t u : RBTree α} (fs : List (Frame α)) (h : t.toList = u.toList) :
    (plug t fs).toList = (plug u fs).toList := by
  rw [toList_plug, toList_plug, h]

/-- The labels around the hole. -/
def labels (fs : List (Frame α)) : List α := before fs ++ after fs

@[simp] theorem labels_nil : labels ([] : List (Frame α)) = [] := rfl

theorem mem_labels_cons {f : Frame α} {fs : List (Frame α)} {x : α} :
    x ∈ labels (f :: fs) ↔ x = f.label ∨ x ∈ f.sibling.toList ∨ x ∈ labels fs := by
  obtain ⟨s, c, b, sibling⟩ := f
  cases s
  · simp only [labels, before, after, sideBefore, sideAfter, List.mem_append, List.mem_cons, List.not_mem_nil]
    tauto
  · simp only [labels, before, after, sideBefore, sideAfter, List.mem_append, List.mem_cons, List.not_mem_nil]
    tauto

theorem mem_plug {fs : List (Frame α)} {x : α} : x ∈ (plug t fs).toList ↔ x ∈ t.toList ∨ x ∈ labels fs := by
  rw [toList_plug, labels]
  simp only [List.mem_append]
  tauto

theorem nodup_plug {fs : List (Frame α)} : (plug t fs).toList.Nodup ↔
    t.toList.Nodup ∧ (labels fs).Nodup ∧ ∀ x ∈ t.toList, x ∉ labels fs := by
  rw [toList_plug, labels]
  simp only [List.nodup_append', List.Disjoint, List.mem_append]
  constructor
  · rintro ⟨⟨hb, ht, hbt⟩, ha, hd⟩
    exact ⟨ht, ⟨hb, ha, fun x h => hd (.inl h)⟩, fun x hx h => h.elim (hbt · hx) (hd (.inr hx))⟩
  · rintro ⟨ht, ⟨hb, ha, hba⟩, hd⟩
    exact ⟨⟨hb, ht, fun x h hx => hd x hx (.inl h)⟩, ha, fun x h hx => h.elim (hba · hx) (hd x · (.inr hx))⟩

theorem nodup_labels_cons {f : Frame α} {fs : List (Frame α)} : (labels (f :: fs)).Nodup ↔
    f.label ∉ f.sibling.toList ∧ f.label ∉ labels fs ∧ f.sibling.toList.Nodup ∧ (labels fs).Nodup ∧
      ∀ x ∈ f.sibling.toList, x ∉ labels fs := by
  -- the frame with an empty hole
  have h : labels (f :: fs) = (plug (join f.side f.color nil f.label f.sibling) fs).toList := by
    rw [toList_plug, toList_join]
    simp [labels, before, after]
  rw [h, nodup_plug, nodup_join]
  simp only [mem_join, toList, List.not_mem_nil, not_false_eq_true, List.nodup_nil, false_or, forall_eq_or_imp]
  tauto

/-- A hole in a balanced tree with a black root: what colour of the root and what height it takes. -/
inductive Accepts : List (Frame α) → Color → ℕ → Prop
  | root {n : ℕ} : Accepts [] .black n
  | red {s : Side} {a : α} {sibling : RBTree α} {fs : List (Frame α)} {n : ℕ} (hs : sibling.Balanced .black n)
      (h : Accepts fs .red n) : Accepts (⟨s, .red, a, sibling⟩ :: fs) .black n
  | black {s : Side} {a : α} {sibling : RBTree α} {fs : List (Frame α)} {c c' : Color} {n : ℕ}
      (hs : sibling.Balanced c n) (h : Accepts fs .black (n + 1)) : Accepts (⟨s, .black, a, sibling⟩ :: fs) c' n

variable {fs : List (Frame α)}

theorem Accepts.to_black (h : Accepts fs .red n) : Accepts fs .black n := by
  cases h with
  | black hs h => exact .black hs h

theorem Accepts.plug (h : Accepts fs c n) (ht : t.Balanced c n) : ∃ m, (plug t fs).Balanced .black m := by
  induction h generalizing t with
  | root => exact ⟨_, ht⟩
  | red hs h ih => exact ih (ht.join_red hs)
  | black hs h ih => exact ih (ht.join_black hs)

theorem accepts_of_plug (h : (plug t fs).Balanced .black m) : ∃ c n, t.Balanced c n ∧ Accepts fs c n := by
  induction fs generalizing t with
  | nil => exact ⟨.black, m, h, .root⟩
  | cons f fs ih =>
    obtain ⟨s, c, a, sibling⟩ := f
    obtain ⟨d, n, ht, hf⟩ := ih h
    cases c with
    | red =>
      obtain ⟨rfl, ht, hs⟩ := ht.of_red
      exact ⟨.black, n, ht, .red hs hf⟩
    | black =>
      obtain ⟨rfl, k, e, e', rfl, ht, hs⟩ := ht.of_black
      exact ⟨e, k, ht, .black hs hf⟩

end RBTree

end Zpc.RedBlackTree
