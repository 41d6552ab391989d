import Zpc.SparseMatrix
import Zpc.ParentForest

/-!
# Connected components

The two kernels of `union_find`, one thread for each vertex. Every read and write of the
parents and every compare-and-swap is an action of its own. The overload without a
predicate skips no entry.
-/
namespace Zpc.ConnectedComponents
open Interleaving ParentForest

section Kernels
/-- The neighbours of a vertex: the columns of the entries of its row that are not skipped. -/
def neighbours {V : Type*} (spm : SparseMatrix V) (skipPred : V → Bool) (v : ℕ) : List ℕ :=
  ((List.range' (spm.ptrs.get v) (spm.ptrs.get (v + 1) - spm.ptrs.get v)).filter
    fun i => !skipPred (spm.vals.get i)).map spm.inds.get

variable (adj : ℕ → List ℕ)

/-- The loop of the first kernel, which ends at the first smaller neighbour. -/
def initLoop (v m : ℕ) : List ℕ → ℕ
  | [] => m
  | u :: rest => if m = v then initLoop v (if m < u then m else u) rest else m

/-- The first kernel: a frame is the vertex. -/
def initKernel : Code (ℕ → ℕ) ℕ Unit := fun fas v _ => some (Function.update fas v (initLoop v v (adj v)), [])

/-- What asks for a representative: the vertex for its own, or for that of its neighbour `u`. -/
inductive Cont
  | own (v : ℕ)
  | edge (v vstat u : ℕ) (rest : List ℕ)
  deriving DecidableEq

inductive Frame
  | first (idx : ℕ) (k : Cont)
  | walk (prev curr : ℕ) (k : Cont)
  | shorten (prev curr next : ℕ) (k : Cont)
  | hook (v vstat ostat u : ℕ) (rest : List ℕ)
  deriving DecidableEq

/-- On to the next smaller neighbour. -/
def edges (v vstat : ℕ) : List ℕ → List Frame
  | [] => []
  | u :: rest => if u < v then [.first u (.edge v vstat u rest)] else edges v vstat rest

def hookOrNext (v vstat ostat u : ℕ) (rest : List ℕ) : List Frame :=
  if vstat = ostat then edges v vstat rest else [.hook v vstat ostat u rest]

/-- The representative has been found. -/
def found (r : ℕ) : Cont → List Frame
  | .own v => edges v r (adj v)
  | .edge v vstat u rest => hookOrNext v vstat r u rest

/-- The second kernel. -/
def connectKernel : Code (ℕ → ℕ) Frame Unit := fun fas f _ => match f with
  | .first idx k => some (fas, if fas idx = idx then found adj idx k else [.walk idx (fas idx) k])
  | .walk prev curr k => some (fas, if fas curr < curr then [.shorten prev curr (fas curr) k] else found adj curr k)
  | .shorten prev curr next k => some (Function.update fas prev next, [.walk curr next k])
  | .hook v vstat ostat u rest =>
    if vstat < ostat then
      if fas ostat = ostat then some (Function.update fas ostat vstat, edges v vstat rest)
      else some (fas, hookOrNext v vstat (fas ostat) u rest)
    else
      if fas vstat = vstat then some (Function.update fas vstat ostat, edges v vstat rest)
      else some (fas, hookOrNext v (fas vstat) ostat u rest)

def initStart (fas : ℕ → ℕ) (n : ℕ) : Config (ℕ → ℕ) ℕ := ⟨fas, (List.range n).map fun v => [v]⟩

def connectStart (fas : ℕ → ℕ) (n : ℕ) : Config (ℕ → ℕ) Frame := ⟨fas, (List.range n).map fun v => [.first v (.own v)]⟩

/-- What one action of the second kernel does, branch by branch. -/
inductive Acts (fas : ℕ → ℕ) : Frame → (ℕ → ℕ) → List Frame → Prop
  | own (idx k) (h : fas idx = idx) : Acts fas (.first idx k) fas (found adj idx k)
  | enter (idx k) (h : fas idx ≠ idx) : Acts fas (.first idx k) fas [.walk idx (fas idx) k]
  | step (prev curr k) (h : fas curr < curr) : Acts fas (.walk prev curr k) fas [.shorten prev curr (fas curr) k]
  | arrive (prev curr k) (h : ¬ fas curr < curr) : Acts fas (.walk prev curr k) fas (found adj curr k)
  | shorten (prev curr next k) : Acts fas (.shorten prev curr next k) (Function.update fas prev next) [.walk curr next k]
  | hookOther (v vstat ostat u rest) (h : vstat < ostat) (hr : fas ostat = ostat) :
      Acts fas (.hook v vstat ostat u rest) (Function.update fas ostat vstat) (edges v vstat rest)
  | missOther (v vstat ostat u rest) (h : vstat < ostat) (hr : fas ostat ≠ ostat) :
      Acts fas (.hook v vstat ostat u rest) fas (hookOrNext v vstat (fas ostat) u rest)
  | hookOwn (v vstat ostat u rest) (h : ¬ vstat < ostat) (hr : fas vstat = vstat) :
      Acts fas (.hook v vstat ostat u rest) (Function.update fas vstat ostat) (edges v vstat rest)
  | missOwn (v vstat ostat u rest) (h : ¬ vstat < ostat) (hr : fas vstat ≠ vstat) :
      Acts fas (.hook v vstat ostat u rest) fas (hookOrNext v (fas vstat) ostat u rest)

variable {adj} {fas fas' : ℕ → ℕ} {f : Frame} {x : Unit} {fs : List Frame}

theorem acts_of_kernel (h : connectKernel adj fas f x = some (fas', fs)) : Acts adj fas f fas' fs := by
  cases f with
  | first idx k =>
    cases h
    split_ifs with hr
    · exact .own idx k hr
    · exact .enter idx k hr
  | walk prev curr k =>
    cases h
    split_ifs with hr
    · exact .step prev curr k hr
    · exact .arrive prev curr k hr
  | shorten prev curr next k =>
    cases h
    exact .shorten prev curr next k
  | hook v vstat ostat u rest =>
    simp only [connectKernel] at h
    split_ifs at h with hlt hr hr <;> cases h
    · exact .hookOther v vstat ostat u rest hlt hr
    · exact .missOther v vstat ostat u rest hlt hr
    · exact .hookOwn v vstat ostat u rest hlt hr
    · exact .missOwn v vstat ostat u rest hlt hr

end Kernels

/-- The pattern is square and symmetric. -/
structure Symmetric (adj : ℕ → List ℕ) (n : ℕ) : Prop where
  lt : ∀ v < n, ∀ u ∈ adj v, u < n
  symm : ∀ v < n, ∀ u < n, u ∈ adj v → v ∈ adj u

def Connected (adj : ℕ → List ℕ) (n : ℕ) : ℕ → ℕ → Prop := Relation.ReflTransGen fun a b => a < n ∧ b < n ∧ b ∈ adj a

section Graph
variable {adj : ℕ → List ℕ} {n a b : ℕ}

theorem Connected.symm (hs : Symmetric adj n) (h : Connected adj n a b) : Connected adj n b a := by
  induction h with
  | refl => exact .refl
  | tail _ hbc ih => exact Relation.ReflTransGen.head ⟨hbc.2.1, hbc.1, hs.symm _ hbc.1 _ hbc.2.1 hbc.2.2⟩ ih

theorem Connected.lt (h : Connected adj n a b) (ha : a < n) : b < n := by
  cases h with
  | refl => exact ha
  | tail _ hbc => exact hbc.2.1

theorem connected_edge (hs : Symmetric adj n) (ha : a < n) (hb : b ∈ adj a) : Connected adj n a b :=
  .single ⟨ha, hs.lt a ha b hb, hb⟩

end Graph

section Invariant
variable (adj : ℕ → List ℕ) (n : ℕ) (fas : ℕ → ℕ)

/-- No parent is larger, and none is from another component. -/
def Sound : Prop := ∀ v < n, fas v ≤ v ∧ Connected adj n v (fas v)

def Cont.start : Cont → ℕ
  | .own v => v
  | .edge _ _ u _ => u

def Cont.Valid : Cont → Prop
  | .own v => v < n
  | .edge v vstat u rest => v < n ∧ vstat < n ∧ root fas v = root fas vstat ∧ u ∈ adj v ∧ ∀ x ∈ rest, x ∈ adj v

/-- What a frame knows: the vertices that it holds are in the tree of the one it started from, and
the one whose parent it will write is not a root. -/
def Knows : Frame → Prop
  | .first idx k => idx < n ∧ idx = k.start ∧ k.Valid adj n fas
  | .walk prev curr k => prev < n ∧ curr < prev ∧ fas prev < prev ∧ root fas prev = root fas curr ∧
      root fas k.start = root fas curr ∧ k.Valid adj n fas
  | .shorten prev curr next k => prev < n ∧ next < curr ∧ curr < prev ∧ fas prev < prev ∧ fas curr < curr ∧
      root fas prev = root fas curr ∧ root fas curr = root fas next ∧ root fas k.start = root fas curr ∧
      k.Valid adj n fas
  | .hook v vstat ostat u rest => (Cont.edge v vstat u rest).Valid adj n fas ∧ ostat < n ∧
      root fas u = root fas ostat ∧ vstat ≠ ostat

def Cont.Owes (v u : ℕ) : Cont → Prop
  | .own w => w = v ∧ u ∈ adj v
  | .edge w _ x rest => w = v ∧ (u = x ∨ u ∈ rest)

/-- The frame has yet to join the vertex with its neighbour. -/
def Owes (v u : ℕ) : Frame → Prop
  | .first _ k | .walk _ _ k | .shorten _ _ _ k => k.Owes adj v u
  | .hook w _ _ x rest => w = v ∧ (u = x ∨ u ∈ rest)

def Cont.weight : Cont → ℕ
  | .own v => (adj v).length * (4 * n + 6)
  | .edge _ _ _ rest => 2 * n + 2 + rest.length * (4 * n + 6)

/-- A bound on the actions to come. -/
def weight : Frame → ℕ
  | .first _ k => 2 * n + 3 + k.weight adj n
  | .walk _ curr k => 2 * curr + 2 + k.weight adj n
  | .shorten _ curr _ k => 2 * curr + 1 + k.weight adj n
  | .hook _ vstat ostat _ rest => vstat + ostat + 1 + rest.length * (4 * n + 6)

structure Invariant (c : Config (ℕ → ℕ) Frame) : Prop where
  sound : Sound adj n c.mem
  knows : ∀ f ∈ c.frames, Knows adj n c.mem f
  covers : ∀ v < n, ∀ u ∈ adj v, u < v → root c.mem v = root c.mem u ∨ ∃ f ∈ c.frames, Owes adj v u f

end Invariant

section Actions
variable {adj : ℕ → List ℕ} {n : ℕ} {fas fas' : ℕ → ℕ} {f : Frame} {fs : List Frame} {v vstat ostat u r : ℕ}
  {rest : List ℕ} {k : Cont}

theorem Sound.connected_root (h : Sound adj n fas) (hv : v < n) : Connected adj n v (root fas v) := by
  refine related_root (R := fun a b => a < n → Connected adj n a b) (fun _ _ => .refl) ?_ ?_ hv
  · intro a b c hab hbc ha
    exact (hab ha).trans (hbc ((hab ha).lt ha))
  · intro w _ _ hw
    exact (h w hw).2

theorem Sound.connected (hs : Symmetric adj n) (h : Sound adj n fas) (hv : v < n) (hu : u < n)
    (hr : root fas v = root fas u) : Connected adj n v u :=
  (h.connected_root hv).trans (hr ▸ (h.connected_root hu).symm hs)

theorem Cont.Valid.grows (hg : Grows fas fas') (h : k.Valid adj n fas) : k.Valid adj n fas' := by
  cases k with
  | own v => exact h
  | edge v vstat u rest => exact ⟨h.1, h.2.1, hg.same _ _ h.2.2.1, h.2.2.2⟩

/-- What a frame knows stays true as the forest grows. -/
theorem Knows.grows (hg : Grows fas fas') (h : Knows adj n fas f) : Knows adj n fas' f := by
  cases f with
  | first idx k => exact ⟨h.1, h.2.1, h.2.2.grows hg⟩
  | walk prev curr k =>
    obtain ⟨h1, h2, h3, h4, h5, h6⟩ := h
    exact ⟨h1, h2, hg.inner _ h3, hg.same _ _ h4, hg.same _ _ h5, h6.grows hg⟩
  | shorten prev curr next k =>
    obtain ⟨h1, h2, h3, h4, hcurr, h5, h6, h7, h8⟩ := h
    exact ⟨h1, h2, h3, hg.inner _ h4, hg.inner _ hcurr, hg.same _ _ h5, hg.same _ _ h6, hg.same _ _ h7, h8.grows hg⟩
  | hook v vstat ostat u rest =>
    obtain ⟨h1, h2, h3, h4⟩ := h
    exact ⟨h1.grows hg, h2, hg.same _ _ h3, h4⟩

theorem edges_spec (hs : Symmetric adj n) (hv : v < n) (hvstat : vstat < n) (hr : root fas v = root fas vstat)
    (hrest : ∀ x ∈ rest, x ∈ adj v) :
    (∀ g ∈ edges v vstat rest, Knows adj n fas g) ∧ (∀ u ∈ rest, u < v → ∃ g ∈ edges v vstat rest, Owes adj v u g) ∧
      ((edges v vstat rest).map (weight adj n)).sum ≤ rest.length * (4 * n + 6) := by
  induction rest with
  | nil => exact ⟨fun g hg => (by cases hg), fun u hu => (by cases hu), Nat.le_of_eq (Nat.zero_mul _).symm⟩
  | cons x rest ih =>
    obtain ⟨h1, h2, h3⟩ := ih fun y hy => hrest y (List.mem_cons_of_mem _ hy)
    have hx := hrest x (List.mem_cons_self ..)
    rw [edges]
    by_cases hlt : x < v
    · rw [if_pos hlt]
      refine ⟨fun g hg => ?_, fun u hu _ => ?_, ?_⟩
      · obtain rfl := List.mem_singleton.mp hg
        exact ⟨hs.lt v hv x hx, rfl, hv, hvstat, hr, hx, fun y hy => hrest y (List.mem_cons_of_mem _ hy)⟩
      · exact ⟨_, List.mem_singleton.mpr rfl, rfl, List.mem_cons.mp hu⟩
      · simp only [List.map_cons, List.map_nil, List.sum_cons, List.sum_nil, weight, Cont.weight, List.length_cons,
          Nat.succ_mul]
        omega
    · rw [if_neg hlt]
      refine ⟨h1, fun u hu hu' => ?_, h3.trans (Nat.mul_le_mul_right _ (Nat.le_succ _))⟩
      rcases List.mem_cons.mp hu with rfl | hu
      · exact absurd hu' hlt
      · exact h2 u hu hu'

theorem hookOrNext_spec (hs : Symmetric adj n) (hk : (Cont.edge v vstat u rest).Valid adj n fas) (ho : ostat < n)
    (hr : root fas u = root fas ostat) :
    (∀ g ∈ hookOrNext v vstat ostat u rest, Knows adj n fas g) ∧
      (∀ u', u' = u ∨ u' ∈ rest → u' < v →
        root fas v = root fas u' ∨ ∃ g ∈ hookOrNext v vstat ostat u rest, Owes adj v u' g) ∧
      ((hookOrNext v vstat ostat u rest).map (weight adj n)).sum ≤ vstat + ostat + 1 + rest.length * (4 * n + 6) := by
  have hk' := hk
  obtain ⟨hv, hvstat, hsame, hu, hrest⟩ := hk'
  obtain ⟨h1, h2, h3⟩ := edges_spec hs hv hvstat hsame hrest
  unfold hookOrNext
  split
  next heq =>
    subst heq
    refine ⟨h1, fun u' hu' hlt => ?_, h3.trans (Nat.le_add_left _ _)⟩
    rcases hu' with rfl | hu'
    · exact .inl (hsame.trans hr.symm)
    · exact .inr (h2 u' hu' hlt)
  next hne =>
    refine ⟨fun g hg => ?_, fun u' hu' _ => .inr ⟨_, List.mem_singleton.mpr rfl, rfl, hu'⟩, ?_⟩
    · obtain rfl := List.mem_singleton.mp hg
      exact ⟨hk, ho, hr, hne⟩
    · simp [weight]

theorem found_spec (hs : Symmetric adj n) (hk : k.Valid adj n fas) (hr : r < n) (hroot : root fas k.start = root fas r) :
    (∀ g ∈ found adj r k, Knows adj n fas g) ∧
      (∀ v u, k.Owes adj v u → u < v → root fas v = root fas u ∨ ∃ g ∈ found adj r k, Owes adj v u g) ∧
      ((found adj r k).map (weight adj n)).sum ≤ r + k.weight adj n := by
  cases k with
  | own w =>
    obtain ⟨h1, h2, h3⟩ := edges_spec hs hk hr hroot fun x (h : x ∈ adj w) => h
    refine ⟨h1, ?_, h3.trans (Nat.le_add_left _ _)⟩
    rintro v u ⟨rfl, hu⟩ hlt
    exact .inr (h2 u hu hlt)
  | edge w vstat u rest =>
    obtain ⟨h1, h2, h3⟩ := hookOrNext_spec hs hk hr hroot
    refine ⟨h1, ?_, h3.trans ?_⟩
    · rintro v u' ⟨rfl, hu'⟩ hlt
      exact h2 u' hu' hlt
    · have := hk.2.1
      simp only [Cont.weight]
      omega

theorem Sound.update (h : Sound adj n fas) {s : ℕ} (hle : s ≤ r) (hc : Connected adj n r s) :
    Sound adj n (Function.update fas r s) := by
  intro v hv
  by_cases hvr : v = r
  · subst hvr
    rw [Function.update_self]
    exact ⟨hle, hc⟩
  · rw [Function.update_of_ne hvr]
    exact h v hv

/-- What every action keeps: the forest is sound and grows, the new frames know what they must, a
join that was owed is made or still owed, and fewer actions are left. -/
theorem Acts.spec (hs : Symmetric adj n) (h : Sound adj n fas) (hk : Knows adj n fas f) (ha : Acts adj fas f fas' fs) :
    Sound adj n fas' ∧ Grows fas fas' ∧ (∀ g ∈ fs, Knows adj n fas' g) ∧
      (∀ v u, Owes adj v u f → u < v → root fas' v = root fas' u ∨ ∃ g ∈ fs, Owes adj v u g) ∧
      (fs.map (weight adj n)).sum < weight adj n f := by
  cases ha with
  | own idx k hr =>
    obtain ⟨hlt, hstart, hvalid⟩ := hk
    obtain ⟨h1, h2, h3⟩ := found_spec hs hvalid hlt (by rw [hstart])
    refine ⟨h, .refl fas, h1, h2, h3.trans_lt ?_⟩
    simp only [weight]
    omega
  | enter idx k hr =>
    obtain ⟨hlt, hstart, hvalid⟩ := hk
    have hdown : fas idx < idx := Nat.lt_of_le_of_ne (h idx hlt).1 hr
    refine ⟨h, .refl fas, fun g hg => ?_, fun v u ho _ => .inr ⟨_, List.mem_singleton.mpr rfl, ho⟩, ?_⟩
    · obtain rfl := List.mem_singleton.mp hg
      exact ⟨hlt, hdown, hdown, root_of_lt hdown, hstart ▸ root_of_lt hdown, hvalid⟩
    · simp only [List.map_cons, List.map_nil, List.sum_cons, List.sum_nil, weight]
      omega
  | step prev curr k hr =>
    obtain ⟨h1, h2, h3, h4, h5, h6⟩ := hk
    refine ⟨h, .refl fas, fun g hg => ?_, fun v u ho _ => .inr ⟨_, List.mem_singleton.mpr rfl, ho⟩, ?_⟩
    · obtain rfl := List.mem_singleton.mp hg
      exact ⟨h1, hr, h2, h3, hr, h4, root_of_lt hr, h5, h6⟩
    · simp only [List.map_cons, List.map_nil, List.sum_cons, List.sum_nil, weight]
      omega
  | arrive prev curr k hr =>
    obtain ⟨h1, h2, h3, h4, h5, h6⟩ := hk
    obtain ⟨k1, k2, k3⟩ := found_spec hs h6 (h2.trans h1) h5
    refine ⟨h, .refl fas, k1, k2, k3.trans_lt ?_⟩
    simp only [weight]
    omega
  | shorten prev curr next k =>
    obtain ⟨h1, h2, h3, h4, hcurr, h5, h6, h7, h8⟩ := hk
    have hnext : next < prev := h2.trans h3
    have hg := grows_shorten hnext h4 (h5.trans h6).symm
    have hc := h.connected hs h1 (hnext.trans h1) (h5.trans h6)
    refine ⟨h.update hnext.le hc, hg, fun g hmem => ?_, fun v u ho _ => .inr ⟨_, List.mem_singleton.mpr rfl, ho⟩, ?_⟩
    · obtain rfl := List.mem_singleton.mp hmem
      exact ⟨h3.trans h1, h2, hg.inner _ hcurr, hg.same _ _ h6, hg.same _ _ (h7.trans h6), h8.grows hg⟩
    · simp only [List.map_cons, List.map_nil, List.sum_cons, List.sum_nil, weight]
      omega
  | hookOther v vstat ostat u rest hlt hr =>
    obtain ⟨hvalid, ho, hroot, hne⟩ := hk
    have hnot : ¬ fas ostat < ostat := by rw [hr]; exact Nat.lt_irrefl _
    have hg := grows_link hlt hnot
    have hlink := same_link (p := fas) hlt
    obtain ⟨hv, hvstat, hsame, hu, hrest⟩ := hvalid
    have hc : Connected adj n ostat vstat :=
      ((h.connected hs (hs.lt v hv u hu) ho hroot).symm hs).trans
        (((connected_edge hs hv hu).symm hs).trans (h.connected hs hv hvstat hsame))
    obtain ⟨h1, h2, h3⟩ := edges_spec hs hv hvstat (hg.same _ _ hsame) hrest
    refine ⟨h.update hlt.le hc, hg, h1, ?_, h3.trans_lt (by simp only [weight]; omega)⟩
    rintro w u' ⟨rfl, hu'⟩ hlt'
    rcases hu' with rfl | hu'
    · exact .inl ((hg.same _ _ hsame).trans (hlink.symm.trans (hg.same _ _ hroot).symm))
    · exact .inr (h2 u' hu' hlt')
  | missOther v vstat ostat u rest hlt hr =>
    obtain ⟨hvalid, ho, hroot, hne⟩ := hk
    have hdown : fas ostat < ostat := Nat.lt_of_le_of_ne (h ostat ho).1 hr
    obtain ⟨h1, h2, h3⟩ := hookOrNext_spec hs hvalid (hdown.trans ho) (hroot.trans (root_of_lt hdown))
    refine ⟨h, .refl fas, h1, ?_, h3.trans_lt (by simp only [weight]; omega)⟩
    rintro w u' ⟨rfl, hu'⟩ hlt'
    exact h2 u' hu' hlt'
  | hookOwn v vstat ostat u rest hge hr =>
    obtain ⟨hvalid, ho, hroot, hne⟩ := hk
    have hlt : ostat < vstat := Nat.lt_of_le_of_ne (Nat.le_of_not_lt hge) (Ne.symm hne)
    have hnot : ¬ fas vstat < vstat := by rw [hr]; exact Nat.lt_irrefl _
    have hg := grows_link hlt hnot
    have hlink := same_link (p := fas) hlt
    obtain ⟨hv, hvstat, hsame, hu, hrest⟩ := hvalid
    have hc : Connected adj n vstat ostat :=
      ((h.connected hs hv hvstat hsame).symm hs).trans
        ((connected_edge hs hv hu).trans (h.connected hs (hs.lt v hv u hu) ho hroot))
    obtain ⟨h1, h2, h3⟩ := edges_spec hs hv hvstat (hg.same _ _ hsame) hrest
    refine ⟨h.update hlt.le hc, hg, h1, ?_, h3.trans_lt (by simp only [weight]; omega)⟩
    rintro w u' ⟨rfl, hu'⟩ hlt'
    rcases hu' with rfl | hu'
    · exact .inl ((hg.same _ _ hsame).trans (hlink.trans (hg.same _ _ hroot).symm))
    · exact .inr (h2 u' hu' hlt')
  | missOwn v vstat ostat u rest hge hr =>
    obtain ⟨⟨hv, hvstat, hsame, hu, hrest⟩, ho, hroot, hne⟩ := hk
    have hdown : fas vstat < vstat := Nat.lt_of_le_of_ne (h vstat hvstat).1 hr
    obtain ⟨h1, h2, h3⟩ := hookOrNext_spec hs
      (show (Cont.edge v (fas vstat) u rest).Valid adj n fas from
        ⟨hv, hdown.trans hvstat, hsame.trans (root_of_lt hdown), hu, hrest⟩) ho hroot
    refine ⟨h, .refl fas, h1, ?_, h3.trans_lt (by simp only [weight]; omega)⟩
    rintro w u' ⟨rfl, hu'⟩ hlt'
    exact h2 u' hu' hlt'

end Actions

section Runs
variable {adj : ℕ → List ℕ} {n : ℕ} {fas : ℕ → ℕ} {c c' : Config (ℕ → ℕ) Frame} {f : Frame} {x : Unit}

theorem initLoop_of_ne {v m : ℕ} (h : m ≠ v) (l : List ℕ) : initLoop v m l = m := by
  cases l with
  | nil => rfl
  | cons u rest => exact if_neg h

/-- The first kernel takes a smaller neighbour, or the vertex itself. -/
theorem initLoop_spec (v : ℕ) (l : List ℕ) : initLoop v v l ≤ v ∧ (initLoop v v l = v ∨ initLoop v v l ∈ l) := by
  induction l with
  | nil => exact ⟨le_rfl, .inl rfl⟩
  | cons u rest ih =>
    rw [initLoop, if_pos rfl]
    split
    next => exact ⟨ih.1, ih.2.imp_right (List.mem_cons_of_mem _)⟩
    next h =>
      by_cases hu : u = v
      · subst hu
        exact ⟨ih.1, ih.2.imp_right (List.mem_cons_of_mem _)⟩
      · rw [initLoop_of_ne hu]
        exact ⟨Nat.le_of_not_lt h, .inr (List.mem_cons_self ..)⟩

/-- A vertex has its first parent once its thread has finished. -/
theorem init_reaches {c : Config (ℕ → ℕ) ℕ} (h : Reaches (initKernel adj) free (initStart fas n) c) :
    ∀ v < n, v ∈ c.frames ∨ c.mem v = initLoop v v (adj v) := by
  induction h with
  | refl =>
    intro v hv
    exact .inl (List.mem_flatten.mpr ⟨[v], List.mem_map.mpr ⟨v, List.mem_range.mpr hv, rfl⟩, List.mem_singleton.mpr rfl⟩)
  | @step c c' f x _ _ hs ih =>
    intro v hv
    obtain ⟨fs, he⟩ := hs.runs_code
    have hmem : c'.mem = Function.update c.mem f (initLoop f f (adj f)) := (congrArg Prod.fst (Option.some.inj he)).symm
    by_cases hvf : v = f
    · subst hvf
      rw [hmem, Function.update_self]
      exact .inr rfl
    · rw [hmem, Function.update_of_ne hvf]
      exact (ih v hv).imp_left fun hf => hs.mem_of_ne hf hvf

theorem init_decreases {c c' : Config (ℕ → ℕ) ℕ} {v : ℕ} (h : Step (initKernel adj) c v x c') :
    c'.frames.length < c.frames.length := by
  obtain ⟨fs, rest, he, hp, hp'⟩ := h.frames
  obtain rfl : [] = fs := congrArg Prod.snd (Option.some.inj he)
  rw [hp.length_eq, hp'.length_eq]
  exact Nat.lt_succ_self _

theorem invariant_start (h : Sound adj n fas) : Invariant adj n (connectStart fas n) := by
  have hmem : ∀ v < n, .first v (.own v) ∈ (connectStart fas n).frames := fun v hv =>
    List.mem_flatten.mpr ⟨[.first v (.own v)], List.mem_map.mpr ⟨v, List.mem_range.mpr hv, rfl⟩,
      List.mem_singleton.mpr rfl⟩
  refine ⟨h, fun f hf => ?_, fun v hv u hu _ => .inr ⟨_, hmem v hv, rfl, hu⟩⟩
  obtain ⟨k, hk, hf⟩ := List.mem_flatten.mp hf
  obtain ⟨v, hv, rfl⟩ := List.mem_map.mp hk
  obtain rfl := List.mem_singleton.mp hf
  have hv := List.mem_range.mp hv
  exact ⟨hv, rfl, hv⟩

theorem invariant_step (hs : Symmetric adj n) (h : Step (connectKernel adj) c f x c') (hi : Invariant adj n c) :
    Invariant adj n c' ∧ c'.total (weight adj n) < c.total (weight adj n) := by
  obtain ⟨fs, rest, he, hp, hp'⟩ := h.frames
  have hf : f ∈ c.frames := hp.mem_iff.mpr (List.mem_cons_self ..)
  obtain ⟨h1, h2, h3, h4, h5⟩ := (acts_of_kernel he).spec hs hi.sound (hi.knows f hf)
  refine ⟨⟨h1, fun g hg => ?_, fun v hv u hu hlt => ?_⟩, ?_⟩
  · rcases List.mem_append.mp (hp'.mem_iff.mp hg) with hg | hg
    · exact h3 g hg
    · exact (hi.knows g (hp.mem_iff.mpr (List.mem_cons_of_mem _ hg))).grows h2
  · rcases hi.covers v hv u hu hlt with hsame | ⟨g, hg, ho⟩
    · exact .inl (h2.same _ _ hsame)
    · rcases List.mem_cons.mp (hp.mem_iff.mp hg) with rfl | hg
      · rcases h4 v u ho hlt with hsame | ⟨g', hg', ho'⟩
        · exact .inl hsame
        · exact .inr ⟨g', hp'.mem_iff.mpr (List.mem_append_left _ hg'), ho'⟩
      · exact .inr ⟨g, hp'.mem_iff.mpr (List.mem_append_right _ hg), ho⟩
  · rw [total_of_perm hp, total_of_perm hp', List.map_append, List.sum_append, List.map_cons, List.sum_cons]
    exact Nat.add_lt_add_right h5 _

theorem invariant_reaches (hs : Symmetric adj n) (h : Sound adj n fas)
    (hr : Reaches (connectKernel adj) free (connectStart fas n) c) : Invariant adj n c := by
  induction hr with
  | refl => exact invariant_start h
  | step _ _ hstep ih => exact (invariant_step hs hstep ih).1

theorem returned_of_quiescent (h : Quiescent (connectKernel adj) c) : c.frames = [] := by
  refine h.returned_of_acts fun f k _ hblocked => ?_
  have hnone := hblocked ()
  cases f with
  | hook v vstat ostat u rest =>
    simp only [connectKernel] at hnone
    split_ifs at hnone
  | _ => cases hnone

theorem init_returned_of_quiescent {c : Config (ℕ → ℕ) ℕ} (h : Quiescent (initKernel adj) c) : c.frames = [] :=
  h.returned_of_acts fun f k _ hblocked => by cases hblocked ()

end Runs

section Components
/-- No run goes on for ever. -/
def Terminates {Mem Frame : Type*} (code : Code Mem Frame Unit) (c₀ : Config Mem Frame) : Prop :=
  ¬ ∃ run : ℕ → Config Mem Frame, run 0 = c₀ ∧ ∀ k, ∃ f x, free (run k) f ∧ Step code (run k) f x (run (k + 1))

/-- Parents are never larger, and following them leads to a root. -/
structure Forest (fas : ℕ → ℕ) (n : ℕ) : Prop where
  le : ∀ v < n, fas v ≤ v
  ends : ∀ v < n, ∃ k, fas^[k] v = root fas v ∧ fas (root fas v) = root fas v

/-- The trees are the components, each with its smallest vertex as the root. -/
structure Components (adj : ℕ → List ℕ) (n : ℕ) (fas : ℕ → ℕ) : Prop where
  same_iff : ∀ v < n, ∀ u < n, root fas v = root fas u ↔ Connected adj n v u
  mem : ∀ v < n, Connected adj n v (root fas v)
  least : ∀ v < n, ∀ u, Connected adj n v u → root fas v ≤ u

variable {adj : ℕ → List ℕ} {n : ℕ} {fas : ℕ → ℕ} {c : Config (ℕ → ℕ) Frame}

theorem forest_of_sound (h : Sound adj n fas) : Forest fas n := by
  refine ⟨fun v hv => (h v hv).1, fun v hv => ?_⟩
  obtain ⟨k, hk⟩ := exists_iterate fas v
  have hle := (h _ ((root_le fas v).trans_lt hv)).1
  exact ⟨k, hk, le_antisymm hle (Nat.le_of_not_lt (root_not_lt fas v))⟩

/-- When nothing is owed, neighbours are in one tree. -/
theorem components_of_invariant (hs : Symmetric adj n) (hi : Invariant adj n c) (hf : c.frames = []) :
    Components adj n c.mem := by
  have hdown : ∀ v < n, ∀ u ∈ adj v, u < v → root c.mem v = root c.mem u := by
    intro v hv u hu hlt
    rcases hi.covers v hv u hu hlt with h | ⟨f, hmem, -⟩
    · exact h
    · rw [hf] at hmem
      cases hmem
  have hedge : ∀ a b, a < n → b ∈ adj a → root c.mem a = root c.mem b := by
    intro a b ha hb
    rcases Nat.lt_trichotomy b a with h | rfl | h
    · exact hdown a ha b hb h
    · rfl
    · have hbn := hs.lt a ha b hb
      exact (hdown b hbn a (hs.symm a ha b hbn hb) h).symm
  have hsame : ∀ v u, Connected adj n v u → root c.mem v = root c.mem u := by
    intro v u h
    induction h with
    | refl => rfl
    | tail _ hbc ih => exact ih.trans (hedge _ _ hbc.1 hbc.2.2)
  refine ⟨fun v hv u hu => ⟨hi.sound.connected hs hv hu, hsame v u⟩, fun v hv => hi.sound.connected_root hv, ?_⟩
  intro v _ u h
  rw [hsame v u h]
  exact root_le c.mem u

variable {V : Type*}

/-- `outerSize()`. -/
def outerSize (spm : SparseMatrix V) : ℕ := if spm.rowMajor then spm.nrows else spm.ncols

/-- `union_find` on a symmetric pattern, whatever the parents hold at first: both kernels come to an end in every
interleaving, the parents are a forest all along, and its trees are in the end the components. -/
theorem unionFind_components (spm : SparseMatrix V) (skipPred : V → Bool)
    (hs : Symmetric (neighbours spm skipPred) (outerSize spm)) (fas : ℕ → ℕ) :
    Terminates (initKernel (neighbours spm skipPred)) (initStart fas (outerSize spm)) ∧
      ∀ c₁, Reaches (initKernel (neighbours spm skipPred)) free (initStart fas (outerSize spm)) c₁ →
        (∀ v < outerSize spm, v ∉ c₁.frames → c₁.mem v ≤ v) ∧
        (Quiescent (initKernel (neighbours spm skipPred)) c₁ → c₁.frames = [] ∧
          Terminates (connectKernel (neighbours spm skipPred)) (connectStart c₁.mem (outerSize spm)) ∧
          ∀ c₂, Reaches (connectKernel (neighbours spm skipPred)) free (connectStart c₁.mem (outerSize spm)) c₂ →
            Forest c₂.mem (outerSize spm) ∧
            (Quiescent (connectKernel (neighbours spm skipPred)) c₂ → c₂.frames = [] ∧
              Components (neighbours spm skipPred) (outerSize spm) c₂.mem)) := by
  refine ⟨no_infinite_run fun _ _ h => init_decreases h, fun c₁ h₁ => ?_⟩
  have hinit := init_reaches h₁
  refine ⟨fun v hv hf => ?_, fun hq₁ => ?_⟩
  · rw [(hinit v hv).resolve_left hf]
    exact (initLoop_spec v _).1
  · have hdone := init_returned_of_quiescent hq₁
    have hsound : Sound (neighbours spm skipPred) (outerSize spm) c₁.mem := by
      intro v hv
      rw [(hinit v hv).resolve_left (by rw [hdone]; exact List.not_mem_nil)]
      obtain ⟨hle, heq | hmem⟩ := initLoop_spec v (neighbours spm skipPred v)
      · exact ⟨hle, by rw [heq]; exact .refl⟩
      · exact ⟨hle, connected_edge hs hv hmem⟩
    refine ⟨hdone, no_infinite_run fun hr _ hstep => (invariant_step hs hstep (invariant_reaches hs hsound hr)).2,
      fun c₂ h₂ => ?_⟩
    have hi := invariant_reaches hs hsound h₂
    refine ⟨forest_of_sound hi.sound, fun hq₂ => ?_⟩
    have hreturned := returned_of_quiescent hq₂
    exact ⟨hreturned, components_of_invariant hs hi hreturned⟩

/-- Two vertices with an entry each way. -/
def joined : SparseMatrix Unit := ⟨true, 2, 2, ⟨3, id⟩, ⟨2, fun i => 1 - i⟩, ⟨2, fun _ => ()⟩⟩

theorem symmetric_joined : Symmetric (neighbours joined fun _ => false) 2 := by
  constructor <;> decide

theorem unionFind_joined : Terminates (initKernel (neighbours joined fun _ => false)) (initStart id 2) ∧
    ∀ c₁, Reaches (initKernel (neighbours joined fun _ => false)) free (initStart id 2) c₁ →
      (∀ v < 2, v ∉ c₁.frames → c₁.mem v ≤ v) ∧
      (Quiescent (initKernel (neighbours joined fun _ => false)) c₁ → c₁.frames = [] ∧
        Terminates (connectKernel (neighbours joined fun _ => false)) (connectStart c₁.mem 2) ∧
        ∀ c₂, Reaches (connectKernel (neighbours joined fun _ => false)) free (connectStart c₁.mem 2) c₂ →
          Forest c₂.mem 2 ∧ (Quiescent (connectKernel (neighbours joined fun _ => false)) c₂ → c₂.frames = [] ∧
            Components (neighbours joined fun _ => false) 2 c₂.mem)) :=
  unionFind_components joined (fun _ => false) symmetric_joined id

end Components

end Zpc.ConnectedComponents
