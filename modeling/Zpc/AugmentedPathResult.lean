import Zpc.AugmentedPath

/-!
# What the search for an augmenting path finds

The vertices whose potential flow is written form a tree, as long as a potential flow is read after it has been
written. A visited vertex is in the tree, or one kernel is about to add it.
-/
namespace Zpc.MaximumFlow
open Interleaving

variable {V : Type*} {m : SparseMatrix V} {source sink : ℕ} {vals : ℕ → ℤ} {st st' : Search} {L : List ℕ}
  {f g : Kernel} {fs : List Kernel} {c c' : Config Search Kernel}

section Actions
/-- What an action does. -/
inductive KernelActs (m : SparseMatrix V) (sink : ℕ) (vals : ℕ → ℤ) (st : Search) :
    Kernel → Search → List Kernel → Prop
  | skip (vi) (h : st.frontier vi = false) : KernelActs m sink vals st (.start vi) st []
  | enter (vi) (h : st.frontier vi = true) : KernelActs m sink vals st (.start vi) st [.leave vi]
  | leave (vi) : KernelActs m sink vals st (.leave vi) { st with frontier := Function.update st.frontier vi false }
      [.edges vi (row m vi)]
  | done (vi) : KernelActs m sink vals st (.edges vi []) st []
  | pass (vi i js) (h : 0 < vals i → st.visited (m.inds.get i) = true) :
      KernelActs m sink vals st (.edges vi (i :: js)) st [.edges vi js]
  | claim (vi i js) (hpos : 0 < vals i) (hnew : st.visited (m.inds.get i) = false) :
      KernelActs m sink vals st (.edges vi (i :: js))
        { st with visited := Function.update st.visited (m.inds.get i) true } [.visit vi i js .publish]
  | publish (vi i js) : KernelActs m sink vals st (.visit vi i js .publish)
      { st with frontier := Function.update st.frontier (m.inds.get i) true } [.visit vi i js .parent]
  | parent (vi i js) : KernelActs m sink vals st (.visit vi i js .parent)
      { st with parents := Function.update st.parents (m.inds.get i) vi } [.visit vi i js .compare]
  | less (vi i js) (h : vals i < st.potentialFlows vi) : KernelActs m sink vals st (.visit vi i js .compare) st
      [.visit vi i js (.write (vals i))]
  | notLess (vi i js) (h : st.potentialFlows vi ≤ vals i) : KernelActs m sink vals st (.visit vi i js .compare) st
      [.visit vi i js .read]
  | read (vi i js) : KernelActs m sink vals st (.visit vi i js .read) st
      [.visit vi i js (.write (st.potentialFlows vi))]
  | write (vi i js flow) : KernelActs m sink vals st (.visit vi i js (.write flow))
      { st with potentialFlows := Function.update st.potentialFlows (m.inds.get i) flow } [.visit vi i js .found]
  | found (vi i js) : KernelActs m sink vals st (.visit vi i js .found)
      { st with isSinkFound := st.isSinkFound || m.inds.get i == sink } [.edges vi js]

theorem acts_of_kernelCode {x : Unit} (h : kernelCode m sink vals st f x = some (st', fs)) :
    KernelActs m sink vals st f st' fs := by
  cases f with
  | start vi =>
    cases h
    split
    next hf => exact .enter vi hf
    next hf => exact .skip vi (Bool.eq_false_iff.mpr hf)
  | leave vi =>
    cases h
    exact .leave vi
  | edges vi js =>
    cases js with
    | nil =>
      cases h
      exact .done vi
    | cons i js =>
      rw [kernelCode] at h
      split at h
      case isTrue hle =>
        cases h
        exact .pass vi i js fun hpos => absurd hpos (not_lt.mpr hle)
      case isFalse hpos =>
        split at h
        case isTrue hv =>
          cases h
          exact .pass vi i js fun _ => hv
        case isFalse hv =>
          cases h
          exact .claim vi i js (not_le.mp hpos) (Bool.eq_false_iff.mpr hv)
  | visit vi i js stage =>
    cases stage with
    | compare =>
      cases h
      split
      next hlt => exact .less vi i js hlt
      next hge => exact .notLess vi i js (not_lt.mp hge)
    | _ =>
      cases h
      constructor

end Actions

section Tree
/-- The vertices in the order in which their potential flows have been written. -/
inductive Grown (m : SparseMatrix V) (source : ℕ) (vals : ℕ → ℤ) (st : Search) : List ℕ → Prop
  | source (hroot : st.parents source = -1) (hpos : 0 < st.potentialFlows source) : Grown m source vals st [source]
  | grow {L : List ℕ} {w u i : ℕ} (h : Grown m source vals st L) (hu : u ∈ L) (hw : w ∉ L)
      (hp : st.parents w = (u : ℕ)) (hi : i ∈ row m u) (hv : m.inds.get i = w) (hpos : 0 < st.potentialFlows w)
      (hle : st.potentialFlows w ≤ vals i) (hflow : st.potentialFlows w ≤ st.potentialFlows u) :
      Grown m source vals st (w :: L)

/-- The tree depends on its own vertices only. -/
theorem Grown.congr (h : Grown m source vals st L) (hp : ∀ w ∈ L, st'.parents w = st.parents w)
    (hf : ∀ w ∈ L, st'.potentialFlows w = st.potentialFlows w) : Grown m source vals st' L := by
  induction h with
  | source hroot hpos =>
    have hmem : source ∈ [source] := List.mem_singleton.mpr rfl
    exact .source ((hp source hmem).trans hroot) ((hf source hmem).symm ▸ hpos)
  | @grow L w u i _ hu hw hpar hi hv hpos hle hflow ih =>
    have hwmem : w ∈ w :: L := List.mem_cons_self
    have humem : u ∈ w :: L := List.mem_cons_of_mem _ hu
    refine .grow (ih (fun x hx => hp x (List.mem_cons_of_mem _ hx)) fun x hx => hf x (List.mem_cons_of_mem _ hx)) hu hw
      ((hp w hwmem).trans hpar) hi hv ?_ ?_ ?_
    · rw [hf w hwmem]
      exact hpos
    · rw [hf w hwmem]
      exact hle
    · rw [hf w hwmem, hf u humem]
      exact hflow

theorem Grown.source_mem (h : Grown m source vals st L) : source ∈ L := by
  induction h with
  | source => exact List.mem_singleton.mpr rfl
  | grow _ _ _ _ _ _ _ _ _ ih => exact List.mem_cons_of_mem _ ih

theorem Grown.pos (h : Grown m source vals st L) {w : ℕ} (hw : w ∈ L) : 0 < st.potentialFlows w := by
  induction h with
  | source _ hpos =>
    obtain rfl := List.mem_singleton.mp hw
    exact hpos
  | grow _ _ _ _ _ _ hpos _ _ ih =>
    rcases List.mem_cons.mp hw with rfl | hw
    · exact hpos
    · exact ih hw

theorem Grown.traced (h : Grown m source vals st L) {w : ℕ} (hw : w ∈ L) {flow : ℤ}
    (hflow : flow ≤ st.potentialFlows w) : Traced m source vals st.parents flow w := by
  induction h generalizing w with
  | source hroot =>
    obtain rfl := List.mem_singleton.mp hw
    exact .source hroot
  | grow _ hu _ hp hi hv _ hle hle' ih =>
    rcases List.mem_cons.mp hw with rfl | hw
    · exact .edge (ih hu (hflow.trans hle')) hp hi hv (hflow.trans hle)
    · exact ih hw hflow

theorem Traced.reachable {parents : ℕ → ℤ} {flow : ℤ} (hpos : 0 < flow) {w : ℕ}
    (h : Traced m source vals parents flow w) : Relation.ReflTransGen (Edge m vals) source w := by
  induction h with
  | source => exact .refl
  | edge _ _ hi hv hflow ih => exact ih.tail ⟨_, hi, hv, hpos.trans_le hflow⟩

end Tree

section Invariant
def claims (m : SparseMatrix V) (w : ℕ) (f : Kernel) : ℕ := if claim m f = some w then 1 else 0

/-- What a kernel knows of the memory. -/
def KernelKnows (m : SparseMatrix V) (vals : ℕ → ℤ) (L : List ℕ) (st : Search) : Kernel → Prop
  | .start _ => True
  | .leave vi => st.visited vi = true
  | .edges vi js => st.visited vi = true ∧ ∀ i ∈ js, i ∈ row m vi
  | .visit vi i js stage => st.visited vi = true ∧ (∀ i ∈ js, i ∈ row m vi) ∧ i ∈ row m vi ∧ 0 < vals i ∧
      st.visited (m.inds.get i) = true ∧ match stage with
        | .publish | .parent | .found => True
        | .compare => st.parents (m.inds.get i) = (vi : ℕ)
        | .read => st.parents (m.inds.get i) = (vi : ℕ) ∧ vi ∈ L ∧ st.potentialFlows vi ≤ vals i
        | .write flow => st.parents (m.inds.get i) = (vi : ℕ) ∧ vi ∈ L ∧ 0 < flow ∧ flow ≤ vals i ∧
            flow ≤ st.potentialFlows vi

def remaining (m : SparseMatrix V) : Kernel → Option (ℕ × List ℕ)
  | .start _ => none
  | .leave vi => some (vi, row m vi)
  | .edges vi js | .visit vi _ js _ => some (vi, js)

/-- The kernel expands the vertex, or is about to put it on the frontier. -/
def Works (m : SparseMatrix V) (vals : ℕ → ℤ) (st : Search) (u : ℕ) (f : Kernel) : Prop :=
  (∃ js, remaining m f = some (u, js) ∧
    ∀ i ∈ row m u, 0 < vals i → st.visited (m.inds.get i) = true ∨ i ∈ js) ∨
  ∃ vi i js, f = .visit vi i js .publish ∧ m.inds.get i = u

structure SweepInvariant (m : SparseMatrix V) (source sink : ℕ) (vals : ℕ → ℤ) (L : List ℕ)
    (c : Config Search Kernel) : Prop where
  grown : Grown m source vals c.mem L
  account : ∀ w, c.total (claims m w) + L.count w = (c.mem.visited w).toNat
  unwritten : ∀ w ∉ L, c.mem.potentialFlows w = 0
  lt : ∀ w, c.mem.visited w = true → w < outerSize m
  frontier : ∀ w, c.mem.frontier w = true → c.mem.visited w = true
  knows : ∀ f ∈ c.frames, KernelKnows m vals L c.mem f
  expanded : ∀ u, c.mem.visited u = true → c.mem.frontier u = true ∨ (∃ f ∈ c.frames, Works m vals c.mem u f) ∨
    ∀ i ∈ row m u, 0 < vals i → c.mem.visited (m.inds.get i) = true
  found : c.mem.isSinkFound = true → c.mem.visited sink = true

theorem SweepInvariant.not_mem_of_claim (h : SweepInvariant m source sink vals L c) (hf : f ∈ c.frames) {w : ℕ}
    (hw : claim m f = some w) : w ∉ L := by
  intro hmem
  have haccount := h.account w
  have hle := le_total (claims m w) hf
  have hcount := List.count_pos_iff.mpr hmem
  have hone := Bool.toNat_le (c.mem.visited w)
  rw [claims, if_pos hw] at hle
  omega

theorem SweepInvariant.claim_apart (h : SweepInvariant m source sink vals L c) (hb : Beside c f g) {w : ℕ}
    (hf : claim m f = some w) : claim m g ≠ some w := by
  intro hg
  have haccount := h.account w
  have hle := hb.le_total (claims m w)
  have hone := Bool.toNat_le (c.mem.visited w)
  rw [claims, claims, if_pos hf, if_pos hg] at hle
  omega

theorem SweepInvariant.mem_of_unclaimed (h : SweepInvariant m source sink vals L c) {w : ℕ}
    (hw : c.mem.visited w = true) (hun : ∀ g ∈ c.frames, claim m g ≠ some w) : w ∈ L := by
  have haccount := h.account w
  have hzero : c.total (claims m w) = 0 := List.sum_eq_zero fun k hk => by
    obtain ⟨g, hg, rfl⟩ := List.mem_map.mp hk
    exact if_neg (hun g hg)
  rw [hzero, hw, Bool.toNat_true, Nat.zero_add] at haccount
  exact List.count_pos_iff.mp (haccount ▸ Nat.one_pos)

theorem SweepInvariant.visited_of_mem (h : SweepInvariant m source sink vals L c) {w : ℕ} (hw : w ∈ L) :
    c.mem.visited w = true := by
  have haccount := h.account w
  have hcount := List.count_pos_iff.mpr hw
  by_contra hno
  rw [Bool.not_eq_true] at hno
  rw [hno, Bool.toNat_false] at haccount
  omega

end Invariant

section Steps
/-- The vertex whose potential flow is written. -/
def written (m : SparseMatrix V) : Kernel → List ℕ
  | .visit _ i _ (.write _) => [m.inds.get i]
  | _ => []

theorem KernelActs.visited (h : KernelActs m sink vals st f st' fs) {w : ℕ} (hw : st.visited w = true) :
    st'.visited w = true := by
  cases h with
  | claim vi i js =>
    show Function.update st.visited _ true w = true
    rw [Function.update_apply]
    split
    next => rfl
    next => exact hw
  | _ => exact hw

theorem account_step {x : Unit} (h : Step (kernelCode m sink vals) c f x c') {w : ℕ}
    (ha : c.total (claims m w) + L.count w = (c.mem.visited w).toNat) :
    c'.total (claims m w) + (written m f ++ L).count w = (c'.mem.visited w).toNat := by
  obtain ⟨fs, r, hacts, hr, hr'⟩ := h.measure acts_of_kernelCode (claims m w)
  rw [hr] at ha
  rw [hr']
  generalize c.mem = st, c'.mem = st' at hacts ha ⊢
  clear h hr hr'
  cases hacts with
  | claim vi i js hpos hnew =>
    by_cases hw : m.inds.get i = w
    · subst hw
      simp [claims, MaximumFlow.claim, written, hnew] at ha ⊢
      omega
    · simp [claims, MaximumFlow.claim, written, hw, Function.update_of_ne (Ne.symm hw)] at ha ⊢
      exact ha
  | write vi i js flow =>
    by_cases hw : m.inds.get i = w
    · simp [claims, MaximumFlow.claim, written, hw] at ha ⊢
      omega
    · simp [claims, MaximumFlow.claim, written, hw] at ha ⊢
      exact ha
  | _ =>
    simp [claims, MaximumFlow.claim, written] at ha ⊢
    omega

theorem KernelActs.parents_eq (ha : KernelActs m sink vals st f st' fs) {w : ℕ}
    (hw : MaximumFlow.claim m f ≠ some w) : st'.parents w = st.parents w := by
  cases ha with
  | parent vi i js => exact Function.update_of_ne (fun heq => hw (congrArg some heq.symm)) _ _
  | _ => rfl

theorem KernelActs.flow_eq (ha : KernelActs m sink vals st f st' fs) {w : ℕ}
    (hw : MaximumFlow.claim m f ≠ some w) : st'.potentialFlows w = st.potentialFlows w := by
  cases ha with
  | write vi i js flow => exact Function.update_of_ne (fun heq => hw (congrArg some heq.symm)) _ _
  | _ => rfl

/-- The vertex that is written joins the tree. -/
theorem SweepInvariant.grown_step (h : SweepInvariant m source sink vals L c) (hf : f ∈ c.frames)
    (ha : KernelActs m sink vals c.mem f st' fs) : Grown m source vals st' (written m f ++ L) := by
  have hout : ∀ w ∈ L, claim m f ≠ some w := fun w hw hclaim => h.not_mem_of_claim hf hclaim hw
  have hgrown : Grown m source vals st' L :=
    h.grown.congr (fun w hw => ha.parents_eq (hout w hw)) fun w hw => ha.flow_eq (hout w hw)
  have hk := h.knows f hf
  cases ha with
  | write vi i js flow =>
    obtain ⟨-, -, hi, -, -, hparent, hvi, hpos, hle, hflow⟩ := hk
    have hnew : m.inds.get i ∉ L := h.not_mem_of_claim hf rfl
    have hne : vi ≠ m.inds.get i := fun heq => hnew (heq ▸ hvi)
    refine .grow hgrown hvi hnew hparent hi rfl ?_ ?_ ?_
    · show 0 < Function.update c.mem.potentialFlows _ flow _
      rwa [Function.update_self]
    · show Function.update c.mem.potentialFlows _ flow _ ≤ _
      rwa [Function.update_self]
    · show Function.update c.mem.potentialFlows _ flow _ ≤ Function.update c.mem.potentialFlows _ flow _
      rwa [Function.update_self, Function.update_of_ne hne]
  | _ => exact hgrown

theorem SweepInvariant.unwritten_step (h : SweepInvariant m source sink vals L c)
    (ha : KernelActs m sink vals c.mem f st' fs) {w : ℕ} (hw : w ∉ written m f ++ L) : st'.potentialFlows w = 0 := by
  rw [List.mem_append, not_or] at hw
  cases ha with
  | write vi i js flow =>
    rw [written, List.mem_singleton] at hw
    exact (Function.update_of_ne hw.1 _ _).trans (h.unwritten w hw.2)
  | _ => exact h.unwritten w hw.2

theorem SweepInvariant.lt_step (hm : ∀ v < outerSize m, ∀ i ∈ row m v, m.inds.get i < outerSize m)
    (h : SweepInvariant m source sink vals L c) (hf : f ∈ c.frames) (ha : KernelActs m sink vals c.mem f st' fs)
    {w : ℕ} (hw : st'.visited w = true) : w < outerSize m := by
  have hk := h.knows f hf
  cases ha with
  | claim vi i js hpos hnew =>
    change Function.update c.mem.visited _ true w = true at hw
    rw [Function.update_apply] at hw
    split at hw
    next heq => exact heq ▸ hm vi (h.lt vi hk.1) i (hk.2 i List.mem_cons_self)
    next => exact h.lt w hw
  | _ => exact h.lt w hw

theorem SweepInvariant.frontier_step (h : SweepInvariant m source sink vals L c) (hf : f ∈ c.frames)
    (ha : KernelActs m sink vals c.mem f st' fs) {w : ℕ} (hw : st'.frontier w = true) : st'.visited w = true := by
  have hvisited := ha.visited (w := w)
  have hk := h.knows f hf
  cases ha with
  | leave vi =>
    change Function.update c.mem.frontier _ false w = true at hw
    rw [Function.update_apply] at hw
    split at hw
    next => cases hw
    next => exact h.frontier w hw
  | publish vi i js =>
    change Function.update c.mem.frontier _ true w = true at hw
    rw [Function.update_apply] at hw
    split at hw
    next heq => exact heq ▸ hk.2.2.2.2.1
    next => exact h.frontier w hw
  | _ => exact hvisited (h.frontier w hw)

theorem SweepInvariant.found_step (h : SweepInvariant m source sink vals L c) (hf : f ∈ c.frames)
    (ha : KernelActs m sink vals c.mem f st' fs) (hs : st'.isSinkFound = true) : st'.visited sink = true := by
  have hvisited := ha.visited (w := sink)
  have hk := h.knows f hf
  cases ha with
  | found vi i js =>
    rcases Bool.or_eq_true_iff.mp hs with hs | hs
    · exact h.found hs
    · exact (beq_iff_eq.mp hs) ▸ hk.2.2.2.2.1
  | _ => exact hvisited (h.found hs)

/-- What the kernel knows next. -/
theorem SweepInvariant.knows_self (h : SweepInvariant m source sink vals L c) (hf : f ∈ c.frames)
    (hg : flowWritten m c f) (ha : KernelActs m sink vals c.mem f st' fs) :
    ∀ g ∈ fs, KernelKnows m vals (written m f ++ L) st' g := by
  have hk := h.knows f hf
  cases ha with
  | skip | done => exact List.forall_mem_nil _
  | enter vi hfrontier => exact List.forall_mem_singleton.mpr (h.frontier vi hfrontier)
  | leave vi => exact List.forall_mem_singleton.mpr ⟨hk, fun _ hi => hi⟩
  | pass vi i js => exact List.forall_mem_singleton.mpr ⟨hk.1, fun j hj => hk.2 j (List.mem_cons_of_mem _ hj)⟩
  | claim vi i js hpos hnew =>
    have hne : vi ≠ m.inds.get i := fun heq => by rw [← heq, hk.1] at hnew; cases hnew
    refine List.forall_mem_singleton.mpr ⟨?_, fun j hj => hk.2 j (List.mem_cons_of_mem _ hj),
      hk.2 i List.mem_cons_self, hpos, ?_, trivial⟩
    · exact (Function.update_of_ne hne _ _).trans hk.1
    · exact Function.update_self _ _ _
  | publish vi i js => exact List.forall_mem_singleton.mpr hk
  | parent vi i js =>
    obtain ⟨h1, h2, h3, h4, h5, -⟩ := hk
    exact List.forall_mem_singleton.mpr ⟨h1, h2, h3, h4, h5, Function.update_self _ _ _⟩
  | less vi i js hlt =>
    obtain ⟨h1, h2, h3, h4, h5, h6⟩ := hk
    have hvi := h.mem_of_unclaimed h1 (hg vi rfl)
    exact List.forall_mem_singleton.mpr ⟨h1, h2, h3, h4, h5, h6, hvi, h4, le_rfl, hlt.le⟩
  | notLess vi i js hge =>
    obtain ⟨h1, h2, h3, h4, h5, h6⟩ := hk
    have hvi := h.mem_of_unclaimed h1 (hg vi rfl)
    exact List.forall_mem_singleton.mpr ⟨h1, h2, h3, h4, h5, h6, hvi, hge⟩
  | read vi i js =>
    obtain ⟨h1, h2, h3, h4, h5, h6, h7, h8⟩ := hk
    exact List.forall_mem_singleton.mpr ⟨h1, h2, h3, h4, h5, h6, h7, h.grown.pos h7, h8, le_rfl⟩
  | write vi i js flow =>
    obtain ⟨h1, h2, h3, h4, h5, -⟩ := hk
    exact List.forall_mem_singleton.mpr ⟨h1, h2, h3, h4, h5, trivial⟩
  | found vi i js => exact List.forall_mem_singleton.mpr ⟨hk.1, hk.2.1⟩

/-- What the other kernels know stays true. -/
theorem SweepInvariant.knows_beside (h : SweepInvariant m source sink vals L c) (hf : f ∈ c.frames)
    (ha : KernelActs m sink vals c.mem f st' fs) (hb : Beside c f g) (hk : KernelKnows m vals L c.mem g) :
    KernelKnows m vals (written m f ++ L) st' g := by
  have hparents : ∀ w, claim m g = some w → st'.parents w = c.mem.parents w := fun w hw =>
    ha.parents_eq fun hclaim => h.claim_apart hb hclaim hw
  have hflow : ∀ w ∈ L, st'.potentialFlows w = c.mem.potentialFlows w := fun w hw =>
    ha.flow_eq fun hclaim => h.not_mem_of_claim hf hclaim hw
  cases g with
  | start vi => trivial
  | leave vi => exact ha.visited hk
  | edges vi js => exact ⟨ha.visited hk.1, hk.2⟩
  | visit vi i js stage =>
    obtain ⟨h1, h2, h3, h4, h5, h6⟩ := hk
    refine ⟨ha.visited h1, h2, h3, h4, ha.visited h5, ?_⟩
    cases stage with
    | publish | parent | found => trivial
    | compare => exact (hparents _ rfl).trans h6
    | read =>
      refine ⟨(hparents _ rfl).trans h6.1, List.mem_append_right _ h6.2.1, ?_⟩
      rw [hflow vi h6.2.1]
      exact h6.2.2
    | write flow =>
      refine ⟨(hparents _ rfl).trans h6.1, List.mem_append_right _ h6.2.1, h6.2.2.1, h6.2.2.2.1, ?_⟩
      rw [hflow vi h6.2.1]
      exact h6.2.2.2.2

theorem Works.mono {u : ℕ} (h : Works m vals st u f) (hv : ∀ w, st.visited w = true → st'.visited w = true) :
    Works m vals st' u f := by
  rcases h with ⟨js, hr, hjs⟩ | hpublish
  · exact .inl ⟨js, hr, fun i hi hpos => (hjs i hi hpos).imp_left (hv _)⟩
  · exact .inr hpublish

/-- A kernel goes on with its vertex, or the vertex is on the frontier or expanded. -/
theorem Works.acts {u : ℕ} (h : Works m vals st u f) (ha : KernelActs m sink vals st f st' fs) :
    st'.frontier u = true ∨ (∃ g ∈ fs, Works m vals st' u g) ∨
      ∀ i ∈ row m u, 0 < vals i → st'.visited (m.inds.get i) = true := by
  have hv := fun w => ha.visited (w := w)
  rcases h with ⟨js, hr, hjs⟩ | ⟨vi, i, js, rfl, rfl⟩
  case inr =>
    cases ha
    exact .inl (Function.update_self _ _ _)
  cases ha with
  | skip | enter => cases hr
  | leave vi =>
    cases hr
    exact .inr (.inl ⟨_, List.mem_singleton.mpr rfl, .inl ⟨_, rfl, fun i hi _ => .inr hi⟩⟩)
  | done vi =>
    cases hr
    exact .inr (.inr fun i hi hpos => (hjs i hi hpos).resolve_right List.not_mem_nil)
  | pass vi i js hpass =>
    cases hr
    refine .inr (.inl ⟨_, List.mem_singleton.mpr rfl, .inl ⟨_, rfl, fun j hj hpos => ?_⟩⟩)
    rcases hjs j hj hpos with hvisited | hmem
    · exact .inl hvisited
    · rcases List.mem_cons.mp hmem with rfl | hmem
      · exact .inl (hpass hpos)
      · exact .inr hmem
  | claim vi i js hpos hnew =>
    cases hr
    refine .inr (.inl ⟨_, List.mem_singleton.mpr rfl, .inl ⟨_, rfl, fun j hj hpos => ?_⟩⟩)
    rcases hjs j hj hpos with hvisited | hmem
    · exact .inl (hv _ hvisited)
    · rcases List.mem_cons.mp hmem with rfl | hmem
      · exact .inl (Function.update_self _ _ _)
      · exact .inr hmem
  | _ =>
    cases hr
    exact .inr (.inl ⟨_, List.mem_singleton.mpr rfl, .inl ⟨_, rfl, hjs⟩⟩)

theorem KernelActs.frontier_or (ha : KernelActs m sink vals st f st' fs) {u : ℕ} (hu : st.frontier u = true) :
    st'.frontier u = true ∨ fs = [.edges u (row m u)] := by
  cases ha with
  | leave vi =>
    by_cases hvi : u = vi
    · exact .inr (hvi ▸ rfl)
    · exact .inl ((Function.update_of_ne hvi _ _).trans hu)
  | publish vi i js =>
    refine .inl ?_
    show Function.update st.frontier _ true u = true
    rw [Function.update_apply]
    split
    next => rfl
    next => exact hu
  | _ => exact .inl hu

theorem KernelActs.claimed (ha : KernelActs m sink vals st f st' fs) {u : ℕ} (hu : st.visited u = false)
    (hu' : st'.visited u = true) : ∃ vi i js, fs = [.visit vi i js .publish] ∧ m.inds.get i = u := by
  cases ha with
  | claim vi i js =>
    refine ⟨vi, i, js, rfl, ?_⟩
    by_contra hne
    change Function.update st.visited _ true u = true at hu'
    rw [Function.update_of_ne (Ne.symm hne), hu] at hu'
    cases hu'
  | _ =>
    rw [hu] at hu'
    cases hu'

theorem SweepInvariant.expanded_step (h : SweepInvariant m source sink vals L c) {x : Unit}
    (hs : Step (kernelCode m sink vals) c f x c') {u : ℕ} (hu : c'.mem.visited u = true) :
    c'.mem.frontier u = true ∨ (∃ g ∈ c'.frames, Works m vals c'.mem u g) ∨
      ∀ i ∈ row m u, 0 < vals i → c'.mem.visited (m.inds.get i) = true := by
  obtain ⟨fs, he⟩ := hs.runs_code
  have ha := acts_of_kernelCode he
  have hv := fun w => ha.visited (w := w)
  by_cases hold : c.mem.visited u = true
  case neg =>
    obtain ⟨vi, i, js, rfl, hi⟩ := ha.claimed (Bool.eq_false_iff.mpr hold) hu
    exact .inr (.inl ⟨_, hs.mem_of_new he (List.mem_singleton.mpr rfl), .inr ⟨vi, i, js, rfl, hi⟩⟩)
  rcases h.expanded u hold with hfrontier | ⟨g, hg, hw⟩ | hclosed
  · rcases ha.frontier_or hfrontier with hfrontier | rfl
    · exact .inl hfrontier
    · exact .inr (.inl ⟨_, hs.mem_of_new he (List.mem_singleton.mpr rfl), .inl ⟨_, rfl, fun _ hi _ => .inr hi⟩⟩)
  · by_cases hgf : g = f
    · subst hgf
      refine (hw.acts ha).imp_right fun hnext => hnext.imp_left ?_
      rintro ⟨k, hk, hwk⟩
      exact ⟨k, hs.mem_of_new he hk, hwk⟩
    · exact .inr (.inl ⟨g, hs.mem_of_ne hg hgf, hw.mono hv⟩)
  · exact .inr (.inr fun i hi hpos => hv _ (hclosed i hi hpos))

theorem SweepInvariant.step (hm : ∀ v < outerSize m, ∀ i ∈ row m v, m.inds.get i < outerSize m)
    (h : SweepInvariant m source sink vals L c) (hg : flowWritten m c f) {x : Unit}
    (hs : Step (kernelCode m sink vals) c f x c') : SweepInvariant m source sink vals (written m f ++ L) c' := by
  obtain ⟨fs, he⟩ := hs.runs_code
  have ha := acts_of_kernelCode he
  have hf := hs.mem_frame
  refine ⟨h.grown_step hf ha, fun w => account_step hs (h.account w), fun w hw => h.unwritten_step ha hw,
    fun w hw => h.lt_step hm hf ha hw, fun w hw => h.frontier_step hf ha hw, ?_, fun u hu => h.expanded_step hs hu,
    h.found_step hf ha⟩
  intro g hgc
  rcases hs.new_or_old he hgc with hnew | hb
  · exact h.knows_self hf hg ha g hnew
  · exact h.knows_beside hf ha hb (h.knows g hb.mem)

end Steps

section Sweep
def Left (K : List ℕ) (c : Config Search Kernel) : Prop :=
  ∀ w ∈ K, c.mem.frontier w = false ∨ .start w ∈ c.frames ∨ .leave w ∈ c.frames

theorem SweepInvariant.left_step {K : List ℕ} (h : SweepInvariant m source sink vals L c) (hKL : K ⊆ L)
    (hK : Left K c) {x : Unit} (hs : Step (kernelCode m sink vals) c f x c') : Left K c' := by
  intro w hw
  obtain ⟨fs, he⟩ := hs.runs_code
  have hf := hs.mem_frame
  have hout : claim m f ≠ some w := fun hclaim => h.not_mem_of_claim hf hclaim (hKL hw)
  have hnew := fun g hg => hs.mem_of_new (g := g) he hg
  rcases hK w hw with hfalse | hstart | hleave
  · refine .inl ?_
    have ha := acts_of_kernelCode he
    generalize c'.mem = st' at ha ⊢
    cases ha with
    | leave vi =>
      show Function.update c.mem.frontier _ false w = false
      rw [Function.update_apply]
      split
      next => rfl
      next => exact hfalse
    | publish vi i js => exact (Function.update_of_ne (fun heq => hout (congrArg some heq.symm)) _ _).trans hfalse
    | _ => exact hfalse
  · by_cases hne : Kernel.start w = f
    · subst hne
      obtain ⟨hmem, rfl⟩ := Prod.ext_iff.mp (Option.some.inj he)
      change c.mem = c'.mem at hmem
      by_cases hfrontier : c.mem.frontier w = true
      · exact .inr (.inr (hnew _ (by simp only [if_pos hfrontier, List.mem_singleton])))
      · exact .inl (hmem ▸ Bool.eq_false_iff.mpr hfrontier)
    · exact .inr (.inl (hs.mem_of_ne hstart hne))
  · by_cases hne : Kernel.leave w = f
    · subst hne
      obtain ⟨hmem, -⟩ := Prod.ext_iff.mp (Option.some.inj he)
      refine .inl ?_
      rw [← show _ = c'.mem from hmem]
      exact Function.update_self _ _ _
    · exact .inr (.inr (hs.mem_of_ne hleave hne))

/-- What holds in every configuration that a sweep reaches. -/
theorem SweepInvariant.reaches {K : List ℕ} {c₀ : Config Search Kernel}
    (hm : ∀ v < outerSize m, ∀ i ∈ row m v, m.inds.get i < outerSize m)
    (h₀ : SweepInvariant m source sink vals K c₀) (hK : Left K c₀)
    (hr : Reaches (kernelCode m sink vals) (flowWritten m) c₀ c) :
    ∃ L, SweepInvariant m source sink vals (L ++ K) c ∧ Left K c := by
  induction hr with
  | refl => exact ⟨[], h₀, hK⟩
  | @step c c' f x _ hg hs ih =>
    obtain ⟨L, h, hleft⟩ := ih
    refine ⟨written m f ++ L, ?_, h.left_step (List.subset_append_right _ _) hleft hs⟩
    rw [List.append_assoc]
    exact h.step hm hg hs

theorem kernelCode_isSome (m : SparseMatrix V) (sink : ℕ) (vals : ℕ → ℤ) (st : Search) (f : Kernel) (x : Unit) :
    (kernelCode m sink vals st f x).isSome = true := by
  cases f with
  | edges vi js =>
    cases js with
    | nil => rfl
    | cons i js =>
      rw [kernelCode]
      split
      · rfl
      · split <;> rfl
  | visit vi i js stage => cases stage <;> rfl
  | _ => rfl

theorem frames_of_quiescent (hq : Quiescent (kernelCode m sink vals) c) : c.frames = [] :=
  hq.returned_of_acts fun f _ _ hnone => by
    have hsome := kernelCode_isSome m sink vals c.mem f ()
    rw [hnone ()] at hsome
    cases hsome

/-- The actions left to a kernel at most. -/
def work (m : SparseMatrix V) : Kernel → ℕ
  | .start vi => 3 + 8 * (row m vi).length
  | .leave vi => 2 + 8 * (row m vi).length
  | .edges _ js => 1 + 8 * js.length
  | .visit _ _ js stage => 1 + 8 * js.length + match stage with
    | .publish => 6
    | .parent => 5
    | .compare => 4
    | .read => 3
    | .write _ => 2
    | .found => 1

theorem work_lt {x : Unit} (hs : Step (kernelCode m sink vals) c f x c') : c'.total (work m) < c.total (work m) := by
  obtain ⟨fs, r, ha, hr, hr'⟩ := hs.measure acts_of_kernelCode (work m)
  rw [hr, hr']
  refine Nat.add_lt_add_right ?_ r
  generalize c.mem = st, c'.mem = st' at ha
  cases ha <;> simp only [work, List.map_cons, List.map_nil, List.sum_cons, List.sum_nil, List.length_cons] <;> omega

theorem SweepInvariant.finish (h : SweepInvariant m source sink vals L c) (hc : c.frames = []) :
    SweepInvariant m source sink vals L ⟨c.mem, []⟩ where
  grown := h.grown
  account w := by
    have haccount := h.account w
    rwa [show c.total (claims m w) = 0 by rw [Config.total, hc]; rfl] at haccount
  unwritten := h.unwritten
  lt := h.lt
  frontier := h.frontier
  knows f hf := absurd hf List.not_mem_nil
  expanded u hu := by
    have hexpanded := h.expanded u hu
    rwa [hc] at hexpanded
  found := h.found

theorem SweepInvariant.begin (h : SweepInvariant m source sink vals L ⟨st, []⟩) (schedule : List (List ℕ)) :
    SweepInvariant m source sink vals L (sweepStart st schedule) where
  grown := h.grown.congr (fun _ _ => rfl) fun _ _ => rfl
  account w := by
    rw [show (sweepStart st schedule).total (claims m w) = 0 from
      total_programs Kernel.start (fun _ => rfl) _ _]
    exact h.account w
  unwritten := h.unwritten
  lt := h.lt
  frontier := h.frontier
  knows f hf := by
    obtain ⟨vi, rfl⟩ := mem_programs hf
    trivial
  expanded u hu := by
    rcases h.expanded u hu with hfrontier | ⟨g, hg, -⟩ | hclosed
    · exact .inl hfrontier
    · exact absurd hg List.not_mem_nil
    · exact .inr (.inr hclosed)
  found hsink := by cases hsink

theorem left_sweepStart (hlt : ∀ w ∈ L, w < outerSize m) {schedule : List (List ℕ)}
    (hs : schedule.flatten.Perm (List.range (outerSize m))) : Left L (sweepStart st schedule) := by
  intro w hw
  obtain ⟨k, hk, hwk⟩ := List.mem_flatten.mp (hs.mem_iff.mpr (List.mem_range.mpr (hlt w hw)))
  exact .inr (.inl (List.mem_flatten.mpr ⟨_, List.mem_map_of_mem hk, List.mem_map_of_mem hwk⟩))

theorem sweepInvariant_start {max : ℤ} {parents : ℕ → ℤ} (hs : source < outerSize m) (hmax : 0 < max) :
    SweepInvariant m source sink vals [source] ⟨start source max parents, []⟩ where
  grown := .source (Function.update_self _ _ _) (by
    show 0 < Function.update (fun _ => (0 : ℤ)) source max source
    rwa [Function.update_self])
  account w := by
    show 0 + _ = (w == source).toNat
    by_cases hw : w = source
    · simp [hw]
    · simp [Ne.symm hw, beq_eq_false_iff_ne.mpr hw]
  unwritten w hw := by
    show Function.update (fun _ => (0 : ℤ)) source max w = 0
    rw [Function.update_of_ne (List.mem_singleton.not.mp hw)]
  lt w hw := beq_iff_eq.mp hw ▸ hs
  frontier w hw := hw
  knows f hf := absurd hf List.not_mem_nil
  expanded u hu := .inl hu
  found hsink := by cases hsink

theorem SweepInvariant.mem_iff (h : SweepInvariant m source sink vals L ⟨st, []⟩) {w : ℕ} :
    w ∈ L ↔ st.visited w = true :=
  ⟨h.visited_of_mem, fun hw => h.mem_of_unclaimed hw fun _ hg => absurd hg List.not_mem_nil⟩

theorem SweepInvariant.length_le (h : SweepInvariant m source sink vals L ⟨st, []⟩) : L.length ≤ outerSize m := by
  have hnodup : L.Nodup := List.nodup_iff_count_le_one.mpr fun w =>
    (Nat.le_add_left _ _).trans ((h.account w).trans_le (Bool.toNat_le _))
  have hsub : L ⊆ List.range (outerSize m) := fun w hw => List.mem_range.mpr (h.lt w (h.visited_of_mem hw))
  exact (hnodup.subperm hsub).length_le.trans_eq List.length_range

/-- Each sweep takes a vertex from the frontier for good. -/
theorem Sweeps.invariant {max : ℤ} {parents : ℕ → ℤ} {n : ℕ}
    (hm : ∀ v < outerSize m, ∀ i ∈ row m v, m.inds.get i < outerSize m) (hsource : source < outerSize m)
    (hmax : 0 < max) (h : Sweeps m sink vals (flowWritten m) (MaximumFlow.start source max parents) n st) :
    ∃ K L, SweepInvariant m source sink vals (L ++ K) ⟨st, []⟩ ∧ (∀ w ∈ K, st.frontier w = false) ∧ n ≤ K.length := by
  induction h with
  | init => exact ⟨[], [source], sweepInvariant_start hsource hmax, fun _ hw => absurd hw List.not_mem_nil, le_rfl⟩
  | @sweep n st v _ hsink hv hf schedule hs c hr hq ih =>
    obtain ⟨K, L, hi, hK, hn⟩ := ih
    have hc := frames_of_quiescent hq
    obtain ⟨L', hi', hleft⟩ := (hi.begin schedule).reaches hm
      (left_sweepStart (fun w hw => hi.lt w (hi.visited_of_mem hw)) hs) hr
    refine ⟨L ++ K, L', hi'.finish hc, fun w hw => ?_, ?_⟩
    · rcases hleft w hw with hfalse | hframe | hframe
      · exact hfalse
      · exact absurd (hc ▸ hframe) List.not_mem_nil
      · exact absurd (hc ▸ hframe) List.not_mem_nil
    · have hvL : v ∈ L := by
        rcases List.mem_append.mp (hi.mem_iff.mpr (hi.frontier v hf)) with hvL | hvK
        · exact hvL
        · exact absurd hf (Bool.eq_false_iff.mp (hK v hvK))
      have hpos := List.length_pos_of_mem hvL
      rw [List.length_append]
      omega

/-- Everything that is reachable is visited when the frontier is empty. -/
theorem SweepInvariant.visited_of_reachable (h : SweepInvariant m source sink vals L ⟨st, []⟩)
    (he : ∀ v < outerSize m, st.frontier v = false) {w : ℕ}
    (hw : Relation.ReflTransGen (Edge m vals) source w) : st.visited w = true := by
  induction hw with
  | refl => exact h.visited_of_mem h.grown.source_mem
  | @tail u w _ hedge ih =>
    obtain ⟨i, hi, rfl, hpos⟩ := hedge
    rcases h.expanded u ih with hfrontier | ⟨g, hg, -⟩ | hclosed
    · exact absurd hfrontier (Bool.eq_false_iff.mp (he u (h.lt u ih)))
    · exact absurd hg List.not_mem_nil
    · exact hclosed i hi hpos

end Sweep

section Result
theorem findAugmentedPath_written {max : ℤ} {parents : ℕ → ℤ}
    (hm : ∀ v < outerSize m, ∀ i ∈ row m v, m.inds.get i < outerSize m) (hsource : source < outerSize m)
    (hmax : 0 < max) :
    (∀ st schedule, ¬ ∃ run : ℕ → Config Search Kernel, run 0 = sweepStart st schedule ∧
      ∀ k, ∃ f x, Step (kernelCode m sink vals) (run k) f x (run (k + 1))) ∧
    ∀ n st, Sweeps m sink vals (flowWritten m) (start source max parents) n st → n ≤ outerSize m ∧ (Breaks m st →
      (0 < st.potentialFlows sink ↔ Relation.ReflTransGen (Edge m vals) source sink) ∧
      (0 < st.potentialFlows sink → Traced m source vals st.parents (st.potentialFlows sink) sink)) := by
  refine ⟨?_, fun n st h => ?_⟩
  · rintro st schedule ⟨run, h0, hrun⟩
    have hlt {c f x c'} (_ : Reaches (kernelCode m sink vals) free (sweepStart st schedule) c) (_ : free c f)
        (hs : Step (kernelCode m sink vals) c f x c') : c'.total (work m) < c.total (work m) := work_lt hs
    refine no_infinite_run hlt ⟨run, h0, fun k => ?_⟩
    obtain ⟨f, x, hs⟩ := hrun k
    exact ⟨f, x, trivial, hs⟩
  · obtain ⟨K, L, hi, -, hn⟩ := h.invariant hm hsource hmax
    have hlength := hi.length_le
    rw [List.length_append] at hlength
    have htraced : 0 < st.potentialFlows sink → Traced m source vals st.parents (st.potentialFlows sink) sink := by
      intro hpos
      refine hi.grown.traced ?_ le_rfl
      by_contra hno
      rw [hi.unwritten sink hno] at hpos
      exact lt_irrefl _ hpos
    refine ⟨by omega, fun hbreaks => ⟨⟨fun hpos => (htraced hpos).reachable hpos, fun hreach => ?_⟩, htraced⟩⟩
    refine hi.grown.pos (hi.mem_iff.mpr ?_)
    rcases hbreaks with hsink | he
    · exact hi.found hsink
    · exact hi.visited_of_reachable he hreach

end Result

section Example
/-- A path with three vertices, of capacity 5 in the one direction. -/
def threePath : SparseMatrix Unit :=
  ⟨true, 3, 3, ⟨4, fun v => [0, 1, 3, 4].getD v 0⟩, ⟨4, fun j => [1, 0, 2, 1].getD j 0⟩, ⟨4, fun _ => ()⟩⟩

def threeCapacities (j : ℕ) : ℤ := [5, 0, 5, 0].getD j 0

def threeStart : Search := start 0 2147483647 fun _ => 0

/-- A thread for each vertex. -/
theorem sweeps_of_runs (guard : Guard Search Kernel) [∀ c f, Decidable (guard c f)] (sched : List ℕ) {flow : ℤ}
    (he : (runs (kernelCode threePath 2 threeCapacities) guard (sweepStart threeStart [[0], [1], [2]])
      (sched.map fun t => (t, ()))).map
        (fun c => (c.threads.map List.length, c.mem.isSinkFound, c.mem.potentialFlows 2)) =
      some ([0, 0, 0], true, flow)) :
    ∃ st, Sweeps threePath 2 threeCapacities guard threeStart 1 st ∧ Breaks threePath st ∧
      st.potentialFlows 2 = flow := by
  obtain ⟨c, hc, he⟩ := Option.map_eq_some_iff.mp he
  simp only [Prod.mk.injEq] at he
  obtain ⟨hlengths, hsink, hflow⟩ := he
  have hquiescent : Quiescent (kernelCode threePath 2 threeCapacities) c := quiescent_of_lengths (n := 3) hlengths
  exact ⟨c.mem, .sweep .init rfl (v := 0) (by decide) rfl (.refl _) (reaches_of_runs hc) hquiescent, .inl hsink, hflow⟩

theorem threePath_reachable : Relation.ReflTransGen (Edge threePath threeCapacities) 0 2 :=
  .tail (.single ⟨0, by decide, rfl, by decide⟩) ⟨2, by decide, rfl, by decide⟩

/-- The kernel of the second vertex runs while the first has not yet written its potential flow. -/
theorem flow_read_early : ¬ ∀ n st, Sweeps threePath 2 threeCapacities free threeStart n st → Breaks threePath st →
    (0 < st.potentialFlows 2 ↔ Relation.ReflTransGen (Edge threePath threeCapacities) 0 2) := by
  intro hall
  obtain ⟨st, hst, hbreaks, hflow⟩ := sweeps_of_runs free
    [0, 0, 0, 0, 1, 1, 1, 1, 1, 1, 1, 1, 1, 1, 1, 2, 2, 2, 2, 0, 0, 0, 0, 0] rfl
  have hpos := (hall 1 st hst hbreaks).mpr threePath_reachable
  rw [hflow] at hpos
  exact lt_irrefl _ hpos

/-- The kernels overlap, and the second reads what the first has written. -/
theorem findAugmentedPath_written_threePath :
    ∃ st, Sweeps threePath 2 threeCapacities (flowWritten threePath) threeStart 1 st ∧ st.potentialFlows 2 = 5 ∧
      Traced threePath 0 threeCapacities st.parents 5 2 := by
  obtain ⟨st, hst, hbreaks, hflow⟩ := sweeps_of_runs (flowWritten threePath)
    [0, 0, 0, 0, 1, 1, 1, 1, 1, 1, 0, 0, 0, 0, 0, 1, 1, 1, 1, 1, 2, 2, 2, 2] rfl
  obtain ⟨-, hwritten⟩ := @findAugmentedPath_written Unit threePath 0 2 threeCapacities 2147483647 (fun _ => 0)
    (by decide) (by decide) (by decide)
  obtain ⟨-, -, htraced⟩ := (hwritten 1 st hst).imp_right fun hresult => hresult hbreaks
  rw [hflow] at htraced
  exact ⟨st, hst, hflow, htraced (by decide)⟩

end Example
end Zpc.MaximumFlow
