import Zpc.VkRenderGraphCache

/-!
# The barriers between accesses

Every access of a resource overwrites the recorded one, so a barrier always waits for the
access right before its own. There is none where one of the two names no pipeline stage.
-/
namespace Zpc.VkRenderGraph
variable {resources : List VirtualResource} {passes : List RenderPassNode} {last : ResourceId → Option ResourceAccessInfo}
  {res : ResourceId} {order : List ℕ} {out : List CompiledPass} {i j : ℕ} {b : BarrierInfo}

def accesses (passes : List RenderPassNode) (order : List ℕ) : List (ℕ × ResourceRef) :=
  order.flatMap fun i => (refsAt passes i).map fun ref => (i, ref)

def accessesOf (passes : List RenderPassNode) (order : List ℕ) (res : ResourceId) : List (ℕ × ResourceRef) :=
  (accesses passes order).filter fun a => a.2.resourceId = res

/-- The pass of the second access has a barrier from the first access to it. -/
def Barred (out : List CompiledPass) (res : ResourceId) (a b : ℕ × ResourceRef) : Prop :=
  ⟨res, a.2.accessInfo, b.2.accessInfo⟩ ∈ preBarriersAt out b.1

/-- A barrier that a pass has is not taken away. -/
theorem preBarriersAt_foldl (hl : ∀ i ∈ order, i < out.length) (hb : b ∈ preBarriersAt out j) :
    b ∈ preBarriersAt (order.foldl (compilePass resources passes) ⟨last, out⟩).outCompiled j := by
  induction order generalizing last out with
  | nil => exact hb
  | cons i order ih =>
    rw [List.foldl_cons, compilePass_eq]
    apply ih
    · intro k hk
      rw [List.length_modify]
      exact hl k (List.mem_cons_of_mem _ hk)
    · rw [preBarriersAt_modify (hl i List.mem_cons_self)]
      exact List.mem_append_left _ hb

theorem mem_barriers {before after : List ResourceRef} {ref : ResourceRef}
    (hb : b ∈ barrierOf resources (before.foldl accessed last) ref) :
    b ∈ barriers resources last (before ++ ref :: after) := by
  induction before generalizing last with
  | nil => exact List.mem_append_left _ hb
  | cons r before ih => exact List.mem_append_right _ (ih hb)

/-- An access gets its barrier from the accesses before it. -/
theorem mem_preBarriersAt {before after : List (ℕ × ResourceRef)} {ref : ResourceRef}
    (hl : ∀ i ∈ order, i < out.length) (hs : accesses passes order = before ++ (i, ref) :: after)
    (hb : b ∈ barrierOf resources ((before.map (·.2)).foldl accessed last) ref) :
    b ∈ preBarriersAt (order.foldl (compilePass resources passes) ⟨last, out⟩).outCompiled i := by
  induction order generalizing last out before with
  | nil => simp [accesses] at hs
  | cons j order ih =>
    have hl' : ∀ (id : ℕ) (added : List BarrierInfo) (graphics : Bool), ∀ k ∈ order, k <
        (out.modify j fun compiled => ⟨id, compiled.preBarriers ++ added, graphics⟩).length := by
      intro _ _ _ k hk
      rw [List.length_modify]
      exact hl k (List.mem_cons_of_mem _ hk)
    rw [List.foldl_cons, compilePass_eq]
    rw [accesses, List.flatMap_cons] at hs
    rcases List.append_eq_append_iff.mp hs with ⟨mid, rfl, hrest⟩ | ⟨mid, hfirst, hrest⟩
    · refine ih (hl' _ _ _) hrest ?_
      rw [List.map_append, List.foldl_append] at hb
      simpa [Function.comp_def] using hb
    · cases mid with
      | nil =>
        rw [List.append_nil] at hfirst
        rw [List.nil_append] at hrest
        refine @ih _ _ [] (hl' _ _ _) hrest.symm ?_
        rw [← hfirst] at hb
        simpa [Function.comp_def] using hb
      | cons a mid =>
        obtain ⟨rfl, -⟩ := List.cons.inj hrest
        obtain ⟨refs, tail, hrefs, hbefore, htail⟩ := List.map_eq_append_iff.mp hfirst
        obtain ⟨ref', after', rfl, hhead, -⟩ := List.map_eq_cons_iff.mp htail
        obtain ⟨rfl, rfl⟩ := Prod.mk.inj hhead
        apply preBarriersAt_foldl (hl' _ _ _)
        rw [preBarriersAt_modify (hl j List.mem_cons_self), if_pos rfl, hrefs]
        apply List.mem_append_right
        apply mem_barriers
        rw [← hbefore] at hb
        simpa [Function.comp_def] using hb

/-- The recorded access of a resource is the one of its last reference. -/
theorem foldl_accessed (refs : List ResourceRef) (hlast : last res = none) :
    refs.foldl accessed last res = ((refs.filter (·.resourceId = res)).getLast?).map (·.accessInfo) := by
  induction refs using List.reverseRecOn with
  | nil => exact hlast
  | append_singleton refs ref ih =>
    rw [List.foldl_append, List.foldl_cons, List.foldl_nil, accessed]
    by_cases hr : ref.resourceId = res
    · simp [hr]
    · rw [Function.update_of_ne (Ne.symm hr), ih]
      simp [hr]

/-- Two neighbours of a filtered list: nothing between them passes the filter. -/
theorem neighbours_filter {α : Type*} {p : α → Bool} {as : List α} {k : ℕ} {a b : α}
    (ha : (as.filter p)[k]? = some a) (hb : (as.filter p)[k + 1]? = some b) :
    ∃ before after, as = before ++ b :: after ∧ (before.filter p).getLast? = some a := by
  obtain ⟨hk, hget⟩ := List.getElem?_eq_some_iff.mp hb
  have hsplit : as.filter p = (as.filter p).take (k + 1) ++ b :: (as.filter p).drop (k + 2) := by
    rw [← hget, List.cons_getElem_drop_succ, List.take_append_drop]
  obtain ⟨first, second, has, hfirst, hsecond⟩ := List.filter_eq_append_iff.mp hsplit
  obtain ⟨skipped, after, hafter, hskipped, -, -⟩ := List.filter_eq_cons_iff.mp hsecond
  refine ⟨first ++ skipped, after, by rw [has, hafter, List.append_assoc], ?_⟩
  have hnone : skipped.filter p = [] := List.filter_eq_nil_iff.mpr hskipped
  rw [List.filter_append, hnone, List.append_nil, hfirst, List.getLast?_take]
  simp [ha]

/-- The barrier of an access that is not the first waits for the access right before it. -/
theorem barred_succ (hl : ∀ i ∈ order, i < passes.length) {k : ℕ} {a b : ℕ × ResourceRef}
    (ha : (accessesOf passes order res)[k]? = some a) (hb : (accessesOf passes order res)[k + 1]? = some b)
    (hsrc : a.2.accessInfo.stages ≠ 0) (hdst : b.2.accessInfo.stages ≠ 0) :
    Barred (computeBarriers resources passes order) res a b := by
  obtain ⟨before, after, hs, hlast⟩ := neighbours_filter ha hb
  have hres : b.2.resourceId = res := by
    have hmem := List.mem_of_getElem? hb
    simpa using (List.mem_filter.mp hmem).2
  have hs' : accesses passes order = before ++ (b.1, b.2) :: after := hs
  refine mem_preBarriersAt ?_ hs' ?_
  · intro i hi
    rw [List.length_replicate]
    exact hl i hi
  · have hknown : (before.map (·.2)).foldl accessed (fun _ => none) res = some a.2.accessInfo := by
      have hsame : (before.filter ((fun ref : ResourceRef => decide (ref.resourceId = res)) ∘ fun a => a.2)).getLast? =
          some a := hlast
      rw [foldl_accessed _ rfl, List.filter_map, List.getLast?_map, hsame]
      rfl
    rw [barrierOf, hres, srcAccess, hknown]
    simp [hsrc, hdst]

/-- What the barriers guarantee: each access after the first has a barrier from the access right before it where both
name stages, and two accesses are linked by such barriers where every access from one to the other names stages. -/
theorem computeBarriers_chains (resources : List VirtualResource) (passes : List RenderPassNode) (order : List ℕ)
    (hl : ∀ i ∈ order, i < passes.length) (res : ResourceId) :
    (∀ (k : ℕ) (a b : ℕ × ResourceRef), (accessesOf passes order res)[k]? = some a →
        (accessesOf passes order res)[k + 1]? = some b → a.2.accessInfo.stages ≠ 0 → b.2.accessInfo.stages ≠ 0 →
        Barred (computeBarriers resources passes order) res a b) ∧
      ∀ k l, k < l → l < (accessesOf passes order res).length →
        (∀ m a, k ≤ m → m ≤ l → (accessesOf passes order res)[m]? = some a → a.2.accessInfo.stages ≠ 0) →
        Relation.TransGen (fun m n => n = m + 1 ∧ ∃ a b, (accessesOf passes order res)[m]? = some a ∧
          (accessesOf passes order res)[n]? = some b ∧ Barred (computeBarriers resources passes order) res a b) k l := by
  have hsucc : ∀ (k : ℕ) (a b : ℕ × ResourceRef), (accessesOf passes order res)[k]? = some a →
      (accessesOf passes order res)[k + 1]? = some b → a.2.accessInfo.stages ≠ 0 → b.2.accessInfo.stages ≠ 0 →
      Barred (computeBarriers resources passes order) res a b := fun k a b ha hb => barred_succ hl ha hb
  refine ⟨hsucc, fun k l hkl hlen hstages => ?_⟩
  induction l, hkl using Nat.le_induction with
  | base =>
    have hk : k < (accessesOf passes order res).length := by omega
    have ha := List.getElem?_eq_getElem hk
    have hb := List.getElem?_eq_getElem hlen
    exact .single ⟨rfl, _, _, ha, hb, hsucc k _ _ ha hb (hstages k _ le_rfl (by omega) ha) (hstages _ _ (by omega) le_rfl hb)⟩
  | succ l hkl ih =>
    have hl' : l < (accessesOf passes order res).length := by omega
    have ha := List.getElem?_eq_getElem hl'
    have hb := List.getElem?_eq_getElem hlen
    refine (ih hl' fun m a hkm hml => hstages m a hkm (by omega)).tail ⟨rfl, _, _, ha, hb, ?_⟩
    exact hsucc l _ _ ha hb (hstages l _ (by omega) (by omega) ha) (hstages _ _ (by omega) le_rfl hb)

def stageless : List RenderPassNode :=
  [{id := 0, writes := [⟨0, 2, {}⟩]}, {id := 1, reads := [⟨0, 1, ⟨2 ^ 11, 2 ^ 5, 1⟩⟩]}]

/-- The same with a stage at the write. -/
def staged : List RenderPassNode :=
  [{id := 0, writes := [⟨0, 2, ⟨2 ^ 12, 2 ^ 12, 7⟩⟩]}, {id := 1, reads := [⟨0, 1, ⟨2 ^ 11, 2 ^ 5, 1⟩⟩]}]

theorem computeBarriers_staged :
    Barred (computeBarriers [] staged [0, 1]) 0 (0, ⟨0, 2, ⟨2 ^ 12, 2 ^ 12, 7⟩⟩) (1, ⟨0, 1, ⟨2 ^ 11, 2 ^ 5, 1⟩⟩) :=
  (computeBarriers_chains [] staged [0, 1] (by decide) 0).1 0 _ _ rfl rfl (by decide) (by decide)

/-- Two accesses to a resource of which one writes it, or that want different layouts. -/
def NeedsBarrier (a b : ℕ × ResourceRef) : Prop :=
  a.2.access.testBit 1 = true ∨ b.2.access.testBit 1 = true ∨ a.2.accessInfo.layout ≠ b.2.accessInfo.layout

theorem stageless_unbarred : ¬ ∀ (resources : List VirtualResource) (passes : List RenderPassNode) (order : List ℕ),
    (∀ i ∈ order, i < passes.length) → ∀ (res : ResourceId) (k : ℕ) (a b : ℕ × ResourceRef),
      (accessesOf passes order res)[k]? = some a → (accessesOf passes order res)[k + 1]? = some b → NeedsBarrier a b →
      Barred (computeBarriers resources passes order) res a b := by
  intro h
  have hbarred := h [] stageless [0, 1] (by decide) 0 0 (0, ⟨0, 2, {}⟩) (1, ⟨0, 1, ⟨2 ^ 11, 2 ^ 5, 1⟩⟩) rfl rfl
    (.inl rfl)
  have hnone : preBarriersAt (computeBarriers [] stageless [0, 1]) 1 = [] := by decide
  rw [Barred, hnone] at hbarred
  exact List.not_mem_nil hbarred

end Zpc.VkRenderGraph
