import Zpc.PrefixFree
import Zpc.VkRenderGraphSort

/-!
# What the signature of a graph determines

Graphs with one sequence of signature fields have the same passes and the same resources but for `firstAccess`. The
execution order is therefore the same, and the barriers are exactly when the first accesses that some barrier waits
for are.
-/
namespace Zpc.VkRenderGraph
variable {resources resources' : List VirtualResource} {passes passes' : List RenderPassNode}
  {last : ResourceId → Option ResourceAccessInfo} {refs : List ResourceRef} {res : ResourceId}

theorem prefixFree_ref : PrefixFree ResourceRef.fields := by
  intro a b x y h
  obtain ⟨resA, accA, stagesA, accessA, layoutA⟩ := a
  obtain ⟨resB, accB, stagesB, accessB, layoutB⟩ := b
  simpa [ResourceRef.fields, and_assoc] using h

def describedFields (r : ResourceId × TransientDesc) : List ℕ := r.1 :: r.2.fields

theorem prefixFree_described : PrefixFree describedFields := by
  intro a b x y h
  obtain ⟨idA, descA⟩ := a
  obtain ⟨idB, descB⟩ := b
  cases descA with
  | buffer a =>
    cases descB with
    | buffer b =>
      obtain ⟨sizeA, usageA, memoryA⟩ := a
      obtain ⟨sizeB, usageB, memoryB⟩ := b
      simpa [describedFields, TransientDesc.fields, and_assoc] using h
    | image b => simp [describedFields, TransientDesc.fields] at h
  | image a =>
    cases descB with
    | buffer b => simp [describedFields, TransientDesc.fields] at h
    | image b =>
      obtain ⟨⟨widthA, heightA, depthA⟩, formatA, usageA, samplesA, mipA, layersA, typeA⟩ := a
      obtain ⟨⟨widthB, heightB, depthB⟩, formatB, usageB, samplesB, mipB, layersB, typeB⟩ := b
      simp only [describedFields, TransientDesc.fields, List.cons_append, List.nil_append, List.cons.injEq] at h
      obtain ⟨rfl, -, rfl, rfl, rfl, rfl, rfl, rfl, rfl, rfl, rfl, h⟩ := h
      exact ⟨rfl, h⟩

theorem toNat_inj {a b : PassType} (h : a.toNat = b.toNat) : a = b := by
  cases a <;> cases b <;> first | rfl | cases h

theorem queue_toNat_inj {a b : QueueType} (h : a.toNat = b.toNat) : a = b := by
  cases a <;> cases b <;> first | rfl | cases h

theorem prefixFree_pass : PrefixFree RenderPassNode.fields := by
  intro a b x y h
  obtain ⟨idA, typeA, queueA, readsA, writesA, depsA, effectA⟩ := a
  obtain ⟨idB, typeB, queueB, readsB, writesB, depsB, effectB⟩ := b
  simp only [RenderPassNode.fields, List.cons_append, List.nil_append, List.append_assoc, List.cons.injEq] at h
  obtain ⟨rfl, htype, hqueue, heffect, hdeps, h⟩ := h
  obtain ⟨rfl, hrefs⟩ := List.append_inj h hdeps
  obtain ⟨rfl, hwrites⟩ := prefixFree_ref.counted readsA readsB _ _ hrefs
  obtain ⟨rfl, hrest⟩ := prefixFree_ref.counted writesA writesB _ _ hwrites
  have heffect' : effectA = effectB := by
    cases effectA <;> cases effectB <;> first | rfl | cases heffect
  refine ⟨?_, hrest⟩
  rw [toNat_inj htype, queue_toNat_inj hqueue, heffect']

/-- The signature fields determine the passes, and the resources but for their first accesses. -/
theorem signatureFields_inj (h : signatureFields resources passes = signatureFields resources' passes') :
    passes = passes' ∧ resources.map (fun r => (r.id, r.desc)) = resources'.map fun r => (r.id, r.desc) := by
  have hfields : ∀ rs : List VirtualResource, rs.flatMap VirtualResource.fields =
      (rs.map fun r => (r.id, r.desc)).flatMap describedFields := by
    intro rs
    rw [List.flatMap_map]
    rfl
  simp only [signatureFields, List.cons_append, List.cons.injEq] at h
  obtain ⟨hr, hp, h⟩ := h
  rw [hfields, hfields] at h
  obtain ⟨hresources, h⟩ := prefixFree_described.flatMap (by simpa using hr) h
  rw [← List.append_nil (passes.flatMap _), ← List.append_nil (passes'.flatMap _)] at h
  exact ⟨(prefixFree_pass.flatMap hp h).1, hresources⟩

/-! ## The barriers, reference by reference -/

def barrierOf (resources : List VirtualResource) (last : ResourceId → Option ResourceAccessInfo) (ref : ResourceRef) :
    List BarrierInfo :=
  if (srcAccess resources last ref.resourceId).stages ≠ 0 ∧ ref.accessInfo.stages ≠ 0 then
    [⟨ref.resourceId, srcAccess resources last ref.resourceId, ref.accessInfo⟩] else []

def accessed (last : ResourceId → Option ResourceAccessInfo) (ref : ResourceRef) :
    ResourceId → Option ResourceAccessInfo :=
  Function.update last ref.resourceId (some ref.accessInfo)

def barriers (resources : List VirtualResource) : (ResourceId → Option ResourceAccessInfo) → List ResourceRef → List BarrierInfo
  | _, [] => []
  | last, ref :: refs => barrierOf resources last ref ++ barriers resources (accessed last ref) refs

theorem foldl_addBarrier (refs : List ResourceRef) (last : ResourceId → Option ResourceAccessInfo)
    (before : List BarrierInfo) : refs.foldl (addBarrier resources) ⟨last, before⟩ =
      ⟨refs.foldl accessed last, before ++ barriers resources last refs⟩ := by
  induction refs generalizing last before with
  | nil => simp [barriers]
  | cons ref refs ih =>
    have hstep : addBarrier resources ⟨last, before⟩ ref =
        ⟨accessed last ref, before ++ barrierOf resources last ref⟩ := by
      unfold addBarrier barrierOf accessed
      split_ifs with h
      · simp [h]
      · simp [h]
    rw [List.foldl_cons, hstep, ih, barriers, List.append_assoc]
    rfl

/-- The accesses declared for a resource are the same, or neither makes a barrier. -/
def SameSource (a b : ResourceAccessInfo) : Prop := a = b ∨ a.stages = 0 ∧ b.stages = 0

/-- Every reference whose source is a declared first access has the same source in both lists. -/
def Agree (resources resources' : List VirtualResource) :
    (ResourceId → Option ResourceAccessInfo) → List ResourceRef → Prop
  | _, [] => True
  | last, ref :: refs =>
    (last ref.resourceId = none → ref.accessInfo.stages ≠ 0 →
      SameSource (srcAccess resources last ref.resourceId) (srcAccess resources' last ref.resourceId)) ∧
      Agree resources resources' (accessed last ref) refs

theorem srcAccess_known (h : last res ≠ none) : srcAccess resources last res = srcAccess resources' last res := by
  obtain ⟨access, ha⟩ := Option.ne_none_iff_exists'.mp h
  rw [srcAccess, srcAccess, ha]

theorem barrierOf_eq_iff {ref : ResourceRef} : barrierOf resources last ref = barrierOf resources' last ref ↔
    (last ref.resourceId = none → ref.accessInfo.stages ≠ 0 →
      SameSource (srcAccess resources last ref.resourceId) (srcAccess resources' last ref.resourceId)) := by
  by_cases hlast : last ref.resourceId = none
  · by_cases hd : ref.accessInfo.stages = 0
    · simp [barrierOf, hd]
    · simp only [barrierOf, hlast, hd, ne_eq, not_false_eq_true, and_true, forall_true_left, SameSource]
      generalize srcAccess resources last ref.resourceId = a
      generalize srcAccess resources' last ref.resourceId = b
      by_cases ha : a.stages = 0
      · by_cases hb : b.stages = 0
        · simp [ha, hb]
        · have hne : a ≠ b := fun he => hb (he ▸ ha)
          simp [ha, hb, hne]
      · have hne : a.stages = 0 ∧ b.stages = 0 ↔ False := by simp [ha]
        by_cases hb : b.stages = 0
        · have hne' : a ≠ b := fun he => ha (he ▸ hb)
          simp [ha, hb, hne']
        · simp [ha, hb]
  · refine iff_of_true ?_ fun h => absurd h hlast
    rw [barrierOf, barrierOf, srcAccess_known hlast]

variable (resources resources') in
theorem filter_barriers_known (h : last res ≠ none) :
    (barriers resources last refs).filter (·.resourceId = res) =
      (barriers resources' last refs).filter (·.resourceId = res) := by
  induction refs generalizing last with
  | nil => rfl
  | cons ref refs ih =>
    have hstep : accessed last ref res ≠ none := by
      by_cases hr : res = ref.resourceId
      · simp [accessed, hr]
      · simpa [accessed, hr] using h
    rw [barriers, barriers, List.filter_append, List.filter_append, ih hstep]
    congr 1
    by_cases hr : ref.resourceId = res
    · subst hr
      rw [barrierOf, barrierOf, srcAccess_known h]
    · unfold barrierOf
      split_ifs <;> simp [hr]

theorem filter_barrierOf (resources : List VirtualResource) (last : ResourceId → Option ResourceAccessInfo)
    (ref : ResourceRef) : (barrierOf resources last ref).filter (·.resourceId = ref.resourceId) =
      barrierOf resources last ref := by
  unfold barrierOf
  split_ifs <;> simp

theorem barriers_eq_iff : barriers resources last refs = barriers resources' last refs ↔
    Agree resources resources' last refs := by
  induction refs generalizing last with
  | nil => exact iff_of_true rfl trivial
  | cons ref refs ih =>
    rw [barriers, barriers, Agree, ← barrierOf_eq_iff, ← ih]
    constructor
    · intro h
      -- the later barriers on this resource are the same, so the first one is
      have hf := congrArg (List.filter (·.resourceId = ref.resourceId)) h
      have hknown : accessed last ref ref.resourceId ≠ none := by simp [accessed]
      rw [List.filter_append, List.filter_append, filter_barriers_known resources resources' hknown,
        filter_barrierOf, filter_barrierOf] at hf
      have hfirst := List.append_cancel_right hf
      rw [hfirst] at h
      exact ⟨hfirst, List.append_cancel_left h⟩
    · rintro ⟨hfirst, hrest⟩
      rw [hfirst, hrest]

theorem agree_append {refs' : List ResourceRef} : Agree resources resources' last (refs ++ refs') ↔
    Agree resources resources' last refs ∧ Agree resources resources' (refs.foldl accessed last) refs' := by
  induction refs generalizing last with
  | nil => simp [Agree]
  | cons ref refs ih => rw [List.cons_append, Agree, Agree, ih, List.foldl_cons, and_assoc]

def refsAt (passes : List RenderPassNode) (orderIdx : ℕ) : List ResourceRef :=
  (passAt passes orderIdx).reads ++ (passAt passes orderIdx).writes

/-- The barriers of each pass along an execution order. -/
def orderBarriers (resources : List VirtualResource) (passes : List RenderPassNode) :
    (ResourceId → Option ResourceAccessInfo) → List ℕ → List (List BarrierInfo)
  | _, [] => []
  | last, i :: order => barriers resources last (refsAt passes i) ::
      orderBarriers resources passes ((refsAt passes i).foldl accessed last) order

theorem orderBarriers_eq_iff {order : List ℕ} :
    orderBarriers resources passes last order = orderBarriers resources' passes last order ↔
      Agree resources resources' last (order.flatMap (refsAt passes)) := by
  induction order generalizing last with
  | nil => exact iff_of_true rfl trivial
  | cons i order ih =>
    rw [orderBarriers, orderBarriers, List.cons.injEq, barriers_eq_iff, ih, List.flatMap_cons, agree_append]

theorem compilePass_eq (s : CompiledState) (i : ℕ) : compilePass resources passes s i =
    ⟨(refsAt passes i).foldl accessed s.lastAccess, s.outCompiled.modify i fun compiled =>
      ⟨(passAt passes i).id, compiled.preBarriers ++ barriers resources s.lastAccess (refsAt passes i),
        (passAt passes i).type = .graphics⟩⟩ := by
  unfold compilePass
  simp only [← List.foldl_append]
  rw [foldl_addBarrier]
  rfl

def preBarriersAt (out : List CompiledPass) (i : ℕ) : List BarrierInfo := (out.getD i {}).preBarriers

theorem preBarriersAt_modify {out : List CompiledPass} {i : ℕ} (hi : i < out.length) (id : ℕ)
    (added : List BarrierInfo) (graphics : Bool) (j : ℕ) :
    preBarriersAt (out.modify i fun compiled => ⟨id, compiled.preBarriers ++ added, graphics⟩) j =
      preBarriersAt out j ++ if j = i then added else [] := by
  unfold preBarriersAt
  rw [List.getD_eq_getElem?_getD, List.getD_eq_getElem?_getD, List.getElem?_modify]
  by_cases hj : j = i
  · subst hj
    simp [hi]
  · simp [hj, Ne.symm hj]

variable (resources resources' passes last) in
/-- Places that the order goes through once have the same barriers in the end exactly when the
barriers along the order are the same. -/
theorem foldl_compilePass_eq_iff {order : List ℕ} (hn : order.Nodup) (out out' : List CompiledPass)
    (hl : ∀ i ∈ order, i < out.length) (hl' : out'.length = out.length)
    (hsame : ∀ i ∈ order, preBarriersAt out i = preBarriersAt out' i) :
    (∀ i, preBarriersAt (order.foldl (compilePass resources passes) ⟨last, out⟩).outCompiled i =
        preBarriersAt (order.foldl (compilePass resources' passes) ⟨last, out'⟩).outCompiled i) ↔
      (∀ i, i ∉ order → preBarriersAt out i = preBarriersAt out' i) ∧
        orderBarriers resources passes last order = orderBarriers resources' passes last order := by
  induction order generalizing last out out' with
  | nil => simp [orderBarriers]
  | cons i order ih =>
    obtain ⟨hi, hn⟩ := List.nodup_cons.mp hn
    have hlen := hl i List.mem_cons_self
    rw [List.foldl_cons, List.foldl_cons, compilePass_eq, compilePass_eq, ih _ hn _ _ ?_ ?_ ?_]
    · simp only [preBarriersAt_modify hlen, preBarriersAt_modify (hl'.symm ▸ hlen), orderBarriers, List.cons.injEq]
      have hplace : (∀ j, j ∉ order →
          preBarriersAt out j ++ (if j = i then barriers resources last (refsAt passes i) else []) =
            preBarriersAt out' j ++ if j = i then barriers resources' last (refsAt passes i) else []) ↔
          (∀ j, j ∉ i :: order → preBarriersAt out j = preBarriersAt out' j) ∧
            barriers resources last (refsAt passes i) = barriers resources' last (refsAt passes i) := by
        constructor
        · intro h
          refine ⟨fun j hj => ?_, ?_⟩
          · obtain ⟨hji, hj⟩ : j ≠ i ∧ j ∉ order := by simpa using hj
            simpa [hji] using h j hj
          · have h := h i hi
            rw [if_pos rfl, if_pos rfl, hsame i List.mem_cons_self] at h
            exact List.append_cancel_left h
        · rintro ⟨h, hb⟩ j hj
          by_cases hji : j = i
          · subst hji
            rw [if_pos rfl, if_pos rfl, hsame j List.mem_cons_self, hb]
          · rw [if_neg hji, if_neg hji, h j (by simp [hji, hj])]
      rw [hplace, and_assoc]
    · intro j hj
      rw [List.length_modify]
      exact hl j (List.mem_cons_of_mem _ hj)
    · rw [List.length_modify, List.length_modify, hl']
    · intro j hj
      have hji : j ≠ i := fun he => hi (he ▸ hj)
      rw [preBarriersAt_modify hlen, preBarriersAt_modify (hl'.symm ▸ hlen), if_neg hji, if_neg hji,
        hsame j (List.mem_cons_of_mem _ hj)]

/-! ## Compiling anew -/

theorem topologicalSort_places (o : IterationOrder) (passes : List RenderPassNode) :
    (topologicalSort o passes).Nodup ∧ ∀ i ∈ topologicalSort o passes, i < passes.length := by
  have hs := sorts_sortedIds o passes
  rw [topologicalSort_eq]
  split_ifs with hl
  · have hperm := o.perm (passes.map (·.id)).dedup
    have hle := (hs.nodup.subperm hs.subset).length_le
    have hdedup := (List.dedup_sublist (passes.map (·.id)))
    have hn : (passes.map (·.id)).Nodup := by
      rw [hperm.length_eq, hl] at hle
      have heq := hdedup.eq_of_length_le (by rwa [List.length_map])
      rw [← heq]
      exact List.nodup_dedup _
    have hp : (sortedIds o passes).Perm (passes.map (·.id)) := by
      rw [hn.dedup] at hperm hs
      exact (hs.perm (by rw [hl, hperm.length_eq, List.length_map])).trans hperm
    have hrange := hp.map (passIdToIndex passes)
    rw [map_passIdToIndex_perm hn] at hrange
    exact ⟨hrange.nodup_iff.mpr List.nodup_range, fun i hi => List.mem_range.mp (hrange.mem_iff.mp hi)⟩
  · simp

/-- The same execution order, and the same barriers before every pass. -/
structure SameCompilation (a b : CompilationResult) : Prop where
  executionOrder : a.executionOrder = b.executionOrder
  barriers : ∀ i, preBarriersAt a.compiledPasses i = preBarriersAt b.compiledPasses i

/-- The first reference to a resource along the execution order. -/
def firstUse (o : IterationOrder) (passes : List RenderPassNode) (res : ResourceId) : Option ResourceRef :=
  ((topologicalSort o passes).flatMap (refsAt passes)).find? (·.resourceId = res)

/-- The access that the first barrier on a resource waits for. -/
def declaredAccess (resources : List VirtualResource) (res : ResourceId) : ResourceAccessInfo :=
  srcAccess resources (fun _ => none) res

theorem srcAccess_unknown (h : last res = none) : srcAccess resources last res = declaredAccess resources res := by
  rw [declaredAccess, srcAccess, srcAccess, h]

variable (resources resources' last refs) in
theorem agree_iff : Agree resources resources' last refs ↔ ∀ res, last res = none →
    ∀ ref, refs.find? (·.resourceId = res) = some ref → ref.accessInfo.stages ≠ 0 →
      SameSource (declaredAccess resources res) (declaredAccess resources' res) := by
  induction refs generalizing last with
  | nil => simp [Agree]
  | cons ref refs ih =>
    rw [Agree, ih]
    constructor
    · rintro ⟨hfirst, hrest⟩ res hlast r hr hs
      rw [List.find?_cons] at hr
      by_cases hres : ref.resourceId = res
      · subst hres
        simp only [decide_true, Option.some.injEq] at hr
        subst hr
        have h := hfirst hlast hs
        rwa [srcAccess_unknown hlast, srcAccess_unknown hlast] at h
      · simp only [hres, decide_false] at hr
        exact hrest res (by simpa [accessed, Ne.symm hres] using hlast) r hr hs
    · intro h
      refine ⟨fun hlast hs => ?_, fun res hlast r hr hs => ?_⟩
      · rw [srcAccess_unknown hlast, srcAccess_unknown hlast]
        exact h _ hlast ref (by simp) hs
      · have hres : ref.resourceId ≠ res := by
          rintro rfl
          simp [accessed] at hlast
        refine h res (by simpa [accessed, Ne.symm hres] using hlast) r ?_ hs
        rw [List.find?_cons]
        simpa [hres] using hr

/-- Two graphs with one sequence of signature fields compile to the same execution order, and to the
same barriers exactly when every resource whose first use in that order makes a barrier has the
same declared first access, or one without stages in both. -/
theorem sameCompilation_iff (o : IterationOrder)
    (h : signatureFields resources passes = signatureFields resources' passes') :
    SameCompilation (compile o resources passes) (compile o resources' passes') ↔
      ∀ res ref, firstUse o passes res = some ref → ref.accessInfo.stages ≠ 0 →
        SameSource (declaredAccess resources res) (declaredAccess resources' res) := by
  obtain ⟨rfl, -⟩ := signatureFields_inj h
  obtain ⟨hn, hlt⟩ := topologicalSort_places o passes
  have hagree := agree_iff resources resources' (fun _ => none) ((topologicalSort o passes).flatMap (refsAt passes))
  simp only [forall_true_left] at hagree
  unfold firstUse
  rw [← hagree, ← orderBarriers_eq_iff]
  by_cases hcyclic : topologicalSort o passes = []
  · have hsame : compile o resources passes = compile o resources' passes := by simp [compile, hcyclic]
    rw [hsame, hcyclic]
    exact iff_of_true ⟨rfl, fun _ => rfl⟩ rfl
  · have hempty : passes ≠ [] := by
      rintro rfl
      exact hcyclic (List.eq_nil_iff_forall_not_mem.mpr fun i hi => absurd (hlt i hi) (by simp))
    rw [compile, compile, if_neg hempty, if_neg hcyclic, if_neg hempty, if_neg hcyclic]
    have hfold := foldl_compilePass_eq_iff resources resources' passes (fun _ => none) hn
      (List.replicate passes.length {}) (List.replicate passes.length {})
      (by simpa using hlt) rfl fun _ _ => rfl
    constructor
    · exact fun hs => (hfold.mp hs.barriers).2
    · exact fun hb => ⟨rfl, hfold.mpr ⟨fun _ _ => rfl, hb⟩⟩

/-- A storage buffer that was last written by a transfer. -/
def uploaded : VirtualResource := {id := 0, firstAccess := ⟨2 ^ 12, 2 ^ 12, 0⟩}

/-- A pass that reads the buffer in a compute shader. -/
def consumer : RenderPassNode := {id := 0, reads := [⟨0, 1, ⟨2 ^ 11, 2 ^ 5, 1⟩⟩], hasSideEffect := true}

theorem firstAccess_unsigned : signatureFields [uploaded] [consumer] = signatureFields [{id := 0}] [consumer] ∧
    ¬ SameCompilation (compile default [uploaded] [consumer]) (compile default [{id := 0}] [consumer]) := by
  refine ⟨rfl, fun h => ?_⟩
  have hb := h.barriers 0
  revert hb
  decide

/-- The first access to the second resource differs, but no pass uses it. -/
theorem sameCompilation_iff_unused : ∃ resources resources' : List VirtualResource, resources ≠ resources' ∧
    SameCompilation (compile default resources [consumer]) (compile default resources' [consumer]) := by
  refine ⟨[uploaded, {id := 1, firstAccess := ⟨1, 0, 0⟩}], [uploaded, {id := 1}], by decide, ?_⟩
  refine (sameCompilation_iff default rfl).mpr fun res ref hfirst _ => ?_
  have hu : topologicalSort default [consumer] = [0] := by decide
  have hres : res = 0 := by
    rw [firstUse, hu] at hfirst
    have hmem := List.find?_some hfirst
    have href := List.mem_of_find?_eq_some hfirst
    simp only [refsAt, passAt, consumer, List.flatMap_cons, List.flatMap_nil, List.getD_cons_zero, List.append_nil,
      List.mem_singleton] at href
    subst href
    simpa [eq_comm] using hmem
  subst hres
  exact .inl rfl

end Zpc.VkRenderGraph
