import Zpc.QueueSort
import Zpc.RequestQueue

/-!
# The Vulkan render graph

The passes and resources of `VkRenderGraph.hpp` and `RenderGraphCompiler` of `VkRenderGraph.cpp`: culling, the sort of
the passes by their dependencies, the barriers, and the signature under which a compilation is cached. The order in
which a hash table hands out its keys is a parameter.
-/
namespace Zpc.VkRenderGraph
abbrev ResourceId := ℕ

inductive PassType
  | compute | graphics | transfer | present | asyncCompute | copy | blit | clear | rayTracing
  deriving DecidableEq

inductive QueueType
  | graphics | compute | transfer
  deriving DecidableEq

/-- Stage flags, access flags and image layout, each as its bits. -/
structure ResourceAccessInfo where
  stages : ℕ := 0
  access : ℕ := 0
  layout : ℕ := 0
  deriving DecidableEq

structure ResourceRef where
  resourceId : ResourceId
  access : ℕ := 0
  accessInfo : ResourceAccessInfo := {}
  deriving DecidableEq

structure TransientBufferDesc where
  size : ℕ := 0
  usage : ℕ := 0
  memoryProperties : ℕ := 1
  deriving DecidableEq

structure Extent3D where
  width : ℕ := 0
  height : ℕ := 0
  depth : ℕ := 1
  deriving DecidableEq

structure TransientImageDesc where
  extent : Extent3D := {}
  format : ℕ := 0
  usage : ℕ := 0
  samples : ℕ := 1
  mipLevels : ℕ := 1
  arrayLayers : ℕ := 1
  imageType : ℕ := 1
  deriving DecidableEq

inductive TransientDesc
  | buffer (bufferDesc : TransientBufferDesc)
  | image (imageDesc : TransientImageDesc)
  deriving DecidableEq

structure VirtualResource where
  id : ResourceId
  desc : TransientDesc := .buffer {}
  firstAccess : ResourceAccessInfo := {}
  deriving DecidableEq

structure RenderPassNode where
  id : ℕ := 2 ^ 32 - 1
  type : PassType := .compute
  queueType : QueueType := .graphics
  reads : List ResourceRef := []
  writes : List ResourceRef := []
  dependencies : List ℕ := []
  hasSideEffect : Bool := false
  deriving DecidableEq

structure BarrierInfo where
  resourceId : ResourceId
  srcAccess : ResourceAccessInfo
  dstAccess : ResourceAccessInfo
  deriving DecidableEq

structure CompiledPass where
  passId : ℕ := 2 ^ 32 - 1
  preBarriers : List BarrierInfo := []
  needsRenderPass : Bool := false
  deriving DecidableEq

structure CompilationResult where
  compiledPasses : List CompiledPass := []
  executionOrder : List ℕ := []
  success : Bool := false
  error : String := ""
  deriving DecidableEq

/-- How an unordered container goes through the keys inserted into it. -/
structure IterationOrder where
  order : List ℕ → List ℕ
  perm : ∀ keys, (order keys).Perm keys

instance : Inhabited IterationOrder := ⟨⟨id, fun _ => .refl _⟩⟩

/-! ## Culling -/

def writtenResources (passes : List RenderPassNode) : List ResourceId :=
  (passes.flatMap fun pass => pass.writes.map (·.resourceId)).dedup

def readResources (passes : List RenderPassNode) : List ResourceId :=
  (passes.flatMap fun pass => pass.reads.map (·.resourceId)).dedup

/-- The resources written and never read. -/
def outputResources (o : IterationOrder) (passes : List RenderPassNode) : List ResourceId :=
  (o.order (writtenResources passes)).filter (· ∉ readResources passes)

/-- A resource taken from the work queue is served by the passes that write it. -/
def writers (passes : List RenderPassNode) : RequestQueue.Graph RenderPassNode ResourceId ℕ where
  nodes := passes
  serves pass res := pass.writes.any (·.resourceId = res)
  asks pass := pass.reads.map (·.resourceId)
  key := (·.id)

def markSideEffect (neededPasses : List ℕ) (pass : RenderPassNode) : List ℕ :=
  if pass.hasSideEffect then neededPasses.insert pass.id else neededPasses

def neededPasses (o : IterationOrder) (passes : List RenderPassNode) : List ℕ :=
  passes.foldl markSideEffect ((writers passes).run (outputResources o passes)).marked

def cullUnusedPasses (o : IterationOrder) (passes : List RenderPassNode) : List RenderPassNode :=
  passes.filter fun pass => pass.id ∈ neededPasses o passes

/-! ## The sort by dependencies -/

structure Adjacency where
  adjList : ℕ → List ℕ := fun _ => []
  inDegree : ℕ → ℕ := fun _ => 0

def Adjacency.addDependency (pass : RenderPassNode) (a : Adjacency) (dep : ℕ) : Adjacency where
  adjList := Function.update a.adjList dep (a.adjList dep ++ [pass.id])
  inDegree := Function.update a.inDegree pass.id (a.inDegree pass.id + 1)

def adjacency (passes : List RenderPassNode) : Adjacency :=
  passes.foldl (fun a pass => pass.dependencies.foldl (Adjacency.addDependency pass) a) {}

/-- The place of the last pass with an id. -/
def passIdToIndex (passes : List RenderPassNode) (id : ℕ) : ℕ :=
  passes.length - 1 - passes.reverse.findIdx (·.id = id)

def topologicalSort (o : IterationOrder) (passes : List RenderPassNode) : List ℕ :=
  let a := adjacency passes
  let result := (QueueSort.sort (o.order (passes.map (·.id)).dedup) a.adjList a.inDegree).map (passIdToIndex passes)
  if result.length ≠ passes.length then [] else result

/-! ## Barriers -/

/-- The access that a barrier waits for: the last one, or the first access of the resource as declared. -/
def srcAccess (resources : List VirtualResource) (lastAccess : ResourceId → Option ResourceAccessInfo)
    (res : ResourceId) : ResourceAccessInfo :=
  match lastAccess res with
  | some access => access
  | none =>
    match resources.find? (·.id = res) with
    | some r => r.firstAccess
    | none => {}

structure BarrierState where
  lastAccess : ResourceId → Option ResourceAccessInfo := fun _ => none
  preBarriers : List BarrierInfo := []

/-- The body of both loops over the references of a pass. -/
def addBarrier (resources : List VirtualResource) (s : BarrierState) (ref : ResourceRef) : BarrierState :=
  let barrier : BarrierInfo := ⟨ref.resourceId, srcAccess resources s.lastAccess ref.resourceId, ref.accessInfo⟩
  { lastAccess := Function.update s.lastAccess ref.resourceId (some ref.accessInfo)
    preBarriers := if barrier.srcAccess.stages ≠ 0 ∧ barrier.dstAccess.stages ≠ 0 then s.preBarriers ++ [barrier]
      else s.preBarriers }

structure CompiledState where
  lastAccess : ResourceId → Option ResourceAccessInfo
  outCompiled : List CompiledPass

def passAt (passes : List RenderPassNode) (index : ℕ) : RenderPassNode := passes.getD index {}

def compilePass (resources : List VirtualResource) (passes : List RenderPassNode) (s : CompiledState) (orderIdx : ℕ) :
    CompiledState :=
  let pass := passAt passes orderIdx
  let b := pass.writes.foldl (addBarrier resources) (pass.reads.foldl (addBarrier resources) ⟨s.lastAccess, []⟩)
  { lastAccess := b.lastAccess
    outCompiled := s.outCompiled.modify orderIdx fun compiled =>
      ⟨pass.id, compiled.preBarriers ++ b.preBarriers, pass.type = .graphics⟩ }

def computeBarriers (resources : List VirtualResource) (passes : List RenderPassNode) (executionOrder : List ℕ) :
    List CompiledPass :=
  (executionOrder.foldl (compilePass resources passes) ⟨fun _ => none, List.replicate passes.length {}⟩).outCompiled

def compile (o : IterationOrder) (resources : List VirtualResource) (passes : List RenderPassNode) :
    CompilationResult :=
  if passes = [] then {success := true}
  else if topologicalSort o passes = [] then {error := "Cyclic dependency detected in render graph"}
  else
    { compiledPasses := computeBarriers resources passes (topologicalSort o passes)
      executionOrder := topologicalSort o passes
      success := true }

/-! ## The signature -/

def PassType.toNat : PassType → ℕ
  | .compute => 0
  | .graphics => 1
  | .transfer => 2
  | .present => 3
  | .asyncCompute => 4
  | .copy => 5
  | .blit => 6
  | .clear => 7
  | .rayTracing => 8

def QueueType.toNat : QueueType → ℕ
  | .graphics => 0
  | .compute => 1
  | .transfer => 2

def TransientDesc.fields : TransientDesc → List ℕ
  | .buffer d => [0, d.size, d.usage, d.memoryProperties]
  | .image d => [1, d.format, d.imageType, d.samples, d.usage, d.extent.width, d.extent.height, d.extent.depth,
      d.mipLevels, d.arrayLayers]

def VirtualResource.fields (res : VirtualResource) : List ℕ := res.id :: res.desc.fields

def ResourceRef.fields (ref : ResourceRef) : List ℕ :=
  [ref.resourceId, ref.access, ref.accessInfo.stages, ref.accessInfo.access, ref.accessInfo.layout]

def RenderPassNode.fields (pass : RenderPassNode) : List ℕ :=
  [pass.id, pass.type.toNat, pass.queueType.toNat, pass.hasSideEffect.toNat, pass.dependencies.length] ++
    pass.dependencies ++ pass.reads.length :: pass.reads.flatMap ResourceRef.fields ++
    pass.writes.length :: pass.writes.flatMap ResourceRef.fields

/-- The values that `computeGraphSignature` mixes in, in its order. -/
def signatureFields (resources : List VirtualResource) (passes : List RenderPassNode) : List ℕ :=
  resources.length :: passes.length :: resources.flatMap VirtualResource.fields ++ passes.flatMap RenderPassNode.fields

def hashCombine (h v : UInt64) : UInt64 := h ^^^ (v + 0x9e3779b97f4a7c15 + (h <<< (6 : UInt64)) + (h >>> (2 : UInt64)))

def computeGraphSignature (resources : List VirtualResource) (passes : List RenderPassNode) : UInt64 :=
  (signatureFields resources passes).foldl (fun h v => hashCombine h (.ofNat v)) 1469598103934665603

end Zpc.VkRenderGraph

/-!
## What culling keeps

`cullUnusedPasses` keeps the passes required for an output and those with side effects. The demand travels from a
required pass to the writers of what it reads, but neither from a pass with side effects nor along an explicit
dependency, and the kept passes are closed exactly when nothing had to travel there.
-/
namespace Zpc.VkRenderGraph
/-- The passes of a graph, numbered apart as `addPass` numbers them. -/
structure Graph where
  passes : List RenderPassNode
  numbered : (passes.map (·.id)).Nodup

def RenderPassNode.Reads (pass : RenderPassNode) (res : ResourceId) : Prop := ∃ ref ∈ pass.reads, ref.resourceId = res

def RenderPassNode.Writes (pass : RenderPassNode) (res : ResourceId) : Prop := ∃ ref ∈ pass.writes, ref.resourceId = res

namespace Graph
variable (g : Graph)

/-- A pass that writes a resource nobody reads, or a resource that a required pass reads. -/
inductive Required : RenderPassNode → Prop
  | output {pass : RenderPassNode} {res : ResourceId} (hp : pass ∈ g.passes) (hw : pass.Writes res)
      (hr : ∀ reader ∈ g.passes, ¬ reader.Reads res) : Required pass
  | source {reader pass : RenderPassNode} {res : ResourceId} (h : Required reader) (hr : reader.Reads res)
      (hp : pass ∈ g.passes) (hw : pass.Writes res) : Required pass

def Live (pass : RenderPassNode) : Prop := g.Required pass ∨ pass.hasSideEffect = true

/-- With every kept pass the earlier writers of what it reads are kept, and its explicit dependencies. -/
structure Closed (kept : List RenderPassNode) : Prop where
  sources : ∀ pass ∈ kept, ∀ writer, List.Sublist [writer, pass] g.passes →
    ∀ res, pass.Reads res → writer.Writes res → writer ∈ kept
  dependencies : ∀ pass ∈ kept, ∀ dep ∈ g.passes, dep.id ∈ pass.dependencies → dep ∈ kept

/-- Whatever a side effect or an explicit dependency asks for is required or has side effects anyway. -/
structure DemandsMet : Prop where
  effects : ∀ pass ∈ g.passes, pass.hasSideEffect = true → ∀ writer, List.Sublist [writer, pass] g.passes →
    ∀ res, pass.Reads res → writer.Writes res → g.Live writer
  dependencies : ∀ pass ∈ g.passes, g.Live pass → ∀ dep ∈ g.passes, dep.id ∈ pass.dependencies → g.Live dep

variable {g} {o : IterationOrder} {passes : List RenderPassNode} {pass : RenderPassNode} {res : ResourceId}

theorem serves_iff : (writers passes).serves pass res = true ↔ pass.Writes res := by
  simp [writers, RenderPassNode.Writes]

theorem mem_asks : res ∈ (writers passes).asks pass ↔ pass.Reads res := by
  simp [writers, RenderPassNode.Reads]

theorem mem_writtenResources : res ∈ writtenResources passes ↔ ∃ pass ∈ passes, pass.Writes res := by
  simp [writtenResources, RenderPassNode.Writes]

theorem mem_readResources : res ∈ readResources passes ↔ ∃ pass ∈ passes, pass.Reads res := by
  simp [readResources, RenderPassNode.Reads]

theorem mem_outputResources : res ∈ outputResources o passes ↔
    (∃ pass ∈ passes, pass.Writes res) ∧ ∀ reader ∈ passes, ¬ reader.Reads res := by
  rw [outputResources, List.mem_filter, (o.perm _).mem_iff, mem_writtenResources, decide_eq_true_eq,
    mem_readResources]
  simp only [not_exists, not_and]

/-- The work queue reaches exactly the required passes, in whatever order it starts. -/
theorem needed_iff : (writers g.passes).Needed (outputResources o g.passes) pass ↔ g.Required pass := by
  constructor
  · intro h
    induction h with
    | root hn hr hs => exact .output hn (serves_iff.mp hs) (mem_outputResources.mp hr).2
    | pull hm hn hr hs ih => exact .source ih (mem_asks.mp hr) hn (serves_iff.mp hs)
  · intro h
    induction h with
    | output hp hw hr => exact .root hp (mem_outputResources.mpr ⟨⟨_, hp, hw⟩, hr⟩) (serves_iff.mpr hw)
    | source h hr hp hw ih => exact .pull ih hp (mem_asks.mpr hr) (serves_iff.mpr hw)

theorem mem_foldl_markSideEffect {marked : List ℕ} {id : ℕ} : id ∈ passes.foldl markSideEffect marked ↔
    id ∈ marked ∨ ∃ pass ∈ passes, pass.hasSideEffect = true ∧ pass.id = id := by
  induction passes generalizing marked with
  | nil => simp
  | cons pass passes ih =>
    rw [List.foldl_cons, ih, markSideEffect]
    by_cases he : pass.hasSideEffect = true
    · rw [if_pos he, List.mem_insert_iff]
      simp only [List.mem_cons, exists_eq_or_imp, he, true_and, eq_comm (a := id)]
      tauto
    · simp [he]

theorem eq_of_id {p q : RenderPassNode} (hp : p ∈ g.passes) (hq : q ∈ g.passes) (h : p.id = q.id) : p = q :=
  List.inj_on_of_nodup_map g.numbered hp hq h

theorem mem_cull (o : IterationOrder) : pass ∈ cullUnusedPasses o g.passes ↔ pass ∈ g.passes ∧ g.Live pass := by
  rw [cullUnusedPasses, List.mem_filter, decide_eq_true_eq, neededPasses, mem_foldl_markSideEffect]
  apply and_congr_right
  intro hp
  refine or_congr ?_ ?_
  · exact (RequestQueue.Graph.mem_marked_run (g := writers g.passes) g.numbered hp).trans needed_iff
  · constructor
    · rintro ⟨q, hq, he, hid⟩
      rwa [← eq_of_id hq hp hid]
    · exact fun he => ⟨pass, hp, he, rfl⟩

/-- The kept passes are closed exactly when no side effect and no explicit dependency asks for a pass
that is neither required nor has side effects. -/
theorem cull_closed_iff (o : IterationOrder) (g : Graph) :
    g.Closed (cullUnusedPasses o g.passes) ↔ g.DemandsMet := by
  constructor
  · intro h
    refine ⟨fun pass hp he writer hw res hr hwr => ?_, fun pass hp hl dep hd hdep => ?_⟩
    · have hkept := (mem_cull o).mpr ⟨hp, .inr he⟩
      exact ((mem_cull o).mp (h.sources pass hkept writer hw res hr hwr)).2
    · have hkept := (mem_cull o).mpr ⟨hp, hl⟩
      exact ((mem_cull o).mp (h.dependencies pass hkept dep hd hdep)).2
  · intro h
    refine ⟨fun pass hk writer hw res hr hwr => ?_, fun pass hk dep hd hdep => ?_⟩
    · obtain ⟨hp, hl⟩ := (mem_cull o).mp hk
      have hmem : writer ∈ g.passes := hw.subset List.mem_cons_self
      apply (mem_cull o).mpr
      refine ⟨hmem, ?_⟩
      rcases hl with hl | hl
      · exact .inl (.source hl hr hmem hwr)
      · exact h.effects pass hp hl writer hw res hr hwr
    · obtain ⟨hp, hl⟩ := (mem_cull o).mp hk
      exact (mem_cull o).mpr ⟨hd, h.dependencies pass hp hl dep hd hdep⟩

def readback : Graph where
  passes := [{id := 0, writes := [⟨0, 2, {}⟩]}, {id := 1, reads := [⟨0, 1, {}⟩], hasSideEffect := true}]
  numbered := by decide

theorem readback_source_culled : ¬ readback.Closed (cullUnusedPasses default readback.passes) := by
  intro h
  have hkept : cullUnusedPasses default readback.passes =
      [{id := 1, reads := [⟨0, 1, {}⟩], hasSideEffect := true}] := by decide
  rw [hkept] at h
  have hwriter := h.sources _ List.mem_cons_self {id := 0, writes := [⟨0, 2, {}⟩]} (List.Sublist.refl _) 0
    ⟨_, List.mem_cons_self, rfl⟩ ⟨_, List.mem_cons_self, rfl⟩
  revert hwriter
  decide

/-- A pass that is required stays so when only the live passes are left. -/
theorem Required.of_live {g' : Graph} (hmem : ∀ p, p ∈ g'.passes ↔ p ∈ g.passes ∧ g.Live p) (h : g.Required pass) :
    g'.Required pass := by
  induction h with
  | output hp hw hr =>
    exact .output ((hmem _).mpr ⟨hp, .inl (.output hp hw hr)⟩) hw fun reader h => hr reader ((hmem reader).mp h).1
  | source h hr hp hw ih => exact .source ih hr ((hmem _).mpr ⟨hp, .inl (.source h hr hp hw)⟩) hw

/-- What culling leaves is not culled again, whatever the orders in which the sets are gone through. -/
theorem cull_cull (o o' : IterationOrder) (g : Graph) :
    cullUnusedPasses o' (cullUnusedPasses o g.passes) = cullUnusedPasses o g.passes := by
  let g' : Graph := ⟨cullUnusedPasses o g.passes, g.numbered.sublist (List.filter_sublist.map _)⟩
  have hmem : ∀ p, p ∈ g'.passes ↔ p ∈ g.passes ∧ g.Live p := fun p => mem_cull o
  refine List.filter_eq_self.mpr fun pass hp => ?_
  have hlive : g'.Live pass := ((hmem pass).mp hp).2.imp_left (Required.of_live hmem)
  exact (List.mem_filter.mp ((mem_cull (g := g') o').mpr ⟨hp, hlive⟩)).2

end Graph

end Zpc.VkRenderGraph
