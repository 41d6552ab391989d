import Zpc.ReadyQueueSort
import Mathlib.Data.List.Flatten

/-!
# The execution graph and its compilation

`ExecutionGraph::compile` of `ExecutionGraph.hpp`: hazard edges between the accesses to
each resource, a priority-guided topological sort, the assignment of lanes, and the
sync edges. Arrays indexed by pass are functions of the pass index.
-/
namespace Zpc
structure ResourceHandle where
  id : ℕ
  deriving DecidableEq

inductive AccessMode
  | none
  | read
  | write
  | readWrite
  deriving DecidableEq

def AccessMode.involvesRead : AccessMode → Bool
  | .read | .readWrite => true
  | _ => false

def AccessMode.involvesWrite : AccessMode → Bool
  | .write | .readWrite => true
  | _ => false

inductive AccessDomain
  | hostSequential
  | hostParallel
  | deviceCompute
  | deviceGraphics
  | deviceTransfer
  | deviceCopy
  | any
  deriving DecidableEq

inductive AsyncQueueClass
  | control
  | io
  | compute
  | transfer
  | graphics
  | present
  | collective
  | copy
  deriving DecidableEq

inductive HazardKind
  | none
  | readAfterWrite
  | writeAfterRead
  | writeAfterWrite
  deriving DecidableEq

/-- The hazard between two accesses to the same resource. -/
def classifyHazard (earlier later : AccessMode) : HazardKind :=
  if earlier.involvesWrite && later.involvesRead && !later.involvesWrite then .readAfterWrite
  else if earlier.involvesWrite && later.involvesWrite then .writeAfterWrite
  else if !earlier.involvesWrite && later.involvesWrite then .writeAfterRead
  else .none

structure ResourceAccessDecl where
  resource : ResourceHandle
  mode : AccessMode
  length : UInt64 := 0

namespace HardwareAffinity
def none : UInt32 := 0
def alu : UInt32 := 1
def rop : UInt32 := 4
def dma : UInt32 := 64
def hostCpu : UInt32 := 128

end HardwareAffinity

structure PassCostHint where
  estimatedCycles : UInt64 := 0
  memoryBytesRead : UInt64 := 0
  memoryBytesWritten : UInt64 := 0
  affinity : UInt32 := HardwareAffinity.none
  userProvided : Bool := false

def PassCostHint.addAccess (hint : PassCostHint) (acc : ResourceAccessDecl) : PassCostHint :=
  {hint with
    memoryBytesRead := if acc.mode.involvesRead then hint.memoryBytesRead + acc.length else hint.memoryBytesRead
    memoryBytesWritten :=
      if acc.mode.involvesWrite then hint.memoryBytesWritten + acc.length else hint.memoryBytesWritten}

def AccessDomain.hardwareAffinity : AccessDomain → UInt32
  | .deviceCompute => HardwareAffinity.alu
  | .deviceGraphics => HardwareAffinity.alu ||| HardwareAffinity.rop
  | .deviceTransfer | .deviceCopy => HardwareAffinity.dma
  | .hostSequential | .hostParallel => HardwareAffinity.hostCpu
  | .any => HardwareAffinity.alu

def deduceCostHint (accesses : List ResourceAccessDecl) (preferredDomain : AccessDomain) : PassCostHint :=
  let hint := accesses.foldl PassCostHint.addAccess {}
  let totalBytes := hint.memoryBytesRead + hint.memoryBytesWritten
  {hint with
    affinity := preferredDomain.hardwareAffinity
    estimatedCycles := if totalBytes > 0 then (totalBytes + 63) / 64 else 1}

structure PassNode where
  index : ℕ := 0
  label : String := ""
  accesses : List ResourceAccessDecl := []
  preferredDomain : AccessDomain := .any
  priority : ℤ := 0
  exclusiveLane : Bool := false
  costHint : PassCostHint := {}

structure SyncEdge where
  srcPass : ℕ
  dstPass : ℕ
  resource : ResourceHandle
  hazard : HazardKind
  crossLane : Bool
  srcLane : ℕ
  dstLane : ℕ

structure ExecutionLane where
  id : ℕ
  queueClass : AsyncQueueClass
  label : String := ""

structure CompiledGraph where
  sortedPassIndices : List ℕ := []
  syncEdges : List SyncEdge := []
  queueAssignments : ℕ → AsyncQueueClass := fun _ => .compute
  laneAssignments : ℕ → ℕ := fun _ => 0
  lanes : List ExecutionLane := []
  laneTimelines : List (List ℕ) := []
  numCrossLaneSyncs : ℕ := 0

def CompiledGraph.valid (c : CompiledGraph) : Bool := !c.sortedPassIndices.isEmpty

/-- The registered resources and the passes, numbered as `addPass` numbers them. -/
structure ExecutionGraph where
  passes : List PassNode
  resources : List ResourceHandle
  indexed : passes.map (·.index) = List.range passes.length

structure RawEdge where
  src : ℕ
  dst : ℕ
  resource : ResourceHandle
  hazard : HazardKind

structure TouchRecord where
  passIdx : ℕ
  mode : AccessMode

def hazardsFrom (handle : ResourceHandle) (touch : TouchRecord) (later : List TouchRecord) : List RawEdge :=
  later.filterMap fun touch' =>
    let hazard := classifyHazard touch.mode touch'.mode
    if hazard = .none then none else some ⟨touch.passIdx, touch'.passIdx, handle, hazard⟩

/-- The pair-wise hazard check over the touches of one resource. -/
def hazardEdges (handle : ResourceHandle) : List TouchRecord → List RawEdge
  | [] => []
  | touch :: later => hazardsFrom handle touch later ++ hazardEdges handle later

/-- Successors without duplicates, and the number of predecessors they give each pass. -/
structure Adjacency where
  adj : ℕ → List ℕ
  inDegree : ℕ → ℤ

def Adjacency.addEdge (a : Adjacency) (edge : RawEdge) : Adjacency :=
  if edge.dst ∈ a.adj edge.src then a else
    ⟨Function.update a.adj edge.src (a.adj edge.src ++ [edge.dst]),
      Function.update a.inDegree edge.dst (a.inDegree edge.dst + 1)⟩

def AccessDomain.queueClass : AccessDomain → AsyncQueueClass
  | .deviceGraphics => .graphics
  | .deviceTransfer | .deviceCopy => .transfer
  | .hostSequential | .hostParallel => .control
  | .deviceCompute | .any => .compute

structure LaneState where
  lane : ExecutionLane
  passes : List ℕ

/-- The lanes made so far and the lane of each pass placed so far. -/
structure LaneTable where
  laneStates : List LaneState := []
  laneAssignments : ℕ → ℕ := fun _ => 0

namespace LaneTable
def place (t : LaneTable) (pass lane : ℕ) : LaneTable :=
  ⟨t.laneStates.modify lane (fun s => {s with passes := s.passes ++ [pass]}),
    Function.update t.laneAssignments pass lane⟩

def addLane (t : LaneTable) (queueClass : AsyncQueueClass) (label : String) : LaneTable :=
  {t with laneStates := t.laneStates ++ [⟨⟨t.laneStates.length, queueClass, label⟩, []⟩]}

def placeOnNewLane (t : LaneTable) (pass : ℕ) (queueClass : AsyncQueueClass) (label : String) : LaneTable :=
  (t.addLane queueClass label).place pass t.laneStates.length

def hasClass (t : LaneTable) (queueClass : AsyncQueueClass) (lane : ℕ) : Bool :=
  t.laneStates[lane]?.any (·.lane.queueClass = queueClass)

def findOrCreatePrimaryLane (t : LaneTable) (queueClass : AsyncQueueClass) : ℕ × LaneTable :=
  match (List.range t.laneStates.length).find? (t.hasClass queueClass) with
  | some lane => (lane, t)
  | none => (t.laneStates.length, t.addLane queueClass "")

def hasPredOnLane (t : LaneTable) (preds : List ℕ) (lane : ℕ) : Bool :=
  preds.any fun pred => t.laneAssignments pred = lane

def hasConflictOnLane (t : LaneTable) (rawEdges : List RawEdge) (pass lane : ℕ) : Bool :=
  t.laneStates[lane]?.any fun s => s.passes.any fun existing => rawEdges.any fun e =>
    (e.src = pass && e.dst = existing) || (e.src = existing && e.dst = pass)

end LaneTable

namespace ExecutionGraph
def pass (g : ExecutionGraph) (index : ℕ) : PassNode := g.passes.getD index {}

def numPasses (g : ExecutionGraph) : ℕ := g.passes.length

def touches (g : ExecutionGraph) (handle : ResourceHandle) : List TouchRecord :=
  g.passes.flatMap fun pass =>
    (pass.accesses.filter (·.resource = handle)).map fun acc => ⟨pass.index, acc.mode⟩

def rawEdges (g : ExecutionGraph) : List RawEdge :=
  g.resources.flatMap fun handle => hazardEdges handle (g.touches handle)

def adjacency (g : ExecutionGraph) : Adjacency :=
  g.rawEdges.foldl Adjacency.addEdge ⟨fun _ => [], fun _ => 0⟩

def effectiveCost (g : ExecutionGraph) (index : ℕ) : PassCostHint :=
  let pass := g.pass index
  if pass.costHint.userProvided then pass.costHint else deduceCostHint pass.accesses pass.preferredDomain

def preferred (g : ExecutionGraph) (cand best : ℕ) : Bool :=
  if (g.pass cand).priority > (g.pass best).priority then true
  else (g.pass cand).priority = (g.pass best).priority &&
    (g.effectiveCost cand).estimatedCycles > (g.effectiveCost best).estimatedCycles

/-- The place of the ready pass to run next: highest priority, then highest cost. -/
def bestIdx (g : ExecutionGraph) (readyQueue : List ℕ) : ℕ :=
  (List.range' 1 (readyQueue.length - 1)).foldl
    (fun best k => if g.preferred (readyQueue.getD k 0) (readyQueue.getD best 0) then k else best) 0

def sorted (g : ExecutionGraph) : List ℕ :=
  ReadyQueueSort.sort g.bestIdx (List.range g.numPasses) g.adjacency.adj g.adjacency.inDegree

def queueAssignment (g : ExecutionGraph) (index : ℕ) : AsyncQueueClass :=
  (g.pass index).preferredDomain.queueClass

/-- The hazard predecessors of a pass in increasing order, without duplicates. -/
def preds (g : ExecutionGraph) (index : ℕ) : List ℕ :=
  (((g.rawEdges.filter (·.dst = index)).map (·.src)).mergeSort (· ≤ ·)).dedup

/-- Another lane of the class without a conflict, else a lane of its own. -/
def placeOnSecondary (g : ExecutionGraph) (t : LaneTable) (passIdx primaryLane : ℕ) : LaneTable :=
  match (List.range t.laneStates.length).find? (fun lane => lane ≠ primaryLane &&
      t.hasClass (g.queueAssignment passIdx) lane && !t.hasConflictOnLane g.rawEdges passIdx lane) with
  | some lane => t.place passIdx lane
  | none => t.placeOnNewLane passIdx (g.queueAssignment passIdx) ""

/-- The primary lane of the class if a predecessor is there, else the lane of the first
predecessor of the class, else a lane without a conflict. -/
def assignShared (g : ExecutionGraph) (t : LaneTable) (passIdx primaryLane : ℕ) : LaneTable :=
  if t.hasPredOnLane (g.preds passIdx) primaryLane then t.place passIdx primaryLane
  else match (g.preds passIdx).find? (g.queueAssignment · = g.queueAssignment passIdx) with
    | some pred => t.place passIdx (t.laneAssignments pred)
    | none =>
      if !t.hasConflictOnLane g.rawEdges passIdx primaryLane then t.place passIdx primaryLane
      else g.placeOnSecondary t passIdx primaryLane

def assignLane (g : ExecutionGraph) (t : LaneTable) (passIdx : ℕ) : LaneTable :=
  if (g.pass passIdx).exclusiveLane then
    t.placeOnNewLane passIdx (g.queueAssignment passIdx) (g.pass passIdx).label
  else
    let (primaryLane, t) := t.findOrCreatePrimaryLane (g.queueAssignment passIdx)
    g.assignShared t passIdx primaryLane

def laneTable (g : ExecutionGraph) : LaneTable := g.sorted.foldl g.assignLane {}

def timelines (g : ExecutionGraph) : List (List ℕ) :=
  g.sorted.foldl (fun lanes passIdx => lanes.modify (g.laneTable.laneAssignments passIdx) (· ++ [passIdx]))
    (List.replicate g.laneTable.laneStates.length [])

def syncEdge (laneAssignments : ℕ → ℕ) (raw : RawEdge) : SyncEdge where
  srcPass := raw.src
  dstPass := raw.dst
  resource := raw.resource
  hazard := raw.hazard
  crossLane := laneAssignments raw.src ≠ laneAssignments raw.dst
  srcLane := laneAssignments raw.src
  dstLane := laneAssignments raw.dst

def compile (g : ExecutionGraph) : CompiledGraph :=
  if g.numPasses = 0 then {}
  else if g.sorted.length ≠ g.numPasses then {}
  else
    let syncEdges := g.rawEdges.map (syncEdge g.laneTable.laneAssignments)
    { sortedPassIndices := g.sorted
      syncEdges := syncEdges
      queueAssignments := g.queueAssignment
      laneAssignments := g.laneTable.laneAssignments
      lanes := g.laneTable.laneStates.map (·.lane)
      laneTimelines := g.timelines
      numCrossLaneSyncs := syncEdges.countP (·.crossLane) }

end ExecutionGraph
end Zpc
