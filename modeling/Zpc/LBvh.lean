import Zpc.OmpRadix
import Mathlib.Algebra.BigOperators.Fin
import Mathlib.Data.Sym.Sym2

/-!
# The linear bounding volume hierarchy

`LBvh` of `Bvh.hpp`: `build` sorts the primitives by Morton code, finds the inner nodes over the sorted codes, puts
all nodes in pre-order and merges the boxes upwards; the queries of its view walk the nodes in that order. A kernel of
`build` runs once for each id, in the order of the policy. The total box is left out: it only enters the Morton codes,
and these are a parameter.
-/
namespace Zpc.LBvh
/-- `AABBBox` with its corners in order. -/
structure Box (d : ℕ) (T : Type*) [LinearOrder T] where
  min : Fin d → T
  max : Fin d → T
  le : min ≤ max

section Boxes
variable {d : ℕ} {T : Type*} [LinearOrder T]

def overlaps (a b : Box d T) : Bool := decide (∀ i, ¬ (a.max i < b.min i ∨ b.max i < a.min i))

/-- `merge`: the box grows to a point. -/
def Box.merge (box : Box d T) (p : Fin d → T) : Box d T where
  min := box.min ⊓ p
  max := box.max ⊔ p
  le := inf_le_left.trans (box.le.trans le_sup_left)

end Boxes

/-- The order in which a policy runs the ids of a launch. -/
structure Policy where
  order : ℕ → List ℕ
  perm : ∀ n, (order n).Perm (List.range n)

def Policy.launch {S : Type*} (policy : Policy) (n : ℕ) (kernel : S → ℕ → Option S) (s : S) : Option S :=
  (policy.order n).foldlM kernel s

/-- The arrays of the tree. -/
structure Arrays (β : Type*) where
  orderedBvs : ℕ → β
  parents : ℕ → ℤ
  levels : ℕ → ℕ
  leafInds : ℕ → ℕ
  auxIndices : ℕ → ℤ
  /-- `leafInds.size()` -/
  numLeaves : ℕ

def Arrays.numNodes {β : Type*} (t : Arrays β) : ℕ := if 2 < t.numLeaves then t.numLeaves * 2 - 1 else t.numLeaves

/-- The arrays of the tree and those that `build` works with. -/
structure Build (β : Type*) extends Arrays β where
  tPars : ℕ → ℤ
  tLcs : ℕ → ℕ
  tRcs : ℕ → ℕ
  tLs : ℕ → ℕ
  tRs : ℕ → ℕ
  tDst : ℕ → ℕ
  lPars : ℕ → ℕ
  lLcas : ℕ → ℕ
  pInds : ℕ → ℕ
  lDepths : ℕ → ℕ
  lOffsets : ℕ → ℕ

section Topology
/-- `count_lz` -/
def countLz (x : BitVec 32) : ℕ := if x = 0 then 32 else x.clz.toNat

variable (mcs : ℕ → BitVec 32) (numTrunk : ℕ)

/-- Whether a leaf exists and its code has more than `minLZ` leading bits in common with that of `left`. -/
def shares (left minLZ : ℕ) (right : ℤ) : Bool :=
  if right < numTrunk + 1 ∧ 0 ≤ right then decide (minLZ < countLz (mcs right.toNat ^^^ mcs left)) else false

/-- The loop that doubles the step as long as the leaf at that distance shares enough. -/
def expand (more : ℕ → Bool) : ℕ → ℕ → Option ℕ
  | 0, _ => none
  | fuel + 1, step => if more step then expand more fuel (2 * step) else some step

/-- The loop that halves the step and adds it to the length where the leaf at that distance shares enough. -/
def narrow (more : ℕ → Bool) (step len : ℕ) : ℕ :=
  if 1 ≤ step then narrow more (step / 2) (if more (len + step) then len + step else len) else len
termination_by step

def runEnd (right : ℕ) : ℕ :=
  if right < numTrunk then if mcs right ≠ mcs (right + 1) then right else runEnd (right + 1) else right
termination_by numTrunk - right

def rangeLen (left minLZ : ℕ) (dir : ℤ) : Option ℕ :=
  (expand (fun d => shares mcs numTrunk left minLZ (left + d * dir)) (numTrunk + 2) 2).map fun step =>
    narrow (fun d => shares mcs numTrunk left minLZ (left + d * dir)) (step / 2) 0

/-- The part of `_build_build_topo` that determines the range. -/
def determineRange (idx : ℕ) : Option (ℕ × ℕ) :=
  if idx = 0 then some (0, numTrunk)
  else
    let preCode := mcs (idx - 1)
    let curCode := mcs idx
    let nxtCode := mcs (idx + 1)
    if preCode = curCode ∧ curCode = nxtCode then some (idx, runEnd mcs numTrunk (idx + 1))
    else
      let lLZ := countLz (preCode ^^^ curCode)
      let rLZ := countLz (nxtCode ^^^ curCode)
      if rLZ < lLZ then (rangeLen mcs numTrunk idx rLZ (-1)).map fun len => (idx - len, idx)
      else (rangeLen mcs numTrunk idx lLZ 1).map fun len => (idx, idx + len)

/-- The loop that searches the split: a step of at most one that leaves the leaves is tried forever. -/
def splitLen (i LZ step len : ℕ) : Option ℕ :=
  if numTrunk < i + len + step then if step ≤ 1 then none else splitLen i LZ ((step + 1) / 2) len
  else
    let len' := if LZ < countLz (mcs (i + len + step) ^^^ mcs i) then len + step else len
    if step ≤ 1 then some len' else splitLen i LZ ((step + 1) / 2) len'
termination_by step

/-- The part of `_build_build_topo` that finds the split. -/
def findSplit (i j : ℕ) : Option ℕ :=
  if mcs i = mcs j then some i
  else (splitLen mcs numTrunk i (countLz (mcs i ^^^ mcs j)) ((j - i + 1) / 2) 0).map (i + ·)

end Topology

section Kernels
variable {β : Type*} (mcs : ℕ → BitVec 32) (numTrunk : ℕ) (s : Build β) (idx : ℕ)

/-- `_build_init_depths` -/
def initDepths (indices : ℕ → ℕ) : Build β :=
  let s' : Build β := {s with
    pInds := Function.update s.pInds idx (indices idx)
    lDepths := Function.update s.lDepths idx 1}
  if idx = 0 then {s' with lDepths := Function.update s'.lDepths (numTrunk + 1) 0} else s'

/-- What `_build_build_topo` writes for a range and its split. -/
def linkTrunk (i j gamma : ℕ) : Build β :=
  let tPars := if i = gamma then s.tPars else Function.update s.tPars gamma (idx : ℤ)
  let tPars := if j = gamma + 1 then tPars else Function.update tPars (gamma + 1) (idx : ℤ)
  let lPars := if i = gamma then Function.update s.lPars gamma idx else s.lPars
  {s with
    lDepths := Function.update s.lDepths i (s.lDepths i + 1)
    tLs := Function.update s.tLs idx i
    tRs := Function.update s.tRs idx j
    tLcs := Function.update s.tLcs idx (if i = gamma then gamma + numTrunk else gamma)
    tRcs := Function.update s.tRcs idx (if j = gamma + 1 then gamma + 1 + numTrunk else gamma + 1)
    lPars := if j = gamma + 1 then Function.update lPars (gamma + 1) idx else lPars
    tPars := if idx = 0 then Function.update tPars 0 (-1) else tPars}

/-- `_build_build_topo` -/
def buildTopo : Option (Build β) :=
  (determineRange mcs numTrunk idx).bind fun r =>
    (findSplit mcs numTrunk r.1 r.2).map (linkTrunk numTrunk s idx r.1 r.2)

/-- The loop of `_build_supp_topo`, with the number of turns left. -/
def suppLoop : ℕ → Build β → (node ch level dst : ℕ) → Build β × ℕ
  | 0, s, _, ch, _, _ => (s, ch)
  | turns + 1, s, node, _, level, dst =>
      suppLoop turns
        {s with
          tDst := Function.update s.tDst node dst
          levels := Function.update s.levels dst (level + 1)}
        (s.tPars node).toNat node (level + 1) (dst - 1)

/-- `_build_supp_topo` -/
def suppTopo : Build β :=
  let depth := s.lOffsets (idx + 1) - s.lOffsets idx
  let (s', ch) := suppLoop (depth - 1) s (s.lPars idx) (idx + numTrunk) 0 (s.lOffsets (idx + 1) - 2)
  {s' with lLcas := Function.update s'.lLcas idx ch}

/-- `_build_reorder_leaf` -/
def reorderLeaf : Build β :=
  let dst := s.lOffsets (idx + 1) - 1
  {s with
    auxIndices := Function.update s.auxIndices dst (s.pInds idx : ℤ)
    parents := Function.update s.parents dst (s.tDst (s.lPars idx) : ℤ)
    levels := Function.update s.levels dst 0
    leafInds := Function.update s.leafInds idx dst}

/-- `_build_reorder_trunk` -/
def reorderTrunk : Build β :=
  let dst := s.tDst idx
  let r := s.tRs idx
  let lca := s.lLcas (r + 1)
  {s with
    auxIndices := Function.update s.auxIndices dst
      (if r ≠ numTrunk then if lca < numTrunk then (s.tDst lca : ℤ) else (s.lOffsets (r + 1) : ℤ) else -1)
    parents := Function.update s.parents dst (if idx ≠ 0 then (s.tDst (s.tPars idx).toNat : ℤ) else -1)}

end Kernels

section Build
variable {d : ℕ} {T : Type*} [LinearOrder T] (policy : Policy) (mortonCode : Box d T → BitVec 32)

/-- The box that `_refit_bottom_up` gives to a node. -/
def mergeChildren (t : Arrays (Box d T)) (node : ℕ) : Box d T :=
  let lc := node + 1
  let rc := if t.levels lc ≠ 0 then (t.auxIndices lc).toNat else lc + 1
  ((t.orderedBvs lc).merge (t.orderedBvs rc).min).merge (t.orderedBvs rc).max

/-- The loop of `_refit_bottom_up`: the second to come to a node goes on. -/
def refitLoop : ℕ → Arrays (Box d T) × (ℕ → ℕ) → ℤ → Option (Arrays (Box d T) × (ℕ → ℕ))
  | 0, _, _ => none
  | fuel + 1, (t, flags), node =>
      if node = -1 then some (t, flags)
      else if flags node.toNat = 0 then some (t, Function.update flags node.toNat 1)
      else
        refitLoop fuel
          ({t with orderedBvs := Function.update t.orderedBvs node.toNat (mergeChildren t node.toNat)}, flags)
          (t.parents node.toNat)

/-- `_refit_bottom_up` -/
def refitBottomUp (primBvs : ℕ → Box d T) (s : Arrays (Box d T) × (ℕ → ℕ)) (idx : ℕ) :
    Option (Arrays (Box d T) × (ℕ → ℕ)) :=
  let node := s.1.leafInds idx
  let bv := primBvs (s.1.auxIndices node).toNat
  refitLoop (s.1.numNodes + 1) ({s.1 with orderedBvs := Function.update s.1.orderedBvs node bv}, s.2) (s.1.parents node)

/-- `refit`, for boxes of the leaves there are. -/
def refit (primBvs : ℕ → Box d T) (t : Arrays (Box d T)) : Option (Arrays (Box d T)) :=
  if t.numLeaves ≤ 2 then some {t with orderedBvs := primBvs}
  else (policy.launch t.numLeaves (refitBottomUp primBvs) (t, fun _ => 0)).map (·.1)

/-- The codes and ids that `radix_sort_pair` leaves. -/
def sortedPairs (primBvs : ℕ → Box d T) (numLeaves : ℕ) : ℕ → BitVec 32 × ℕ :=
  SequentialExecutionPolicy.radixSortPair (.unsigned 32) (fun id => mortonCode (primBvs id)) (fun id => id) numLeaves
    0 32 (fun _ => (0, 0)) fun _ => (0, 0)

/-- The tree that `build` makes of sorted codes, before the boxes. -/
def buildTree (sorted : ℕ → BitVec 32 × ℕ) (numLeaves : ℕ) (fresh : Build (Box d T)) : Option (Build (Box d T)) := do
  let numTrunk := numLeaves - 1
  let s ← policy.launch numLeaves (fun s idx => some (initDepths numTrunk s idx fun k => (sorted k).2))
    {fresh with numLeaves := numLeaves}
  let s ← policy.launch numTrunk (buildTopo (fun k => (sorted k).1) numTrunk) s
  let s := {s with lOffsets := fun k => ∑ x ∈ Finset.range k, s.lDepths x}
  let s ← policy.launch numLeaves (fun s idx => some (suppTopo numTrunk s idx)) s
  let s ← policy.launch numLeaves (fun s idx => some (reorderLeaf s idx)) s
  policy.launch numTrunk (fun s idx => some (reorderTrunk numTrunk s idx)) s

/-- `build`, with what the arrays hold before. -/
def build (primBvs : ℕ → Box d T) (numLeaves : ℕ) (fresh : Build (Box d T)) : Option (Arrays (Box d T)) :=
  if numLeaves = 0 then some fresh.toArrays
  else if numLeaves ≤ 2 then
    some {fresh.toArrays with
      orderedBvs := primBvs
      leafInds := fun i => i
      auxIndices := fun i => (i : ℤ)
      numLeaves := numLeaves}
  else do
    let s ← buildTree policy (sortedPairs mortonCode primBvs numLeaves) numLeaves fresh
    refit policy primBvs s.toArrays

end Build

section Queries
variable {β S : Type*}

/-- The inner loop of the queries: down from a node to its first leaf, or to a node that is left aside. -/
def descend (skip : ℕ → Bool) : ℕ → ℕ → ℕ × ℕ
  | 0, node => (0, node)
  | level + 1, node => if skip node then (level + 1, node) else descend skip level (node + 1)

/-- The loop of the queries. -/
def traverse (t : Arrays β) (skip : S → ℕ → Bool) (visit : S → ℕ → S) : ℕ → ℤ → S → Option S
  | 0, _, _ => none
  | fuel + 1, node, s =>
      if node ≠ -1 ∧ node ≠ t.numNodes then
        let (level, stop) := descend (skip s) (t.levels node.toNat) node.toNat
        if level = 0 then traverse t skip visit fuel (stop + 1) (visit s stop)
        else traverse t skip visit fuel (t.auxIndices stop) s
      else some s

variable {d : ℕ} {T : Type*} [LinearOrder T] (t : Arrays (Box d T))

/-- A primitive is reported when its box overlaps the given one. -/
def report (bv : Box d T) (prim : ℕ → ℤ) (s : List ℤ) (node : ℕ) : List ℤ :=
  if overlaps (t.orderedBvs node) bv then s ++ [prim node] else s

/-- `self_iter_neighbors`: what the callback gets for a leaf. -/
def selfIterNeighbors (leafId : ℕ) : Option (List ℤ) :=
  if t.numNodes ≤ 2 then
    let bv := t.orderedBvs leafId
    some ((List.range' (leafId + 1) (t.numNodes - (leafId + 1))).foldl (report t bv fun i => (i : ℤ)) [])
  else
    let node := t.leafInds leafId
    let bv := t.orderedBvs node
    traverse t (fun _ node => !overlaps (t.orderedBvs node) bv) (report t bv t.auxIndices) (t.numNodes + 1) node []

/-- `iter_neighbors`: what the callback gets, for the test of a box against the query. -/
def iterNeighbors (hit : Box d T → Bool) : Option (List ℤ) :=
  if t.numNodes ≤ 2 then
    some ((List.range t.numNodes).foldl (fun s i => if hit (t.orderedBvs i) then s ++ [(i : ℤ)] else s) [])
  else
    traverse t (fun _ node => !hit (t.orderedBvs node))
      (fun s node => if hit (t.orderedBvs node) then s ++ [t.auxIndices node] else s) (t.numNodes + 1) 0 []

/-- The pairs that come out when `self_iter_neighbors` runs over all leaf ids. -/
def selfPairs : Option (List (Sym2 ℤ)) :=
  ((List.range t.numLeaves).mapM fun leafId =>
    (selfIterNeighbors t leafId).map (List.map fun prim => s(t.auxIndices (t.leafInds leafId), prim))).map List.flatten

variable [Field T]

def l2NormSqr (v : Fin d → T) : T := ∑ i, v i * v i

def nearer (p : Fin d → T) (prim : ℕ → ℤ) (s : ℤ × T) (node : ℕ) : ℤ × T :=
  let d2 := l2NormSqr (p - (t.orderedBvs node).min)
  if d2 < s.2 then (prim node, d2) else s

/-- `find_nearest_point` that returns the index with the distance, for the distance to a box and the square root. -/
def findNearestPoint (distance : (Fin d → T) → Box d T → T) (sqrt : T → T) (p : Fin d → T) (dist2 : T) (idx : ℤ) :
    Option (ℤ × T) :=
  let found :=
    if t.numNodes ≤ 2 then some ((List.range t.numNodes).foldl (nearer t p fun i => (i : ℤ)) (idx, dist2))
    else
      traverse t
        (fun s node =>
          let d := max 0 (distance p (t.orderedBvs node))
          decide (s.2 < d * d))
        (nearer t p t.auxIndices) (t.numNodes + 1) 0 (idx, dist2)
  found.map fun s => (s.1, sqrt s.2)

end Queries

end Zpc.LBvh
