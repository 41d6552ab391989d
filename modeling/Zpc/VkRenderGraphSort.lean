import Zpc.VkRenderGraph

/-!
# Compiling the passes that culling keeps

The maps of `topologicalSort` describe the dependencies of the passes, and without cycles the sort places every pass
exactly when every dependency is on a pass that is there. Culling can take such a pass away.
-/
namespace Zpc.VkRenderGraph
open DependencyCount

variable {o : IterationOrder} {passes : List RenderPassNode} {g : Graph}

/-- The explicit dependencies, from the pass that comes first to the one that waits for it. -/
def explicitDependencies (passes : List RenderPassNode) : List (ℕ × ℕ) :=
  passes.flatMap fun pass => pass.dependencies.map fun dep => (dep, pass.id)

theorem mem_explicitDependencies {e : ℕ × ℕ} :
    e ∈ explicitDependencies passes ↔ ∃ pass ∈ passes, e.1 ∈ pass.dependencies ∧ pass.id = e.2 := by
  obtain ⟨dep, id⟩ := e
  simp [explicitDependencies]

/-- The maps after some of the edges. -/
structure Describes (a : Adjacency) (edges : List (ℕ × ℕ)) : Prop where
  adjList : a.adjList = QueueSort.succs Prod.fst Prod.snd edges
  inDegree : a.inDegree = inDegree Prod.snd edges

theorem describes_addDependency {a : Adjacency} {edges : List (ℕ × ℕ)} (h : Describes a edges) (pass : RenderPassNode)
    (dep : ℕ) : Describes (a.addDependency pass dep) (edges ++ [(dep, pass.id)]) := by
  constructor
  · funext u
    rw [Adjacency.addDependency, h.adjList]
    by_cases hu : u = dep
    · subst hu
      simp [QueueSort.succs]
    · simp [QueueSort.succs, hu, Ne.symm hu]
  · funext v
    rw [Adjacency.addDependency, h.inDegree]
    by_cases hv : v = pass.id
    · subst hv
      simp [DependencyCount.inDegree]
    · simp [DependencyCount.inDegree, hv, Ne.symm hv]

theorem describes_dependencies {a : Adjacency} {edges : List (ℕ × ℕ)} (h : Describes a edges) (pass : RenderPassNode)
    (deps : List ℕ) : Describes (deps.foldl (Adjacency.addDependency pass) a)
      (edges ++ deps.map fun dep => (dep, pass.id)) := by
  induction deps generalizing a edges with
  | nil => simpa using h
  | cons dep deps ih =>
    have hs := ih (describes_addDependency h pass dep)
    rwa [List.append_assoc] at hs

theorem describes_passes {a : Adjacency} {edges : List (ℕ × ℕ)} (h : Describes a edges) (passes : List RenderPassNode) :
    Describes (passes.foldl (fun a pass => pass.dependencies.foldl (Adjacency.addDependency pass) a) a)
      (edges ++ explicitDependencies passes) := by
  induction passes generalizing a edges with
  | nil => simpa [explicitDependencies] using h
  | cons pass passes ih =>
    have hs := ih (describes_dependencies h pass pass.dependencies)
    rwa [List.append_assoc] at hs

theorem describes_adjacency (passes : List RenderPassNode) :
    Describes (adjacency passes) (explicitDependencies passes) := by
  have h : Describes {} [] := ⟨rfl, rfl⟩
  exact describes_passes h passes

/-- The ids in the order in which the sort takes them from the queue. -/
def sortedIds (o : IterationOrder) (passes : List RenderPassNode) : List ℕ :=
  QueueSort.sort (o.order (passes.map (·.id)).dedup) (adjacency passes).adjList (adjacency passes).inDegree

theorem sorts_sortedIds (o : IterationOrder) (passes : List RenderPassNode) :
    QueueSort.Sorts Prod.fst Prod.snd (explicitDependencies passes) (o.order (passes.map (·.id)).dedup)
      (sortedIds o passes) := by
  have hd := describes_adjacency passes
  rw [sortedIds, hd.adjList, hd.inDegree]
  apply QueueSort.sorts_sort
  · exact (o.perm _).nodup_iff.mpr (List.nodup_dedup _)
  · intro e he
    obtain ⟨pass, hp, -, hid⟩ := mem_explicitDependencies.mp he
    rw [(o.perm _).mem_iff, List.mem_dedup]
    exact List.mem_map.mpr ⟨pass, hp, hid⟩

theorem topologicalSort_eq (o : IterationOrder) (passes : List RenderPassNode) : topologicalSort o passes =
    if (sortedIds o passes).length = passes.length then (sortedIds o passes).map (passIdToIndex passes) else [] := by
  unfold topologicalSort sortedIds
  simp only [List.length_map, ne_eq]
  split_ifs <;> rfl

theorem passIdToIndex_id (hn : (passes.map (·.id)).Nodup) {i : ℕ} (hi : i < passes.length) :
    passIdToIndex passes (passAt passes i).id = i := by
  have hpass : passAt passes i = passes[i] := by simp [passAt, hi]
  have hfind : passes.reverse.findIdx (·.id = (passAt passes i).id) = passes.length - 1 - i := by
    rw [List.findIdx_eq (by rw [List.length_reverse]; omega)]
    constructor
    · rw [List.getElem_reverse, decide_eq_true_eq, hpass]
      congr 2
      omega
    · intro j hj
      rw [List.getElem_reverse, decide_eq_false_iff_not, hpass]
      intro he
      have hinj := List.nodup_iff_injective_get.mp hn
      have hget : (⟨passes.length - 1 - j, by rw [List.length_map]; omega⟩ : Fin (passes.map (·.id)).length) =
          ⟨i, by rwa [List.length_map]⟩ := hinj (by simpa using he)
      have := congrArg Fin.val hget
      simp only at this
      omega
  rw [passIdToIndex, hfind]
  omega

theorem passAt_mem {i : ℕ} (hi : i < passes.length) : passAt passes i ∈ passes := by
  simp [passAt, hi]

theorem map_passIdToIndex_perm (hn : (passes.map (·.id)).Nodup) :
    ((passes.map (·.id)).map (passIdToIndex passes)) = List.range passes.length := by
  apply List.ext_getElem
  · simp
  · intro i h1 h2
    have hi : i < passes.length := by simpa using h2
    have h := passIdToIndex_id hn hi
    simp only [passAt, List.getD_eq_getElem?_getD, List.getElem?_eq_getElem hi, Option.getD_some] at h
    simpa using h

/-- A complete compilation: every pass once, each after the passes it depends on. -/
structure Scheduled (passes : List RenderPassNode) (result : CompilationResult) : Prop where
  success : result.success = true
  error : result.error = ""
  perm : result.executionOrder.Perm (List.range passes.length)
  ordered : ∀ i < passes.length, ∀ j < passes.length, (passAt passes j).id ∈ (passAt passes i).dependencies →
    List.Sublist [j, i] result.executionOrder

/-- Without cycles compilation succeeds exactly when every dependency is on one of the passes. -/
theorem scheduled_iff (o : IterationOrder) (resources : List VirtualResource) (hn : (passes.map (·.id)).Nodup)
    (ha : Acyclic Prod.fst Prod.snd (explicitDependencies passes)) :
    Scheduled passes (compile o resources passes) ↔
      ∀ pass ∈ passes, ∀ dep ∈ pass.dependencies, dep ∈ passes.map (·.id) := by
  have hs := sorts_sortedIds o passes
  have hperm := (o.perm (passes.map (·.id)).dedup)
  rw [hn.dedup] at hperm hs
  have hcomplete := hs.complete_iff (hperm.nodup_iff.mpr hn) (fun e he => by
    obtain ⟨pass, hp, -, hid⟩ := mem_explicitDependencies.mp he
    exact hperm.mem_iff.mpr (List.mem_map.mpr ⟨pass, hp, hid⟩)) ha
  rw [hperm.length_eq, List.length_map] at hcomplete
  have hall : (∀ e ∈ explicitDependencies passes, e.1 ∈ o.order (passes.map (·.id))) ↔
      ∀ pass ∈ passes, ∀ dep ∈ pass.dependencies, dep ∈ passes.map (·.id) := by
    constructor
    · intro h pass hp dep hd
      exact hperm.mem_iff.mp (h (dep, pass.id) (mem_explicitDependencies.mpr ⟨pass, hp, hd, rfl⟩))
    · intro h e he
      obtain ⟨pass, hp, hd, -⟩ := mem_explicitDependencies.mp he
      exact hperm.mem_iff.mpr (h pass hp e.1 hd)
  rw [← hall, ← hcomplete]
  by_cases hempty : passes = []
  · subst hempty
    refine iff_of_true ⟨rfl, rfl, .refl _, by simp⟩ ?_
    exact List.length_eq_zero_iff.mpr (List.eq_nil_iff_forall_not_mem.mpr fun v hv => by
      simpa using hperm.mem_iff.mp (hs.subset v hv))
  · have hpos : 0 < passes.length := List.length_pos_iff.mpr hempty
    rw [compile, if_neg hempty, topologicalSort_eq]
    constructor
    · intro h
      by_contra hl
      rw [if_neg hl, if_pos rfl] at h
      exact absurd h.success (by simp)
    · intro hl
      rw [if_pos hl]
      have hne : (sortedIds o passes).map (passIdToIndex passes) ≠ [] := by
        intro h0
        have := congrArg List.length h0
        rw [List.length_map, List.length_nil] at this
        omega
      have hp : (sortedIds o passes).Perm (passes.map (·.id)) :=
        (hs.perm (by rw [hl, hperm.length_eq, List.length_map])).trans hperm
      rw [if_neg hne]
      refine ⟨rfl, rfl, ?_, fun i hi j hj hdep => ?_⟩
      · rw [← map_passIdToIndex_perm hn]
        exact hp.map _
      · have he : ((passAt passes j).id, (passAt passes i).id) ∈ explicitDependencies passes :=
          mem_explicitDependencies.mpr ⟨passAt passes i, passAt_mem hi, hdep, rfl⟩
        have hmem : (passAt passes i).id ∈ sortedIds o passes :=
          hp.mem_iff.mpr (List.mem_map_of_mem (passAt_mem hi))
        obtain ⟨before, after, hsplit⟩ := List.append_of_mem hmem
        have hbefore := hs.ordered _ he before after hsplit
        have hsub : List.Sublist [(passAt passes j).id, (passAt passes i).id] (sortedIds o passes) := by
          rw [hsplit]
          exact (List.singleton_sublist.mpr hbefore).append (List.singleton_sublist.mpr List.mem_cons_self)
        have hmap := hsub.map (passIdToIndex passes)
        simpa only [List.map_cons, List.map_nil, passIdToIndex_id hn hi, passIdToIndex_id hn hj] using hmap

namespace Graph
/-- Every pass that a live pass depends on is one of the passes, and live. -/
def DependenciesLive (g : Graph) : Prop :=
  ∀ pass ∈ g.passes, g.Live pass → ∀ dep ∈ pass.dependencies, ∃ target ∈ g.passes, target.id = dep ∧ g.Live target

theorem cull_sublist (o : IterationOrder) (passes : List RenderPassNode) :
    (cullUnusedPasses o passes).Sublist passes := List.filter_sublist

/-- Culling and then compiling a graph without cyclic dependencies succeeds, with an order that
respects every dependency, exactly when the live passes depend on live passes only. -/
theorem compile_after_cull_iff (o : IterationOrder) (g : Graph) (resources : List VirtualResource)
    (ha : Acyclic Prod.fst Prod.snd (explicitDependencies g.passes)) :
    Scheduled (cullUnusedPasses o g.passes) (compile o resources (cullUnusedPasses o g.passes)) ↔
      g.DependenciesLive := by
  have hsub := cull_sublist o g.passes
  have hn : ((cullUnusedPasses o g.passes).map (·.id)).Nodup := g.numbered.sublist (hsub.map _)
  have hedges : explicitDependencies (cullUnusedPasses o g.passes) ⊆ explicitDependencies g.passes := by
    intro e he
    obtain ⟨pass, hp, h⟩ := mem_explicitDependencies.mp he
    exact mem_explicitDependencies.mpr ⟨pass, hsub.subset hp, h⟩
  rw [scheduled_iff o resources hn (ha.mono hedges)]
  have hkept : ∀ dep, dep ∈ (cullUnusedPasses o g.passes).map (·.id) ↔
      ∃ target ∈ g.passes, target.id = dep ∧ g.Live target := by
    intro dep
    simp only [List.mem_map, mem_cull]
    exact exists_congr fun target => by tauto
  simp only [hkept, mem_cull, and_imp, DependenciesLive]

def afterUpload : Graph where
  passes := [{id := 0, reads := [⟨0, 1, {}⟩], writes := [⟨0, 2, {}⟩]},
    {id := 1, dependencies := [0], hasSideEffect := true}]
  numbered := by decide

theorem afterUpload_reported_cyclic :
    Acyclic Prod.fst Prod.snd (explicitDependencies afterUpload.passes) ∧
      (compile default [] (cullUnusedPasses default afterUpload.passes)).error =
        "Cyclic dependency detected in render graph" ∧
      ¬ Scheduled (cullUnusedPasses default afterUpload.passes)
        (compile default [] (cullUnusedPasses default afterUpload.passes)) := by
  have hc : compile default [] (cullUnusedPasses default afterUpload.passes) =
      {error := "Cyclic dependency detected in render graph"} := by decide
  rw [hc]
  refine ⟨acyclic_of_rank id (by decide), rfl, fun h => ?_⟩
  exact absurd h.success (by simp)

/-- A pass with side effects after one that writes an output. -/
theorem compile_after_cull_iff_chain : ∃ g : Graph, g.passes.length = 2 ∧
    Scheduled (cullUnusedPasses default g.passes) (compile default [] (cullUnusedPasses default g.passes)) := by
  let g : Graph := ⟨[{id := 0, writes := [⟨0, 2, {}⟩]}, {id := 1, dependencies := [0], hasSideEffect := true}],
    by decide⟩
  refine ⟨g, rfl, (compile_after_cull_iff default g [] (acyclic_of_rank id (by decide))).mpr ?_⟩
  have hlive : g.Live {id := 0, writes := [⟨0, 2, {}⟩]} :=
    .inl (.output (by simp [g]) ⟨_, List.mem_cons_self, rfl⟩ (by simp [g, RenderPassNode.Reads]))
  intro pass hp _ dep hd
  have hdep : dep = 0 := by
    simp only [g, List.mem_cons, List.not_mem_nil, or_false] at hp
    rcases hp with rfl | rfl
    · simp at hd
    · simpa using hd
  exact ⟨_, by simp [g], hdep.symm, hlive⟩

end Graph

end Zpc.VkRenderGraph
