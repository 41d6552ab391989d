import Zpc.ExecutionGraphSort
import Mathlib.Data.List.Dedup

/-!
# Lanes of a compiled graph

The lane table gives every sorted pass a lane of its queue class, the timelines list
the passes lane by lane, and conflicting passes stay ordered across and within lanes.
-/
namespace Zpc
namespace LaneTable

def OnLane (t : LaneTable) (pass : ℕ) (queueClass : AsyncQueueClass) : Prop :=
  t.hasClass queueClass (t.laneAssignments pass) = true

variable {t : LaneTable} {queueClass : AsyncQueueClass} {lane : ℕ}

theorem hasClass_iff : t.hasClass queueClass lane = true ↔
    ∃ s, t.laneStates[lane]? = some s ∧ s.lane.queueClass = queueClass := by
  simp [hasClass, Option.any_eq_true]

theorem hasClass_lt (h : t.hasClass queueClass lane = true) : lane < t.laneStates.length := by
  obtain ⟨s, hs, _⟩ := hasClass_iff.mp h
  exact (List.getElem?_eq_some_iff.mp hs).1

@[simp] theorem hasClass_place (pass lane' : ℕ) :
    (t.place pass lane').hasClass queueClass lane = t.hasClass queueClass lane := by
  simp only [hasClass, place, List.getElem?_modify]
  cases t.laneStates[lane]? with
  | none => rfl
  | some s => split_ifs <;> rfl

theorem hasClass_addLane {queueClass' : AsyncQueueClass} {label : String} (h : t.hasClass queueClass lane = true) :
    (t.addLane queueClass' label).hasClass queueClass lane = true := by
  have hl := hasClass_lt h
  simpa only [hasClass, addLane, List.getElem?_append_left hl] using h

theorem hasClass_addLane_new {label : String} :
    (t.addLane queueClass label).hasClass queueClass t.laneStates.length = true := by
  simp [hasClass, addLane]

/-- Placing a pass on a lane of its class keeps every pass on a lane of its own class. -/
theorem onLane_place {classOf : ℕ → AsyncQueueClass} {done : List ℕ} {pass : ℕ}
    (h : ∀ p ∈ done, t.OnLane p (classOf p)) (hl : t.hasClass (classOf pass) lane = true) :
    ∀ p ∈ done ++ [pass], (t.place pass lane).OnLane p (classOf p) := by
  intro p hp
  simp only [OnLane, hasClass_place]
  by_cases he : p = pass
  · subst he
    simpa [place] using hl
  · have hd : p ∈ done := by simpa [he] using hp
    have ha : (t.place pass lane).laneAssignments p = t.laneAssignments p := Function.update_of_ne he _ _
    rw [ha]
    exact h p hd

theorem onLane_addLane {classOf : ℕ → AsyncQueueClass} {done : List ℕ} {label : String}
    (h : ∀ p ∈ done, t.OnLane p (classOf p)) : ∀ p ∈ done, (t.addLane queueClass label).OnLane p (classOf p) :=
  fun p hp => hasClass_addLane (h p hp)

theorem onLane_placeOnNewLane {classOf : ℕ → AsyncQueueClass} {done : List ℕ} {pass : ℕ} {label : String}
    (h : ∀ p ∈ done, t.OnLane p (classOf p)) :
    ∀ p ∈ done ++ [pass], (t.placeOnNewLane pass (classOf pass) label).OnLane p (classOf p) :=
  onLane_place (onLane_addLane h) hasClass_addLane_new

theorem findOrCreatePrimaryLane_class (t : LaneTable) (queueClass : AsyncQueueClass) :
    (t.findOrCreatePrimaryLane queueClass).2.hasClass queueClass (t.findOrCreatePrimaryLane queueClass).1 = true := by
  unfold findOrCreatePrimaryLane
  split
  · rename_i lane hf
    exact List.find?_some hf
  · exact hasClass_addLane_new

theorem onLane_findOrCreatePrimaryLane {classOf : ℕ → AsyncQueueClass} {done : List ℕ}
    (h : ∀ p ∈ done, t.OnLane p (classOf p)) (queueClass : AsyncQueueClass) :
    ∀ p ∈ done, (t.findOrCreatePrimaryLane queueClass).2.OnLane p (classOf p) := by
  unfold findOrCreatePrimaryLane
  split
  · exact h
  · exact onLane_addLane h

end LaneTable

namespace CompiledGraph
/-- Two passes in this order on the timeline of one lane. -/
def LaneOrder (c : CompiledGraph) (p q : ℕ) : Prop :=
  c.laneAssignments p = c.laneAssignments q ∧
    ∃ timeline, c.laneTimelines[c.laneAssignments p]? = some timeline ∧ List.Sublist [p, q] timeline

/-- One link of a chain of lane order and cross-lane sync edges. -/
def Link (c : CompiledGraph) (p q : ℕ) : Prop :=
  c.LaneOrder p q ∨ ∃ e ∈ c.syncEdges, e.srcPass = p ∧ e.dstPass = q ∧ e.crossLane = true

end CompiledGraph

namespace ExecutionGraph
variable {g : ExecutionGraph}

theorem mem_preds {p q : ℕ} : p ∈ g.preds q ↔ ∃ e ∈ g.rawEdges, e.src = p ∧ e.dst = q := by
  simp [preds, and_assoc, and_comm]

theorem onLane_placeOnSecondary {t : LaneTable} {done : List ℕ} {pass primaryLane : ℕ}
    (h : ∀ p ∈ done, t.OnLane p (g.queueAssignment p)) :
    ∀ p ∈ done ++ [pass], (g.placeOnSecondary t pass primaryLane).OnLane p (g.queueAssignment p) := by
  unfold placeOnSecondary
  split
  · rename_i lane hf
    have hl := List.find?_some hf
    simp only [Bool.and_eq_true] at hl
    exact LaneTable.onLane_place h hl.1.2
  · exact LaneTable.onLane_placeOnNewLane h

theorem onLane_assignShared {t : LaneTable} {done : List ℕ} {pass primaryLane : ℕ}
    (h : ∀ p ∈ done, t.OnLane p (g.queueAssignment p)) (hpreds : ∀ p ∈ g.preds pass, p ∈ done)
    (hclass : t.hasClass (g.queueAssignment pass) primaryLane = true) :
    ∀ p ∈ done ++ [pass], (g.assignShared t pass primaryLane).OnLane p (g.queueAssignment p) := by
  unfold assignShared
  split
  · exact LaneTable.onLane_place h hclass
  · split
    · rename_i pred hf
      have hq : g.queueAssignment pred = g.queueAssignment pass := by simpa using List.find?_some hf
      have hpred := h pred (hpreds pred (List.mem_of_find?_eq_some hf))
      exact LaneTable.onLane_place h (hq ▸ hpred)
    · split_ifs
      · exact LaneTable.onLane_place h hclass
      · exact onLane_placeOnSecondary h

/-- Whichever rule places the pass, it lands on a lane of its class. -/
theorem onLane_assignLane {t : LaneTable} {done : List ℕ} {pass : ℕ}
    (h : ∀ p ∈ done, t.OnLane p (g.queueAssignment p)) (hpreds : ∀ p ∈ g.preds pass, p ∈ done) :
    ∀ p ∈ done ++ [pass], (g.assignLane t pass).OnLane p (g.queueAssignment p) := by
  unfold assignLane
  split_ifs
  · exact LaneTable.onLane_placeOnNewLane h
  · exact onLane_assignShared (LaneTable.onLane_findOrCreatePrimaryLane h _) hpreds
      (t.findOrCreatePrimaryLane_class (g.queueAssignment pass))

theorem onLane_foldl {t : LaneTable} (done rest : List ℕ) (h : ∀ p ∈ done, t.OnLane p (g.queueAssignment p))
    (hs : done ++ rest = g.sorted) : ∀ p ∈ done ++ rest, (rest.foldl g.assignLane t).OnLane p (g.queueAssignment p) := by
  induction rest generalizing done t with
  | nil => simpa using h
  | cons pass rest ih =>
    have hpreds : ∀ p ∈ g.preds pass, p ∈ done := fun p hp => by
      obtain ⟨e, he, rfl, rfl⟩ := mem_preds.mp hp
      exact (sorts g).ordered done e.dst rest hs.symm e.src (List.mem_range.mpr (rawEdge_bounds he).1)
        (mem_adj_of_rawEdge he)
    have hi := ih (done ++ [pass]) (onLane_assignLane h hpreds) (by simpa using hs)
    simpa using hi

theorem onLane_laneTable (g : ExecutionGraph) : ∀ p ∈ g.sorted, g.laneTable.OnLane p (g.queueAssignment p) := by
  have h := onLane_foldl (g := g) (t := {}) [] g.sorted (by simp) rfl
  simpa [laneTable] using h

/-- Appending passes to the timelines of their lanes, in order. -/
theorem getElem?_timelines_foldl (lanes : List (List ℕ)) (passes : List ℕ) (assign : ℕ → ℕ) (lane : ℕ) :
    (passes.foldl (fun lanes p => lanes.modify (assign p) (· ++ [p])) lanes)[lane]? =
      lanes[lane]?.map (· ++ passes.filter (fun p => assign p = lane)) := by
  induction passes generalizing lanes with
  | nil => simp
  | cons p passes ih =>
    rw [List.foldl_cons, ih, List.getElem?_modify]
    by_cases hp : assign p = lane <;> cases lanes[lane]? <;> simp [hp]

theorem flatten_modify_perm {lanes : List (List ℕ)} {lane : ℕ} (hl : lane < lanes.length) (p : ℕ) :
    (lanes.modify lane (· ++ [p])).flatten.Perm (lanes.flatten ++ [p]) := by
  induction lanes generalizing lane with
  | nil => simp at hl
  | cons timeline lanes ih =>
    cases lane with
    | zero =>
      have hp : ([p] ++ lanes.flatten).Perm (lanes.flatten ++ [p]) := List.perm_append_comm
      simpa using hp.append_left timeline
    | succ lane =>
      simp only [List.modify_succ_cons, List.flatten_cons, List.append_assoc]
      exact (ih (by simpa using hl)).append_left timeline

theorem flatten_timelines_foldl (lanes : List (List ℕ)) (passes : List ℕ) {assign : ℕ → ℕ}
    (hl : ∀ p ∈ passes, assign p < lanes.length) :
    (passes.foldl (fun lanes p => lanes.modify (assign p) (· ++ [p])) lanes).flatten.Perm
      (lanes.flatten ++ passes) := by
  induction passes generalizing lanes with
  | nil => simp
  | cons p passes ih =>
    rw [List.foldl_cons]
    refine (ih _ fun q hq => by simpa using hl q (List.mem_cons_of_mem _ hq)).trans ?_
    simpa using (flatten_modify_perm (hl p List.mem_cons_self) p).append_right passes

theorem lane_lt {p : ℕ} (hp : p ∈ g.sorted) : g.laneTable.laneAssignments p < g.laneTable.laneStates.length :=
  LaneTable.hasClass_lt (onLane_laneTable g p hp)

theorem timelines_perm (g : ExecutionGraph) : g.timelines.flatten.Perm g.sorted := by
  have h := flatten_timelines_foldl (List.replicate g.laneTable.laneStates.length []) g.sorted
    fun p hp => by simpa using lane_lt hp
  simpa [timelines] using h

theorem getElem?_timelines {lane : ℕ} (hl : lane < g.laneTable.laneStates.length) :
    g.timelines[lane]? = some (g.sorted.filter fun p => g.laneTable.laneAssignments p = lane) := by
  rw [timelines, getElem?_timelines_foldl, List.getElem?_replicate, if_pos hl]
  simp

theorem compile_of_valid (hv : g.compile.valid = true) : g.sorted.Perm (List.range g.numPasses) ∧
    g.compile.sortedPassIndices = g.sorted ∧ g.compile.laneAssignments = g.laneTable.laneAssignments ∧
    g.compile.lanes = g.laneTable.laneStates.map (·.lane) ∧ g.compile.laneTimelines = g.timelines ∧
    g.compile.queueAssignments = g.queueAssignment ∧
    g.compile.syncEdges = g.rawEdges.map (syncEdge g.laneTable.laneAssignments) := by
  have hs := compile_sortedPassIndices g
  rw [CompiledGraph.valid, hs] at hv
  split_ifs at hv with hl
  · refine ⟨(sorts g).perm (by simpa using hl), by rw [hs, if_pos hl], ?_⟩
    have h0 : g.numPasses ≠ 0 := fun h0 => by
      rw [List.length_eq_zero_iff.mp (hl.trans h0)] at hv
      cases hv
    simp [compile, h0, hl]
  · cases hv

/-- What a valid compilation guarantees: a complete order, conflicts resolved by lane order or by
sync edges, lanes that partition the passes by queue class, and the count of cross-lane edges. -/
theorem compile_orders_conflicts (hv : g.compile.valid = true) :
    g.compile.sortedPassIndices.Perm (List.range g.numPasses) ∧
    (∀ p q, p < q → q < g.numPasses → Conflict g p q → List.Sublist [p, q] g.compile.sortedPassIndices ∧
      (g.compile.LaneOrder p q ∨ Relation.TransGen g.compile.Link p q)) ∧
    g.compile.laneTimelines.flatten.Perm (List.range g.numPasses) ∧
    (∀ p < g.numPasses, (∃ lane, g.compile.lanes[g.compile.laneAssignments p]? = some lane ∧
        lane.queueClass = g.compile.queueAssignments p) ∧
      ∃ timeline, g.compile.laneTimelines[g.compile.laneAssignments p]? = some timeline ∧ p ∈ timeline) ∧
    g.compile.numCrossLaneSyncs = (g.compile.syncEdges.filter fun e =>
      g.compile.laneAssignments e.srcPass ≠ g.compile.laneAssignments e.dstPass).length := by
  obtain ⟨hp, hs, hla, hl, ht, hq, he⟩ := compile_of_valid hv
  have hmem : ∀ p, p < g.numPasses → p ∈ g.sorted := fun p hlt => hp.mem_iff.mpr (List.mem_range.mpr hlt)
  refine ⟨hs ▸ hp, fun p q hpq hq' hc => ?_, ht ▸ (timelines_perm g).trans hp, fun p hlt => ⟨?_, ?_⟩, ?_⟩
  · obtain ⟨e, her, hsrc, hdst⟩ := rawEdge_of_conflict hpq hq' hc
    have hm := mem_adj_of_rawEdge her
    rw [hsrc, hdst] at hm
    have hsub := (sorts g).before (List.mem_range.mpr (hpq.trans hq')) (hmem q hq') hm
    refine ⟨hs ▸ hsub, ?_⟩
    by_cases hlane : g.laneTable.laneAssignments p = g.laneTable.laneAssignments q
    · refine .inl ⟨by rw [hla, hlane], _, by rw [ht, hla, getElem?_timelines (lane_lt (hmem p (hpq.trans hq')))], ?_⟩
      simpa [hlane] using hsub.filter fun i => g.laneTable.laneAssignments i = g.laneTable.laneAssignments p
    · refine .inr (.single (.inr ⟨syncEdge g.laneTable.laneAssignments e, he ▸ List.mem_map_of_mem her, hsrc, hdst, ?_⟩))
      simp [syncEdge, hsrc, hdst, hlane]
  · obtain ⟨s, hst, hcl⟩ := LaneTable.hasClass_iff.mp (onLane_laneTable g p (hmem p hlt))
    exact ⟨s.lane, by rw [hl, hla, List.getElem?_map, hst]; rfl, by rw [hq, hcl]⟩
  · exact ⟨_, by rw [ht, hla, getElem?_timelines (lane_lt (hmem p hlt))], by simp [hmem p hlt]⟩
  · have hn : g.compile.numCrossLaneSyncs = g.compile.syncEdges.countP (·.crossLane) := by
      unfold compile
      split_ifs <;> rfl
    rw [hn, List.countP_eq_length_filter, he, hla, List.filter_map, List.filter_map]
    rfl

/-- A compute pass and a graphics pass without conflict, and a graphics pass that reads both results. -/
def shadowAndCull : ExecutionGraph where
  passes := [
    {accesses := [⟨⟨1⟩, .write, 0⟩], preferredDomain := .deviceGraphics},
    {index := 1, accesses := [⟨⟨2⟩, .write, 0⟩], preferredDomain := .deviceCompute},
    {index := 2, accesses := [⟨⟨1⟩, .read, 0⟩, ⟨⟨2⟩, .read, 0⟩], preferredDomain := .deviceGraphics}]
  resources := [⟨1⟩, ⟨2⟩]
  indexed := rfl

theorem compile_orders_shadowAndCull : shadowAndCull.compile.laneTimelines.flatten.Perm [0, 1, 2] ∧
    List.Sublist [1, 2] shadowAndCull.compile.sortedPassIndices := by
  obtain ⟨_, hc, hl, _⟩ := compile_orders_conflicts (g := shadowAndCull) (by decide)
  exact ⟨hl, (hc 1 2 (by decide) (by decide) ⟨⟨2⟩, by decide, ⟨⟨2⟩, .write, 0⟩,
    by simp [shadowAndCull, pass], ⟨⟨2⟩, .read, 0⟩, by simp [shadowAndCull, pass], rfl, rfl, by decide⟩).1⟩

end ExecutionGraph
end Zpc
