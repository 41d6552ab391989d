import Zpc.ExecutionGraph
import Mathlib.Data.List.Range

/-!
# The hazard edges and the topological sort of the compiler

Which pairs of accesses become edges, that the adjacency lists and counters describe
exactly these edges, and when the sort places every pass.
-/
namespace Zpc.ExecutionGraph
variable {g : ExecutionGraph}

/-- An access of `p` and a later declared access of `q` to a registered resource conflict. -/
def Conflict (g : ExecutionGraph) (p q : ℕ) : Prop :=
  ∃ handle ∈ g.resources, ∃ a ∈ (g.pass p).accesses, ∃ b ∈ (g.pass q).accesses,
    a.resource = handle ∧ b.resource = handle ∧ classifyHazard a.mode b.mode ≠ .none

/-- No two accesses of the pass to one registered resource conflict with each other. -/
def SelfCompatible (g : ExecutionGraph) (pass : PassNode) : Prop :=
  ∀ handle ∈ g.resources, (pass.accesses.filter (·.resource = handle)).Pairwise fun a b =>
    classifyHazard a.mode b.mode = .none

theorem mem_hazardsFrom {handle : ResourceHandle} {touch : TouchRecord} {later : List TouchRecord} {e : RawEdge} :
    e ∈ hazardsFrom handle touch later ↔ ∃ touch' ∈ later, classifyHazard touch.mode touch'.mode ≠ .none ∧
      e = ⟨touch.passIdx, touch'.passIdx, handle, classifyHazard touch.mode touch'.mode⟩ := by
  simp only [hazardsFrom, List.mem_filterMap]
  refine exists_congr fun t => and_congr_right fun _ => ?_
  split_ifs with hc
  · simp [hc]
  · simp [hc, eq_comm]

/-- Every pair of conflicting touches in list order is an edge, and nothing else is. -/
theorem mem_hazardEdges {handle : ResourceHandle} {touches : List TouchRecord} {e : RawEdge} :
    e ∈ hazardEdges handle touches ↔ ∃ t t', List.Sublist [t, t'] touches ∧ classifyHazard t.mode t'.mode ≠ .none ∧
      e = ⟨t.passIdx, t'.passIdx, handle, classifyHazard t.mode t'.mode⟩ := by
  induction touches with
  | nil => simp [hazardEdges]
  | cons touch later ih =>
    rw [hazardEdges, List.mem_append, mem_hazardsFrom, ih]
    constructor
    · rintro (⟨t', ht', h⟩ | ⟨t, t', hs, h⟩)
      · exact ⟨touch, t', (List.singleton_sublist.mpr ht').cons_cons _, h⟩
      · exact ⟨t, t', hs.cons _, h⟩
    · rintro ⟨t, t', hs, h⟩
      cases hs with
      | cons _ hs => exact .inr ⟨t, t', hs, h⟩
      | cons_cons _ hs => exact .inl ⟨t', List.singleton_sublist.mp hs, h⟩

theorem mem_rawEdges {e : RawEdge} : e ∈ g.rawEdges ↔ ∃ handle ∈ g.resources, ∃ t t',
    List.Sublist [t, t'] (g.touches handle) ∧ classifyHazard t.mode t'.mode ≠ .none ∧
      e = ⟨t.passIdx, t'.passIdx, handle, classifyHazard t.mode t'.mode⟩ := by
  simp only [rawEdges, List.mem_flatMap, mem_hazardEdges]

theorem pair_sublist {α : Type*} {l : List α} {i j : ℕ} (hij : i < j) (hj : j < l.length) :
    List.Sublist [l[i], l[j]] l := by
  have hi : l[i] ∈ l.take j := List.mem_take_iff_getElem.mpr ⟨i, by omega, rfl⟩
  have hd : l[j] ∈ l.drop j := List.mem_drop_iff_getElem.mpr ⟨0, by omega, by simp⟩
  have h := (List.singleton_sublist.mpr hi).append (List.singleton_sublist.mpr hd)
  rwa [List.take_append_drop] at h

theorem index_getElem {i : ℕ} (hi : i < g.passes.length) : g.passes[i].index = i := by
  have h := g.indexed
  have hget : (g.passes.map (·.index))[i]? = (List.range g.passes.length)[i]? := by rw [h]
  simpa [hi] using hget

theorem pass_eq_getElem {i : ℕ} (hi : i < g.passes.length) : g.pass i = g.passes[i] := by
  simp [pass, hi]

theorem index_pass {i : ℕ} (hi : i < g.passes.length) : (g.pass i).index = i := by
  rw [pass_eq_getElem hi, index_getElem hi]

theorem pass_index {pass : PassNode} (hp : pass ∈ g.passes) :
    pass.index < g.passes.length ∧ g.pass pass.index = pass := by
  obtain ⟨i, hi, rfl⟩ := List.getElem_of_mem hp
  rw [index_getElem hi]
  exact ⟨hi, pass_eq_getElem hi⟩

def touchesOf (handle : ResourceHandle) (pass : PassNode) : List TouchRecord :=
  (pass.accesses.filter (·.resource = handle)).map fun acc => ⟨pass.index, acc.mode⟩

theorem touches_eq (handle : ResourceHandle) : g.touches handle = g.passes.flatMap (touchesOf handle) := rfl

theorem mem_touches {handle : ResourceHandle} {t : TouchRecord} (h : t ∈ g.touches handle) :
    t.passIdx < g.passes.length := by
  simp only [touches_eq, List.mem_flatMap, touchesOf, List.mem_map] at h
  obtain ⟨pass, hp, acc, _, rfl⟩ := h
  exact (pass_index hp).1

theorem passes_pairwise : g.passes.Pairwise fun p q => p.index < q.index := by
  have h : (g.passes.map (·.index)).Pairwise (· < ·) := by
    rw [g.indexed]
    exact List.pairwise_lt_range
  exact List.pairwise_map.mp h

/-- The touches of a resource never go back in declaration order, and two touches of one pass
come from two accesses of that pass. -/
theorem touches_pairwise (handle : ResourceHandle) : (g.touches handle).Pairwise fun t t' =>
    t.passIdx < t'.passIdx ∨ t.passIdx = t'.passIdx ∧ ∃ pass ∈ g.passes, pass.index = t.passIdx ∧
      ∃ a b, List.Sublist [a, b] (pass.accesses.filter (·.resource = handle)) ∧ a.mode = t.mode ∧ b.mode = t'.mode := by
  rw [touches_eq, List.pairwise_flatMap]
  refine ⟨fun pass hp => ?_, passes_pairwise.imp fun h t ht t' ht' => ?_⟩
  · rw [touchesOf, List.pairwise_map, List.pairwise_iff_forall_sublist]
    exact fun {a b} hs => .inr ⟨rfl, pass, hp, rfl, a, b, hs, rfl, rfl⟩
  · simp only [touchesOf, List.mem_map] at ht ht'
    obtain ⟨_, _, rfl⟩ := ht
    obtain ⟨_, _, rfl⟩ := ht'
    exact .inl h

theorem rawEdge_bounds {e : RawEdge} (he : e ∈ g.rawEdges) : e.src < g.passes.length ∧ e.dst < g.passes.length := by
  obtain ⟨handle, _, t, t', hs, _, rfl⟩ := mem_rawEdges.mp he
  exact ⟨mem_touches (hs.subset (by simp)), mem_touches (hs.subset (by simp))⟩

/-- An edge goes to a later pass unless a pass conflicts with itself. -/
theorem rawEdge_lt {e : RawEdge} (he : e ∈ g.rawEdges) :
    e.src < e.dst ∨ e.src = e.dst ∧ ∃ pass ∈ g.passes, ¬ SelfCompatible g pass := by
  obtain ⟨handle, hh, t, t', hs, hc, rfl⟩ := mem_rawEdges.mp he
  refine (List.pairwise_iff_forall_sublist.mp (touches_pairwise handle) hs).imp_right ?_
  rintro ⟨heq, pass, hp, _, a, b, hab, ha, hb⟩
  refine ⟨heq, pass, hp, fun hcomp => hc ?_⟩
  rw [← ha, ← hb]
  exact List.pairwise_iff_forall_sublist.mp (hcomp handle hh) hab

/-- Conflicting accesses of two passes give an edge between them. -/
theorem rawEdge_of_conflict {p q : ℕ} (hpq : p < q) (hq : q < g.passes.length) (hc : Conflict g p q) :
    ∃ e ∈ g.rawEdges, e.src = p ∧ e.dst = q := by
  obtain ⟨handle, hh, a, ha, b, hb, rfl, hbr, hc⟩ := hc
  refine ⟨_, mem_rawEdges.mpr ⟨a.resource, hh, ⟨p, a.mode⟩, ⟨q, b.mode⟩, ?_, hc, rfl⟩, rfl, rfl⟩
  have hp : p < g.passes.length := hpq.trans hq
  have hsub : List.Sublist [g.pass p, g.pass q] g.passes := by
    rw [pass_eq_getElem hp, pass_eq_getElem hq]
    exact pair_sublist hpq hq
  have htouch : ∀ i < g.passes.length, ∀ c ∈ (g.pass i).accesses, c.resource = a.resource →
      List.Sublist [⟨i, c.mode⟩] (touchesOf a.resource (g.pass i)) := fun i hi c hc hr =>
    List.singleton_sublist.mpr (List.mem_map.mpr ⟨c, by simp [hc, hr], by rw [index_pass hi]⟩)
  rw [touches_eq]
  refine List.Sublist.trans ?_ (hsub.flatMap _)
  simpa using (htouch p hp a ha rfl).append (htouch q hq b hb hbr)

/-- A pass that conflicts with itself gets an edge to itself. -/
theorem rawEdge_self {pass : PassNode} (hp : pass ∈ g.passes) (h : ¬ SelfCompatible g pass) :
    ∃ e ∈ g.rawEdges, e.src = pass.index ∧ e.dst = pass.index := by
  simp only [SelfCompatible, List.pairwise_iff_forall_sublist, not_forall] at h
  obtain ⟨handle, hh, a, b, hs, hc⟩ := h
  refine ⟨_, mem_rawEdges.mpr ⟨handle, hh, ⟨pass.index, a.mode⟩, ⟨pass.index, b.mode⟩, ?_, hc, rfl⟩, rfl, rfl⟩
  rw [touches_eq]
  have hm := hs.map fun acc : ResourceAccessDecl => (⟨pass.index, acc.mode⟩ : TouchRecord)
  exact hm.trans (List.sublist_flatten_of_mem (List.mem_map_of_mem hp))

/-- What the adjacency lists and counters say about the edges added so far. -/
structure Describes (n : ℕ) (a : Adjacency) (edges : List RawEdge) : Prop where
  mem_iff : ∀ u v, v ∈ a.adj u ↔ ∃ e ∈ edges, e.src = u ∧ e.dst = v
  nodup : ∀ u, (a.adj u).Nodup
  count : ∀ v, a.inDegree v = (List.range n).countP fun u => v ∈ a.adj u

theorem describes_addEdge {n : ℕ} {a : Adjacency} {edges : List RawEdge} (h : Describes n a edges) {e : RawEdge}
    (he : e.src < n) : Describes n (a.addEdge e) (edges ++ [e]) := by
  unfold Adjacency.addEdge
  split_ifs with hd
  · refine ⟨fun u v => ?_, h.nodup, h.count⟩
    rw [h.mem_iff]
    constructor
    · rintro ⟨e', he', hs⟩
      exact ⟨e', by simp [he'], hs⟩
    · rintro ⟨e', he', rfl, rfl⟩
      rcases List.mem_append.mp he' with he' | he'
      · exact ⟨e', he', rfl, rfl⟩
      · obtain rfl := List.mem_singleton.mp he'
        exact (h.mem_iff _ _).mp hd
  · refine ⟨fun u v => ?_, fun u => ?_, fun v => ?_⟩
    · have hm : v ∈ Function.update a.adj e.src (a.adj e.src ++ [e.dst]) u ↔
          v ∈ a.adj u ∨ e.src = u ∧ e.dst = v := by
        by_cases hu : u = e.src
        · subst hu
          simp [eq_comm]
        · simp [hu, Ne.symm hu]
      simp only [hm, h.mem_iff, List.mem_append, List.mem_singleton, or_and_right, exists_or, exists_eq_left]
    · by_cases hu : u = e.src
      · subst hu
        simpa using List.nodup_append.mpr ⟨h.nodup _, by simp, by
          rintro x hx y hy rfl
          exact hd (List.mem_singleton.mp hy ▸ hx)⟩
      · simpa [hu] using h.nodup u
    · by_cases hv : v = e.dst
      · subst hv
        have hc := ReadyQueueSort.countP_add_one (List.nodup_range (n := n)) (List.mem_range.mpr he)
          (p := fun u => decide (e.dst ∈ Function.update a.adj e.src (a.adj e.src ++ [e.dst]) u))
          (q := fun u => decide (e.dst ∈ a.adj u)) (by simp) (by simp [hd]) fun u hu => by simp [hu]
        simp only [Function.update_self, h.count, hc]
        simp
      · simp only [Function.update_of_ne hv, h.count]
        congr 1
        refine List.countP_congr fun u _ => ?_
        by_cases hu : u = e.src
        · subst hu
          simp [hv]
        · simp [hu]

theorem describes_foldl {n : ℕ} {a : Adjacency} {done edges : List RawEdge} (h : Describes n a done)
    (he : ∀ e ∈ edges, e.src < n) : Describes n (edges.foldl Adjacency.addEdge a) (done ++ edges) := by
  induction edges generalizing a done with
  | nil => simpa using h
  | cons e edges ih =>
    have hs := ih (describes_addEdge h (he e List.mem_cons_self)) fun e' h' => he e' (List.mem_cons_of_mem _ h')
    simpa using hs

theorem describes_adjacency (g : ExecutionGraph) : Describes g.numPasses g.adjacency g.rawEdges := by
  have h : Describes g.numPasses ⟨fun _ => [], fun _ => 0⟩ [] := ⟨by simp, by simp, by simp⟩
  have hf := describes_foldl h fun e (he : e ∈ g.rawEdges) => (rawEdge_bounds he).1
  rwa [List.nil_append] at hf

theorem sortGraph (g : ExecutionGraph) : ReadyQueueSort.Graph (List.range g.numPasses) g.adjacency.adj := by
  refine ⟨List.nodup_range, (describes_adjacency g).nodup, fun u _ v hv => ?_⟩
  obtain ⟨e, he, _, rfl⟩ := ((describes_adjacency g).mem_iff u v).mp hv
  exact List.mem_range.mpr (rawEdge_bounds he).2

theorem sorts (g : ExecutionGraph) : ReadyQueueSort.Sorts (List.range g.numPasses) g.adjacency.adj g.sorted :=
  ReadyQueueSort.sorts_sort (sortGraph g) (describes_adjacency g).count

theorem mem_adj_of_rawEdge {e : RawEdge} (he : e ∈ g.rawEdges) : e.dst ∈ g.adjacency.adj e.src :=
  ((describes_adjacency g).mem_iff _ _).mpr ⟨e, he, rfl, rfl⟩

theorem sorted_perm (h : ∀ pass ∈ g.passes, SelfCompatible g pass) : g.sorted.Perm (List.range g.numPasses) := by
  refine (sorts g).perm_of_rank (sortGraph g) id fun u _ v hv => ?_
  obtain ⟨e, he, rfl, rfl⟩ := ((describes_adjacency g).mem_iff u v).mp hv
  refine (rawEdge_lt he).resolve_right ?_
  rintro ⟨_, pass, hp, hn⟩
  exact hn (h pass hp)

theorem not_mem_sorted {pass : PassNode} (hp : pass ∈ g.passes) (h : ¬ SelfCompatible g pass) :
    pass.index ∉ g.sorted := by
  obtain ⟨e, he, hs, hd⟩ := rawEdge_self hp h
  have hm := mem_adj_of_rawEdge he
  rw [hs, hd] at hm
  exact (sorts g).not_mem_of_self (List.mem_range.mpr (pass_index hp).1) hm

theorem compile_sortedPassIndices (g : ExecutionGraph) : g.compile.sortedPassIndices =
    if g.sorted.length = g.numPasses then g.sorted else [] := by
  unfold compile
  split_ifs with h0 hl hl hl
  · exact (List.length_eq_zero_iff.mp (hl.trans h0)).symm
  all_goals simp_all

/-- Compilation of a graph with passes is valid and complete exactly when no pass makes two
conflicting accesses to one of the registered resources. -/
theorem compile_complete_iff (hne : g.passes ≠ []) :
    (g.compile.valid = true ∧ ∀ p < g.numPasses, p ∈ g.compile.sortedPassIndices) ↔
      ∀ pass ∈ g.passes, SelfCompatible g pass := by
  rw [CompiledGraph.valid, compile_sortedPassIndices]
  constructor
  · rintro ⟨_, hall⟩ pass hp
    by_contra hn
    have hs := hall pass.index (pass_index hp).1
    split_ifs at hs with hl
    · exact not_mem_sorted hp hn hs
    · cases hs
  · intro h
    have hp := sorted_perm h
    have hl : g.sorted.length = g.numPasses := by simpa using hp.length_eq
    rw [if_pos hl]
    refine ⟨?_, fun p hlt => hp.mem_iff.mpr (List.mem_range.mpr hlt)⟩
    cases hs : g.sorted with
    | nil =>
      rw [hs] at hl
      exact absurd (List.length_eq_zero_iff.mp hl.symm) hne
    | cons p rest => rfl

def readThenWrite : ExecutionGraph where
  passes := [{accesses := [⟨⟨1⟩, .read, 0⟩, ⟨⟨1⟩, .write, 0⟩]}]
  resources := [⟨1⟩]
  indexed := rfl

theorem readThenWrite_cycle : ¬ (readThenWrite.compile.valid = true ∧
    ∀ p < readThenWrite.numPasses, p ∈ readThenWrite.compile.sortedPassIndices) := by
  have h : readThenWrite.compile.valid = false := by decide
  simp [h]

/-- A pass that writes one resource and reads another, before one that reads the first. -/
theorem compile_complete_iff_chain : ∃ g : ExecutionGraph, g.numPasses = 2 ∧
    g.compile.valid = true ∧ ∀ p < g.numPasses, p ∈ g.compile.sortedPassIndices := by
  let g : ExecutionGraph :=
    ⟨[{accesses := [⟨⟨1⟩, .write, 0⟩, ⟨⟨2⟩, .read, 0⟩]}, {index := 1, accesses := [⟨⟨1⟩, .read, 0⟩]}], [⟨1⟩, ⟨2⟩], rfl⟩
  exact ⟨g, rfl, (compile_complete_iff (g := g) (by simp [g])).mpr (by simp [g, SelfCompatible])⟩

end Zpc.ExecutionGraph
