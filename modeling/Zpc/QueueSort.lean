import Zpc.DependencyCount

/-!
# Sorting the nodes of a multigraph through a queue

Edges may be repeated, and they may come from outside the nodes. Each node carries the
number of its edges from nodes not yet sorted; the node at the head of the queue is
sorted and the counters of its successors go down, once for each edge. A node is sorted
exactly when the sources of all its edges are.
-/
namespace QueueSort
open DependencyCount

variable {α E : Type*} [DecidableEq α]

structure State (α : Type*) where
  inDegree : α → ℕ
  queue : List α
  sorted : List α

/-- Take one from the counter of a node and queue the node if it reaches zero. -/
def lower (s : State α) (v : α) : State α := {s with
  inDegree := Function.update s.inDegree v (s.inDegree v - 1)
  queue := if s.inDegree v - 1 = 0 then s.queue ++ [v] else s.queue}

def release (s : State α) (vs : List α) : State α := vs.foldl lower s

def step (succs : α → List α) (s : State α) : State α :=
  match s.queue with
  | [] => s
  | v :: rest => release {s with queue := rest, sorted := s.sorted ++ [v]} (succs v)

def initial (nodes : List α) (inDegree : α → ℕ) : State α :=
  ⟨inDegree, nodes.filter (fun v => inDegree v = 0), []⟩

/-- Run until the queue is empty: every node is taken at most once. -/
def sort (nodes : List α) (succs : α → List α) (inDegree : α → ℕ) : List α :=
  ((step succs)^[nodes.length] (initial nodes inDegree)).sorted

@[simp] theorem release_cons (s : State α) (v : α) (vs : List α) : release s (v :: vs) = release (lower s v) vs := rfl

theorem lower_self (s : State α) (v : α) : (lower s v).inDegree v = s.inDegree v - 1 := by
  simp [lower]

theorem lower_of_ne (s : State α) {v w : α} (h : w ≠ v) : (lower s v).inDegree w = s.inDegree w := by
  simp [lower, h]

theorem release_sorted (s : State α) (vs : List α) : (release s vs).sorted = s.sorted := by
  induction vs generalizing s with
  | nil => rfl
  | cons v vs ih => exact ih _

theorem release_inDegree (s : State α) (vs : List α) (w : α) :
    (release s vs).inDegree w = s.inDegree w - vs.count w := by
  induction vs generalizing s with
  | nil => rfl
  | cons v vs ih =>
    rw [release_cons, ih]
    by_cases hw : w = v
    · subst hw
      rw [lower_self, List.count_cons_self]
      omega
    · rw [lower_of_ne s hw, List.count_cons_of_ne (Ne.symm hw)]

/-- What is queued: each listed node whose counter is used up, once. -/
theorem release_queue (s : State α) {vs : List α} (hc : ∀ w ∈ vs, vs.count w ≤ s.inDegree w) :
    ∃ ws : List α, (release s vs).queue = s.queue ++ ws ∧ ws.Nodup ∧
      ∀ w, w ∈ ws ↔ w ∈ vs ∧ s.inDegree w = vs.count w := by
  induction vs generalizing s with
  | nil => exact ⟨[], by simp [release]⟩
  | cons v vs ih =>
    have hv := hc v List.mem_cons_self
    rw [List.count_cons_self] at hv
    have hc' : ∀ w ∈ vs, vs.count w ≤ (lower s v).inDegree w := by
      intro w hw
      have h := hc w (List.mem_cons_of_mem _ hw)
      by_cases he : w = v
      · subst he
        rw [lower_self]
        omega
      · rwa [lower_of_ne s he, ← List.count_cons_of_ne (Ne.symm he)]
    obtain ⟨ws, hq, hn, hmem⟩ := ih (lower s v) hc'
    rw [release_cons, hq]
    have hother : ∀ w, w ≠ v → (w ∈ ws ↔ w ∈ v :: vs ∧ s.inDegree w = (v :: vs).count w) := by
      intro w he
      rw [hmem, lower_of_ne s he, List.count_cons_of_ne (Ne.symm he), List.mem_cons, or_iff_right he]
    by_cases h0 : s.inDegree v - 1 = 0
    · have hcount : vs.count v = 0 := by omega
      have hvs : v ∉ ws := fun h => List.count_eq_zero.mp hcount ((hmem v).mp h).1
      refine ⟨v :: ws, by simp [lower, h0], List.nodup_cons.mpr ⟨hvs, hn⟩, fun w => ?_⟩
      by_cases he : w = v
      · subst he
        refine iff_of_true List.mem_cons_self ⟨List.mem_cons_self, ?_⟩
        rw [List.count_cons_self]
        omega
      · rw [List.mem_cons, or_iff_right he, hother w he]
    · refine ⟨ws, by simp [lower, h0], hn, fun w => ?_⟩
      by_cases he : w = v
      · subst he
        rw [hmem, lower_self, List.count_cons_self]
        constructor
        · exact fun h => ⟨List.mem_cons_self, by omega⟩
        · exact fun h => ⟨List.count_pos_iff.mp (by omega), by omega⟩
      · exact hother w he

variable {src dst : E → α} {edges : List E} {nodes : List α} {u v : α}

/-- The ends of the edges out of a node, one for each edge. -/
def succs (src dst : E → α) (edges : List E) (u : α) : List α :=
  (edges.filter fun e => src e = u).map dst

theorem count_succs (u v : α) : (succs src dst edges u).count v = between src dst edges u v := by
  rw [succs, List.count, List.countP_map, List.countP_filter, between]
  refine List.countP_congr fun e _ => ?_
  simp

theorem mem_succs : v ∈ succs src dst edges u ↔ ∃ e ∈ edges, src e = u ∧ dst e = v := by
  simp [succs, and_assoc]

/-- What the sort guarantees of every multigraph. -/
structure Sorts (src dst : E → α) (edges : List E) (nodes sorted : List α) : Prop where
  nodup : sorted.Nodup
  subset : ∀ v ∈ sorted, v ∈ nodes
  mem_iff : ∀ v ∈ nodes, v ∈ sorted ↔ ∀ e ∈ edges, dst e = v → src e ∈ sorted
  ordered : ∀ e ∈ edges, ∀ before after, sorted = before ++ dst e :: after → src e ∈ before

structure Invariant (src dst : E → α) (edges : List E) (nodes : List α) (s : State α) : Prop where
  nodup : (s.sorted ++ s.queue).Nodup
  subset : ∀ v ∈ s.sorted ++ s.queue, v ∈ nodes
  count : ∀ v, s.inDegree v = waits src dst edges s.sorted v
  queued : ∀ v ∈ nodes, v ∈ s.sorted ++ s.queue ↔ s.inDegree v = 0
  ordered : ∀ e ∈ edges, ∀ before after, s.sorted = before ++ dst e :: after → src e ∈ before

variable {inDegree : α → ℕ} {s : State α}

theorem invariant_initial (hn : nodes.Nodup) :
    Invariant src dst edges nodes (initial nodes (DependencyCount.inDegree dst edges)) := by
  refine ⟨by simpa [initial] using hn.filter _, by simp +contextual [initial], fun v => by simp [initial],
    by simp +contextual [initial], fun e _ before after h => ?_⟩
  simp [initial] at h

variable (src dst edges) in
theorem waits_snoc {sorted : List α} (hv : v ∉ sorted) (w : α) :
    waits src dst edges (sorted ++ [v]) w + between src dst edges v w = waits src dst edges sorted w := by
  have hperm : waits src dst edges (sorted ++ [v]) w = waits src dst edges (v :: sorted) w := by
    refine List.countP_congr fun e _ => ?_
    simp [and_comm]
  rw [hperm]
  exact waits_cons hv w

theorem step_of_empty {succs : α → List α} (hq : s.queue = []) : step succs s = s := by
  rw [step, hq]

theorem invariant_step (hd : ∀ e ∈ edges, dst e ∈ nodes) (h : Invariant src dst edges nodes s) :
    Invariant src dst edges nodes (step (succs src dst edges) s) := by
  cases hq : s.queue with
  | nil => rwa [step_of_empty hq]
  | cons v rest =>
    have hn := h.nodup
    have hsub := h.subset
    have hqueued := h.queued
    rw [hq] at hn hsub hqueued
    have hv : v ∈ nodes := hsub v (by simp)
    have hvs : v ∉ s.sorted := fun hv => List.disjoint_of_nodup_append hn hv (by simp)
    -- a node taken up has no edge left to wait for
    have hready : ∀ w ∈ s.sorted ++ v :: rest, ∀ e ∈ edges, dst e = w → src e ∈ s.sorted := by
      intro w hw
      have h0 := (hqueued w (hsub w hw)).mp hw
      rw [h.count] at h0
      exact waits_eq_zero.mp h0
    have hnew : ∀ w ∈ succs src dst edges v, w ∉ s.sorted ++ v :: rest := by
      intro w hw hold
      obtain ⟨e, he, hs, hdst⟩ := mem_succs.mp hw
      exact hvs (hs ▸ hready w hold e he hdst)
    have hcount : ∀ w, (succs src dst edges v).count w ≤ s.inDegree w := by
      intro w
      have := waits_snoc src dst edges hvs w
      rw [count_succs, h.count]
      omega
    obtain ⟨ws, hws, hnodup, hmem⟩ := release_queue {s with queue := rest, sorted := s.sorted ++ [v]}
      (fun w _ => hcount w)
    simp only at hws hmem
    rw [step, hq]
    simp only
    constructor
    · rw [release_sorted, hws, ← List.append_assoc, List.append_assoc s.sorted, List.singleton_append]
      exact hn.append hnodup fun w hw hw' => hnew w ((hmem w).mp hw').1 hw
    · intro w hw
      rw [release_sorted, hws, ← List.append_assoc, List.append_assoc s.sorted, List.singleton_append] at hw
      rcases List.mem_append.mp hw with hw | hw
      · exact hsub w hw
      · obtain ⟨e, he, -, rfl⟩ := mem_succs.mp ((hmem w).mp hw).1
        exact hd e he
    · intro w
      have hw := waits_snoc src dst edges hvs w
      rw [release_sorted, release_inDegree, count_succs]
      simp only [h.count]
      omega
    · intro w hw
      have hw' := hqueued w hw
      rw [release_sorted, release_inDegree, hws, ← List.append_assoc, List.append_assoc s.sorted,
        List.singleton_append, List.mem_append, hw', hmem]
      have hle := hcount w
      simp only
      constructor
      · rintro (h0 | ⟨-, h0⟩) <;> omega
      · intro h0
        by_cases hz : s.inDegree w = 0
        · exact .inl hz
        · exact .inr ⟨List.count_pos_iff.mp (by omega), by omega⟩
    · intro e he before after hs
      rw [release_sorted] at hs
      simp only at hs
      rcases List.eq_nil_or_concat after with rfl | ⟨after, z, rfl⟩
      · obtain ⟨rfl, hlast⟩ := List.append_inj' hs rfl
        have hdst : dst e = v := (List.cons.inj hlast).1.symm
        exact hready v (by simp) e he hdst
      · have hs' : s.sorted ++ [v] = (before ++ dst e :: after) ++ [z] := by simpa using hs
        exact h.ordered e he before after (List.append_inj' hs' rfl).1

theorem step_length {succs : α → List α} (hq : s.queue ≠ []) :
    (step succs s).sorted.length = s.sorted.length + 1 := by
  unfold step
  split
  · contradiction
  · simp [release_sorted]

/-- Every step sorts one more node until the queue is empty. -/
theorem iterate_length (succs : α → List α) (s : State α) (n : ℕ) : ((step succs)^[n] s).queue = [] ∨
    ((step succs)^[n] s).sorted.length = s.sorted.length + n := by
  induction n with
  | zero => exact .inr rfl
  | succ n ih =>
    rw [Function.iterate_succ_apply']
    by_cases hq : ((step succs)^[n] s).queue = []
    · rw [step_of_empty hq]
      exact .inl hq
    · rw [step_length hq, ih.resolve_left hq, Nat.add_assoc]
      exact .inr rfl

theorem sorts_sort (hn : nodes.Nodup) (hd : ∀ e ∈ edges, dst e ∈ nodes) :
    Sorts src dst edges nodes (sort nodes (succs src dst edges) (DependencyCount.inDegree dst edges)) := by
  have hi : ∀ k, Invariant src dst edges nodes
      ((step (succs src dst edges))^[k] (initial nodes (DependencyCount.inDegree dst edges))) := by
    intro k
    induction k with
    | zero => exact invariant_initial hn
    | succ k ih =>
      rw [Function.iterate_succ_apply']
      exact invariant_step hd ih
  have hl := iterate_length (succs src dst edges) (initial nodes (DependencyCount.inDegree dst edges)) nodes.length
  obtain ⟨hnodup, hsubset, hcount, hqueued, hordered⟩ := hi nodes.length
  have hle := (hnodup.subperm fun v hv => hsubset v hv).length_le
  have hempty : ((step (succs src dst edges))^[nodes.length]
      (initial nodes (DependencyCount.inDegree dst edges))).queue = [] := by
    rcases hl with h | h
    · exact h
    · rw [List.length_append, h] at hle
      exact List.length_eq_zero_iff.mp (by omega)
  rw [hempty, List.append_nil] at hnodup
  simp only [hempty, List.append_nil] at hsubset hqueued
  refine ⟨hnodup, hsubset, fun v hv => ?_, hordered⟩
  rw [sort, hqueued v hv, hcount, waits_eq_zero]

variable {sorted : List α}

omit [DecidableEq α] in
theorem Sorts.perm (h : Sorts src dst edges nodes sorted) (hl : sorted.length = nodes.length) : sorted.Perm nodes :=
  (h.nodup.subperm fun v hv => h.subset v hv).perm_of_length_le hl.ge

omit [DecidableEq α] in
/-- Without cycles nothing is left out exactly when no edge comes from outside. -/
theorem Sorts.complete_iff (hn : nodes.Nodup) (hd : ∀ e ∈ edges, dst e ∈ nodes) (ha : Acyclic src dst edges)
    (h : Sorts src dst edges nodes sorted) : sorted.length = nodes.length ↔ ∀ e ∈ edges, src e ∈ nodes := by
  constructor
  · intro hl e he
    have hp := h.perm hl
    exact h.subset _ ((h.mem_iff _ (hd e he)).mp (hp.mem_iff.mpr (hd e he)) e he rfl)
  · intro hs
    have hall : ∀ v, v ∈ nodes → v ∈ sorted := ha.induction fun v ih hv =>
      (h.mem_iff v hv).mpr fun e he hdst => ih e he hdst (hs e he)
    exact ((List.perm_ext_iff_of_nodup h.nodup hn).mpr fun v => ⟨h.subset v, hall v⟩).length_eq

end QueueSort
