import Zpc.DependencyCount
import Zpc.ExecutionGraphLanes
import Zpc.Interleaving
import Mathlib.Tactic.Linarith

/-!
# Running a compiled graph on the CPU scheduler

`CpuGraphExecutor::execute` of `ExecutionGraph.hpp`: one thread walks the sorted passes
and launches those whose dependency counter reads zero, while the workers run launched
passes, decrement the counters of their successors and launch those they bring to zero.
The scheduler is the bag of enqueued tasks, from which a worker takes any one.
-/
namespace Zpc.CpuGraphExecutor
open Interleaving DependencyCount

/-- The counters of one execution, the enqueued tasks, and a record of the run: the passes
begun and ended and the calls of `completionEvent.complete`. -/
structure Execution where
  deps : ℕ → ℤ
  remaining : ℤ
  queue : List ℕ := []
  started : List ℕ := []
  finished : List ℕ := []
  completions : ℕ := 0

inductive Frame
  | launchRoots (indices : List ℕ)
  | launch (passIdx : ℕ)
  | worker
  | run (passIdx : ℕ)
  | callback (passIdx : ℕ)
  | decrement (succs : List ℕ)
  | finish
  | complete
  deriving DecidableEq

def succs (compiled : CompiledGraph) (passIdx : ℕ) : List ℕ :=
  (compiled.syncEdges.filter (·.srcPass = passIdx)).map (·.dstPass)

def depCount (compiled : CompiledGraph) (passIdx : ℕ) : ℕ :=
  compiled.syncEdges.countP (·.dstPass = passIdx)

def code (compiled : CompiledGraph) : Code Execution Frame ℕ
  | m, .launchRoots [], _ => some (m, [])
  | m, .launchRoots (idx :: rest), _ =>
      if m.deps idx = 0 then some (m, [.launch idx, .launchRoots rest]) else some (m, [.launchRoots rest])
  | m, .launch passIdx, _ => some ({m with queue := m.queue ++ [passIdx]}, [])
  | m, .worker, k => match m.queue[k]? with
      | some passIdx => some ({m with queue := m.queue.eraseIdx k}, [.run passIdx, .worker])
      | none => none
  | m, .run passIdx, _ => some ({m with started := passIdx :: m.started}, [.callback passIdx])
  | m, .callback passIdx, _ =>
      some ({m with finished := passIdx :: m.finished}, [.decrement (succs compiled passIdx), .finish])
  | m, .decrement [], _ => some (m, [])
  | m, .decrement (s :: rest), _ =>
      if m.deps s = 1 then
        some ({m with deps := Function.update m.deps s (m.deps s - 1)}, [.launch s, .decrement rest])
      else some ({m with deps := Function.update m.deps s (m.deps s - 1)}, [.decrement rest])
  | m, .finish, _ =>
      if m.remaining = 1 then some ({m with remaining := m.remaining - 1}, [.complete])
      else some ({m with remaining := m.remaining - 1}, [])
  | m, .complete, _ => some ({m with completions := m.completions + 1}, [])

/-- What one action does, branch by branch. -/
inductive Acts (compiled : CompiledGraph) (m : Execution) : Frame → Execution → List Frame → Prop
  | rootsDone : Acts compiled m (.launchRoots []) m []
  | root (idx rest) (hd : m.deps idx = 0) :
      Acts compiled m (.launchRoots (idx :: rest)) m [.launch idx, .launchRoots rest]
  | notRoot (idx rest) (hd : m.deps idx ≠ 0) : Acts compiled m (.launchRoots (idx :: rest)) m [.launchRoots rest]
  | launch (passIdx) : Acts compiled m (.launch passIdx) {m with queue := m.queue ++ [passIdx]} []
  | take (queue passIdx) (hp : m.queue.Perm (passIdx :: queue)) :
      Acts compiled m .worker {m with queue := queue} [.run passIdx, .worker]
  | run (passIdx) : Acts compiled m (.run passIdx) {m with started := passIdx :: m.started} [.callback passIdx]
  | callback (passIdx) : Acts compiled m (.callback passIdx) {m with finished := passIdx :: m.finished}
      [.decrement (succs compiled passIdx), .finish]
  | decremented : Acts compiled m (.decrement []) m []
  | lastDep (s rest) (hd : m.deps s = 1) : Acts compiled m (.decrement (s :: rest))
      {m with deps := Function.update m.deps s (m.deps s - 1)} [.launch s, .decrement rest]
  | dep (s rest) (hd : m.deps s ≠ 1) : Acts compiled m (.decrement (s :: rest))
      {m with deps := Function.update m.deps s (m.deps s - 1)} [.decrement rest]
  | lastPass (hr : m.remaining = 1) : Acts compiled m .finish {m with remaining := m.remaining - 1} [.complete]
  | pass (hr : m.remaining ≠ 1) : Acts compiled m .finish {m with remaining := m.remaining - 1} []
  | complete : Acts compiled m .complete {m with completions := m.completions + 1} []

variable {compiled : CompiledGraph} {c c' : Config Execution Frame} {f : Frame} {x : ℕ}

theorem acts_of_code {m m' : Execution} {fs : List Frame} (h : code compiled m f x = some (m', fs)) :
    Acts compiled m f m' fs := by
  unfold code at h
  split at h
  case h_4 k =>
    split at h
    · rename_i passIdx hk
      simp only [Option.some.injEq, Prod.mk.injEq] at h
      obtain ⟨rfl, rfl⟩ := h
      obtain ⟨hlt, rfl⟩ := List.getElem?_eq_some_iff.mp hk
      exact .take _ _ (List.getElem_cons_eraseIdx_perm hlt).symm
    · cases h
  all_goals
    try split at h
    all_goals
      simp only [Option.some.injEq, Prod.mk.injEq] at h
      obtain ⟨rfl, rfl⟩ := h
      constructor <;> assumption

/-- The launching thread beside any number of workers. -/
def start (compiled : CompiledGraph) (workers : ℕ) : Config Execution Frame :=
  ⟨{deps := fun passIdx => depCount compiled passIdx, remaining := compiled.sortedPassIndices.length},
    [.launchRoots compiled.sortedPassIndices] :: List.replicate workers [.worker]⟩

/-- The launching loop finds a counter at zero only if the pass has no incoming sync edge. -/
def launchesRoots (compiled : CompiledGraph) : Guard Execution Frame
  | c, .launchRoots (idx :: _) => c.mem.deps idx = 0 → depCount compiled idx = 0
  | _, _ => True

instance (c : Config Execution Frame) (f : Frame) : Decidable (launchesRoots compiled c f) := by
  unfold launchesRoots
  split <;> infer_instance

def awaited (v : ℕ) : Frame → ℕ
  | .launch passIdx | .run passIdx => if passIdx = v then 1 else 0
  | _ => 0

/-- The visits of a pass that the launching loop has still to make. -/
def ahead (v : ℕ) : Frame → ℕ
  | .launchRoots indices => indices.count v
  | _ => 0

def running (v : ℕ) : Frame → ℕ
  | .callback passIdx => if passIdx = v then 1 else 0
  | _ => 0

def owed (v : ℕ) : Frame → ℕ
  | .decrement succs => succs.count v
  | _ => 0

def finishing : Frame → ℕ
  | .finish => 1
  | _ => 0

def completing : Frame → ℕ
  | .complete => 1
  | _ => 0

def launched (c : Config Execution Frame) (v : ℕ) : ℕ :=
  c.total (awaited v) + c.mem.queue.count v + c.mem.started.count v

/-- The sync edges into a pass from passes not yet finished. -/
def unmet (compiled : CompiledGraph) (m : Execution) (v : ℕ) : ℕ :=
  waits SyncEdge.srcPass SyncEdge.dstPass compiled.syncEdges m.finished v

structure Invariant (compiled : CompiledGraph) (c : Config Execution Frame) : Prop where
  ran : ∀ v, c.mem.started.count v = c.mem.finished.count v + c.total (running v)
  deps : ∀ v, c.mem.deps v = unmet compiled c.mem v + c.total (owed v)
  deps_le : ∀ v, c.mem.deps v ≤ depCount compiled v
  once : ∀ v, if depCount compiled v = 0 then launched c v + c.total (ahead v) = compiled.sortedPassIndices.count v
    else launched c v = if c.mem.deps v = 0 then 1 else 0
  remaining : c.mem.remaining + c.mem.finished.length = compiled.sortedPassIndices.length + c.total finishing
  completed : c.mem.completions + c.total completing = if c.mem.remaining = 0 then 1 else 0
  bottom : c.Bottom (· = .worker)

/-- What the executor relies on in a compiled graph. -/
structure Executable (compiled : CompiledGraph) : Prop where
  nodup : compiled.sortedPassIndices.Nodup
  nonempty : compiled.sortedPassIndices ≠ []
  closed : ∀ e ∈ compiled.syncEdges, e.srcPass ∈ compiled.sortedPassIndices ∧ e.dstPass ∈ compiled.sortedPassIndices
  climbs : ∀ e ∈ compiled.syncEdges, e.srcPass < e.dstPass

theorem executable_compile {g : ExecutionGraph} (hv : g.compile.valid = true) : Executable g.compile := by
  obtain ⟨hp, hs, _, _, _, _, he⟩ := ExecutionGraph.compile_of_valid hv
  rw [← hs] at hp
  refine ⟨hp.nodup_iff.mpr List.nodup_range, ?_, fun e hm => ?_, fun e hm => ?_⟩
  · simpa [CompiledGraph.valid] using hv
  · rw [he] at hm
    obtain ⟨raw, hr, rfl⟩ := List.mem_map.mp hm
    have hb := ExecutionGraph.rawEdge_bounds hr
    exact ⟨hp.mem_iff.mpr (List.mem_range.mpr hb.1), hp.mem_iff.mpr (List.mem_range.mpr hb.2)⟩
  · rw [he] at hm
    obtain ⟨raw, hr, rfl⟩ := List.mem_map.mp hm
    refine (ExecutionGraph.rawEdge_lt hr).resolve_right ?_
    rintro ⟨_, pass, hpass, hn⟩
    exact ExecutionGraph.not_mem_sorted hpass hn
      (hs ▸ hp.mem_iff.mpr (List.mem_range.mpr (ExecutionGraph.pass_index hpass).1))

theorem ran_step (h : Step (code compiled) c f x c') {v : ℕ}
    (hi : c.mem.started.count v = c.mem.finished.count v + c.total (running v)) :
    c'.mem.started.count v = c'.mem.finished.count v + c'.total (running v) := by
  obtain ⟨fs, r, ha, hr, hr'⟩ := h.measure acts_of_code (running v)
  rw [hr] at hi
  rw [hr']
  generalize c.mem = m, c'.mem = m' at ha hi ⊢
  clear h hr hr'
  cases ha with
  | run passIdx =>
    by_cases hv : passIdx = v
    · subst hv
      simp [running] at hi ⊢
      omega
    · simpa [running, hv] using hi
  | callback passIdx =>
    by_cases hv : passIdx = v
    · subst hv
      simp [running] at hi ⊢
      omega
    · simpa [running, hv] using hi
  | _ => simp_all [running]

theorem count_succs (compiled : CompiledGraph) (u v : ℕ) :
    (succs compiled u).count v = between SyncEdge.srcPass SyncEdge.dstPass compiled.syncEdges u v := by
  rw [succs, List.count_eq_countP, List.countP_map, List.countP_filter]
  exact List.countP_congr fun e _ => by simp

theorem unmet_finish (compiled : CompiledGraph) {m : Execution} {u : ℕ} (hu : u ∉ m.finished) (v : ℕ) :
    unmet compiled {m with finished := u :: m.finished} v + (succs compiled u).count v = unmet compiled m v := by
  rw [count_succs]
  exact waits_cons hu v

theorem deps_step (h : Step (code compiled) c f x c') {v : ℕ} (hf : ∀ u, f = .callback u → u ∉ c.mem.finished)
    (hi : c.mem.deps v = unmet compiled c.mem v + c.total (owed v)) :
    c'.mem.deps v = unmet compiled c'.mem v + c'.total (owed v) := by
  obtain ⟨fs, r, ha, hr, hr'⟩ := h.measure acts_of_code (owed v)
  rw [hr] at hi
  rw [hr']
  generalize c.mem = m, c'.mem = m' at ha hi hf ⊢
  clear h hr hr'
  cases ha with
  | callback passIdx =>
    have hu := unmet_finish compiled (hf passIdx rfl) v
    simp [owed] at hi ⊢
    omega
  | lastDep s rest hd =>
    by_cases hv : s = v
    · subst hv
      simp [owed, unmet] at hi ⊢
      omega
    · simp_all [owed, unmet, Ne.symm hv]
  | dep s rest hd =>
    by_cases hv : s = v
    · subst hv
      simp [owed, unmet] at hi ⊢
      omega
    · simp_all [owed, unmet, Ne.symm hv]
  | _ => simp_all [owed, unmet]

theorem deps_le_step (h : Step (code compiled) c f x c') {v : ℕ} (hi : c.mem.deps v ≤ depCount compiled v) :
    c'.mem.deps v ≤ depCount compiled v := by
  obtain ⟨fs, he⟩ := h.runs_code
  have ha := acts_of_code he
  generalize c.mem = m, c'.mem = m' at ha hi ⊢
  cases ha with
  | lastDep s rest hd => by_cases hv : v = s <;> simp_all
  | dep s rest hd =>
    by_cases hv : v = s
    · subst hv
      simp
      omega
    · simpa [hv] using hi
  | _ => exact hi

theorem Invariant.deps_root (hi : Invariant compiled c) {v : ℕ} (hv : depCount compiled v = 0) : c.mem.deps v = 0 := by
  have hle := hi.deps_le v
  have he := hi.deps v
  omega

theorem Invariant.deps_pos (hi : Invariant compiled c) {s : ℕ} {rest : List ℕ}
    (hf : .decrement (s :: rest) ∈ c.frames) : 0 < c.mem.deps s := by
  have hle := le_total (owed s) hf
  have he := hi.deps s
  simp [owed] at hle
  omega

/-- A pass is launched by the loop if it has no incoming edge, and else by the decrement that
brings its counter to zero. -/
theorem once_step (h : Step (code compiled) c f x c') (hg : launchesRoots compiled c f) (hi : Invariant compiled c) (v : ℕ) :
    if depCount compiled v = 0 then launched c' v + c'.total (ahead v) = compiled.sortedPassIndices.count v
    else launched c' v = if c'.mem.deps v = 0 then 1 else 0 := by
  have hroot := hi.deps_root (v := v)
  have hpos : ∀ s rest, f = .decrement (s :: rest) → 0 < c.mem.deps s := fun s rest hf => hi.deps_pos (hf ▸ h.mem_frame)
  have ho := hi.once v
  obtain ⟨fs, he, ht⟩ := h.total
  obtain ⟨r, hr, hr'⟩ := ht (awaited v)
  obtain ⟨r₂, hr₂, hr₂'⟩ := ht (ahead v)
  simp only [launched, hr, hr', hr₂, hr₂'] at ho ⊢
  have ha := acts_of_code he
  obtain ⟨m, threads⟩ := c
  generalize c'.mem = m' at ha ⊢
  clear h ht he hr hr' hr₂ hr₂' hi
  dsimp only at ha ho hroot hpos ⊢
  cases ha with
  | root idx rest hd =>
    have hz : depCount compiled idx = 0 := hg hd
    by_cases hv : idx = v
    · subst hv
      simp [awaited, ahead, hz] at ho ⊢
      omega
    · simpa [awaited, ahead, hv] using ho
  | notRoot idx rest hd =>
    by_cases hv : idx = v
    · subst hv
      have hz : depCount compiled idx ≠ 0 := fun hz => hd (hroot hz)
      simpa [awaited, ahead, hz] using ho
    · simpa [awaited, ahead, hv] using ho
  | take queue passIdx hp =>
    simp only [hp.count_eq, List.count_cons, beq_iff_eq] at ho
    simp [awaited, ahead] at ho ⊢
    split_ifs at ho ⊢ <;> omega
  | lastDep s rest hd =>
    by_cases hv : s = v
    · subst hv
      have hz : depCount compiled s ≠ 0 := fun hz => absurd (hroot hz) (by simp [hd])
      simp [awaited, hz, hd] at ho ⊢
      omega
    · simpa [awaited, ahead, hv, Ne.symm hv] using ho
  | dep s rest hd =>
    have hp := hpos s rest rfl
    by_cases hv : s = v
    · subst hv
      have hz : depCount compiled s ≠ 0 := fun hz => hp.ne' (hroot hz)
      have hn : m.deps s - 1 ≠ 0 := by omega
      simp [awaited, hz, hn, hp.ne'] at ho ⊢
      omega
    · simpa [awaited, ahead, hv, Ne.symm hv] using ho
  | _ =>
    simp [awaited, ahead, List.count_cons] at ho ⊢
    split_ifs at ho ⊢ <;> omega

theorem remaining_step {n : ℕ} (h : Step (code compiled) c f x c')
    (hi : c.mem.remaining + c.mem.finished.length = n + c.total finishing) :
    c'.mem.remaining + c'.mem.finished.length = n + c'.total finishing := by
  obtain ⟨fs, r, ha, hr, hr'⟩ := h.measure acts_of_code finishing
  rw [hr] at hi
  rw [hr']
  generalize c.mem = m, c'.mem = m' at ha hi ⊢
  clear h hr hr'
  cases ha <;> simp [finishing] at hi ⊢ <;> omega

theorem completed_step (h : Step (code compiled) c f x c') (hpos : f = .finish → 0 < c.mem.remaining)
    (hi : c.mem.completions + c.total completing = if c.mem.remaining = 0 then 1 else 0) :
    c'.mem.completions + c'.total completing = if c'.mem.remaining = 0 then 1 else 0 := by
  obtain ⟨fs, r, ha, hr, hr'⟩ := h.measure acts_of_code completing
  rw [hr] at hi
  rw [hr']
  generalize c.mem = m, c'.mem = m' at ha hi hpos ⊢
  clear h hr hr'
  cases ha with
  | lastPass hn =>
    simp [completing, hn] at hi ⊢
    omega
  | pass hn =>
    have hp := hpos rfl
    have hn' : m.remaining - 1 ≠ 0 := by omega
    simpa [completing, hn', hp.ne'] using hi
  | complete => simpa [completing, add_assoc, add_left_comm] using hi
  | _ => simpa [completing] using hi

theorem bottom_step (h : Step (code compiled) c f x c') (hi : c.Bottom (· = .worker)) : c'.Bottom (· = .worker) := by
  refine h.bottom hi fun fs he => ?_
  have ha := acts_of_code he
  generalize c.mem = m, c'.mem = m' at ha
  clear he h hi
  cases ha with
  | take queue passIdx hp => exact .inr ⟨rfl, by simp⟩
  | _ => exact .inl (by simp)

variable (hc : Executable compiled)

section
include hc

theorem Invariant.launched_le_one (hi : Invariant compiled c) (v : ℕ) : launched c v ≤ 1 := by
  have ho := hi.once v
  have hn := List.nodup_iff_count_le_one.mp hc.nodup v
  split_ifs at ho <;> omega

theorem Invariant.mem_sorted (hi : Invariant compiled c) {v : ℕ} (hv : 0 < launched c v) :
    v ∈ compiled.sortedPassIndices := by
  have ho := hi.once v
  split_ifs at ho with hz
  · exact List.count_pos_iff.mp (by omega)
  · obtain ⟨e, he, hd⟩ := List.countP_pos_iff.mp (Nat.pos_of_ne_zero hz)
    exact of_decide_eq_true hd ▸ (hc.closed e he).2
  · omega

theorem Invariant.started_nodup (hi : Invariant compiled c) : c.mem.started.Nodup := by
  refine List.nodup_iff_count_le_one.mpr fun v => ?_
  have hl := hi.launched_le_one hc v
  simp only [launched] at hl
  omega

theorem Invariant.finished_nodup (hi : Invariant compiled c) : c.mem.finished.Nodup := by
  refine List.nodup_iff_count_le_one.mpr fun v => ?_
  have hs := List.nodup_iff_count_le_one.mp (hi.started_nodup hc) v
  have hr := hi.ran v
  omega

theorem Invariant.started_sorted (hi : Invariant compiled c) {v : ℕ} (hv : v ∈ c.mem.started) :
    v ∈ compiled.sortedPassIndices := by
  refine hi.mem_sorted hc ?_
  have := List.count_pos_iff.mpr hv
  simp only [launched]
  omega

omit hc in
theorem Invariant.finished_started (hi : Invariant compiled c) {v : ℕ} (hv : v ∈ c.mem.finished) : v ∈ c.mem.started := by
  have hr := hi.ran v
  have := List.count_pos_iff.mpr hv
  exact List.count_pos_iff.mp (by omega)

theorem Invariant.remaining_pos (hi : Invariant compiled c) (hf : .finish ∈ c.frames) : 0 < c.mem.remaining := by
  have hle := le_total finishing hf
  have hr := hi.remaining
  have hs := ((hi.finished_nodup hc).subperm fun v hv => hi.started_sorted hc (hi.finished_started hv)).length_le
  simp only [finishing] at hle
  omega

theorem Invariant.not_finished (hi : Invariant compiled c) {u : ℕ} (hf : .callback u ∈ c.frames) : u ∉ c.mem.finished := by
  intro hu
  have hle := le_total (running u) hf
  have hr := hi.ran u
  have hs := List.nodup_iff_count_le_one.mp (hi.started_nodup hc) u
  have := List.count_pos_iff.mpr hu
  simp only [running, if_true] at hle
  omega

theorem invariant_start (workers : ℕ) : Invariant compiled (start compiled workers) := by
  have hz : ∀ g : Frame → ℕ, g .worker = 0 → (start compiled workers).total g =
      g (.launchRoots compiled.sortedPassIndices) := by
    intro g hg
    simp [start, Config.total, Config.frames, hg]
  refine ⟨fun v => ?_, fun v => ?_, fun v => ?_, fun v => ?_, ?_, ?_, ?_⟩
  · rw [hz _ rfl]
    rfl
  · rw [hz _ rfl]
    simp [start, unmet, depCount, inDegree, owed]
  · exact le_refl _
  · rw [launched, hz _ rfl, hz _ rfl]
    split_ifs with h0 hd
    · simp [start, awaited, ahead]
    · exact absurd (Int.natCast_eq_zero.mp hd) h0
    · simp [start, awaited]
  · rw [hz _ rfl]
    simp [start, finishing]
  · rw [hz _ rfl]
    simp [start, completing, hc.nonempty]
  · intro k hk f hf
    rcases List.mem_cons.mp hk with rfl | hk
    · simp at hf
    · obtain rfl := List.eq_of_mem_replicate hk
      simp at hf

theorem invariant_step (h : Step (code compiled) c f x c') (hg : launchesRoots compiled c f)
    (hi : Invariant compiled c) : Invariant compiled c' :=
  ⟨fun v => ran_step h (hi.ran v),
    fun v => deps_step h (fun _ hf => hi.not_finished hc (hf ▸ h.mem_frame)) (hi.deps v),
    fun v => deps_le_step h (hi.deps_le v), once_step h hg hi, remaining_step h hi.remaining,
    completed_step h (fun hf => hi.remaining_pos hc (hf ▸ h.mem_frame)) hi.completed, bottom_step h hi.bottom⟩

theorem invariant_reaches {workers : ℕ} (h : Reaches (code compiled) (launchesRoots compiled) (start compiled workers) c) :
    Invariant compiled c := by
  induction h with
  | refl => exact invariant_start hc workers
  | step _ hg hs ih => exact invariant_step hc hs hg ih

omit hc in
/-- A pass is launched only when the sources of its edges have finished. -/
theorem Invariant.sources_finished (hi : Invariant compiled c) {v : ℕ} (hv : v ∈ c.mem.started) :
    ∀ e ∈ compiled.syncEdges, e.dstPass = v → e.srcPass ∈ c.mem.finished := by
  intro e he hd
  have hs := List.count_pos_iff.mpr hv
  have hz : c.mem.deps v = 0 := by
    have ho := hi.once v
    split_ifs at ho with h0 hz
    · exact hi.deps_root h0
    · exact hz
    · simp only [launched] at ho
      omega
  have hu : unmet compiled c.mem v = 0 := by
    have := hi.deps v
    omega
  exact waits_eq_zero.mp hu e he hd

/-- The event completes only when `remaining` has counted every pass. -/
theorem Invariant.completed_finished (hi : Invariant compiled c) (hf : 0 < c.mem.completions) :
    c.mem.finished.Perm compiled.sortedPassIndices := by
  have hz : c.mem.remaining = 0 := by
    have hcp := hi.completed
    split_ifs at hcp with hz
    · exact hz
    · omega
  have hr := hi.remaining
  have hsub : c.mem.finished ⊆ compiled.sortedPassIndices := fun v hv => hi.started_sorted hc (hi.finished_started hv)
  exact ((hi.finished_nodup hc).subperm hsub).perm_of_length_le (by omega)

end

def isWorker : Frame → ℕ
  | .worker => 1
  | _ => 0

theorem workers_step (h : Step (code compiled) c f x c') : c'.total isWorker = c.total isWorker := by
  obtain ⟨fs, he, ht⟩ := h.total
  obtain ⟨r, hr, hr'⟩ := ht isWorker
  rw [hr, hr']
  have ha := acts_of_code he
  generalize c.mem = m, c'.mem = m' at ha
  cases ha <;> rfl

theorem workers_reaches {guard : Guard Execution Frame} {workers : ℕ}
    (h : Reaches (code compiled) guard (start compiled workers) c) : c.total isWorker = workers := by
  induction h with
  | refl => simp [start, Config.total, Config.frames, isWorker]
  | step _ _ hs ih => exact (workers_step hs).trans ih

/-- Only a worker that finds the queue empty is blocked. -/
theorem worker_of_blocked {m : Execution} (h : ∀ x, code compiled m f x = none) : f = .worker ∧ m.queue = [] := by
  have h0 := h 0
  cases f with
  | worker =>
    refine ⟨rfl, ?_⟩
    cases hq : m.queue with
    | nil => rfl
    | cons p queue => simp [code, hq] at h0
  | launchRoots indices =>
    cases indices <;> simp only [code, reduceCtorEq] at h0
    split_ifs at h0
  | decrement succs =>
    cases succs <;> simp only [code, reduceCtorEq] at h0
    split_ifs at h0
  | finish =>
    simp only [code] at h0
    split_ifs at h0
  | _ => simp [code] at h0

theorem idle_of_quiescent (hb : c.Bottom (· = .worker)) (hw : 0 < c.total isWorker) (hq : Quiescent (code compiled) c) :
    c.mem.queue = [] ∧ ∀ f ∈ c.frames, f = .worker := by
  obtain ⟨f, hf, _⟩ := total_pos.mp hw
  exact hq.idle hb (fun f h => worker_of_blocked h) hf

theorem total_of_workers (h : ∀ f ∈ c.frames, f = .worker) {g : Frame → ℕ} (hg : g .worker = 0) : c.total g = 0 := by
  refine List.sum_eq_zero fun n hn => ?_
  obtain ⟨f, hf, rfl⟩ := List.mem_map.mp hn
  rw [h f hf, hg]

include hc in
/-- Nothing is stuck: once no thread can act, every pass has run, by induction along the edges. -/
theorem Invariant.all_finished (hi : Invariant compiled c) (hqueue : c.mem.queue = [])
    (hidle : ∀ f ∈ c.frames, f = .worker) : c.mem.finished.Perm compiled.sortedPassIndices := by
  have hran : ∀ v, c.mem.started.count v = c.mem.finished.count v := fun v => by
    simpa [total_of_workers hidle (g := running v) rfl] using hi.ran v
  have hall : ∀ v, v ∈ compiled.sortedPassIndices → v ∈ c.mem.finished := by
    refine (acyclic_of_rank id hc.climbs).induction fun v ih hv => ?_
    have ho := hi.once v
    simp only [launched, hqueue, total_of_workers hidle (g := awaited v) rfl,
      total_of_workers hidle (g := ahead v) rfl, List.count_nil, Nat.zero_add, Nat.add_zero, hran] at ho
    have hs := List.count_pos_iff.mpr hv
    split_ifs at ho with h0 hz
    · exact List.count_pos_iff.mp (by omega)
    · exact List.count_pos_iff.mp (by omega)
    · refine absurd ?_ hz
      have hu : unmet compiled c.mem v = 0 := waits_eq_zero.mpr fun e he hd => ih e he hd (hc.closed e he).1
      rw [hi.deps v, hu, total_of_workers hidle (g := owed v) rfl]
      rfl
  have hsub : compiled.sortedPassIndices ⊆ c.mem.finished := fun v hv => hall v hv
  have hsub' : c.mem.finished ⊆ compiled.sortedPassIndices := fun v hv => hi.started_sorted hc (hi.finished_started hv)
  exact (List.perm_ext_iff_of_nodup (hi.finished_nodup hc) hc.nodup).mpr fun v => ⟨fun h => hsub' h, fun h => hsub h⟩

/-- The work left in one frame when each launch may cost as much as there are sync edges. -/
def weight (edges : ℕ) : Frame → ℕ
  | .launchRoots indices => indices.length * (edges + 10) + 1
  | .launch _ => edges + 9
  | .worker => 0
  | .run _ => edges + 7
  | .callback _ => edges + 6
  | .decrement succs => succs.length + 1
  | .finish => 2
  | .complete => 1

def work (compiled : CompiledGraph) (c : Config Execution Frame) : ℕ :=
  c.total (weight compiled.syncEdges.length) + c.mem.queue.length * (compiled.syncEdges.length + 8) +
    (compiled.syncEdges.countP fun e => 0 < c.mem.deps e.dstPass) * (compiled.syncEdges.length + 9)

theorem succs_length (compiled : CompiledGraph) (u : ℕ) : (succs compiled u).length ≤ compiled.syncEdges.length := by
  rw [succs, List.length_map]
  exact List.length_filter_le _ _

/-- A decrement lowers the number of edges into waiting passes if it brings a counter to zero. -/
theorem waiting_decrement (edges : List SyncEdge) (deps : ℕ → ℤ) (s : ℕ) :
    (edges.countP fun e => 0 < Function.update deps s (deps s - 1) e.dstPass) +
      (if deps s = 1 then edges.countP (·.dstPass = s) else 0) ≤ edges.countP fun e => 0 < deps e.dstPass := by
  induction edges with
  | nil => simp
  | cons e edges ih =>
    simp only [List.countP_cons, decide_eq_true_eq] at ih ⊢
    by_cases hd : e.dstPass = s
    · subst hd
      simp only [Function.update_self, if_true] at ih ⊢
      split_ifs at ih ⊢ <;> omega
    · simp only [Function.update_of_ne hd, hd, if_false] at ih ⊢
      split_ifs at ih ⊢ <;> omega

theorem work_step (h : Step (code compiled) c f x c') (hi : Invariant compiled c) : work compiled c' < work compiled c := by
  have hdep : ∀ s rest, f = .decrement (s :: rest) → 0 < compiled.syncEdges.countP (·.dstPass = s) := fun s rest hf => by
    have hp := hi.deps_pos (hf ▸ h.mem_frame)
    have hle := hi.deps_le s
    have hd : depCount compiled s = compiled.syncEdges.countP (·.dstPass = s) := rfl
    omega
  obtain ⟨fs, r, ha, hr, hr'⟩ := h.measure acts_of_code (weight compiled.syncEdges.length)
  rw [work, work, hr, hr']
  generalize c.mem = m, c'.mem = m' at ha ⊢
  clear h hr hr' hi
  cases ha with
  | take queue passIdx hp =>
    simp [weight, hp.length_eq, Nat.add_mul]
    omega
  | callback passIdx =>
    have hl := succs_length compiled passIdx
    simp [weight]
    omega
  | lastDep s rest hd =>
    have hw := waiting_decrement compiled.syncEdges m.deps s
    have hp := hdep s rest rfl
    rw [if_pos hd] at hw
    have hm := Nat.mul_le_mul_right (compiled.syncEdges.length + 9) ((Nat.add_le_add_left hp _).trans hw)
    simp [weight, Nat.add_mul] at hm ⊢
    omega
  | dep s rest hd =>
    have hw := waiting_decrement compiled.syncEdges m.deps s
    rw [if_neg hd] at hw
    have hm := Nat.mul_le_mul_right (compiled.syncEdges.length + 9) hw
    simp only [Nat.add_zero] at hm
    simp [weight]
    omega
  | _ =>
    simp [weight, Nat.add_mul]
    try omega

/-- For a validly compiled graph and any number of workers, in every run in which the loop launches
only passes without incoming edges: passes start at most once and after the sources of their edges,
the event completes at most once and after every pass, and the run ends with all of it done. -/
theorem execute_runs_each_pass_once {g : ExecutionGraph} (hv : g.compile.valid = true) {workers : ℕ}
    (h : Reaches (code g.compile) (launchesRoots g.compile) (start g.compile workers) c) :
    c.mem.started.Nodup ∧
    (∀ e ∈ g.compile.syncEdges, e.dstPass ∈ c.mem.started → e.srcPass ∈ c.mem.finished) ∧
    c.mem.completions ≤ 1 ∧
    (0 < c.mem.completions → c.mem.finished.Perm (List.range g.numPasses)) ∧
    (0 < workers → Quiescent (code g.compile) c → c.mem.started.Perm (List.range g.numPasses) ∧
      c.mem.finished.Perm (List.range g.numPasses) ∧ c.mem.completions = 1) ∧
    ¬ ∃ run : ℕ → Config Execution Frame, run 0 = start g.compile workers ∧ ∀ n, ∃ f x,
      launchesRoots g.compile (run n) f ∧ Step (code g.compile) (run n) f x (run (n+1)) := by
  have hc := executable_compile hv
  have hi := invariant_reaches hc h
  obtain ⟨hp, hs, _⟩ := ExecutionGraph.compile_of_valid hv
  rw [← hs] at hp
  have hcp := hi.completed
  refine ⟨hi.started_nodup hc, fun e he hd => hi.sources_finished hd e he rfl, ?_,
    fun hf => (hi.completed_finished hc hf).trans hp, fun hw hq => ?_,
    no_infinite_run fun hr _ hs => work_step hs (invariant_reaches hc hr)⟩
  · split_ifs at hcp <;> omega
  · obtain ⟨hqueue, hidle⟩ := idle_of_quiescent hi.bottom (by rw [workers_reaches h]; exact hw) hq
    have hf := hi.all_finished hc hqueue hidle
    have hst : c.mem.started.Perm c.mem.finished := List.perm_iff_count.mpr fun v => by
      simpa [total_of_workers hidle (g := running v) rfl] using hi.ran v
    refine ⟨(hst.trans hf).trans hp, hf.trans hp, ?_⟩
    have hr := hi.remaining
    have hl := hf.length_eq
    rw [total_of_workers hidle (g := finishing) rfl] at hr
    rw [if_pos (by omega), total_of_workers hidle (g := completing) rfl] at hcp
    omega

def writeThenRead : ExecutionGraph where
  passes := [{accesses := [⟨⟨1⟩, .write, 0⟩]}, {index := 1, accesses := [⟨⟨1⟩, .read, 0⟩]}]
  resources := [⟨1⟩]
  indexed := rfl

/-- The loop reads the counter of the second pass after the worker has brought it to zero and
before the pass has run: both launch it. -/
theorem second_pass_started_twice : ¬ ∀ c, Reaches (code writeThenRead.compile) free
    (start writeThenRead.compile 1) c → c.mem.started.Nodup := by
  intro h
  have he : (runs (code writeThenRead.compile) free (start writeThenRead.compile 1)
      ([0, 0, 1, 1, 1, 1, 0, 0, 0, 1, 1, 1, 1, 1, 1, 1, 1, 1, 1, 1].map (·, 0))).map (·.mem.started) = some [1, 1, 0] := rfl
  obtain ⟨c, hc, he⟩ := Option.map_eq_some_iff.mp he
  have hn := h c (reaches_of_runs hc)
  rw [he] at hn
  exact absurd hn (by decide)

/-- When the loop ends before the worker begins, both passes run once. -/
theorem execute_runs_each_pass_once_inOrder : ∃ c, Reaches (code writeThenRead.compile)
    (launchesRoots writeThenRead.compile) (start writeThenRead.compile 1) c ∧
    c.mem.started.Perm [0, 1] ∧ c.mem.completions = 1 := by
  have he : (runs (code writeThenRead.compile) (launchesRoots writeThenRead.compile) (start writeThenRead.compile 1)
      ([0, 0, 0, 0, 1, 1, 1, 1, 1, 1, 1, 1, 1, 1, 1, 1, 1].map (·, 0))).map (fun c => (c.threads, c.mem.queue)) =
      some ([[], [.worker]], []) := rfl
  obtain ⟨c, hc, he⟩ := Option.map_eq_some_iff.mp he
  simp only [Prod.mk.injEq] at he
  have hq : Quiescent (code writeThenRead.compile) c := by
    refine quiescent_of_blocked fun f k hk x => ?_
    rw [he.1] at hk
    obtain ⟨rfl, _⟩ : f = .worker ∧ k = [] := by simpa using hk
    simp [code, he.2]
  have hr := (execute_runs_each_pass_once (by decide) (reaches_of_runs hc)).2.2.2.2.1 (by decide) hq
  exact ⟨c, reaches_of_runs hc, hr.1, hr.2.2⟩

end Zpc.CpuGraphExecutor
