import Zpc.AsyncScheduler
import Zpc.DependencyCount
import Mathlib.Tactic.Linarith

/-!
# Graphs of task nodes

Nodes are linked by `to` and enter the queues through `schedule` or through the worker that
completes their last predecessor. As long as `schedule` hands in only nodes that never had
a predecessor, each node is handed in once, after its predecessors, and has one coroutine
handle in circulation.
-/
namespace Zpc.AsyncScheduler
open Interleaving DependencyCount

structure Links where
  succs : ℕ → List ℕ := fun _ => []
  preds : ℕ → List ℕ := fun _ => []
  numDeps : ℕ → ℤ := fun _ => 0

/-- `src.to(dst)`. -/
def Links.to (links : Links) (src dst : ℕ) : Links where
  succs := Function.update links.succs src (dst :: links.succs src)
  preds := Function.update links.preds dst (src :: links.preds dst)
  numDeps := Function.update links.numDeps dst (links.numDeps dst + 1)

/-- The nodes linked by a sequence of `to` calls. -/
def link (edges : List (ℕ × ℕ)) : Links := edges.foldl (fun links e => links.to e.1 e.2) {}

def Setting.on (S : Setting) (edges : List (ℕ × ℕ)) : Setting :=
  {S with succs := (link edges).succs, preds := (link edges).preds}

/-- Task nodes are handed in by `schedule` only. -/
def Call.direct : Call → Bool
  | .enqueue kind _ => kind.node?.isSome
  | _ => false

/-- `schedule` finds a dependency counter at zero only for a node without predecessors. -/
def schedulesRoots (edges : List (ℕ × ℕ)) : Guard Shared Frame
  | c, .loadDeps _ _ node => c.mem.numDeps node = 0 → (link edges).numDeps node = 0
  | _, _ => True

instance (edges : List (ℕ × ℕ)) (c : Config Shared Frame) (f : Frame) : Decidable (schedulesRoots edges c f) :=
  decidable_of_bool (match f with
    | .loadDeps _ _ node => c.mem.numDeps node = 0 → (link edges).numDeps node = 0
    | _ => true) (by unfold schedulesRoots; split <;> simp only [decide_eq_true_iff])

section Links
theorem links_foldl (edges : List (ℕ × ℕ)) (links : Links) (u v : ℕ) :
    ((edges.foldl (fun links e => links.to e.1 e.2) links).succs u).count v =
      (links.succs u).count v + between Prod.fst Prod.snd edges u v ∧
    (edges.foldl (fun links e => links.to e.1 e.2) links).numDeps v =
      links.numDeps v + inDegree Prod.snd edges v := by
  induction edges generalizing links with
  | nil => simp [between, inDegree]
  | cons e edges ih =>
    obtain ⟨src, dst⟩ := e
    rw [List.foldl_cons, (ih _).1, (ih _).2]
    simp only [between, inDegree, List.countP_cons]
    constructor
    · by_cases hu : u = src
      · subst hu
        simp [Links.to, List.count_cons]
        omega
      · simp [Links.to, hu, Ne.symm hu]
    · by_cases hv : v = dst
      · subst hv
        simp [Links.to]
        omega
      · simp [Links.to, hv, Ne.symm hv]

theorem link_numDeps (edges : List (ℕ × ℕ)) (v : ℕ) : (link edges).numDeps v = inDegree Prod.snd edges v := by
  simpa [link] using (links_foldl edges {} 0 v).2

theorem link_succs (edges : List (ℕ × ℕ)) (u v : ℕ) :
    ((link edges).succs u).count v = between Prod.fst Prod.snd edges u v := by
  simpa [link] using (links_foldl edges {} u v).1

end Links

def TaskKind.countNode (node : ℕ) (kind : TaskKind) : ℕ := kind.node?.toList.count node

/-- How often a frame holds a node outside the queues whose coroutine is not done. -/
def carrying (node : ℕ) : Frame → ℕ
  | .enqueue _ task _ | .tryLocal task _ | .displace task _ | .tryGlobal task | .process _ task | .body _ task =>
    task.kind.countNode node
  | .pushDisplaced displaced task _ => displaced.kind.countNode node + task.kind.countNode node
  | .markDone _ _ node' => if node' = node then 1 else 0
  | _ => 0

/-- A worker inside the coroutine of a node. -/
def resuming (node : ℕ) : Frame → ℕ
  | .body _ task => task.kind.countNode node
  | _ => 0

def owedTo (node : ℕ) : Frame → ℕ
  | .release _ _ succs => succs.count node
  | _ => 0

def loading (node : ℕ) : Frame → ℕ
  | .loadDeps _ _ node' => if node' = node then 1 else 0
  | _ => 0

/-- A call of `schedule` on the node about to look at its state. -/
def asking (node : ℕ) : Frame → ℕ
  | .call _ _ (.schedule node') | .schedule _ _ node' => if node' = node then 1 else 0
  | _ => 0

def looping : Frame → Bool
  | .workerLoop _ | .scanLocal _ | .scanGlobal _ | .steal _ | .trySteal _ _ | .announce _ | .await _ | .snapshot _
  | .futexWait _ _ | .asleep _ => true
  | _ => false

/-- No task is in a queue or in the hands of a worker, and no call is in progress. -/
def Idle (c : Config Shared Frame) : Prop :=
  c.mem.localQueues = [] ∧ c.mem.globalQueue = [] ∧ ∀ f ∈ c.frames, looping f = true

/-- Some thread calls `schedule` on the node. -/
def Asked (programs : List (List Call)) (node : ℕ) : Prop := ∃ p ∈ programs, .schedule node ∈ p

instance (programs : List (List Call)) (node : ℕ) : Decidable (Asked programs node) :=
  inferInstanceAs (Decidable (∃ p ∈ programs, .schedule node ∈ p))

def circulating (c : Config Shared Frame) (node : ℕ) : ℕ :=
  c.total (carrying node) + (c.mem.localQueues.map (·.2.kind.countNode node)).sum +
    (c.mem.globalQueue.map (·.kind.countNode node)).sum

/-- The links into a node from nodes not yet completed. -/
def pendingPreds (edges : List (ℕ × ℕ)) (m : Shared) (node : ℕ) : ℕ := waits Prod.fst Prod.snd edges m.completed node

/-- Whether `schedule` has claimed the node, as a number. -/
def claimed (m : Shared) (node : ℕ) : ℕ := if m.nodeState node = .idle then 0 else 1

structure Handed (edges : List (ℕ × ℕ)) (c : Config Shared Frame) : Prop where
  circulating : ∀ v, circulating c v + c.mem.completed.count v = c.mem.enqueued.count v
  deps : ∀ v, c.mem.numDeps v = pendingPreds edges c.mem v + c.total (owedTo v)
  deps_le : ∀ v, c.mem.numDeps v ≤ (link edges).numDeps v
  roots : ∀ v, (link edges).numDeps v = 0 → c.mem.enqueued.count v + c.total (loading v) = claimed c.mem v
  others : ∀ v, (link edges).numDeps v ≠ 0 → c.mem.enqueued.count v = if c.mem.numDeps v = 0 then 1 else 0
  calls : ∀ cur parent call, .call cur parent call ∈ c.frames → call.direct = false

variable {S : Setting} {edges : List (ℕ × ℕ)} {programs : List (List Call)} {c c' : Config Shared Frame} {f : Frame}
  {x : Choice}

@[simp] theorem countNode_taskNode (u v : ℕ) : (TaskKind.taskNode u).countNode v = if u = v then 1 else 0 := by
  by_cases h : u = v <;> simp [TaskKind.countNode, TaskKind.node?, h]

theorem countNode_other {kind : TaskKind} (h : ∀ node, kind ≠ .taskNode node) (v : ℕ) : kind.countNode v = 0 := by
  cases kind with
  | taskNode node => exact absurd rfl (h node)
  | _ => rfl

theorem circulating_step (h : Step (code S) c f x c') {v : ℕ}
    (hi : circulating c v + c.mem.completed.count v = c.mem.enqueued.count v) :
    circulating c' v + c'.mem.completed.count v = c'.mem.enqueued.count v := by
  obtain ⟨fs, he, ht⟩ := h.total
  obtain ⟨r, hr, hr'⟩ := ht (carrying v)
  rw [circulating, hr] at hi
  rw [circulating, hr']
  have ha := acts_of_code he
  generalize c.mem = m, c'.mem = m' at ha hi ⊢
  clear h ht he hr hr'
  have hperm : ∀ {e : ℕ × Task} {queues}, m.localQueues.Perm (e :: queues) →
      (m.localQueues.map (·.2.kind.countNode v)).sum =
        e.2.kind.countNode v + (queues.map (·.2.kind.countNode v)).sum := fun hq => (hq.map _).sum_eq
  cases ha with
  | hasDeps cur parent node hd =>
    rw [List.map_map, sum_calls (g := carrying v) (Frame.schedule cur parent) fun _ => rfl]
    exact hi
  | takeLocal worker task queues hq | takeStolen worker victim rest task queues hq
  | takeDisplaced task worker displaced queues hq =>
    rw [hperm hq] at hi
    simp [carrying] at hi ⊢
    omega
  | takeGlobal worker task queue hq =>
    rw [(hq.map _).sum_eq] at hi
    simp [carrying] at hi ⊢
    omega
  | callEnqueue cur parent kind workerId =>
    have hk : kind.node?.toList.count v = kind.countNode v := rfl
    simp [carrying, Shared.handIn, Shared.spawn, hk] at hi ⊢
    omega
  | noDeps cur parent node hd | releaseLast worker task node rest hd =>
    have hk : (TaskKind.taskNode node).node?.toList.count v = (TaskKind.taskNode node).countNode v := rfl
    simp [carrying, Shared.handIn, Shared.spawn, hk] at hi ⊢
    omega
  | finishNode worker task node hk | suspendNode worker task node hk =>
    simp [carrying, hk, Shared.spawn] at hi ⊢
    omega
  | finishOther worker task hk =>
    simp [carrying, countNode_other hk] at hi ⊢
    omega
  | markDone worker task node =>
    simp [carrying, Shared.setNode, List.count_cons] at hi ⊢
    omega
  | _ =>
    first
    | exact hi
    | simp [carrying] at hi ⊢
      omega

/-- Completing a node turns its links into decrements to come. -/
theorem deps_step (h : Step (code (S.on edges)) c f x c') {v : ℕ}
    (hf : ∀ worker task node, f = .markDone worker task node → node ∉ c.mem.completed)
    (hi : c.mem.numDeps v = pendingPreds edges c.mem v + c.total (owedTo v)) :
    c'.mem.numDeps v = pendingPreds edges c'.mem v + c'.total (owedTo v) := by
  obtain ⟨fs, r, ha, hr, hr'⟩ := h.measure acts_of_code (owedTo v)
  rw [hr] at hi
  rw [hr']
  generalize c.mem = m, c'.mem = m' at ha hi hf ⊢
  clear h hr hr'
  cases ha with
  | hasDeps cur parent node hd =>
    rw [List.map_map, sum_calls (g := owedTo v) (Frame.schedule cur parent) fun _ => rfl]
    exact hi
  | markDone worker task node =>
    have hw : waits Prod.fst Prod.snd edges (node :: m.completed) v + between Prod.fst Prod.snd edges node v =
        waits Prod.fst Prod.snd edges m.completed v := waits_cons (hf worker task node rfl) v
    have hs := link_succs edges node v
    simp [owedTo, pendingPreds, Setting.on, Shared.setNode] at hi ⊢
    omega
  | releaseLast worker task succ rest hd | releaseDep worker task succ rest hd =>
    by_cases hv : succ = v
    · subst hv
      simp [owedTo, pendingPreds, Shared.handIn, Shared.spawn] at hi ⊢
      omega
    · simpa [owedTo, pendingPreds, Shared.handIn, Shared.spawn, hv, Ne.symm hv] using hi
  | _ => exact hi

theorem deps_le_step (h : Step (code S) c f x c') {v : ℕ} (hi : c.mem.numDeps v ≤ (link edges).numDeps v) :
    c'.mem.numDeps v ≤ (link edges).numDeps v := by
  obtain ⟨fs, he⟩ := h.runs_code
  have ha := acts_of_code he
  generalize c.mem = m, c'.mem = m' at ha hi ⊢
  cases ha with
  | releaseLast worker task succ rest hd | releaseDep worker task succ rest hd =>
    by_cases hv : v = succ
    · subst hv
      simp [Shared.handIn, Shared.spawn]
      omega
    · simpa [Shared.handIn, Shared.spawn, hv] using hi
  | _ => exact hi

theorem Handed.deps_root (hi : Handed edges c) {v : ℕ} (hv : (link edges).numDeps v = 0) : c.mem.numDeps v = 0 := by
  have hle := hi.deps_le v
  have he := hi.deps v
  omega

theorem Handed.deps_pos (hi : Handed edges c) {worker : ℕ} {task : Task} {succ : ℕ} {rest : List ℕ}
    (hf : .release worker task (succ :: rest) ∈ c.frames) : 0 < c.mem.numDeps succ := by
  have hle := le_total (owedTo succ) hf
  have he := hi.deps succ
  simp [owedTo] at hle
  omega

theorem claimed_le_one (m : Shared) (v : ℕ) : claimed m v ≤ 1 := by
  unfold claimed
  split_ifs <;> omega

theorem claimed_setNode {m : Shared} {node : ℕ} {state : NodeState} (hs : state ≠ .idle) (v : ℕ) :
    claimed (m.setNode node state) v = if node = v then 1 else claimed m v := by
  by_cases hv : v = node
  · simp [claimed, Shared.setNode, hv, hs]
  · simp [claimed, Shared.setNode, hv, Ne.symm hv]

theorem Handed.enqueued_le_one (hi : Handed edges c) (v : ℕ) : c.mem.enqueued.count v ≤ 1 := by
  by_cases hv : (link edges).numDeps v = 0
  · have hr := hi.roots v hv
    have hc := claimed_le_one c.mem v
    omega
  · have ho := hi.others v hv
    split_ifs at ho <;> omega

theorem Handed.of_carrying (hi : Handed edges c) {v : ℕ} (hf : f ∈ c.frames) (hp : 0 < carrying v f) :
    c.mem.enqueued.count v = 1 ∧ v ∉ c.mem.completed := by
  have hle := le_total (carrying v) hf
  have hc := hi.circulating v
  have ho := hi.enqueued_le_one v
  simp only [AsyncScheduler.circulating] at hc
  exact ⟨by omega, fun hm => by have := List.count_pos_iff.mpr hm; omega⟩

/-- A node without predecessors is handed in by the `schedule` call that claims it. -/
theorem roots_step (h : Step (code S) c f x c') (hi : Handed edges c) {v : ℕ} (hv : (link edges).numDeps v = 0) :
    c'.mem.enqueued.count v + c'.total (loading v) = claimed c'.mem v := by
  have hroot := hi.deps_root hv
  have hcarry : 0 < carrying v f → claimed c.mem v = 1 := fun hp => by
    have hc := (hi.of_carrying h.mem_frame hp).1
    have hr := hi.roots v hv
    have hle := claimed_le_one c.mem v
    omega
  have hcall : ∀ cur parent kind workerId, f = .call cur parent (.enqueue kind workerId) → kind.node? = none := by
    rintro cur parent kind workerId rfl
    simpa [Call.direct] using hi.calls cur parent _ h.mem_frame
  have ho := hi.roots v hv
  obtain ⟨fs, r, ha, hr, hr'⟩ := h.measure acts_of_code (loading v)
  rw [hr] at ho
  rw [hr']
  generalize c.mem = m, c'.mem = m' at ha ho hroot hcarry ⊢
  clear h hr hr' hi
  cases ha with
  | hasDeps cur parent node hd =>
    have hne : node ≠ v := fun hn => hd (hn ▸ hroot)
    rw [List.map_map, sum_calls (g := loading v) (Frame.schedule cur parent) fun _ => rfl]
    simpa [loading, hne] using ho
  | callEnqueue cur parent kind workerId =>
    change _ = claimed m v
    simpa [loading, Shared.handIn, Shared.spawn, hcall cur parent kind workerId rfl] using ho
  | scheduleIdle cur parent node hs =>
    rw [claimed_setNode (by decide)]
    by_cases hn : node = v
    · subst hn
      simp [loading, Shared.setNode, claimed, hs] at ho ⊢
      omega
    · simpa [loading, Shared.setNode, hn] using ho
  | noDeps cur parent node hd =>
    change _ = claimed m v
    by_cases hn : node = v
    · simp [loading, Shared.handIn, Shared.spawn, TaskKind.node?, hn] at ho ⊢
      omega
    · simpa [loading, Shared.handIn, Shared.spawn, TaskKind.node?, hn] using ho
  | processNode worker task node hk =>
    rw [claimed_setNode (by decide)]
    by_cases hn : node = v
    · have hc := hcarry (by simp [carrying, hk, hn])
      simpa [loading, Shared.setNode, hn, hc] using ho
    · simpa [loading, Shared.setNode, hn] using ho
  | markDone worker task node =>
    change _ = claimed (m.setNode node .done) v
    rw [claimed_setNode (by decide)]
    by_cases hn : node = v
    · have hc := hcarry (by simp [carrying, hn])
      simpa [loading, Shared.setNode, hn, hc] using ho
    · simpa [loading, Shared.setNode, hn] using ho
  | releaseLast worker task succ rest hd =>
    have hne : succ ≠ v := fun hn => absurd (hn ▸ hroot) (by simp [hd])
    change _ = claimed m v
    simpa [loading, Shared.handIn, Shared.spawn, TaskKind.node?, hne] using ho
  | _ => exact ho

/-- A node with predecessors is handed in by the decrement that brings its counter to zero. -/
theorem others_step (h : Step (code S) c f x c') (hg : schedulesRoots edges c f) (hi : Handed edges c) {v : ℕ}
    (hv : (link edges).numDeps v ≠ 0) : c'.mem.enqueued.count v = if c'.mem.numDeps v = 0 then 1 else 0 := by
  have hpos : ∀ worker task succ rest, f = .release worker task (succ :: rest) → 0 < c.mem.numDeps succ :=
    fun worker task succ rest hf => hi.deps_pos (hf ▸ h.mem_frame)
  have hcall : ∀ cur parent kind workerId, f = .call cur parent (.enqueue kind workerId) → kind.node? = none := by
    rintro cur parent kind workerId rfl
    simpa [Call.direct] using hi.calls cur parent _ h.mem_frame
  have ho := hi.others v hv
  obtain ⟨fs, he⟩ := h.runs_code
  have ha := acts_of_code he
  obtain ⟨m, threads⟩ := c
  generalize c'.mem = m' at ha ⊢
  clear h he hi
  dsimp only at ha ho hpos
  cases ha with
  | callEnqueue cur parent kind workerId =>
    change _ = if m.numDeps v = 0 then 1 else 0
    simpa [Shared.handIn, Shared.spawn, hcall cur parent kind workerId rfl] using ho
  | noDeps cur parent node hd =>
    have hne : node ≠ v := fun hn => hv (hn ▸ hg hd)
    change _ = if m.numDeps v = 0 then 1 else 0
    simpa [Shared.handIn, Shared.spawn, TaskKind.node?, hne] using ho
  | releaseLast worker task succ rest hd =>
    by_cases hn : succ = v
    · subst hn
      simp [Shared.handIn, Shared.spawn, TaskKind.node?, hd] at ho ⊢
      exact ho
    · simpa [Shared.handIn, Shared.spawn, TaskKind.node?, hn, Ne.symm hn] using ho
  | releaseDep worker task succ rest hd =>
    have hp := hpos worker task succ rest rfl
    by_cases hn : succ = v
    · subst hn
      have hz : m.numDeps succ - 1 ≠ 0 := by omega
      simpa [hz, hp.ne'] using ho
    · simpa [hn, Ne.symm hn] using ho
  | _ => exact ho

theorem calls_step (h : Step (code S) c f x c') (ha : ∀ call, S.allowed call = true → call.direct = false)
    (hi : ∀ cur parent call, .call cur parent call ∈ c.frames → call.direct = false) :
    ∀ cur parent call, .call cur parent call ∈ c'.frames → call.direct = false := by
  have hq : ∀ g ∈ c'.frames, ∀ cur parent call, g = .call cur parent call → call.direct = false := by
    refine h.all (Q := fun g => ∀ cur parent call, g = .call cur parent call → call.direct = false)
      (fun g hg cur parent call hc => hi cur parent call (hc ▸ hg)) (fun fs he g hg cur parent call hc => ?_) fun g _ hg => hg
    subst hc
    have hact := acts_of_code he
    generalize c'.mem = m' at hact
    cases hact with
    | bodyCall worker task call' hal =>
      obtain ⟨rfl, rfl, rfl⟩ : cur = some worker ∧ parent = some task.id ∧ call = call' := by simpa using hg
      exact ha call hal
    | hasDeps => simp at hg
    | _ => simp at hg
  exact fun cur parent call hg => hq _ hg cur parent call rfl

theorem asking_step (h : Step (code S) c f x c') {v : ℕ} (hi : 0 < claimed c.mem v + c.total (asking v)) :
    0 < claimed c'.mem v + c'.total (asking v) := by
  obtain ⟨fs, r, ha, hr, hr'⟩ := h.measure acts_of_code (asking v)
  rw [hr] at hi
  rw [hr']
  generalize c.mem = m, c'.mem = m' at ha hi ⊢
  clear h hr hr'
  cases ha with
  | callSchedule cur parent node => simpa [asking] using hi
  | bodyCall worker task call ha =>
    simp [asking] at hi ⊢
    omega
  | hasDeps cur parent node hd =>
    simp [asking] at hi ⊢
    omega
  | scheduleIdle cur parent node hs =>
    rw [claimed_setNode (by decide)]
    by_cases hn : node = v
    · simp [hn]
    · simpa [asking, hn] using hi
  | scheduleAgain cur parent node hs =>
    by_cases hn : node = v
    · subst hn
      simp [claimed, hs]
    · simpa [asking, hn] using hi
  | processNode worker task node hk =>
    rw [claimed_setNode (by decide)]
    split_ifs
    · omega
    · simpa [asking] using hi
  | markDone worker task node =>
    change 0 < claimed (m.setNode node .done) v + _
    rw [claimed_setNode (by decide)]
    split_ifs
    · omega
    · simpa [asking] using hi
  | _ => exact hi

theorem asking_start {numDeps : ℕ → ℤ} {v : ℕ} (hv : Asked programs v) :
    0 < (start S numDeps programs).total (asking v) := by
  obtain ⟨p, hp, hv⟩ := hv
  refine total_pos.mpr ⟨.call none none (.schedule v), ?_, by simp [asking]⟩
  exact List.mem_flatten.mpr ⟨p.map (.call none none), List.mem_append_right _ (List.mem_map_of_mem hp),
    List.mem_map_of_mem hv⟩

theorem asking_reaches {guard : Guard Shared Frame} {numDeps : ℕ → ℤ} {v : ℕ} (hv : Asked programs v)
    (h : Reaches (code S) guard (start S numDeps programs) c) : 0 < claimed c.mem v + c.total (asking v) := by
  induction h with
  | refl => exact Nat.lt_add_left _ (asking_start hv)
  | step _ _ hs ih => exact asking_step hs ih

theorem handed_start (hp : ∀ p ∈ programs, ∀ call ∈ p, call.direct = false) :
    Handed edges (start S (link edges).numDeps programs) := by
  refine ⟨fun v => ?_, fun v => ?_, fun v => le_refl _, fun v hv => ?_, fun v hv => ?_, fun cur parent call hf => ?_⟩
  · rw [circulating, total_start (fun _ => rfl) fun _ => rfl]
    rfl
  · rw [total_start (fun _ => rfl) fun _ => rfl, pendingPreds]
    simp [start, link_numDeps]
  · rw [total_start (fun _ => rfl) fun _ => rfl]
    rfl
  · simp [start, hv]
  · rcases frame_start hf with ⟨worker, _, h⟩ | ⟨p, hm, call, hc, h⟩
    · cases h
    · cases h
      exact hp p hm call hc

theorem handed_step (ha : ∀ call, S.allowed call = true → call.direct = false) (h : Step (code (S.on edges)) c f x c')
    (hg : schedulesRoots edges c f) (hi : Handed edges c) : Handed edges c' where
  circulating v := circulating_step h (hi.circulating v)
  deps v := by
    refine deps_step h (fun worker task node hf => ?_) (hi.deps v)
    exact (hi.of_carrying (hf ▸ h.mem_frame) (by simp [carrying])).2
  deps_le v := deps_le_step h (hi.deps_le v)
  roots _ hv := roots_step h hi hv
  others _ hv := others_step h hg hi hv
  calls := calls_step h ha hi.calls

theorem handed_reaches (ha : ∀ call, S.allowed call = true → call.direct = false)
    (hp : ∀ p ∈ programs, ∀ call ∈ p, call.direct = false)
    (h : Reaches (code (S.on edges)) (schedulesRoots edges) (start (S.on edges) (link edges).numDeps programs) c) :
    Handed edges c := by
  induction h with
  | refl => exact handed_start hp
  | step _ hg hs ih => exact handed_step ha hs hg ih

theorem Handed.preds_completed (hi : Handed edges c) {v : ℕ} (hv : v ∈ c.mem.enqueued) :
    ∀ e ∈ edges, e.2 = v → e.1 ∈ c.mem.completed := by
  have hz : c.mem.numDeps v = 0 := by
    by_cases h0 : (link edges).numDeps v = 0
    · exact hi.deps_root h0
    · have ho := hi.others v h0
      have := List.count_pos_iff.mpr hv
      split_ifs at ho with hz
      · exact hz
      · omega
  have hd := hi.deps v
  exact waits_eq_zero.mp (show pendingPreds edges c.mem v = 0 by omega)

theorem Handed.resuming_le_one (hi : Handed edges c) (v : ℕ) : c.total (resuming v) ≤ 1 := by
  have hc := hi.circulating v
  have ho := hi.enqueued_le_one v
  have hle : c.total (resuming v) ≤ c.total (carrying v) := total_mono c fun f => by cases f <;> simp [resuming, carrying]
  simp only [AsyncScheduler.circulating] at hc
  omega

theorem total_of_looping (h : ∀ f ∈ c.frames, looping f = true) {g : Frame → ℕ} (hg : ∀ f, looping f = true → g f = 0) :
    c.total g = 0 := by
  refine List.sum_eq_zero fun n hn => ?_
  obtain ⟨f, hf, rfl⟩ := List.mem_map.mp hn
  exact hg f (h f hf)

/-- Without cycles no node is left waiting: in an idle state all of them are completed. -/
theorem Handed.all_completed (hi : Handed edges c) (hacyc : Acyclic Prod.fst Prod.snd edges) (hidle : Idle c)
    {nodes : ℕ → Prop} (hclosed : ∀ e ∈ edges, nodes e.1) (hclaim : ∀ v, nodes v → 0 < claimed c.mem v) :
    ∀ v, nodes v → c.mem.enqueued.count v = 1 ∧ v ∈ c.mem.completed := by
  obtain ⟨hl, hgl, hf⟩ := hidle
  have hcirc : ∀ v, c.mem.completed.count v = c.mem.enqueued.count v := fun v => by
    have hc := hi.circulating v
    rw [AsyncScheduler.circulating, hl, hgl,
      total_of_looping hf fun f h => by cases f <;> first | rfl | cases h] at hc
    simpa using hc
  refine hacyc.induction fun v ih hv => ?_
  have hone : c.mem.enqueued.count v = 1 := by
    by_cases h0 : (link edges).numDeps v = 0
    · have hr := hi.roots v h0
      rw [total_of_looping hf fun f h => by cases f <;> first | rfl | cases h] at hr
      have hc := hclaim v hv
      have hle := claimed_le_one c.mem v
      omega
    · have hw : pendingPreds edges c.mem v = 0 := waits_eq_zero.mpr fun e he hd => (ih e he hd (hclosed e he)).2
      have hd := hi.deps v
      rw [hw, total_of_looping hf fun f h => by cases f <;> first | rfl | cases h] at hd
      rw [hi.others v h0, if_pos (by simpa using hd)]
  exact ⟨hone, List.count_pos_iff.mp (by rw [hcirc, hone]; exact Nat.one_pos)⟩

/-- In every run in which `schedule` hands in only nodes without predecessors: a node is handed in at
most once, after its predecessors have completed, and at most one worker is inside its coroutine; and
when every node of a graph without cycles is scheduled, all have been handed in once and completed
as soon as nothing is left to do. -/
theorem nodes_handed_in_once (ha : ∀ call, S.allowed call = true → call.direct = false)
    (hp : ∀ p ∈ programs, ∀ call ∈ p, call.direct = false)
    (h : Reaches (code (S.on edges)) (schedulesRoots edges) (start (S.on edges) (link edges).numDeps programs) c) :
    (∀ v, c.mem.enqueued.count v ≤ 1) ∧
    (∀ e ∈ edges, e.2 ∈ c.mem.enqueued → e.1 ∈ c.mem.completed) ∧
    (∀ v, c.total (resuming v) ≤ 1) ∧
    (Acyclic Prod.fst Prod.snd edges → (∀ e ∈ edges, Asked programs e.1) → Idle c →
      ∀ v, Asked programs v → c.mem.enqueued.count v = 1 ∧ v ∈ c.mem.completed) := by
  have hi := handed_reaches ha hp h
  refine ⟨hi.enqueued_le_one, fun e he hv => hi.preds_completed hv e he rfl, hi.resuming_le_one,
    fun hacyc hclosed hidle => hi.all_completed hacyc hidle hclosed fun v hv => ?_⟩
  have hasked := asking_reaches hv h
  rwa [total_of_looping hidle.2.2 fun f h => by cases f <;> first | rfl | cases h] at hasked

/-- The worker completes the first node and hands in the second before the thread reads the second's
counter, which is then zero. -/
theorem second_node_handed_in_twice : ¬ ∀ c, Reaches (code (oneWorker.on [(0, 1)])) free
    (start (oneWorker.on [(0, 1)]) (link [(0, 1)]).numDeps [[.schedule 0, .schedule 1]]) c →
    ∀ v, c.mem.enqueued.count v ≤ 1 := by
  intro h
  have he : (runs (code (oneWorker.on [(0, 1)])) free
      (start (oneWorker.on [(0, 1)]) (link [(0, 1)]).numDeps [[.schedule 0, .schedule 1]])
      (.flatten [.replicate 11 (1, .pick 0),
        [(0, .full), (0, .full), (0, .pick 0), (0, .full), (0, .finish true), (0, .full), (0, .full)],
        .replicate 3 (1, .pick 0)])).map (·.mem.enqueued) = some [1, 1, 0] := rfl
  obtain ⟨c, hc, he⟩ := Option.map_eq_some_iff.mp he
  have hn := h c (reaches_of_runs hc) 1
  rw [he] at hn
  exact absurd hn (by decide)

/-- One worker whose tasks leave task nodes to `schedule`. -/
def schedulingOnly : Setting := {oneWorker with allowed := fun call => !call.direct}

/-- When both nodes are scheduled before the worker begins, each is handed in once. -/
theorem nodes_handed_in_once_inOrder : ∃ c, Reaches (code (schedulingOnly.on [(0, 1)])) (schedulesRoots [(0, 1)])
    (start (schedulingOnly.on [(0, 1)]) (link [(0, 1)]).numDeps [[.schedule 1, .schedule 0]]) c ∧
    c.mem.enqueued.count 0 = 1 ∧ c.mem.enqueued.count 1 = 1 := by
  have he : (runs (code (schedulingOnly.on [(0, 1)])) (schedulesRoots [(0, 1)])
      (start (schedulingOnly.on [(0, 1)]) (link [(0, 1)]).numDeps [[.schedule 1, .schedule 0]])
      (.flatten [.replicate 15 (1, .pick 0),
        [(0, .full), (0, .full), (0, .pick 0), (0, .full), (0, .finish true), (0, .full), (0, .full)],
        .replicate 10 (0, .pick 0),
        [(0, .full), (0, .full), (0, .pick 0), (0, .full), (0, .finish true), (0, .full), (0, .full), (0, .full)]])).map
        (fun c => (c.mem.localQueues, c.mem.globalQueue, c.threads)) = some ([], [], [[.workerLoop 0], []]) := rfl
  obtain ⟨c, hc, he⟩ := Option.map_eq_some_iff.mp he
  simp only [Prod.mk.injEq] at he
  have hf : c.frames = [.workerLoop 0] := by simp [Config.frames, he.2.2]
  have hall := (nodes_handed_in_once (S := schedulingOnly) (by simp [schedulingOnly]) (by decide) (reaches_of_runs hc)).2.2.2
    (acyclic_of_rank id (by decide)) (by decide) ⟨he.1, he.2.1, by simp [hf, looping]⟩
  exact ⟨c, reaches_of_runs hc, (hall 0 (by decide)).1, (hall 1 (by decide)).1⟩

end Zpc.AsyncScheduler
